import Drpc.Example.Echo

/-! # The incremental parser against a parser of the whole stream

`RpcServer.reference` reads a byte string once, from its start: a frame is a
length and a header that parses and carries the magic number and the version, a
length, a registered service and method, and a request that parses. It stops for
good at the first violation. `recv_eq_reference` is the refinement: over every
way the bytes can arrive, with or without an end of file behind them, the
coroutine dispatches what the reference finds, and answers it in order.
-/

namespace Drpc.Server

open Proto Net Settling

variable {Method Message : Type} (server : RpcServer Method Message)

/-! ## The reference parser -/

/-- A header the server accepts at the front of `bytes`, and what follows it. -/
def RpcServer.referenceHeader (bytes : Bytes) : Option (Header × Bytes) :=
  let headerLen := LittleEndian.decode bytes
  let rest := bytes.drop 4
  if bytes.length < 4 ∨ rest.length < headerLen then none
  else
    match server.protobuf.parseHeader (rest.take headerLen) with
    | none => none
    | some header =>
        if header.magic = magicNum ∧ header.version = version then
          some (header, rest.drop headerLen)
        else none

/-- A request at the front of `bytes` for the header that came before it. -/
def RpcServer.referenceRequest (header : Header) (bytes : Bytes) :
    Option (Dispatch Method Message × Bytes) :=
  let requestLen := LittleEndian.decode bytes
  let rest := bytes.drop 4
  if bytes.length < 4 ∨ rest.length < requestLen then none
  else
    match server.serviceRegistry header.service with
    | none => none
    | some service =>
        match service.findMethodByName header.method with
        | none => none
        | some method =>
            match server.protobuf.parseRequest method (rest.take requestLen) with
            | none => none
            | some request =>
                some (⟨method, rest.take requestLen, header.requestId,
                  service.callMethod method request⟩, rest.drop requestLen)

/-- The first frame of `bytes`, and what follows it. -/
def RpcServer.referenceFrame (bytes : Bytes) : Option (Dispatch Method Message × Bytes) :=
  (server.referenceHeader bytes).bind fun (header, rest) => server.referenceRequest header rest

/-- At most `fuel` frames. -/
def RpcServer.referenceFrames : Nat → Bytes → List (Dispatch Method Message)
  | 0, _ => []
  | fuel + 1, bytes =>
      match server.referenceFrame bytes with
      | none => []
      | some (dispatch, rest) => dispatch :: RpcServer.referenceFrames fuel rest

/-- **The reference parser**: the frames of a byte string up to the first
violation. Every frame takes bytes, so their number bounds that of the frames. -/
def RpcServer.reference (bytes : Bytes) : List (Dispatch Method Message) :=
  server.referenceFrames bytes.length bytes

private theorem length_referenceHeader {bytes rest : Bytes} {header : Header}
    (found : server.referenceHeader bytes = some (header, rest)) :
    rest.length < bytes.length := by
  unfold RpcServer.referenceHeader at found
  dsimp only at found
  split at found
  · cases found
  · rename_i long
    split at found
    · cases found
    · split at found
      · cases found
        simp only [List.length_drop]
        omega
      · cases found

private theorem length_referenceRequest {bytes rest : Bytes} {header : Header}
    {dispatch : Dispatch Method Message}
    (found : server.referenceRequest header bytes = some (dispatch, rest)) :
    rest.length < bytes.length := by
  unfold RpcServer.referenceRequest at found
  dsimp only at found
  split at found
  · cases found
  · rename_i long
    split at found
    · cases found
    · split at found
      · cases found
      · split at found
        · cases found
        · cases found
          simp only [List.length_drop]
          omega

/-! ## Settling follows the reference -/

/-- What the coroutine has done so far: its calls and its output. -/
def Receiver.log (s : Receiver Method Message) : List (Dispatch Method Message) × Bytes :=
  (s.dispatched, s.output)

/-- The coroutine, run until it waits or ends. -/
def RpcServer.settled (s : Receiver Method Message) : Receiver Method Message :=
  settle server.advance Receiver.rank s

theorem settled_of_enough {s : Receiver Method Message} (running : ¬ s.Ended)
    (enough : s.phase.needs ≤ s.queue.size) :
    server.settled s = server.settled (server.proceed s) :=
  settle_of_some (ranked_advance server) (advance_of_enough server running enough)

theorem advance_of_ended {s : Receiver Method Message} (ended : s.Ended) :
    server.advance s = none := by
  cases phase : s.phase with
  | stopped reason => simp only [RpcServer.advance, phase]
  | _ => simp [Receiver.Ended, phase] at ended

theorem settled_of_ended {s : Receiver Method Message} (ended : s.Ended) :
    server.settled s = s :=
  settle_of_none (advance_of_ended server ended)

/-- With bytes missing the coroutine waits or gives up, and does nothing else. -/
theorem log_settled_of_short {s : Receiver Method Message}
    (short : s.queue.size < s.phase.needs) : (server.settled s).log = s.log := by
  cases taken : server.advance s with
  | none => rw [RpcServer.settled, settle_of_none taken]
  | some t =>
      obtain ⟨-, ⟨enough, -⟩ | ⟨-, -, rfl⟩⟩ := advance_cases server taken
      · omega
      · have stopped : server.settled s = s.stop .closed :=
          (settle_of_some (ranked_advance server) taken).trans
            (settled_of_ended server (s := s.stop .closed) trivial)
        rw [stopped]
        rfl

/-- On a closed connection every wait but that for the request gives up. -/
theorem ended_settled_of_short {s : Receiver Method Message} (closed : s.closed = true)
    (short : s.queue.size < s.phase.needs)
    (unaccepted : ∀ header service method length,
      s.phase ≠ .request header service method length) :
    (server.settled s).Ended := by
  have gives_up : server.advance s = some (s.stop .closed) := by
    unfold RpcServer.advance
    cases phase : s.phase with
    | request header service method length =>
        exact absurd phase (unaccepted header service method length)
    | stopped reason => simp [phase, Phase.needs] at short
    | _ =>
        simp only [phase, Phase.needs] at short
        simp only [closed, short, Bool.true_eq_false, and_false, ↓reduceIte, and_self]
  have stopped : server.settled s = s.stop .closed :=
    (settle_of_some (ranked_advance server) gives_up).trans
      (settled_of_ended server (s := s.stop .closed) trivial)
  rw [stopped]
  trivial

/-- From the top of the loop: what the reference does with the header. -/
private theorem settled_headerLen (s : Receiver Method Message) (phase : s.phase = .headerLen)
    (unlimited : s.queue.limit = none) :
    match server.referenceHeader s.queue.content with
    | none => (server.settled s).log = s.log ∧ (s.closed = true → (server.settled s).Ended)
    | some (header, rest) => ∃ consumed,
        server.settled s = server.settled
          { s with queue := ⟨rest, consumed, none⟩, phase := .requestLen header } := by
  obtain ⟨⟨content, consumed, limit⟩, closed, phase', dispatched, output⟩ := s
  simp only at phase unlimited
  subst phase unlimited
  by_cases short : content.length < 4
  · have none_ : server.referenceHeader content = none := by
      simp [RpcServer.referenceHeader, short]
    rw [none_]
    exact ⟨log_settled_of_short server short,
      fun closed => ended_settled_of_short server closed short (by simp)⟩
  have word : (4 : Nat) ≤ (⟨content, consumed, none⟩ : LimitedQueue UInt8).size :=
    Nat.le_of_not_lt short
  rw [settled_of_enough server (s := ⟨_, _, .headerLen, _, _⟩) (by simp [Receiver.Ended]) word]
  simp only [RpcServer.proceed, readHeaderLen, readWord_eq word]
  by_cases missing : (content.drop 4).length < LittleEndian.decode content
  · have none_ : server.referenceHeader content = none := by
      simp only [RpcServer.referenceHeader, short, missing, or_true, ↓reduceIte]
    rw [none_]
    let waiting : Receiver Method Message := ⟨⟨content.drop 4, consumed + 4, none⟩, closed,
      .header (LittleEndian.decode content), dispatched, output⟩
    have unread : waiting.queue.size < waiting.phase.needs := missing
    exact ⟨log_settled_of_short server unread,
      fun closed =>
        ended_settled_of_short (s := waiting) server closed unread (by simp [waiting])⟩
  have enough := Nat.le_of_not_lt missing
  rw [settled_of_enough server (s := ⟨⟨_, _, _⟩, _, .header (LittleEndian.decode content), _, _⟩)
    (by simp [Receiver.Ended]) enough]
  simp only [RpcServer.proceed, RpcServer.readHeader, RpcServer.referenceHeader, short, missing,
    or_self, ↓reduceIte]
  cases parsed : server.protobuf.parseHeader
      ((content.drop 4).take (LittleEndian.decode content)) with
  | none =>
      obtain ⟨taken, left, unparsed⟩ := LimitedQueue.parse_none
        ⟨content.drop 4, consumed + 4, none⟩ parsed server.protobuf.partway
      simp only [unparsed]
      rw [settled_of_ended server (by trivial)]
      exact ⟨rfl, fun _ => trivial⟩
  | some header =>
      simp only [LimitedQueue.parse_some ⟨content.drop 4, consumed + 4, none⟩ enough
        parsed, LimitedQueue.popLimit]
      by_cases magic : header.magic = magicNum
      · by_cases current : header.version = version
        · simp only [magic, current, ne_eq, not_true_eq_false, ↓reduceIte, and_self]
          exact ⟨_, rfl⟩
        · simp only [magic, current, ne_eq, not_true_eq_false, not_false_eq_true, ↓reduceIte,
            and_false]
          rw [settled_of_ended server (by trivial)]
          exact ⟨rfl, fun _ => trivial⟩
      · simp only [magic, ne_eq, not_false_eq_true, ↓reduceIte, false_and]
        rw [settled_of_ended server (by trivial)]
        exact ⟨rfl, fun _ => trivial⟩

/-- The stream ends inside the body of a request to a registered method. -/
def RpcServer.BodyCut (header : Header) (bytes : Bytes) : Prop :=
  4 ≤ bytes.length ∧ (bytes.drop 4).length < LittleEndian.decode bytes ∧
    ∃ service ∈ server.serviceRegistry header.service,
      (service.findMethodByName header.method).isSome = true

/-- Behind a header: what the reference does with the request. -/
private theorem settled_requestLen (s : Receiver Method Message) (header : Header)
    (phase : s.phase = .requestLen header) (unlimited : s.queue.limit = none) :
    match server.referenceRequest header s.queue.content with
    | none => (server.settled s).log = s.log ∧
        (s.closed = true → ((server.settled s).Ended ↔ ¬ server.BodyCut header s.queue.content))
    | some (dispatch, rest) => ∃ consumed,
        server.settled s = server.settled
          { s with
            queue := ⟨rest, consumed, none⟩, phase := .headerLen
            dispatched := s.dispatched ++ [dispatch]
            output := s.output ++ server.responseFrame dispatch } := by
  obtain ⟨⟨content, consumed, limit⟩, closed, phase', dispatched, output⟩ := s
  simp only at phase unlimited
  subst phase unlimited
  by_cases short : content.length < 4
  · have none_ : server.referenceRequest header content = none := by
      simp [RpcServer.referenceRequest, short]
    rw [none_]
    refine ⟨log_settled_of_short server short, fun closed => iff_of_true ?_ ?_⟩
    · exact ended_settled_of_short server closed short nofun
    · exact fun cut => Nat.not_le_of_lt short cut.1
  have word : (4 : Nat) ≤ (⟨content, consumed, none⟩ : LimitedQueue UInt8).size :=
    Nat.le_of_not_lt short
  rw [settled_of_enough server (s := ⟨_, _, .requestLen _, _, _⟩) (by simp [Receiver.Ended]) word]
  simp only [RpcServer.proceed, RpcServer.readRequestLen, readWord_eq word]
  cases registered : server.serviceRegistry header.service with
  | none =>
      have none_ : server.referenceRequest header content = none := by
        simp only [RpcServer.referenceRequest, registered, ite_self]
      simp only [none_]
      rw [settled_of_ended server (by trivial)]
      refine ⟨rfl, fun _ => iff_of_true trivial ?_⟩
      intro all
      obtain ⟨-, -, service, found, -⟩ := all
      rw [registered] at found
      cases found
  | some service =>
      dsimp only
      cases named : service.findMethodByName header.method with
      | none =>
          have none_ : server.referenceRequest header content = none := by
            simp only [RpcServer.referenceRequest, registered, named, ite_self]
          simp only [none_]
          rw [settled_of_ended server (by trivial)]
          refine ⟨rfl, fun _ => iff_of_true trivial ?_⟩
          intro all
          obtain ⟨-, -, other, found, method⟩ := all
          obtain rfl : service = other := Option.some.inj (registered.symm.trans found)
          rw [named] at method
          cases method
      | some method =>
          dsimp only
          by_cases missing : (content.drop 4).length < LittleEndian.decode content
          · have none_ : server.referenceRequest header content = none := by
              simp only [RpcServer.referenceRequest, missing, or_true, ↓reduceIte]
            rw [none_]
            let waiting : Receiver Method Message := ⟨⟨content.drop 4, consumed + 4, none⟩, closed,
              .request header service method (LittleEndian.decode content), dispatched, output⟩
            have waits : server.advance waiting = none := if_pos missing
            have settled : server.settled waiting = waiting := settle_of_none waits
            refine ⟨(congrArg Receiver.log settled).trans rfl, fun _ =>
              iff_of_false ?_ (not_not_intro ?_)⟩
            · exact fun ended => (congrArg Receiver.Ended settled).mp ended
            · exact ⟨Nat.le_of_not_lt short, missing, service, registered, by simp [named]⟩
          have enough := Nat.le_of_not_lt missing
          rw [settled_of_enough server (s := ⟨⟨_, _, _⟩, _,
            .request header service method (LittleEndian.decode content), _, _⟩)
            (by simp [Receiver.Ended]) enough]
          simp only [RpcServer.proceed, RpcServer.readRequest, RpcServer.referenceRequest, short,
            missing, or_self, ↓reduceIte, registered, named]
          cases parsed : server.protobuf.parseRequest method
              ((content.drop 4).take (LittleEndian.decode content)) with
          | none =>
              obtain ⟨taken, left, unparsed⟩ := LimitedQueue.parse_none
                ⟨content.drop 4, consumed + 4, none⟩ parsed server.protobuf.partway
              simp only [unparsed]
              rw [settled_of_ended server (by trivial)]
              exact ⟨rfl, fun _ => iff_of_true trivial fun cut => missing cut.2.1⟩
          | some request =>
              simp only [LimitedQueue.parse_some
                ⟨content.drop 4, consumed + 4, none⟩ enough parsed,
                LimitedQueue.popLimit]
              exact ⟨_, rfl⟩

/-- From the top of the loop, the coroutine dispatches and answers the frames the
reference finds in its buffer. -/
theorem log_settled (s : Receiver Method Message) (phase : s.phase = .headerLen)
    (unlimited : s.queue.limit = none) :
    (server.settled s).log =
      (s.dispatched ++ server.reference s.queue.content,
        s.output ++ (server.reference s.queue.content).flatMap server.responseFrame) := by
  suffices following : ∀ (fuel : Nat) (s : Receiver Method Message), s.phase = .headerLen →
      s.queue.limit = none → s.queue.content.length ≤ fuel →
      (server.settled s).log =
        (s.dispatched ++ server.referenceFrames fuel s.queue.content,
          s.output ++ (server.referenceFrames fuel s.queue.content).flatMap
            server.responseFrame) from
    following _ s phase unlimited le_rfl
  intro fuel
  induction fuel with
  | zero =>
      intro s phase _ bounded
      have short : s.queue.size < s.phase.needs := by
        simp only [phase, Phase.needs, LimitedQueue.size]
        omega
      rw [log_settled_of_short server short]
      simp [RpcServer.referenceFrames, Receiver.log]
  | succ fuel ih =>
      intro s phase unlimited bounded
      have header := settled_headerLen server s phase unlimited
      simp only [RpcServer.referenceFrames, RpcServer.referenceFrame]
      cases headerFound : server.referenceHeader s.queue.content with
      | none =>
          simp only [headerFound] at header
          rw [header.1]
          simp [Receiver.log]
      | some pair =>
          obtain ⟨found, rest⟩ := pair
          simp only [headerFound] at header
          obtain ⟨consumed, afterHeader⟩ := header
          have request := settled_requestLen server
            { s with queue := ⟨rest, consumed, none⟩, phase := .requestLen found } found rfl rfl
          rw [afterHeader]
          simp only [Option.bind_some]
          cases requestFound : server.referenceRequest found rest with
          | none =>
              simp only [requestFound] at request
              rw [request.1]
              simp [Receiver.log]
          | some pair =>
              obtain ⟨dispatch, behind⟩ := pair
              simp only [requestFound] at request
              obtain ⟨consumed', afterRequest⟩ := request
              have shorter := length_referenceHeader server headerFound
              have shorter' := length_referenceRequest server requestFound
              rw [afterRequest, ih _ rfl rfl (by dsimp only; omega)]
              simp [List.append_assoc]

/-! ## A stream that ends inside a request -/

def RpcServer.cutFrames : Nat → Bytes → Prop
  | 0, _ => False
  | fuel + 1, bytes =>
      match server.referenceHeader bytes with
      | none => False
      | some (header, rest) =>
          match server.referenceRequest header rest with
          | none => server.BodyCut header rest
          | some (_, rest) => RpcServer.cutFrames fuel rest

/-- The frame at which the reference parser stops has a header the server accepts, names
a registered method, and ends inside the body of the request. -/
def RpcServer.CutInRequest (bytes : Bytes) : Prop := server.cutFrames bytes.length bytes

instance decidableBodyCut (header : Header) (bytes : Bytes) :
    Decidable (server.BodyCut header bytes) :=
  inferInstanceAs (Decidable (4 ≤ bytes.length ∧
    (bytes.drop 4).length < LittleEndian.decode bytes ∧
      ∃ service ∈ server.serviceRegistry header.service,
        (service.findMethodByName header.method).isSome = true))

instance decidableCutFrames : ∀ fuel bytes, Decidable (server.cutFrames fuel bytes)
  | 0, _ => .isFalse id
  | fuel + 1, bytes =>
      match headerFound : server.referenceHeader bytes with
      | none => .isFalse (by simp only [RpcServer.cutFrames, headerFound, not_false_eq_true])
      | some (header, rest) =>
          match requestFound : server.referenceRequest header rest with
          | none => decidable_of_iff (server.BodyCut header rest)
              (by simp only [RpcServer.cutFrames, headerFound, requestFound])
          | some (_, rest) =>
              have := decidableCutFrames fuel rest
              decidable_of_iff (server.cutFrames fuel rest)
                (by simp only [RpcServer.cutFrames, headerFound, requestFound])

instance decidableCutInRequest (bytes : Bytes) : Decidable (server.CutInRequest bytes) :=
  decidableCutFrames server bytes.length bytes

/-- On a closed connection the coroutine ends, unless the stream ends inside a request. -/
theorem ended_settled (s : Receiver Method Message) (phase : s.phase = .headerLen)
    (unlimited : s.queue.limit = none) (closed : s.closed = true) :
    (server.settled s).Ended ↔ ¬ server.CutInRequest s.queue.content := by
  suffices following : ∀ (fuel : Nat) (s : Receiver Method Message), s.phase = .headerLen →
      s.queue.limit = none → s.closed = true → s.queue.content.length ≤ fuel →
      ((server.settled s).Ended ↔ ¬ server.cutFrames fuel s.queue.content) from
    following _ s phase unlimited closed le_rfl
  intro fuel
  induction fuel with
  | zero =>
      intro s phase _ closed bounded
      have short : s.queue.size < s.phase.needs := by
        simp only [phase, Phase.needs, LimitedQueue.size]
        omega
      refine iff_of_true (ended_settled_of_short server closed short ?_) id
      simp [phase]
  | succ fuel ih =>
      intro s phase unlimited closed bounded
      have header := settled_headerLen server s phase unlimited
      simp only [RpcServer.cutFrames]
      cases headerFound : server.referenceHeader s.queue.content with
      | none =>
          simp only [headerFound] at header
          exact iff_of_true (header.2 closed) id
      | some pair =>
          obtain ⟨found, rest⟩ := pair
          simp only [headerFound] at header
          obtain ⟨consumed, afterHeader⟩ := header
          have request := settled_requestLen server
            { s with queue := ⟨rest, consumed, none⟩, phase := .requestLen found } found rfl rfl
          rw [afterHeader]
          cases requestFound : server.referenceRequest found rest with
          | none =>
              simp only [requestFound] at request
              simpa only [requestFound] using request.2 closed
          | some pair =>
              obtain ⟨dispatch, behind⟩ := pair
              simp only [requestFound] at request
              obtain ⟨consumed', afterRequest⟩ := request
              have shorter := length_referenceHeader server headerFound
              have shorter' := length_referenceRequest server requestFound
              have bounded' : behind.length ≤ fuel := by omega
              rw [afterRequest]
              simp only [requestFound]
              apply ih
              · rfl
              · rfl
              · exact closed
              · exact bounded'

/-! ## Every fragmentation -/

/-- How the calls of `async_read` reach the coroutine. -/
theorem feeding :
    Feeding server.advance Receiver.Ended (fun s => s.closed = false ∨ s.Ended)
      (fun s => s.closed = true) (fun call : ReadCall => call.outcome.closes = true)
      (fun call => call.outcome.bytes = []) Receiver.deliver Receiver.log where
  ended_waits s ended := advance_of_ended server ended
  ended_change s call ended := ⟨ended, rfl⟩
  open_advance s t open_ taken := by
    have running := (advance_cases server taken).1
    rcases advance_closed server taken with ⟨same, -⟩ | ⟨ended, -⟩
    · exact .inl (same.trans (open_.resolve_right running))
    · exact .inr ended
  change_comm s t call open_ taken := by
    have running := (advance_cases server taken).1
    obtain ⟨-, enough, rfl⟩ := (advance_open server (open_.resolve_right running)).mp taken
    have more : ((s.deliver call).phase).needs ≤ (s.deliver call).queue.size := by
      change s.phase.needs ≤ (s.queue.append call.outcome.bytes).size
      rw [LimitedQueue.size_append]
      omega
    rw [advance_of_enough server (s := s.deliver call) running more, Receiver.deliver,
      proceed_append_close server enough, Receiver.deliver]
  open_change s call open_ running quiet := by
    left
    simp [Receiver.deliver, Receiver.append, Receiver.close, open_.resolve_right running, quiet]
  closing_change s call closes := by simp [Receiver.deliver, Receiver.close, closes]
  closed_advance s t closed taken := by
    rcases advance_closed server taken with ⟨same, -⟩ | ⟨-, same⟩
    · rw [same, closed]
    · exact same
  closed_change s call closed silent := by
    simp only [Receiver.deliver, Receiver.append, Receiver.close, silent, LimitedQueue.append_nil,
      closed, Bool.true_or]
    rw [← closed]

/-- All deliveries together commit the received bytes. -/
theorem foldl_deliver (calls : List ReadCall) (s : Receiver Method Message) :
    calls.foldl Receiver.deliver s =
      { s with
        queue := s.queue.append (received calls)
        closed := s.closed || calls.any fun call => call.outcome.closes } := by
  induction calls generalizing s with
  | nil => simp [received]
  | cons call rest ih =>
      rw [List.foldl_cons, ih]
      simp [Receiver.deliver, Receiver.append, Receiver.close, received, Bool.or_assoc]

/-- `recv_fn` shows what it shows when all bytes are there before it starts. -/
theorem view_recvFn {View : Type} (view : Receiver Method Message → View)
    (unchanged : ∀ (s : Receiver Method Message) call, s.Ended → view (s.deliver call) = view s)
    {calls : List ReadCall} (ends : EndsStream calls) :
    view (server.recvFn calls) =
      view (server.settled { (.init : Receiver Method Message) with
        queue := LimitedQueue.empty.append (received calls)
        closed := calls.any fun call => call.outcome.closes }) := by
  have waits : server.advance .init = none := by
    simp [RpcServer.advance, Receiver.init, LimitedQueue.empty, LimitedQueue.size]
  have fed : Feeding server.advance Receiver.Ended (fun s => s.closed = false ∨ s.Ended)
      (fun s => s.closed = true) (fun call : ReadCall => call.outcome.closes = true)
      (fun call => call.outcome.bytes = []) Receiver.deliver view :=
    { feeding server with ended_change := fun s call ended => ⟨ended, unchanged s call ended⟩ }
  have whole := fed.view_foldl_feed (ranked_advance server) .init (.inl rfl) waits ends
  rw [RpcServer.recvFn, settle_of_none waits]
  rw [foldl_deliver] at whole
  simpa [RpcServer.receive, RpcServer.settled, Receiver.init] using whole

/-- **The server's incremental parser equals the reference parser.** For every
sequence of `async_read` calls of a stream, cut anywhere, with or without an end
of file or an error behind it: the calls of `CallMethod` are those the reference
parser finds in the concatenated bytes, and the output is their responses, one
frame for each, in the order of the calls. -/
theorem recv_eq_reference (calls : List ReadCall) (ends : EndsStream calls) :
    (server.recvFn calls).dispatched = server.reference (received calls) ∧
      (server.recvFn calls).output =
        (server.reference (received calls)).flatMap server.responseFrame := by
  have whole := view_recvFn server Receiver.log (fun _ _ _ => rfl) ends
  have log := log_settled server { (.init : Receiver Method Message) with
    queue := LimitedQueue.empty.append (received calls)
    closed := calls.any fun call => call.outcome.closes } rfl rfl
  simpa [Receiver.log, Receiver.init, LimitedQueue.empty] using whole.trans log

/-- A call of `Echo` cut inside its header, with the end of file behind it: the
echo server answers it. -/
theorem recv_eq_reference_of_cut :
    (Example.echoServer.recvFn
        [.ofBytes (Example.hiRequest.take 10), .ofBytes (Example.hiRequest.drop 10),
          .ofEof]).dispatched =
      [⟨.echo, Example.protobuf.serialize Example.hi, 0,
        ⟨Example.EchoMethod.echo.tag ++ Example.hi.fields, []⟩⟩] := by
  have ends : EndsStream [.ofBytes (Example.hiRequest.take 10),
      .ofBytes (Example.hiRequest.drop 10), .ofEof] := by
    simp [EndsStream, Ends]
  rw [(recv_eq_reference Example.echoServer _ ends).1]
  decide +kernel

end Drpc.Server
