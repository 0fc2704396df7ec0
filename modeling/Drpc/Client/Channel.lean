import Drpc.Net.AsyncRead
import Mathlib.Logic.Function.Basic

/-! # The client's channel

`ClientChannel::CallMethod` leaves a closure with the executor; when the closure
runs it takes the next request id, writes the request and registers the session
under the id. `ClientChannel::recv_fn` reads the responses and completes the
sessions they name. `Client.advance` is what that coroutine does between two of
its waits, on an ideal byte queue, as `RpcServer.advance` is for the server.

Unlike the server the client goes on after a response it cannot use: it returns
to the top of its loop from where it stands in the stream.
-/

namespace Drpc.Client

open Proto Net Settling

variable {Method Message : Type}

/-- Why the coroutine has left its loop. -/
inductive StopReason where
  | closed
  | headerLenUnread
  | headerUnparsed
  deriving DecidableEq, Repr

/-- What the coroutine waits for, with the locals it keeps across the wait. -/
inductive Phase where
  | headerLen
  | header (headerLen : Nat)
  | responseLen (header : Header)
  | response (header : Header) (responseLen : Nat)
  | stopped (reason : StopReason)
  deriving DecidableEq, Repr

/-- A session: the response object (its address, and the method whose response
type it has) and the closure to run, if there is one. -/
structure Session (Method : Type) where
  response : Nat
  method : Method
  done : Option Nat
  deriving DecidableEq, Repr

/-- The arguments of `CallMethod`. -/
structure Call (Method Message : Type) where
  method : Method
  request : Message
  response : Nat
  done : Option Nat
  deriving DecidableEq, Repr

/-- The session a call is registered with. -/
def Call.session (call : Call Method Message) : Session Method :=
  ⟨call.response, call.method, call.done⟩

/-- A response parsed from `body` into the object of `session`, whose `done` was
then run, or whose response was deleted where there is no `done`. -/
structure Delivery (Method Message : Type) where
  requestId : Int64
  session : Session Method
  body : Bytes
  response : Message
  deriving DecidableEq, Repr

/-- What became of a response frame. -/
inductive Handled (Method Message : Type) where
  | sessionNotFound (requestId : Int64)
  | responseUnparsed (requestId : Int64) (session : Session Method)
  | completed (delivery : Delivery Method Message)
  deriving DecidableEq, Repr

/-- The channel and its connection, as far as its calls and responses go. -/
structure ClientChannel (Method Message : Type) where
  queue : LimitedQueue UInt8
  closed : Bool
  phase : Phase
  sessionRegistry : Int64 → Option (Session Method)
  requestId : Int64
  /-- Everything the closures have written to the output stream. -/
  output : Bytes
  /-- The calls whose closure has run, with the ids they were given. -/
  issued : List (Int64 × Call Method Message)
  handled : List (Handled Method Message)
  /-- The position in the stream and the limit at each top of the loop. -/
  tops : List (Nat × Option Nat)

/-- A new channel whose coroutine is at the top of its loop. -/
def ClientChannel.init : ClientChannel Method Message where
  queue := .empty
  closed := false
  phase := .headerLen
  sessionRegistry := fun _ => none
  requestId := 0
  output := []
  issued := []
  handled := []
  tops := [(0, none)]

/-- The responses delivered to their sessions. -/
def ClientChannel.deliveries (s : ClientChannel Method Message) : List (Delivery Method Message) :=
  s.handled.filterMap fun
    | .completed delivery => some delivery
    | .sessionNotFound _ | .responseUnparsed .. => none

/-- Leave the loop; the connection is closed behind it. -/
def ClientChannel.stop (s : ClientChannel Method Message) (reason : StopReason) :
    ClientChannel Method Message :=
  { s with phase := .stopped reason, closed := true }

/-- Return to the top of the loop. -/
def ClientChannel.next (s : ClientChannel Method Message) (handled : Handled Method Message) :
    ClientChannel Method Message :=
  { s with
    phase := .headerLen
    handled := s.handled ++ [handled]
    tops := s.tops ++ [(s.queue.consumed, s.queue.limit)] }

/-- The header of a request. -/
def requestHeader (protobuf : Protobuf Method Message) (call : Call Method Message)
    (requestId : Int64) : Header where
  magic := magicNum
  version := version
  messageType := .request
  requestId := requestId
  serviceName := some (protobuf.serviceName call.method)
  methodName := some (protobuf.methodName call.method)

/-- The frame a closure writes for a call. -/
def requestFrame (protobuf : Protobuf Method Message) (call : Call Method Message)
    (requestId : Int64) : Bytes :=
  frame (protobuf.serializeHeader (requestHeader protobuf call requestId))
    (protobuf.serialize call.request)

variable (protobuf : Protobuf Method Message)

/-- **The closure `send_request`** that `CallMethod` leaves with the executor. It
is undefined where `request_id_++` overflows. -/
def sendRequest (s : ClientChannel Method Message) (call : Call Method Message) :
    Option (ClientChannel Method Message) :=
  if s.requestId = Int64.maxValue then none
  else
    some { s with
      requestId := s.requestId + 1
      output := s.output ++ requestFrame protobuf call s.requestId
      sessionRegistry := Function.update s.sessionRegistry s.requestId (some call.session)
      issued := s.issued ++ [(s.requestId, call)] }

/-- From the length of the header on. -/
def readHeaderLen (s : ClientChannel Method Message) : ClientChannel Method Message :=
  match readWord s.queue with
  | (none, queue) => { s with queue }.stop .headerLenUnread
  | (some headerLen, queue) => { s with queue, phase := .header headerLen }

/-- From the header on: parse it under its limit. Its magic number, version and
type are not looked at. -/
def readHeader (s : ClientChannel Method Message) (headerLen : Nat) :
    ClientChannel Method Message :=
  match (s.queue.pushLimit headerLen).parse protobuf.parseHeader protobuf.partway with
  | (none, queue) => { s with queue }.stop .headerUnparsed
  | (some header, queue) => { s with queue := queue.popLimit, phase := .responseLen header }

/-- From the length of the response on; a failed read goes back to the top. -/
def readResponseLen (s : ClientChannel Method Message) (header : Header) :
    ClientChannel Method Message :=
  match readWord s.queue with
  | (none, queue) =>
      { s with
        queue, phase := .headerLen
        tops := s.tops ++ [(queue.consumed, queue.limit)] }
  | (some responseLen, queue) => { s with queue, phase := .response header responseLen }

/-- From the response on. Without a session the body is left in the stream. With
one, the session is erased first and the body parsed then; where that fails, the
limit stays as the parser has left it. -/
def readResponse (s : ClientChannel Method Message) (header : Header) (responseLen : Nat) :
    ClientChannel Method Message :=
  match s.sessionRegistry header.requestId with
  | none => s.next (.sessionNotFound header.requestId)
  | some session =>
      let sessionRegistry := Function.update s.sessionRegistry header.requestId none
      let limited := s.queue.pushLimit responseLen
      match limited.parse (protobuf.parseResponse session.method) protobuf.partway with
      | (none, queue) =>
          { s with sessionRegistry, queue }.next (.responseUnparsed header.requestId session)
      | (some response, queue) =>
          { s with sessionRegistry, queue := queue.popLimit }.next
            (.completed ⟨header.requestId, session, limited.window, response⟩)

/-- **`ClientChannel::recv_fn` between two waits.** Every wait also ends when the
connection is closed. -/
def advance (s : ClientChannel Method Message) : Option (ClientChannel Method Message) :=
  match s.phase with
  | .headerLen =>
      if s.queue.size < 4 ∧ s.closed = false then none
      else if s.closed = true ∧ s.queue.size < 4 then some (s.stop .closed)
      else some (readHeaderLen s)
  | .header headerLen =>
      if s.queue.size < headerLen ∧ s.closed = false then none
      else if s.closed = true ∧ s.queue.size < headerLen then some (s.stop .closed)
      else some (readHeader protobuf s headerLen)
  | .responseLen header =>
      if s.queue.size < 4 ∧ s.closed = false then none
      else if s.closed = true ∧ s.queue.size < 4 then some (s.stop .closed)
      else some (readResponseLen s header)
  | .response header responseLen =>
      if s.queue.size < responseLen ∧ s.closed = false then none
      else if s.closed = true ∧ s.queue.size < responseLen then some (s.stop .closed)
      else some (readResponse protobuf s header responseLen)
  | .stopped _ => none

/-- The coroutine has ended. -/
def ClientChannel.Ended (s : ClientChannel Method Message) : Prop :=
  match s.phase with
  | .stopped _ => True
  | _ => False

instance : DecidablePred (@ClientChannel.Ended Method Message) := fun s =>
  match phase : s.phase with
  | .stopped _ => isTrue (by simp only [ClientChannel.Ended, phase])
  | .headerLen | .header _ | .responseLen _ | .response .. =>
      isFalse (by simp only [ClientChannel.Ended, phase, not_false_eq_true])

/-- What one call of `async_read` does to the connection. -/
def ClientChannel.deliver (s : ClientChannel Method Message) (call : ReadCall) :
    ClientChannel Method Message :=
  { s with
    queue := s.queue.append call.outcome.bytes
    closed := s.closed || call.outcome.closes }

/-! ## One advance -/

/-- The bytes the coroutine waits for. -/
def Phase.needs : Phase → Nat
  | .headerLen | .responseLen _ => 4
  | .header length => length
  | .response _ length => length
  | .stopped _ => 0

/-- What the coroutine does once the bytes it waits for are there. -/
def proceed (s : ClientChannel Method Message) : ClientChannel Method Message :=
  match s.phase with
  | .headerLen => readHeaderLen s
  | .header headerLen => readHeader protobuf s headerLen
  | .responseLen header => readResponseLen s header
  | .response header responseLen => readResponse protobuf s header responseLen
  | .stopped _ => s

/-- The coroutine waits when bytes are missing on an open connection, gives up
when they are missing on a closed one, and otherwise goes on. -/
theorem advance_eq (s : ClientChannel Method Message) :
    advance protobuf s =
      if s.Ended then none
      else if s.phase.needs ≤ s.queue.size then some (proceed protobuf s)
      else if s.closed = true then some (s.stop .closed)
      else none := by
  unfold advance proceed
  by_cases enough : s.phase.needs ≤ s.queue.size
  all_goals
    cases phase : s.phase <;> cases closed : s.closed <;>
      simp_all [ClientChannel.Ended, Phase.needs, Nat.not_lt.mpr]

/-- Everything one advance can do: it handles the bytes it waited for, or it
gives up on a closed connection. -/
theorem advance_cases {s t : ClientChannel Method Message} (taken : advance protobuf s = some t) :
    ¬ s.Ended ∧ ((s.phase.needs ≤ s.queue.size ∧ t = proceed protobuf s) ∨
      (s.closed = true ∧ s.queue.size < s.phase.needs ∧ t = s.stop .closed)) := by
  rw [advance_eq] at taken
  split_ifs at taken with ended enough closed
  · exact ⟨ended, .inl ⟨enough, (Option.some.inj taken).symm⟩⟩
  · exact ⟨ended, .inr ⟨closed, Nat.lt_of_not_le enough, (Option.some.inj taken).symm⟩⟩

/-- With enough bytes the coroutine goes on, whether or not the connection is
closed. -/
theorem advance_of_enough {s : ClientChannel Method Message} (running : ¬ s.Ended)
    (enough : s.phase.needs ≤ s.queue.size) : advance protobuf s = some (proceed protobuf s) := by
  rw [advance_eq, if_neg running, if_pos enough]

theorem advance_of_ended {s : ClientChannel Method Message} (ended : s.Ended) :
    advance protobuf s = none := by
  rw [advance_eq, if_pos ended]

/-- What the coroutine does with the awaited bytes does not depend on what
arrives behind them. -/
theorem proceed_deliver {s : ClientChannel Method Message} (enough : s.phase.needs ≤ s.queue.size)
    (call : ReadCall) :
    proceed protobuf (s.deliver call) = (proceed protobuf s).deliver call := by
  obtain ⟨queue, closed, phase, registry, requestId, output, issued, handled, tops⟩ := s
  cases phase with
  | headerLen =>
      simp only [Phase.needs] at enough
      simp only [proceed, ClientChannel.deliver, readHeaderLen, readWord_append enough,
        readWord_eq enough]
  | header headerLen =>
      simp only [Phase.needs] at enough
      have parsed := LimitedQueue.parse_append (queue.pushLimit headerLen) rfl enough
        protobuf.parseHeader protobuf.partway call.outcome.bytes
      have same : (queue.append call.outcome.bytes).pushLimit headerLen =
          (queue.pushLimit headerLen).append call.outcome.bytes := rfl
      simp only [proceed, ClientChannel.deliver, readHeader, same, parsed]
      rcases (queue.pushLimit headerLen).parse protobuf.parseHeader protobuf.partway with
        ⟨_ | header, rest⟩
      · simp only [ClientChannel.stop, Bool.true_or]
      · rfl
  | responseLen header =>
      simp only [Phase.needs] at enough
      simp only [proceed, ClientChannel.deliver, readResponseLen, readWord_append enough,
        readWord_eq enough]
  | response header responseLen =>
      simp only [Phase.needs] at enough
      simp only [proceed, ClientChannel.deliver, readResponse]
      cases registry header.requestId with
      | none => rfl
      | some session =>
          have parsed := LimitedQueue.parse_append (queue.pushLimit responseLen) rfl enough
            (protobuf.parseResponse session.method) protobuf.partway call.outcome.bytes
          have seen := LimitedQueue.window_append (queue.pushLimit responseLen) rfl enough
            call.outcome.bytes
          have same : (queue.append call.outcome.bytes).pushLimit responseLen =
              (queue.pushLimit responseLen).append call.outcome.bytes := rfl
          simp only [same, parsed, seen]
          rcases (queue.pushLimit responseLen).parse (protobuf.parseResponse session.method)
            protobuf.partway with ⟨_ | response, rest⟩ <;> rfl
  | stopped reason => rfl

/-- A header that parses in front of the coroutine. -/
theorem readHeader_front {s : ClientChannel Method Message} {header : Header}
    {headerBytes rest : Bytes} (content : s.queue.content = headerBytes ++ rest)
    (parsed : protobuf.parseHeader headerBytes = some header) :
    readHeader protobuf s headerBytes.length =
      { s with
        queue := ⟨rest, s.queue.consumed + headerBytes.length, none⟩
        phase := .responseLen header } := by
  simp only [readHeader, LimitedQueue.parse_front _ content parsed, LimitedQueue.popLimit]

theorem readResponseLen_encode {s : ClientChannel Method Message} {header : Header}
    {responseLen : Nat} {rest : Bytes} (fits : responseLen < 2 ^ 32)
    (content : s.queue.content = LittleEndian.encode responseLen ++ rest) :
    readResponseLen s header =
      { s with
        queue := { s.queue with content := rest, consumed := s.queue.consumed + 4 }
        phase := .response header responseLen } := by
  simp only [readResponseLen, readWord_encode fits content]

/-- A response that parses in front of the coroutine, with a session for it. -/
theorem readResponse_front {s : ClientChannel Method Message} {header : Header}
    {session : Session Method} {body rest : Bytes} {response : Message}
    (live : s.sessionRegistry header.requestId = some session)
    (content : s.queue.content = body ++ rest)
    (parsed : protobuf.parseResponse session.method body = some response) :
    readResponse protobuf s header body.length =
      { s with
        sessionRegistry := Function.update s.sessionRegistry header.requestId none
        queue := ⟨rest, s.queue.consumed + body.length, none⟩ }.next
          (.completed ⟨header.requestId, session, body, response⟩) := by
  have seen : (s.queue.pushLimit body.length).window = body := by
    simp only [LimitedQueue.pushLimit, LimitedQueue.window, content, List.take_left]
  simp only [readResponse, live, LimitedQueue.parse_front _ content parsed, LimitedQueue.popLimit,
    seen]

/-- The number of advances still possible is bounded by the buffered bytes. -/
def ClientChannel.rank (s : ClientChannel Method Message) : Nat :=
  2 * s.queue.size +
    match s.phase with
    | .stopped _ => 0
    | .headerLen | .responseLen _ => 1
    | .header _ | .response .. => 2

/-- Handling what was waited for lowers the rank. -/
private theorem rank_proceed {s : ClientChannel Method Message} (running : ¬ s.Ended)
    (enough : s.phase.needs ≤ s.queue.size) : (proceed protobuf s).rank < s.rank := by
  obtain ⟨queue, closed, phase, registry, requestId, output, issued, handled, tops⟩ := s
  cases phase with
  | headerLen =>
      simp only [Phase.needs] at enough
      simp only [proceed, readHeaderLen, readWord_eq enough]
      simp only [LimitedQueue.size] at enough
      simp only [ClientChannel.rank, LimitedQueue.size, List.length_drop]
      omega
  | header headerLen =>
      have shrinks := LimitedQueue.size_parse_le (queue.pushLimit headerLen)
        protobuf.parseHeader protobuf.partway
      change _ ≤ queue.size at shrinks
      simp only [proceed, readHeader]
      revert shrinks
      rcases (queue.pushLimit headerLen).parse protobuf.parseHeader protobuf.partway with
        ⟨_ | header, rest⟩
      · intro shrinks
        dsimp only at shrinks
        simp only [ClientChannel.rank, ClientChannel.stop]
        omega
      · intro shrinks
        change rest.popLimit.size ≤ queue.size at shrinks
        simp only [ClientChannel.rank]
        omega
  | responseLen header =>
      simp only [Phase.needs] at enough
      simp only [proceed, readResponseLen, readWord_eq enough]
      simp only [LimitedQueue.size] at enough
      simp only [ClientChannel.rank, LimitedQueue.size, List.length_drop]
      omega
  | response header responseLen =>
      simp only [proceed, readResponse]
      cases registry header.requestId with
      | none =>
          simp only [ClientChannel.rank, ClientChannel.next]
          omega
      | some session =>
          have shrinks := LimitedQueue.size_parse_le (queue.pushLimit responseLen)
            (protobuf.parseResponse session.method) protobuf.partway
          change _ ≤ queue.size at shrinks
          dsimp only
          revert shrinks
          rcases (queue.pushLimit responseLen).parse (protobuf.parseResponse session.method)
            protobuf.partway with ⟨_ | response, rest⟩
          · intro shrinks
            dsimp only at shrinks
            simp only [ClientChannel.rank, ClientChannel.next]
            omega
          · intro shrinks
            change rest.popLimit.size ≤ queue.size at shrinks
            simp only [ClientChannel.rank, ClientChannel.next]
            omega
  | stopped reason => exact (running trivial).elim

/-- The coroutine comes to a wait or to its end after finitely many advances. -/
theorem ranked_advance : Ranked (advance protobuf) ClientChannel.rank := by
  intro s t taken
  obtain ⟨running, ⟨enough, rfl⟩ | ⟨-, -, rfl⟩⟩ := advance_cases protobuf taken
  · exact rank_proceed protobuf running enough
  · cases phase : s.phase with
    | stopped reason => simp [ClientChannel.Ended, phase] at running
    | _ => simp [ClientChannel.rank, ClientChannel.stop, phase]

/-- The connection stays open until the coroutine ends. -/
theorem advance_closed {s t : ClientChannel Method Message} (taken : advance protobuf s = some t) :
    (t.closed = s.closed ∧ ¬ t.Ended) ∨ (t.Ended ∧ t.closed = true) := by
  obtain ⟨running, ⟨enough, rfl⟩ | ⟨-, -, rfl⟩⟩ := advance_cases protobuf taken
  · obtain ⟨queue, closed, phase, registry, requestId, output, issued, handled, tops⟩ := s
    cases phase with
    | headerLen =>
        simp only [proceed, readHeaderLen, readWord_eq enough]
        exact .inl ⟨trivial, id⟩
    | header headerLen =>
        simp only [proceed, readHeader]
        split
        · exact .inr ⟨trivial, rfl⟩
        · exact .inl ⟨rfl, id⟩
    | responseLen header =>
        simp only [proceed, readResponseLen, readWord_eq enough]
        exact .inl ⟨trivial, id⟩
    | response header responseLen =>
        left
        simp only [proceed, readResponse]
        split
        · exact ⟨rfl, id⟩
        · split <;> exact ⟨rfl, id⟩
    | stopped reason => exact (running trivial).elim
  · exact .inr ⟨trivial, rfl⟩

/-- What the coroutine has done with the stream. -/
def ClientChannel.log (s : ClientChannel Method Message) :
    List (Nat × Option Nat) × List (Handled Method Message) :=
  (s.tops, s.handled)

/-- How the calls of `async_read` reach the coroutine. -/
theorem feeding :
    Feeding (advance protobuf) ClientChannel.Ended (fun s => s.closed = false ∨ s.Ended)
      (fun s => s.closed = true) (fun call : ReadCall => call.outcome.closes = true)
      (fun call => call.outcome.bytes = []) ClientChannel.deliver ClientChannel.log where
  ended_waits s ended := advance_of_ended protobuf ended
  ended_change s call ended := ⟨ended, rfl⟩
  open_advance s t open_ taken := by
    have running := (advance_cases protobuf taken).1
    rcases advance_closed protobuf taken with ⟨same, -⟩ | ⟨ended, -⟩
    · exact .inl (same.trans (open_.resolve_right running))
    · exact .inr ended
  change_comm s t call open_ taken := by
    obtain ⟨running, ⟨enough, rfl⟩ | ⟨closed, -⟩⟩ := advance_cases protobuf taken
    · have more : ((s.deliver call).phase).needs ≤ (s.deliver call).queue.size := by
        change s.phase.needs ≤ (s.queue.append call.outcome.bytes).size
        rw [LimitedQueue.size_append]
        omega
      rw [advance_of_enough protobuf (s := s.deliver call) running more,
        proceed_deliver protobuf enough]
    · simp [open_.resolve_right running] at closed
  open_change s call open_ running quiet := by
    left
    simp [ClientChannel.deliver, open_.resolve_right running, quiet]
  closing_change s call closes := by simp [ClientChannel.deliver, closes]
  closed_advance s t closed taken := by
    rcases advance_closed protobuf taken with ⟨same, -⟩ | ⟨-, same⟩
    · rw [same, closed]
    · exact same
  closed_change s call closed silent := by
    simp only [ClientChannel.deliver, silent, LimitedQueue.append_nil, closed, Bool.true_or]
    rw [← closed]

end Drpc.Client
