import Drpc.Net.ByteQueue
import Drpc.Net.FrameOutput
import Drpc.Server.Receive

/-! # The server on its buffers

`RpcServer::recv_fn` on the read buffer and the write buffer of its connection, which
are chains of blocks. Each turn of it is a turn of `RpcServer.advance` on the ideal
queue (`refines_advance`), as long as the announced lengths are limits and a response
fits in what is left of the tail of the write buffer. A failed parse leaves a part of
the stream that only the position decides, so that the ideal parser may have it too
(`RpcServer.onBuffers`).
-/

namespace Drpc.Server

open Proto Net Util

variable {Method Message : Type}

/-- The receiving side of a connection of the server, with its buffers. -/
structure BufferedReceiver (Method Message : Type) where
  readBuf : ChainedBuffer
  writeBuf : ChainedBuffer
  closed : Bool
  phase : Phase Method Message
  dispatched : List (Dispatch Method Message)

/-- The coroutine at the top of its loop on a new connection. -/
def BufferedReceiver.init (readMemory writeMemory : Ptr → Nat → UInt8) :
    BufferedReceiver Method Message where
  readBuf := .init readMemory
  writeBuf := .init writeMemory
  closed := false
  phase := .headerLen
  dispatched := []

/-- Leave the loop; the connection is closed behind it. -/
def BufferedReceiver.stop (s : BufferedReceiver Method Message) (reason : StopReason) :
    BufferedReceiver Method Message :=
  { s with phase := .stopped reason, closed := true }

/-- `to_read_bytes()` -/
def BufferedReceiver.toReadBytes (s : BufferedReceiver Method Message) : Nat := s.readBuf.totalSize

/-- The coroutine awaits `async_read`. -/
def BufferedReceiver.Awaits (s : BufferedReceiver Method Message) : Prop :=
  match s.phase with
  | .headerLen | .requestLen _ => s.toReadBytes < 4 ∧ s.closed = false
  | .header headerLen => s.toReadBytes < headerLen ∧ s.closed = false
  | .request _ _ _ requestLen => s.toReadBytes < requestLen
  | .stopped _ => False

instance decidableAwaits (s : BufferedReceiver Method Message) : Decidable s.Awaits :=
  match s with
  | ⟨_, _, _, .headerLen, _⟩ | ⟨_, _, _, .requestLen _, _⟩ | ⟨_, _, _, .header _, _⟩ =>
      inferInstanceAs (Decidable (_ ∧ _))
  | ⟨_, _, _, .request _ _ _ _, _⟩ => inferInstanceAs (Decidable (_ < _))
  | ⟨_, _, _, .stopped _, _⟩ => .isFalse id

variable (server : RpcServer Method Message) (asks : Nat → Bytes → Nat)

/-- From the length of the header on. -/
def BufferedReceiver.readHeaderLen (s : BufferedReceiver Method Message) :
    Option (BufferedReceiver Method Message) :=
  s.readBuf.readWord.map fun (word, readBuf) =>
    match word with
    | none => { s with readBuf }.stop .headerLenUnread
    | some headerLen => { s with readBuf, phase := .header headerLen }

/-- From the header on. -/
def RpcServer.readHeaderOn (s : BufferedReceiver Method Message) (headerLen : Nat) :
    Option (BufferedReceiver Method Message) :=
  ((s.readBuf.pushLength headerLen).parse 4096 server.protobuf.parseHeader asks).map
    fun (header, readBuf) =>
      match header with
      | none => { s with readBuf }.stop .headerUnparsed
      | some header =>
          let s := { s with readBuf := readBuf.popLimit }
          if header.magic ≠ magicNum then s.stop .invalidMagic
          else if header.version ≠ version then s.stop .invalidVersion
          else { s with phase := .requestLen header }

/-- From the length of the request on. -/
def RpcServer.readRequestLenOn (s : BufferedReceiver Method Message) (header : Header) :
    Option (BufferedReceiver Method Message) :=
  s.readBuf.readWord.map fun (word, readBuf) =>
    match word with
    | none => { s with readBuf }.stop .requestLenUnread
    | some requestLen =>
        let s := { s with readBuf }
        match server.serviceRegistry header.service with
        | none => s.stop .serviceNotFound
        | some service =>
            match service.findMethodByName header.method with
            | none => s.stop .methodNotFound
            | some method => { s with phase := .request header service method requestLen }

/-- From the request on; the response goes through the write buffer. -/
def RpcServer.readRequestOn (s : BufferedReceiver Method Message) (header : Header)
    (service : Service Method Message) (method : Method) (requestLen : Nat) :
    Option (BufferedReceiver Method Message) :=
  ((s.readBuf.pushLength requestLen).parse 4096 (server.protobuf.parseRequest method) asks).bind
    fun (request, readBuf) =>
      match request with
      | none => some ({ s with readBuf }.stop .requestUnparsed)
      | some request =>
          let dispatch : Dispatch Method Message :=
            { method, request := s.readBuf.contents.take requestLen
              requestId := header.requestId
              response := service.callMethod method request }
          (s.writeBuf.writeFrame 4096
              (server.protobuf.serializeHeader (responseHeader dispatch.requestId))
              (server.protobuf.serialize dispatch.response)).map fun writeBuf =>
            { s with
              readBuf := readBuf.popLimit, writeBuf, phase := .headerLen
              dispatched := s.dispatched ++ [dispatch] }

/-- **`RpcServer::recv_fn` between two waits**, on its buffers; `none` where it waits, where
it has ended, and where it would dereference a null pointer or not return. -/
def RpcServer.advanceOn (s : BufferedReceiver Method Message) :
    Option (BufferedReceiver Method Message) :=
  if s.Awaits then none
  else
    match s.phase with
    | .headerLen =>
        if s.closed = true ∧ s.toReadBytes < 4 then some (s.stop .closed) else s.readHeaderLen
    | .header headerLen =>
        if s.closed = true ∧ s.toReadBytes < headerLen then some (s.stop .closed)
        else server.readHeaderOn asks s headerLen
    | .requestLen header =>
        if s.closed = true ∧ s.toReadBytes < 4 then some (s.stop .closed)
        else server.readRequestLenOn s header
    | .request header service method requestLen =>
        server.readRequestOn asks s header service method requestLen
    | .stopped _ => none

/-- One `async_read` of the coroutine, where it awaits one. -/
def BufferedReceiver.read (s : BufferedReceiver Method Message) (results : List ReadResult) :
    Option (BufferedReceiver Method Message) :=
  if s.Awaits then
    (asyncRead 4096 s.readBuf s.closed results).map fun (readBuf, closed, _) =>
      { s with readBuf, closed }
  else none

/-- The server with an ideal parser that stops where the parser on the blocks does. -/
def RpcServer.onBuffers : RpcServer Method Message :=
  { server with
    protobuf := { server.protobuf with partway := ChainedBuffer.regionBytes 4096 asks } }

/-- The length the coroutine has announced is a limit. -/
def Phase.Bounded : Phase Method Message → Prop
  | .header length | .request _ _ _ length => length < 2 ^ 31 - 1
  | .headerLen | .requestLen _ | .stopped _ => True

instance decidableBounded : ∀ phase : Phase Method Message, Decidable phase.Bounded
  | .header _ | .request .. => inferInstanceAs (Decidable (_ < _))
  | .headerLen | .requestLen _ | .stopped _ => .isTrue trivial

/-- Where the coroutine comes to a request, its response fits in the tail. -/
def RpcServer.ResponseFits (s : BufferedReceiver Method Message) : Prop :=
  match s.phase with
  | .request header service method requestLen =>
      ∀ request ∈ server.protobuf.parseRequest method (s.readBuf.contents.take requestLen),
        s.writeBuf.FrameFits 4096
          (server.protobuf.serializeHeader (responseHeader header.requestId))
          (server.protobuf.serialize (service.callMethod method request))
  | .headerLen | .header _ | .requestLen _ | .stopped _ => True

instance decidableResponseFits (s : BufferedReceiver Method Message) :
    Decidable (server.ResponseFits s) :=
  match s with
  | ⟨_, _, _, .request .., _⟩ => inferInstanceAs (Decidable (∀ request ∈ _, _))
  | ⟨_, _, _, .headerLen, _⟩ | ⟨_, _, _, .header _, _⟩ | ⟨_, _, _, .requestLen _, _⟩
  | ⟨_, _, _, .stopped _, _⟩ => .isTrue trivial

/-- The buffers are the ideal ones; of the output, `sent` bytes were taken out. A
coroutine that has ended reads no more. -/
structure BufferedReceiver.Refines (s : BufferedReceiver Method Message)
    (t : Receiver Method Message) (sent : Nat) : Prop where
  readBuf : ¬ t.Ended → ∃ blocks, s.readBuf.Represents 4096 blocks t.queue
  writeBuf : ∃ before last, s.writeBuf.Stores 4096 before last (t.output.drop sent)
  sent : sent ≤ t.output.length
  closed : s.closed = t.closed
  phase : s.phase = t.phase
  dispatched : s.dispatched = t.dispatched

theorem refines_init (readMemory writeMemory : Ptr → Nat → UInt8) :
    (BufferedReceiver.init readMemory writeMemory :
      BufferedReceiver Method Message).Refines .init 0 where
  readBuf _ := ⟨_, ChainedBuffer.represents_init readMemory (by decide) (by decide)⟩
  writeBuf := ⟨[], _, ChainedBuffer.stores_init writeMemory (by decide)⟩
  sent := le_rfl
  closed := rfl
  phase := rfl
  dispatched := rfl

variable {server asks} {s next : BufferedReceiver Method Message} {t : Receiver Method Message}
  {sent : Nat}

/-- A coroutine that leaves its loop on the one side leaves it on the other. -/
theorem BufferedReceiver.Refines.stop (refines : s.Refines t sent) (reason : StopReason) :
    (s.stop reason).Refines (t.stop reason) sent where
  readBuf running := absurd trivial running
  writeBuf := refines.writeBuf
  sent := refines.sent
  closed := rfl
  phase := rfl
  dispatched := refines.dispatched

/-- What the coroutine has buffered is what the ideal one has. -/
theorem BufferedReceiver.Refines.toReadBytes_eq (refines : s.Refines t sent)
    (running : ¬ t.Ended) : s.toReadBytes = t.queue.size := by
  obtain ⟨blocks, represents⟩ := refines.readBuf running
  exact represents.size_eq

/-- Both wait, or none does. -/
theorem BufferedReceiver.Refines.awaits_iff (refines : s.Refines t sent)
    (server : RpcServer Method Message) :
    s.Awaits ↔ ¬ t.Ended ∧ server.advance t = none := by
  obtain ⟨readBuf, writeBuf, closed, phase, dispatched⟩ := s
  obtain rfl : phase = t.phase := refines.phase
  obtain rfl : closed = t.closed := refines.closed
  have size : ¬ t.Ended → readBuf.totalSize = t.queue.size := refines.toReadBytes_eq
  unfold Awaits RpcServer.advance
  cases phase : t.phase with
  | stopped reason => simp [Receiver.Ended, phase]
  | request header service method requestLen =>
      have running : ¬ t.Ended := by simp [Receiver.Ended, phase]
      simp [toReadBytes, size running, running]
  | headerLen | header length | requestLen header =>
      have running : ¬ t.Ended := by simp [Receiver.Ended, phase]
      simp only [toReadBytes, size running, running, not_false_eq_true, true_and]
      split_ifs <;> simp_all

/-- The read buffer and the queue move on together. -/
theorem BufferedReceiver.Refines.moveRead (refines : s.Refines t sent) {readBuf : ChainedBuffer}
    {blocks : List BufferBlock} {queue : LimitedQueue UInt8}
    (represents : readBuf.Represents 4096 blocks queue) :
    ({ s with readBuf } : BufferedReceiver Method Message).Refines { t with queue } sent where
  readBuf _ := ⟨blocks, represents⟩
  writeBuf := refines.writeBuf
  sent := refines.sent
  closed := refines.closed
  phase := refines.phase
  dispatched := refines.dispatched

/-- So do the phases. -/
theorem BufferedReceiver.Refines.movePhase (refines : s.Refines t sent) (running : ¬ t.Ended)
    (phase : Phase Method Message) :
    ({ s with phase } : BufferedReceiver Method Message).Refines { t with phase } sent where
  readBuf _ := refines.readBuf running
  writeBuf := refines.writeBuf
  sent := refines.sent
  closed := refines.closed
  phase := rfl
  dispatched := refines.dispatched

theorem refines_readHeaderLen (refines : s.Refines t sent) (running : ¬ t.Ended)
    (taken : s.readHeaderLen = some next) : next.Refines (readHeaderLen t) sent := by
  obtain ⟨blocks, represents⟩ := refines.readBuf running
  obtain ⟨readBuf, left, rfl, after⟩ := represents.readWord_map taken
  unfold readHeaderLen
  revert after
  rcases readWord t.queue with ⟨_ | headerLen, queue⟩
  · intro after
    exact (refines.moveRead after).stop .headerLenUnread
  · intro after
    exact (refines.moveRead after).movePhase running (.header headerLen)

theorem refines_readHeader (refines : s.Refines t sent) (running : ¬ t.Ended) {headerLen : Nat}
    (bounded : headerLen < 2 ^ 31 - 1) (enough : headerLen ≤ t.queue.size)
    (taken : server.readHeaderOn asks s headerLen = some next) :
    next.Refines ((server.onBuffers asks).readHeader t headerLen) sent := by
  obtain ⟨blocks, represents⟩ := refines.readBuf running
  obtain ⟨⟨header, readBuf⟩, run, rfl⟩ := Option.map_eq_some_iff.mp taken
  obtain ⟨left, parsed, after⟩ := represents.parse_length bounded enough run
  unfold RpcServer.readHeader
  change header = ((t.queue.pushLimit headerLen).parse (server.onBuffers asks).protobuf.parseHeader
    (server.onBuffers asks).protobuf.partway).1 at parsed
  change readBuf.Represents 4096 left ((t.queue.pushLimit headerLen).parse
    (server.onBuffers asks).protobuf.parseHeader
      (server.onBuffers asks).protobuf.partway).2 at after
  revert parsed after
  rcases (t.queue.pushLimit headerLen).parse (server.onBuffers asks).protobuf.parseHeader
    (server.onBuffers asks).protobuf.partway with ⟨_ | value, queue⟩
  · rintro rfl after
    exact (refines.moveRead after).stop .headerUnparsed
  · rintro rfl after
    have popped := refines.moveRead after.popLimit
    dsimp only
    split
    · exact popped.stop .invalidMagic
    · split
      · exact popped.stop .invalidVersion
      · exact popped.movePhase running (.requestLen value)

theorem refines_readRequestLen (refines : s.Refines t sent) (running : ¬ t.Ended)
    {header : Header} (taken : server.readRequestLenOn s header = some next) :
    next.Refines (server.readRequestLen t header) sent := by
  obtain ⟨blocks, represents⟩ := refines.readBuf running
  obtain ⟨readBuf, left, rfl, after⟩ := represents.readWord_map taken
  unfold RpcServer.readRequestLen
  revert after
  rcases readWord t.queue with ⟨_ | requestLen, queue⟩
  · intro after
    exact (refines.moveRead after).stop .requestLenUnread
  · intro after
    have moved := refines.moveRead after
    dsimp only
    cases server.serviceRegistry header.service with
    | none => exact moved.stop .serviceNotFound
    | some service =>
        dsimp only
        cases service.findMethodByName header.method with
        | none => exact moved.stop .methodNotFound
        | some method => exact moved.movePhase running (.request header service method requestLen)

/-- The response is appended to the output. -/
theorem refines_readRequest (refines : s.Refines t sent) (running : ¬ t.Ended) {header : Header}
    {service : Service Method Message} {method : Method} {requestLen : Nat}
    (bounded : requestLen < 2 ^ 31 - 1) (enough : requestLen ≤ t.queue.size)
    (fits : ∀ request ∈ server.protobuf.parseRequest method (s.readBuf.contents.take requestLen),
      s.writeBuf.FrameFits 4096
        (server.protobuf.serializeHeader (responseHeader header.requestId))
        (server.protobuf.serialize (service.callMethod method request)))
    (taken : server.readRequestOn asks s header service method requestLen = some next) :
    next.Refines ((server.onBuffers asks).readRequest t header service method requestLen) sent := by
  obtain ⟨blocks, represents⟩ := refines.readBuf running
  obtain ⟨⟨request, readBuf⟩, run, taken⟩ := Option.bind_eq_some_iff.mp taken
  obtain ⟨left, parsed, after⟩ := represents.parse_length bounded enough run
  have window : (t.queue.pushLimit requestLen).window = s.readBuf.contents.take requestLen := by
    rw [represents.queued.contents_eq]
    rfl
  unfold RpcServer.readRequest
  change request = ((t.queue.pushLimit requestLen).parse
    ((server.onBuffers asks).protobuf.parseRequest method)
    (server.onBuffers asks).protobuf.partway).1 at parsed
  change readBuf.Represents 4096 left ((t.queue.pushLimit requestLen).parse
    ((server.onBuffers asks).protobuf.parseRequest method)
    (server.onBuffers asks).protobuf.partway).2 at after
  have saw : ∀ value, ((t.queue.pushLimit requestLen).parse
      ((server.onBuffers asks).protobuf.parseRequest method)
      (server.onBuffers asks).protobuf.partway).1 = some value →
        server.protobuf.parseRequest method (s.readBuf.contents.take requestLen) = some value := by
    intro value parses
    rwa [LimitedQueue.parse_fst, window] at parses
  revert parsed after saw
  dsimp only
  rcases (t.queue.pushLimit requestLen).parse
    ((server.onBuffers asks).protobuf.parseRequest method)
    (server.onBuffers asks).protobuf.partway with ⟨_ | value, queue⟩
  · rintro rfl after -
    cases taken
    exact (refines.moveRead after).stop .requestUnparsed
  · rintro rfl after saw
    obtain ⟨writeBuf, wrote, rfl⟩ := Option.map_eq_some_iff.mp taken
    obtain ⟨before, last, stores⟩ := refines.writeBuf
    obtain ⟨other, front, back, also, stored⟩ :=
      stores.writeFrame (by decide) (fits value (saw value rfl))
    cases also.symm.trans wrote
    refine ⟨fun _ => ⟨left, after.popLimit⟩, ⟨front, back, ?_⟩, ?_, refines.closed, rfl, ?_⟩
    · rw [List.drop_append_of_le_length refines.sent]
      exact stored
    · rw [List.length_append]
      exact Nat.le_add_right_of_le refines.sent
    · rw [refines.dispatched, window]

/-- **One turn of the coroutine** on its buffers is one on the ideal queue. -/
theorem refines_advance (refines : s.Refines t sent) (bounded : s.phase.Bounded)
    (fits : server.ResponseFits s) (taken : server.advanceOn asks s = some next) :
    ∃ after, (server.onBuffers asks).advance t = some after ∧ next.Refines after sent := by
  have waits := refines.awaits_iff (server.onBuffers asks)
  unfold RpcServer.advanceOn at taken
  split at taken
  next => cases taken
  next goesOn =>
    have running : ¬ t.Ended := by
      intro ended
      have phase := refines.phase
      cases stopped : t.phase with
      | stopped reason =>
          simp only [phase, stopped, reduceCtorEq] at taken
      | headerLen | header length | requestLen header | request header service method length =>
          simp [Receiver.Ended, stopped] at ended
    have advances : (server.onBuffers asks).advance t ≠ none := fun none_ =>
      goesOn (waits.mpr ⟨running, none_⟩)
    obtain ⟨after, ideal⟩ := Option.ne_none_iff_exists'.mp advances
    refine ⟨after, ideal, ?_⟩
    have size := refines.toReadBytes_eq running
    have closed := refines.closed
    have phase := refines.phase
    obtain ⟨-, ⟨enough, rfl⟩ | ⟨gone, short, rfl⟩⟩ := advance_cases _ ideal
    · unfold RpcServer.proceed
      cases place : t.phase with
      | headerLen =>
          simp only [place, Phase.needs] at enough
          have many : ¬ s.toReadBytes < 4 := by omega
          simp only [phase, place, many, and_false, ↓reduceIte] at taken
          exact refines_readHeaderLen refines running taken
      | header headerLen =>
          simp only [place, Phase.needs] at enough
          have many : ¬ s.toReadBytes < headerLen := by omega
          simp only [phase, place, many, and_false, ↓reduceIte] at taken
          simp only [phase, place, Phase.Bounded] at bounded
          exact refines_readHeader refines running bounded enough taken
      | requestLen header =>
          simp only [place, Phase.needs] at enough
          have many : ¬ s.toReadBytes < 4 := by omega
          simp only [phase, place, many, and_false, ↓reduceIte] at taken
          exact refines_readRequestLen refines running taken
      | request header service method requestLen =>
          simp only [place, Phase.needs] at enough
          simp only [phase, place] at taken
          simp only [phase, place, Phase.Bounded] at bounded
          simp only [RpcServer.ResponseFits, phase, place] at fits
          exact refines_readRequest refines running bounded enough fits taken
      | stopped reason => exact (running (by simp [Receiver.Ended, place])).elim
    · cases place : t.phase with
      | headerLen | header length | requestLen header =>
          simp only [place, Phase.needs] at short
          have few := size.trans_lt short
          have shut : s.closed = true := closed.trans gone
          simp only [phase, place, shut, few, and_self, ↓reduceIte, Option.some.injEq] at taken
          subst taken
          exact refines.stop .closed
      | request header service method requestLen =>
          simp only [place, Phase.needs] at short
          simp only [RpcServer.advance, place, short, ↓reduceIte, reduceCtorEq] at ideal
      | stopped reason => exact (running (by simp [Receiver.Ended, place])).elim

/-- **One `async_read`** brings the ideal queue what `::read` has given. -/
theorem refines_read (refines : s.Refines t sent) (server : RpcServer Method Message)
    {results : List ReadResult} (taken : s.read results = some next)
    (answers : ∀ view ∈ s.readBuf.writeView 4096, Answers view.2.2 results) :
    ¬ t.Ended ∧ server.advance t = none ∧ ∃ view ∈ s.readBuf.writeView 4096,
      next.Refines (t.deliver ⟨view.2.2, results⟩) sent := by
  simp only [BufferedReceiver.read, Option.ite_none_right_eq_some, Option.map_eq_some_iff] at taken
  obtain ⟨awaits, ⟨readBuf, closed, suspends⟩, read, rfl⟩ := taken
  obtain ⟨running, waits⟩ := (refines.awaits_iff server).mp awaits
  refine ⟨running, waits, ?_⟩
  obtain ⟨blocks, represents⟩ := refines.readBuf running
  obtain ⟨⟨tail, offset, maxsize⟩, view, -⟩ := Option.bind_eq_some_iff.mp read
  obtain ⟨other, left, _, also, -, after⟩ :=
    represents.asyncRead s.closed view (answers _ view)
  cases also.symm.trans read
  refine ⟨_, view, fun _ => ⟨left, after⟩, refines.writeBuf, refines.sent, ?_, refines.phase,
    refines.dispatched⟩
  rw [refines.closed]
  rfl

end Drpc.Server
