import Drpc.Net.ByteQueue
import Drpc.Net.FrameOutput
import Drpc.Client.Channel

/-! # The channel on its buffers

`ClientChannel::recv_fn` and the closure of `CallMethod` on the read buffer and the write
buffer of the connection. As for the server, each turn is a turn on the ideal queue
(`refines_advance`), and a closure appends the frame of its call (`refines_sendRequest`).
-/

namespace Drpc.Client

open Proto Net Util

variable {Method Message : Type}

/-- The channel and its connection, with its buffers. -/
structure BufferedChannel (Method Message : Type) where
  readBuf : ChainedBuffer
  writeBuf : ChainedBuffer
  closed : Bool
  phase : Phase
  sessionRegistry : Int64 → Option (Session Method)
  requestId : Int64
  issued : List (Int64 × Call Method Message)
  handled : List (Handled Method Message)

/-- A new channel whose coroutine is at the top of its loop. -/
def BufferedChannel.init (readMemory writeMemory : Ptr → Nat → UInt8) :
    BufferedChannel Method Message where
  readBuf := .init readMemory
  writeBuf := .init writeMemory
  closed := false
  phase := .headerLen
  sessionRegistry := fun _ => none
  requestId := 0
  issued := []
  handled := []

/-- Leave the loop; the connection is closed behind it. -/
def BufferedChannel.stop (s : BufferedChannel Method Message) (reason : StopReason) :
    BufferedChannel Method Message :=
  { s with phase := .stopped reason, closed := true }

/-- Return to the top of the loop. -/
def BufferedChannel.next (s : BufferedChannel Method Message) (handled : Handled Method Message) :
    BufferedChannel Method Message :=
  { s with phase := .headerLen, handled := s.handled ++ [handled] }

/-- `to_read_bytes()` -/
def BufferedChannel.toReadBytes (s : BufferedChannel Method Message) : Nat := s.readBuf.totalSize

/-- The coroutine has ended. -/
def BufferedChannel.Ended (s : BufferedChannel Method Message) : Prop :=
  match s.phase with
  | .stopped _ => True
  | .headerLen | .header _ | .responseLen _ | .response .. => False

instance decidableBufferedEnded (s : BufferedChannel Method Message) : Decidable s.Ended :=
  match s with
  | ⟨_, _, _, .stopped _, _, _, _, _⟩ => .isTrue trivial
  | ⟨_, _, _, .headerLen, _, _, _, _⟩ | ⟨_, _, _, .header _, _, _, _, _⟩
  | ⟨_, _, _, .responseLen _, _, _, _, _⟩ | ⟨_, _, _, .response .., _, _, _, _⟩ => .isFalse id

/-- The coroutine awaits `async_read`. -/
def BufferedChannel.Awaits (s : BufferedChannel Method Message) : Prop :=
  ¬ s.Ended ∧ s.toReadBytes < s.phase.needs ∧ s.closed = false

instance decidableBufferedAwaits (s : BufferedChannel Method Message) : Decidable s.Awaits :=
  inferInstanceAs (Decidable (_ ∧ _))

variable (protobuf : Protobuf Method Message) (asks : Nat → Bytes → Nat)

/-- **The closure `send_request`** on the write buffer. -/
def sendRequestOn (s : BufferedChannel Method Message) (call : Call Method Message) :
    Option (BufferedChannel Method Message) :=
  if s.requestId = Int64.maxValue then none
  else
    (s.writeBuf.writeFrame 4096
        (protobuf.serializeHeader (requestHeader protobuf call s.requestId))
        (protobuf.serialize call.request)).map fun writeBuf =>
      { s with
        writeBuf
        requestId := s.requestId + 1
        sessionRegistry := Function.update s.sessionRegistry s.requestId (some call.session)
        issued := s.issued ++ [(s.requestId, call)] }

/-- From the length of the header on. -/
def BufferedChannel.readHeaderLen (s : BufferedChannel Method Message) :
    Option (BufferedChannel Method Message) :=
  s.readBuf.readWord.map fun (word, readBuf) =>
    match word with
    | none => { s with readBuf }.stop .headerLenUnread
    | some headerLen => { s with readBuf, phase := .header headerLen }

/-- From the header on. -/
def readHeaderOn (s : BufferedChannel Method Message) (headerLen : Nat) :
    Option (BufferedChannel Method Message) :=
  ((s.readBuf.pushLength headerLen).parse 4096 protobuf.parseHeader asks).map
    fun (header, readBuf) =>
      match header with
      | none => { s with readBuf }.stop .headerUnparsed
      | some header => { s with readBuf := readBuf.popLimit, phase := .responseLen header }

/-- From the length of the response on; a failed read goes back to the top. -/
def BufferedChannel.readResponseLen (s : BufferedChannel Method Message) (header : Header) :
    Option (BufferedChannel Method Message) :=
  s.readBuf.readWord.map fun (word, readBuf) =>
    match word with
    | none => { s with readBuf, phase := .headerLen }
    | some responseLen => { s with readBuf, phase := .response header responseLen }

/-- From the response on. -/
def readResponseOn (s : BufferedChannel Method Message) (header : Header) (responseLen : Nat) :
    Option (BufferedChannel Method Message) :=
  match s.sessionRegistry header.requestId with
  | none => some (s.next (.sessionNotFound header.requestId))
  | some session =>
      let sessionRegistry := Function.update s.sessionRegistry header.requestId none
      ((s.readBuf.pushLength responseLen).parse 4096 (protobuf.parseResponse session.method)
          asks).map fun (response, readBuf) =>
        match response with
        | none =>
            { s with sessionRegistry, readBuf }.next (.responseUnparsed header.requestId session)
        | some response =>
            { s with sessionRegistry, readBuf := readBuf.popLimit }.next
              (.completed ⟨header.requestId, session, s.readBuf.contents.take responseLen,
                response⟩)

/-- **`ClientChannel::recv_fn` between two waits**, on its buffers; `none` where it waits,
where it has ended, and where it would dereference a null pointer or not return. -/
def advanceOn (s : BufferedChannel Method Message) : Option (BufferedChannel Method Message) :=
  if s.Awaits ∨ s.Ended then none
  else if s.closed = true ∧ s.toReadBytes < s.phase.needs then some (s.stop .closed)
  else
    match s.phase with
    | .headerLen => s.readHeaderLen
    | .header headerLen => readHeaderOn protobuf asks s headerLen
    | .responseLen header => s.readResponseLen header
    | .response header responseLen => readResponseOn protobuf asks s header responseLen
    | .stopped _ => none

/-- One `async_read` of the coroutine, where it awaits one. -/
def BufferedChannel.read (s : BufferedChannel Method Message) (results : List ReadResult) :
    Option (BufferedChannel Method Message) :=
  if s.Awaits then
    (asyncRead 4096 s.readBuf s.closed results).map fun (readBuf, closed, _) =>
      { s with readBuf, closed }
  else none

/-- Protobuf with an ideal parser that stops where the parser on the blocks does. -/
def onBuffers : Protobuf Method Message :=
  { protobuf with partway := ChainedBuffer.regionBytes 4096 asks }

/-- The length the coroutine has announced is a limit. -/
def Phase.Bounded : Phase → Prop
  | .header length | .response _ length => length < 2 ^ 31 - 1
  | .headerLen | .responseLen _ | .stopped _ => True

instance decidableBounded : ∀ phase : Phase, Decidable phase.Bounded
  | .header _ | .response .. => inferInstanceAs (Decidable (_ < _))
  | .headerLen | .responseLen _ | .stopped _ => .isTrue trivial

/-- The frame of the call fits in the tail. -/
def RequestFits (s : BufferedChannel Method Message) (call : Call Method Message) : Prop :=
  s.writeBuf.FrameFits 4096
    (protobuf.serializeHeader (requestHeader protobuf call s.requestId))
    (protobuf.serialize call.request)

instance decidableRequestFits (s : BufferedChannel Method Message) (call : Call Method Message) :
    Decidable (RequestFits protobuf s call) :=
  inferInstanceAs (Decidable (ChainedBuffer.FrameFits ..))

/-- The buffers are the ideal ones; of the output, `sent` bytes were taken out. A
coroutine that has ended reads no more. -/
structure BufferedChannel.Refines (s : BufferedChannel Method Message)
    (t : ClientChannel Method Message) (sent : Nat) : Prop where
  readBuf : ¬ t.Ended → ∃ blocks, s.readBuf.Represents 4096 blocks t.queue
  writeBuf : ∃ before last, s.writeBuf.Stores 4096 before last (t.output.drop sent)
  sent : sent ≤ t.output.length
  closed : s.closed = t.closed
  phase : s.phase = t.phase
  sessionRegistry : s.sessionRegistry = t.sessionRegistry
  requestId : s.requestId = t.requestId
  issued : s.issued = t.issued
  handled : s.handled = t.handled

theorem refines_init (readMemory writeMemory : Ptr → Nat → UInt8) :
    (BufferedChannel.init readMemory writeMemory :
      BufferedChannel Method Message).Refines .init 0 where
  readBuf _ := ⟨_, ChainedBuffer.represents_init readMemory (by decide) (by decide)⟩
  writeBuf := ⟨[], _, ChainedBuffer.stores_init writeMemory (by decide)⟩
  sent := le_rfl
  closed := rfl
  phase := rfl
  sessionRegistry := rfl
  requestId := rfl
  issued := rfl
  handled := rfl

variable {protobuf asks} {s next : BufferedChannel Method Message}
  {t : ClientChannel Method Message} {sent : Nat}

namespace BufferedChannel.Refines

/-- A coroutine that leaves its loop on the one side leaves it on the other. -/
theorem stop (refines : s.Refines t sent) (reason : StopReason) :
    (s.stop reason).Refines (t.stop reason) sent :=
  { refines with readBuf := fun running => absurd trivial running, closed := rfl, phase := rfl }

/-- What the coroutine has buffered is what the ideal one has. -/
theorem toReadBytes_eq (refines : s.Refines t sent) (running : ¬ t.Ended) :
    s.toReadBytes = t.queue.size := by
  obtain ⟨blocks, represents⟩ := refines.readBuf running
  exact represents.size_eq

theorem ended_iff (refines : s.Refines t sent) : s.Ended ↔ t.Ended := by
  have phase := refines.phase
  unfold BufferedChannel.Ended ClientChannel.Ended
  rw [phase]
  cases t.phase <;> exact Iff.rfl

/-- Both wait, or none does. -/
theorem awaits_iff (refines : s.Refines t sent) (protobuf : Protobuf Method Message) :
    s.Awaits ↔ ¬ t.Ended ∧ Client.advance protobuf t = none := by
  unfold BufferedChannel.Awaits
  rw [refines.ended_iff]
  refine and_congr_right fun running => ?_
  rw [advance_eq, if_neg running, refines.toReadBytes_eq running, refines.phase, refines.closed]
  split_ifs with enough closed
  · simp only [iff_false, not_and]
    intro short
    omega
  · simp only [closed, Bool.true_eq_false, and_false]
  · simp only [Bool.not_eq_true] at closed
    exact iff_of_true ⟨Nat.lt_of_not_le enough, closed⟩ rfl

/-- The read buffer and the queue move on together. -/
theorem moveRead (refines : s.Refines t sent) {readBuf : ChainedBuffer}
    {blocks : List BufferBlock} {queue : LimitedQueue UInt8}
    (represents : readBuf.Represents 4096 blocks queue) :
    ({ s with readBuf } : BufferedChannel Method Message).Refines { t with queue } sent :=
  { refines with readBuf := fun _ => ⟨blocks, represents⟩ }

/-- So do the phases. -/
theorem movePhase (refines : s.Refines t sent) (running : ¬ t.Ended) (phase : Phase) :
    ({ s with phase } : BufferedChannel Method Message).Refines { t with phase } sent :=
  { refines with readBuf := fun _ => refines.readBuf running, phase := rfl }

/-- The tops of the loop are not seen. -/
theorem moveTops (refines : s.Refines t sent) (running : ¬ t.Ended)
    (tops : List (Nat × Option Nat)) : s.Refines { t with tops } sent :=
  { refines with readBuf := fun _ => refines.readBuf running }

/-- A response was handled. -/
theorem handle (refines : s.Refines t sent) (running : ¬ t.Ended)
    (handled : Handled Method Message) : (s.next handled).Refines (t.next handled) sent :=
  { refines with
    readBuf := fun _ => refines.readBuf running
    phase := rfl
    handled := congrArg (· ++ [handled]) refines.handled }

/-- A session was erased. -/
theorem moveRegistry (refines : s.Refines t sent)
    (sessionRegistry : Int64 → Option (Session Method)) :
    ({ s with sessionRegistry } : BufferedChannel Method Message).Refines
      { t with sessionRegistry } sent :=
  { refines with sessionRegistry := rfl }

end BufferedChannel.Refines

/-- **A closure** appends the frame of its call. -/
theorem refines_sendRequest (refines : s.Refines t sent) {call : Call Method Message}
    (fits : RequestFits protobuf s call) (taken : sendRequestOn protobuf s call = some next) :
    ∃ after, sendRequest protobuf t call = some after ∧ next.Refines after sent := by
  have requestId := refines.requestId
  unfold sendRequestOn at taken
  split at taken
  next => cases taken
  next counts =>
    obtain ⟨writeBuf, wrote, rfl⟩ := Option.map_eq_some_iff.mp taken
    obtain ⟨before, last, stores⟩ := refines.writeBuf
    obtain ⟨other, front, back, also, stored⟩ := stores.writeFrame (by decide) fits
    cases also.symm.trans wrote
    rw [requestId] at counts stored
    refine ⟨_, if_neg counts, ?_⟩
    exact {
      readBuf := refines.readBuf
      writeBuf := by
        refine ⟨front, back, ?_⟩
        rw [List.drop_append_of_le_length refines.sent]
        exact stored
      sent := by
        rw [List.length_append]
        exact Nat.le_add_right_of_le refines.sent
      closed := refines.closed
      phase := refines.phase
      sessionRegistry := by rw [refines.sessionRegistry, requestId]
      requestId := by rw [requestId]
      issued := by rw [refines.issued, requestId]
      handled := refines.handled }

theorem refines_readHeaderLen (refines : s.Refines t sent) (running : ¬ t.Ended)
    (taken : s.readHeaderLen = some next) : next.Refines (readHeaderLen t) sent := by
  obtain ⟨blocks, represents⟩ := refines.readBuf running
  obtain ⟨readBuf, left, rfl, after⟩ := represents.readWord_map taken
  unfold readHeaderLen
  revert after
  rcases readWord t.queue with ⟨_ | headerLen, queue⟩
  · intro after
    exact (refines.moveRead after).stop .headerLenUnread
  · intro after
    exact (refines.moveRead after).movePhase running (.header headerLen)

theorem refines_readHeader (refines : s.Refines t sent) (running : ¬ t.Ended) {headerLen : Nat}
    (bounded : headerLen < 2 ^ 31 - 1) (enough : headerLen ≤ t.queue.size)
    (taken : readHeaderOn protobuf asks s headerLen = some next) :
    next.Refines (readHeader (onBuffers protobuf asks) t headerLen) sent := by
  obtain ⟨blocks, represents⟩ := refines.readBuf running
  obtain ⟨⟨header, readBuf⟩, run, rfl⟩ := Option.map_eq_some_iff.mp taken
  obtain ⟨left, parsed, after⟩ := represents.parse_length bounded enough run
  unfold readHeader onBuffers
  revert parsed after
  dsimp only
  rcases (t.queue.pushLimit headerLen).parse protobuf.parseHeader
    (ChainedBuffer.regionBytes 4096 asks) with ⟨_ | value, queue⟩
  · rintro rfl after
    exact (refines.moveRead after).stop .headerUnparsed
  · rintro rfl after
    exact (refines.moveRead after.popLimit).movePhase running (.responseLen value)

theorem refines_readResponseLen (refines : s.Refines t sent) (running : ¬ t.Ended)
    {header : Header} (taken : s.readResponseLen header = some next) :
    next.Refines (readResponseLen t header) sent := by
  obtain ⟨blocks, represents⟩ := refines.readBuf running
  obtain ⟨readBuf, left, rfl, after⟩ := represents.readWord_map taken
  unfold readResponseLen
  revert after
  rcases readWord t.queue with ⟨_ | responseLen, queue⟩
  · intro after
    exact ((refines.moveRead after).movePhase running .headerLen).moveTops id _
  · intro after
    exact (refines.moveRead after).movePhase running (.response header responseLen)

theorem refines_readResponse (refines : s.Refines t sent) (running : ¬ t.Ended) {header : Header}
    {responseLen : Nat} (bounded : responseLen < 2 ^ 31 - 1) (enough : responseLen ≤ t.queue.size)
    (taken : readResponseOn protobuf asks s header responseLen = some next) :
    next.Refines (readResponse (onBuffers protobuf asks) t header responseLen) sent := by
  obtain ⟨blocks, represents⟩ := refines.readBuf running
  have registry := refines.sessionRegistry
  unfold readResponseOn at taken
  unfold readResponse onBuffers
  rw [registry] at taken
  cases pending : t.sessionRegistry header.requestId with
  | none =>
      simp only [pending, Option.some.injEq] at taken
      subst taken
      exact refines.handle running _
  | some session =>
      simp only [pending] at taken
      obtain ⟨⟨response, readBuf⟩, run, rfl⟩ := Option.map_eq_some_iff.mp taken
      obtain ⟨left, parsed, after⟩ := represents.parse_length bounded enough run
      have window : (t.queue.pushLimit responseLen).window =
          s.readBuf.contents.take responseLen := by
        rw [represents.queued.contents_eq]
        rfl
      revert parsed after
      dsimp only
      rw [window]
      rcases (t.queue.pushLimit responseLen).parse (protobuf.parseResponse session.method)
        (ChainedBuffer.regionBytes 4096 asks) with ⟨_ | value, queue⟩
      · rintro rfl after
        exact ((refines.moveRead after).moveRegistry _).handle running _
      · rintro rfl after
        exact ((refines.moveRead after.popLimit).moveRegistry _).handle running _

/-- **One turn of the coroutine** on its buffers is one on the ideal queue. -/
theorem refines_advance (refines : s.Refines t sent) (bounded : s.phase.Bounded)
    (taken : advanceOn protobuf asks s = some next) :
    ∃ after, advance (onBuffers protobuf asks) t = some after ∧ next.Refines after sent := by
  have phase := refines.phase
  unfold advanceOn at taken
  split at taken
  next => cases taken
  next goesOn =>
    rw [not_or, refines.awaits_iff (onBuffers protobuf asks), refines.ended_iff] at goesOn
    obtain ⟨awaits, running⟩ := goesOn
    have size := refines.toReadBytes_eq running
    rw [size, refines.closed, phase] at taken
    obtain ⟨after, ideal⟩ := Option.ne_none_iff_exists'.mp fun none_ => awaits ⟨running, none_⟩
    refine ⟨after, ideal, ?_⟩
    obtain ⟨-, ⟨enough, rfl⟩ | ⟨gone, short, rfl⟩⟩ := advance_cases _ ideal
    · rw [if_neg fun both => Nat.not_lt.mpr enough both.2] at taken
      rw [phase] at bounded
      unfold proceed
      cases place : t.phase with
      | headerLen =>
          simp only [place] at taken
          exact refines_readHeaderLen refines running taken
      | header headerLen =>
          simp only [place] at taken
          simp only [place, Phase.Bounded] at bounded
          simp only [place, Phase.needs] at enough
          exact refines_readHeader refines running bounded enough taken
      | responseLen header =>
          simp only [place] at taken
          exact refines_readResponseLen refines running taken
      | response header responseLen =>
          simp only [place] at taken
          simp only [place, Phase.Bounded] at bounded
          simp only [place, Phase.needs] at enough
          exact refines_readResponse refines running bounded enough taken
      | stopped reason => simp only [place, reduceCtorEq] at taken
    · rw [if_pos ⟨gone, short⟩, Option.some.injEq] at taken
      subst taken
      exact refines.stop .closed

/-- **One `async_read`** brings the ideal queue what `::read` has given. -/
theorem refines_read (refines : s.Refines t sent) (protobuf : Protobuf Method Message)
    {results : List ReadResult} (taken : s.read results = some next)
    (answers : ∀ view ∈ s.readBuf.writeView 4096, Answers view.2.2 results) :
    ¬ t.Ended ∧ advance protobuf t = none ∧ ∃ view ∈ s.readBuf.writeView 4096,
      next.Refines (t.deliver ⟨view.2.2, results⟩) sent := by
  simp only [BufferedChannel.read, Option.ite_none_right_eq_some, Option.map_eq_some_iff] at taken
  obtain ⟨awaits, ⟨readBuf, closed, suspends⟩, read, rfl⟩ := taken
  obtain ⟨running, waits⟩ := (refines.awaits_iff protobuf).mp awaits
  refine ⟨running, waits, ?_⟩
  obtain ⟨blocks, represents⟩ := refines.readBuf running
  obtain ⟨⟨tail, offset, maxsize⟩, view, -⟩ := Option.bind_eq_some_iff.mp read
  obtain ⟨other, left, _, also, -, after⟩ :=
    represents.asyncRead s.closed view (answers _ view)
  cases also.symm.trans read
  refine ⟨_, view, { refines with readBuf := fun _ => ⟨left, after⟩, closed := ?_ }⟩
  rw [refines.closed]
  rfl

end Drpc.Client
