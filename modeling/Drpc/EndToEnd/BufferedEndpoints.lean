import Drpc.Client.Buffered
import Drpc.EndToEnd.ServedStream
import Drpc.Net.ReceivingEnds

/-! # The connections on their buffers

The connections of the server and of the client as endpoints on chains of blocks
(`RpcServer.buffered`, `Client.buffered`). Each refines the ideal endpoint under a condition
on the states in which its `recv_fn` takes a turn (`RpcServer.Permits`, `Client.Permits`): the
announced length is a limit, a length word does not empty the tail of the read buffer, and
the response fits in the tail of the write buffer.
-/

namespace Drpc.Util.ChainedBuffer

variable {blockSize : Nat} {b : ChainedBuffer} {blocks before : List BufferBlock}
  {last : BufferBlock} {contents : Bytes} {queue : LimitedQueue UInt8} {β : Type*}

/-- A buffer that is a queue keeps a block where it has blocks. -/
theorem Represents.keepsBlock (represents : b.Represents blockSize blocks queue)
    (some_ : blocks ≠ []) : KeepsBlock b :=
  ⟨blocks, represents.queued.holds, some_, fun block member =>
    (represents.queued.sound block member).inRange⟩

theorem Represents.blocks_ne_nil (represents : b.Represents blockSize blocks queue)
    (kept : KeepsBlock b) : blocks ≠ [] := by
  obtain ⟨other, holds, some_, -⟩ := kept
  rwa [represents.queued.holds.unique holds]

/-- A length word that does not empty the tail. -/
theorem readWord_keeps (kept : KeepsBlock b) (keeps : (ReceiveOp.read 4).KeepsTail b) :
    ∃ word next, b.readWord = some (word, next) ∧ KeepsBlock next := by
  obtain ⟨next, result, taken, kept⟩ := read_keeps kept keeps
  exact ⟨_, next, by rw [readWord, taken, Option.map_some], kept⟩

/-- A message under its length. -/
theorem parse_keeps (represents : b.Represents blockSize blocks queue) (kept : KeepsBlock b)
    {length : Nat} (bounded : length < 2 ^ 31 - 1) (enough : length ≤ queue.size)
    (parser : Bytes → Option β) (asks : Nat → Bytes → Nat) :
    ∃ next, (b.pushLength length).parse blockSize parser asks =
        some (parser (b.contents.take length), next) ∧ KeepsBlock next := by
  have limited := represents.pushLength bounded
  obtain ⟨next, left, run, some_, after⟩ :=
    limited.parse (represents.blocks_ne_nil kept) rfl enough parser asks
  refine ⟨next, ?_, after.keepsBlock some_⟩
  rw [run, LimitedQueue.parse_fst, represents.queued.contents_eq]
  rfl

theorem popLimit_keeps (kept : KeepsBlock b) : KeepsBlock b.popLimit := by
  obtain ⟨blocks, holds, facts⟩ := kept
  exact ⟨blocks, holds.congr rfl rfl rfl rfl rfl, facts⟩

/-- **One `async_read`** on a buffer that has a block. -/
theorem Represents.asyncRead_keeps (represents : b.Represents 4096 blocks queue)
    (kept : KeepsBlock b) (closed : Bool) :
    ∃ tail offset room, b.writeView 4096 = some (tail, offset, room) ∧
      ∀ results, Net.Answers room results →
        ∃ next suspends, Net.asyncRead 4096 b closed results =
            some (next, closed || (Net.readLoop room results).closes, suspends) ∧
          KeepsBlock next ∧ ∃ left,
            next.Represents 4096 left (queue.append (Net.readLoop room results).bytes) := by
  have ⟨other, holds, some_, inRange⟩ := kept
  obtain ⟨tail, back⟩ := Option.ne_none_iff_exists'.mp (holds.pointers some_).2
  have view : b.writeView 4096 = some (tail, (b.block tail).writeView 4096) := by
    simp only [writeView, back]
  refine ⟨tail, _, _, view, fun results answers => ?_⟩
  obtain ⟨next, left, suspends, read, some_, after⟩ := represents.asyncRead closed view answers
  exact ⟨next, suspends, read, after.keepsBlock some_, left, after⟩

/-- **One `async_write`** that a short write ends. -/
theorem Stores.asyncWrite_total (stores : b.Stores 4096 before last contents)
    {results : List Net.WriteResult} (accepts : Net.Accepts b.getIovecs.flatten results)
    (ends : Net.ShortWriteEnds (Net.needWrite b.totalSize) results) :
    ∃ next outcome, b.asyncWrite results = some (next, outcome) := by
  obtain ⟨n, within, outcome⟩ := Net.writeLoop_of_shortWriteEnds accepts ends
  have most : (Net.writeLoop b.getIovecs.flatten (Net.needWrite b.totalSize) 0 results).written ≤
      contents.length := by
    rw [outcome]
    exact within.trans stores.offered.1.length_le
  obtain ⟨next, front, back, committed, -⟩ := stores.commitSend most
  exact ⟨next, _, by
    rw [ChainedBuffer.asyncWrite, if_pos accepts, committed, Option.map_some]⟩

end Drpc.Util.ChainedBuffer

namespace Drpc.Server

open Proto Net Util

variable {Method Message : Type} (server : RpcServer Method Message) (asks : Nat → Bytes → Nat)

/-- A connection of the server on its buffers. -/
def RpcServer.buffered (readMemory writeMemory : Ptr → Nat → UInt8) :
    BufferedEndpoint (BufferedReceiver Method Message) Empty where
  init := .init readMemory writeMemory
  awaits s := decide s.Awaits
  advance := server.advanceOn asks
  room s := (s.readBuf.writeView 4096).map fun view => view.2.2
  read := BufferedReceiver.read
  toWriteBytes s := s.writeBuf.totalSize
  offered s := s.writeBuf.getIovecs.flatten
  write s results :=
    (s.writeBuf.asyncWrite results).map fun (writeBuf, outcome) =>
      ({ s with writeBuf }, outcome.written)
  ended s := decide s.Ended
  closed := BufferedReceiver.closed
  close s := { s with closed := true }
  userClose _ := none
  sendRequest _ call := nomatch call
  answers s t := decide (s.dispatched.length < t.dispatched.length)

/-- Where the coroutine reads a length word, it does not empty the tail of its buffer. -/
def BufferedReceiver.KeepsTail (s : BufferedReceiver Method Message) : Prop :=
  match s.phase with
  | .headerLen | .requestLen _ => 4 ≤ s.toReadBytes → (ReceiveOp.read 4).KeepsTail s.readBuf
  | .header _ | .request .. | .stopped _ => True

instance decidableKeepsTail (s : BufferedReceiver Method Message) : Decidable s.KeepsTail :=
  match s with
  | ⟨_, _, _, .headerLen, _⟩ | ⟨_, _, _, .requestLen _, _⟩ => inferInstanceAs (Decidable (_ → _))
  | ⟨_, _, _, .header _, _⟩ | ⟨_, _, _, .request .., _⟩ | ⟨_, _, _, .stopped _, _⟩ =>
      .isTrue trivial

/-- A request that is complete on a closed connection does not parse. -/
def RpcServer.RejectsClosed (s : BufferedReceiver Method Message) : Prop :=
  match s.phase with
  | .request _ _ method requestLen =>
      s.closed = true → requestLen ≤ s.toReadBytes →
        server.protobuf.parseRequest method (s.readBuf.contents.take requestLen) = none
  | .headerLen | .header _ | .requestLen _ | .stopped _ => True

instance decidableRejectsClosed (s : BufferedReceiver Method Message) :
    Decidable (server.RejectsClosed s) :=
  match s with
  | ⟨_, _, _, .request .., _⟩ => inferInstanceAs (Decidable (_ → _ → _ = none))
  | ⟨_, _, _, .headerLen, _⟩ | ⟨_, _, _, .header _, _⟩ | ⟨_, _, _, .requestLen _, _⟩
  | ⟨_, _, _, .stopped _, _⟩ => .isTrue trivial

/-- The states in which `recv_fn` of the server takes a turn: the length is a limit, a length
word does not come alone, the response fits, and none is written on a closed connection. -/
def RpcServer.Permits (s : BufferedReceiver Method Message) : Prop :=
  s.phase.Bounded ∧ s.KeepsTail ∧ server.ResponseFits s ∧ server.RejectsClosed s

instance decidablePermits : DecidablePred (server.Permits) := fun _ =>
  inferInstanceAs (Decidable (_ ∧ _ ∧ _ ∧ _))

/-- The buffers are the ideal ones, and the read buffer keeps a block for a coroutine that has
not ended. -/
structure BufferedReceiver.Follows (s : BufferedReceiver Method Message)
    (t : Receiver Method Message) (sent : Nat) : Prop where
  refines : s.Refines t sent
  block : ¬ t.Ended → KeepsBlock s.readBuf

variable {server asks} {s next : BufferedReceiver Method Message} {t : Receiver Method Message}
  {sent : Nat}

theorem BufferedReceiver.Refines.ended_iff (refines : s.Refines t sent) : s.Ended ↔ t.Ended := by
  have phase := refines.phase
  unfold BufferedReceiver.Ended Receiver.Ended
  rw [phase]
  cases t.phase <;> exact Iff.rfl

/-- **One turn of the coroutine** is defined, and its read buffer keeps a block. -/
theorem BufferedReceiver.Follows.advance (follows : s.Follows t sent) (goes : ¬ s.Awaits)
    (running : ¬ s.Ended) (permits : server.Permits s) :
    ∃ next, server.advanceOn asks s = some next ∧ (¬ next.Ended → KeepsBlock next.readBuf) := by
  obtain ⟨bounded, keeps, fits, -⟩ := permits
  have refines := follows.refines
  have open_ : ¬ t.Ended := fun ended => running (refines.ended_iff.mpr ended)
  have kept := follows.block open_
  obtain ⟨blocks, represents⟩ := refines.readBuf open_
  have size := refines.toReadBytes_eq open_
  unfold RpcServer.advanceOn
  rw [if_neg goes]
  unfold BufferedReceiver.Awaits at goes
  cases phase : s.phase with
  | stopped reason => simp [BufferedReceiver.Ended, phase] at running
  | headerLen =>
      simp only [phase] at goes ⊢
      split
      next => exact ⟨_, rfl, fun running => absurd trivial running⟩
      next more =>
        have enough : 4 ≤ s.toReadBytes := by
          by_contra short
          cases closed : s.closed <;> simp_all
        simp only [BufferedReceiver.KeepsTail, phase] at keeps
        obtain ⟨word, next, read, left⟩ := ChainedBuffer.readWord_keeps kept (keeps enough)
        simp only [BufferedReceiver.readHeaderLen, read, Option.map_some]
        refine ⟨_, rfl, ?_⟩
        cases word with
        | none => exact fun running => absurd trivial running
        | some headerLen => exact fun _ => left
  | header headerLen =>
      simp only [phase] at goes ⊢
      split
      next => exact ⟨_, rfl, fun running => absurd trivial running⟩
      next more =>
        have enough : headerLen ≤ s.toReadBytes := by
          by_contra short
          cases closed : s.closed <;> simp_all
        simp only [phase, Phase.Bounded] at bounded
        obtain ⟨next, parsed, left⟩ := ChainedBuffer.parse_keeps represents kept bounded
          (size ▸ enough) server.protobuf.parseHeader asks
        simp only [RpcServer.readHeaderOn, parsed, Option.map_some]
        refine ⟨_, rfl, ?_⟩
        cases server.protobuf.parseHeader (s.readBuf.contents.take headerLen) with
        | none => exact fun running => absurd trivial running
        | some header =>
            dsimp only
            split
            · exact fun running => absurd trivial running
            · split
              · exact fun running => absurd trivial running
              · exact fun _ => ChainedBuffer.popLimit_keeps left
  | requestLen header =>
      simp only [phase] at goes ⊢
      split
      next => exact ⟨_, rfl, fun running => absurd trivial running⟩
      next more =>
        have enough : 4 ≤ s.toReadBytes := by
          by_contra short
          cases closed : s.closed <;> simp_all
        simp only [BufferedReceiver.KeepsTail, phase] at keeps
        obtain ⟨word, next, read, left⟩ := ChainedBuffer.readWord_keeps kept (keeps enough)
        simp only [RpcServer.readRequestLenOn, read, Option.map_some]
        refine ⟨_, rfl, ?_⟩
        cases word with
        | none => exact fun running => absurd trivial running
        | some requestLen =>
            dsimp only
            split
            · exact fun running => absurd trivial running
            · split
              · exact fun running => absurd trivial running
              · exact fun _ => left
  | request header service method requestLen =>
      simp only [phase] at goes ⊢
      simp only [phase, Phase.Bounded] at bounded
      obtain ⟨next, parsed, left⟩ := ChainedBuffer.parse_keeps represents kept bounded
        (size ▸ Nat.le_of_not_lt goes) (server.protobuf.parseRequest method) asks
      simp only [RpcServer.ResponseFits, phase] at fits
      simp only [RpcServer.readRequestOn, parsed, Option.bind_some]
      cases request : server.protobuf.parseRequest method (s.readBuf.contents.take requestLen) with
      | none => exact ⟨_, rfl, fun running => absurd trivial running⟩
      | some request_ =>
          obtain ⟨before, last, stores⟩ := refines.writeBuf
          obtain ⟨writeBuf, front, back, wrote, -⟩ :=
            stores.writeFrame (by decide) (fits request_ request)
          simp only [wrote, Option.map_some]
          exact ⟨_, rfl, fun _ => ChainedBuffer.popLimit_keeps left⟩

/-- `async_read` brings the ideal queue what `::read` gives, and finds a tail to put it in. -/
theorem BufferedReceiver.Follows.read (follows : s.Follows t sent)
    (server : RpcServer Method Message) (awaits : s.Awaits) :
    ∃ room, (s.readBuf.writeView 4096).map (fun view => view.2.2) = some room ∧
      ∀ results, Answers room results → ∃ next, s.read results = some next ∧
        next.Follows (t.deliver ⟨room, results⟩) sent := by
  have refines := follows.refines
  have running := ((refines.awaits_iff server).mp awaits).1
  obtain ⟨blocks, represents⟩ := refines.readBuf running
  obtain ⟨tail, offset, room, view, gives⟩ :=
    represents.asyncRead_keeps (follows.block running) s.closed
  refine ⟨room, by rw [view, Option.map_some], fun results answers => ?_⟩
  obtain ⟨readBuf, suspends, read, kept, -⟩ := gives results answers
  have taken : s.read results = some { s with
      readBuf, closed := s.closed || (readLoop room results).closes } := by
    rw [BufferedReceiver.read, if_pos awaits, read, Option.map_some]
  obtain ⟨-, -, other, shown, after⟩ := refines_read refines server taken fun other shown => by
    obtain rfl : (tail, offset, room) = other := Option.some.inj (view.symm.trans shown)
    exact answers
  obtain rfl : (tail, offset, room) = other := Option.some.inj (view.symm.trans shown)
  exact ⟨_, taken, after, fun _ => kept⟩

/-- **The server on its buffers** is the ideal one, where every turn is permitted. -/
theorem buffered_refines (server : RpcServer Method Message) (asks : Nat → Bytes → Nat)
    (readMemory writeMemory : Ptr → Nat → UInt8) :
    (server.buffered asks readMemory writeMemory).Refines (server.onBuffers asks).endpoint
      BufferedReceiver.Follows server.Permits fun _ _ => True where
  init := ⟨refines_init readMemory writeMemory, fun _ => keepsBlock_init readMemory⟩
  ended follows := by
    change decide _ = decide _
    rw [decide_eq_decide]
    exact follows.refines.ended_iff
  closed follows := follows.refines.closed
  awaits follows := by
    have waits := follows.refines.awaits_iff (server.onBuffers asks)
    change decide _ = true ↔ decide _ = false ∧ _
    rw [decide_eq_true_iff, decide_eq_false_iff_not, waits]
    rfl
  running {s next} taken := by
    change server.advanceOn asks s = some next at taken
    unfold RpcServer.advanceOn at taken
    split at taken
    next => cases taken
    next goes =>
      refine ⟨decide_eq_false goes, decide_eq_false fun ended => ?_⟩
      cases phase : s.phase with
      | stopped reason => simp [phase] at taken
      | headerLen | header length | requestLen header | request header service method length =>
          simp [BufferedReceiver.Ended, phase] at ended
  advance follows goes running permits := by
    obtain ⟨next, taken, kept⟩ :=
      follows.advance (of_decide_eq_false goes) (of_decide_eq_false running) permits
    obtain ⟨after, ideal, refines⟩ :=
      refines_advance follows.refines permits.1 permits.2.2.1 taken
    refine ⟨next, after, taken, ideal, ⟨refines, fun running => ?_⟩, ?_⟩
    · exact kept (mt refines.ended_iff.mp running)
    · change decide _ = decide _
      rw [follows.refines.dispatched, refines.dispatched]
  read follows awaits := follows.read server (of_decide_eq_true awaits)
  toWriteBytes follows := by
    obtain ⟨before, last, stores⟩ := follows.refines.writeBuf
    exact stores.totalSize
  accepts {s results after} taken := by
    obtain ⟨wrote, run, -⟩ := Option.map_eq_some_iff.mp taken
    simp only [ChainedBuffer.asyncWrite, Option.ite_none_right_eq_some] at run
    exact run.1
  write {s t sent results} follows accepts ends := by
    have refines := follows.refines
    obtain ⟨before, last, stores⟩ := refines.writeBuf
    obtain ⟨writeBuf, outcome, wrote⟩ := stores.asyncWrite_total accepts ends
    change ShortWriteEnds (needWrite s.writeBuf.totalSize) results at ends
    rw [stores.totalSize] at ends
    obtain ⟨ideal, within, -, stored⟩ := stores.asyncWrite ends wrote
    rw [List.length_drop] at within
    refine ⟨{ s with writeBuf }, outcome, ?_, ideal, ?_, follows.block⟩
    · change (s.writeBuf.asyncWrite results).map _ = _
      rw [wrote, Option.map_some]
    · refine { refines with writeBuf := ?_, sent := ?_ }
      · rw [← List.drop_drop]
        exact stored
      · have sent := refines.sent
        omega
  close follows :=
    ⟨{ follows.refines with closed := (Bool.or_true _).symm }, follows.block⟩
  userClose _ taken := by cases taken
  sendRequest {_ _ _ call} _ _ := nomatch call

end Drpc.Server

namespace Drpc.Client

open Proto Net Util

variable {Method Message : Type} (protobuf : Protobuf Method Message)
  (asks : Nat → Bytes → Nat)

/-- The connection of a channel on its buffers. -/
def buffered (readMemory writeMemory : Ptr → Nat → UInt8) :
    BufferedEndpoint (BufferedChannel Method Message) (Call Method Message) where
  init := .init readMemory writeMemory
  awaits s := decide s.Awaits
  advance := advanceOn protobuf asks
  room s := (s.readBuf.writeView 4096).map fun view => view.2.2
  read := BufferedChannel.read
  toWriteBytes s := s.writeBuf.totalSize
  offered s := s.writeBuf.getIovecs.flatten
  write s results :=
    (s.writeBuf.asyncWrite results).map fun (writeBuf, outcome) =>
      ({ s with writeBuf }, outcome.written)
  ended s := decide s.Ended
  closed := BufferedChannel.closed
  close s := { s with closed := true }
  userClose s := some { s with closed := true }
  sendRequest := sendRequestOn protobuf
  answers _ _ := false

/-- Where the coroutine reads a length word, it does not empty the tail of its buffer. -/
def BufferedChannel.KeepsTail (s : BufferedChannel Method Message) : Prop :=
  match s.phase with
  | .headerLen | .responseLen _ => 4 ≤ s.toReadBytes → (ReceiveOp.read 4).KeepsTail s.readBuf
  | .header _ | .response .. | .stopped _ => True

instance decidableKeepsTail (s : BufferedChannel Method Message) : Decidable s.KeepsTail :=
  match s with
  | ⟨_, _, _, .headerLen, _, _, _, _⟩ | ⟨_, _, _, .responseLen _, _, _, _, _⟩ =>
      inferInstanceAs (Decidable (_ → _))
  | ⟨_, _, _, .header _, _, _, _, _⟩ | ⟨_, _, _, .response .., _, _, _, _⟩
  | ⟨_, _, _, .stopped _, _, _, _, _⟩ => .isTrue trivial

/-- The states in which `recv_fn` of the client takes a turn: the length is a limit, and a
length word does not come alone. -/
def Permits (s : BufferedChannel Method Message) : Prop := s.phase.Bounded ∧ s.KeepsTail

instance decidablePermits : DecidablePred (@Permits Method Message) := fun _ =>
  inferInstanceAs (Decidable (_ ∧ _))

/-- The frame of the call fits in the tail of the write buffer, and the ids do not overflow. -/
def CallFits (s : BufferedChannel Method Message) (call : Call Method Message) : Prop :=
  RequestFits protobuf s call ∧ s.requestId ≠ Int64.maxValue

instance decidableCallFits (s : BufferedChannel Method Message) :
    DecidablePred (CallFits protobuf s) := fun _ =>
  inferInstanceAs (Decidable (_ ∧ _))

/-- The buffers are the ideal ones, and the read buffer keeps a block for a coroutine that has
not ended. -/
structure BufferedChannel.Follows (s : BufferedChannel Method Message)
    (t : ClientChannel Method Message) (sent : Nat) : Prop where
  refines : s.Refines t sent
  block : ¬ t.Ended → KeepsBlock s.readBuf

variable {protobuf asks} {s next : BufferedChannel Method Message}
  {t : ClientChannel Method Message} {sent : Nat}

/-- **One turn of the coroutine** is defined, and its read buffer keeps a block. -/
theorem BufferedChannel.Follows.advance (follows : s.Follows t sent) (goes : ¬ s.Awaits)
    (running : ¬ s.Ended) (permits : Permits s) :
    ∃ next, advanceOn protobuf asks s = some next ∧ (¬ next.Ended → KeepsBlock next.readBuf) := by
  obtain ⟨bounded, keeps⟩ := permits
  have refines := follows.refines
  have open_ : ¬ t.Ended := mt refines.ended_iff.mpr running
  have kept := follows.block open_
  obtain ⟨blocks, represents⟩ := refines.readBuf open_
  have size := refines.toReadBytes_eq open_
  unfold advanceOn
  rw [if_neg (not_or.mpr ⟨goes, running⟩)]
  split
  next => exact ⟨_, rfl, fun running => absurd trivial running⟩
  next more =>
    have enough : s.phase.needs ≤ s.toReadBytes := by
      by_contra short
      have less := Nat.lt_of_not_le short
      cases closed : s.closed with
      | true => exact more ⟨closed, less⟩
      | false => exact goes ⟨running, less, closed⟩
    cases phase : s.phase with
    | stopped reason => simp [BufferedChannel.Ended, phase] at running
    | headerLen =>
        simp only [phase, Phase.needs] at enough
        simp only [BufferedChannel.KeepsTail, phase] at keeps
        obtain ⟨word, next, read, left⟩ := ChainedBuffer.readWord_keeps kept (keeps enough)
        simp only [BufferedChannel.readHeaderLen, read, Option.map_some]
        refine ⟨_, rfl, ?_⟩
        cases word with
        | none => exact fun running => absurd trivial running
        | some headerLen => exact fun _ => left
    | header headerLen =>
        simp only [phase, Phase.needs] at enough
        simp only [phase, Phase.Bounded] at bounded
        obtain ⟨next, parsed, left⟩ := ChainedBuffer.parse_keeps represents kept bounded
          (size ▸ enough) protobuf.parseHeader asks
        simp only [readHeaderOn, parsed, Option.map_some]
        refine ⟨_, rfl, ?_⟩
        cases protobuf.parseHeader (s.readBuf.contents.take headerLen) with
        | none => exact fun running => absurd trivial running
        | some header => exact fun _ => ChainedBuffer.popLimit_keeps left
    | responseLen header =>
        simp only [phase, Phase.needs] at enough
        simp only [BufferedChannel.KeepsTail, phase] at keeps
        obtain ⟨word, next, read, left⟩ := ChainedBuffer.readWord_keeps kept (keeps enough)
        simp only [BufferedChannel.readResponseLen, read, Option.map_some]
        refine ⟨_, rfl, fun _ => ?_⟩
        cases word with
        | none => exact left
        | some responseLen => exact left
    | response header responseLen =>
        simp only [phase, Phase.needs] at enough
        simp only [phase, Phase.Bounded] at bounded
        unfold readResponseOn
        dsimp only
        split
        next => exact ⟨_, rfl, fun _ => kept⟩
        next session pending =>
          obtain ⟨next, parsed, left⟩ := ChainedBuffer.parse_keeps represents kept bounded
            (size ▸ enough) (protobuf.parseResponse session.method) asks
          simp only [parsed, Option.map_some]
          refine ⟨_, rfl, fun _ => ?_⟩
          cases protobuf.parseResponse session.method (s.readBuf.contents.take responseLen) with
          | none => exact left
          | some response => exact ChainedBuffer.popLimit_keeps left

/-- `async_read` brings the ideal queue what `::read` gives, and finds a tail to put it in. -/
theorem BufferedChannel.Follows.read (follows : s.Follows t sent)
    (protobuf : Protobuf Method Message) (awaits : s.Awaits) :
    ∃ room, (s.readBuf.writeView 4096).map (fun view => view.2.2) = some room ∧
      ∀ results, Answers room results → ∃ next, s.read results = some next ∧
        next.Follows (t.deliver ⟨room, results⟩) sent := by
  have refines := follows.refines
  have running := ((refines.awaits_iff protobuf).mp awaits).1
  obtain ⟨blocks, represents⟩ := refines.readBuf running
  obtain ⟨tail, offset, room, view, gives⟩ :=
    represents.asyncRead_keeps (follows.block running) s.closed
  refine ⟨room, by rw [view, Option.map_some], fun results answers => ?_⟩
  obtain ⟨readBuf, suspends, read, kept, -⟩ := gives results answers
  have taken : s.read results = some { s with
      readBuf, closed := s.closed || (readLoop room results).closes } := by
    rw [BufferedChannel.read, if_pos awaits, read, Option.map_some]
  obtain ⟨-, -, other, shown, after⟩ := refines_read refines protobuf taken fun other shown => by
    obtain rfl : (tail, offset, room) = other := Option.some.inj (view.symm.trans shown)
    exact answers
  obtain rfl : (tail, offset, room) = other := Option.some.inj (view.symm.trans shown)
  exact ⟨_, taken, after, fun _ => kept⟩

/-- **A closure** of `CallMethod` is defined where its frame fits. -/
theorem BufferedChannel.Follows.sendRequest (follows : s.Follows t sent)
    {call : Call Method Message} (fits : CallFits protobuf s call) :
    ∃ next after, sendRequestOn protobuf s call = some next ∧
      Client.sendRequest protobuf t call = some after ∧ next.Follows after sent := by
  obtain ⟨frameFits, counts⟩ := fits
  have refines := follows.refines
  obtain ⟨before, last, stores⟩ := refines.writeBuf
  obtain ⟨writeBuf, front, back, wrote, -⟩ := stores.writeFrame (by decide) frameFits
  have taken : sendRequestOn protobuf s call = some { s with
      writeBuf
      requestId := s.requestId + 1
      sessionRegistry := Function.update s.sessionRegistry s.requestId (some call.session)
      issued := s.issued ++ [(s.requestId, call)] } := by
    unfold sendRequestOn
    rw [if_neg counts, wrote, Option.map_some]
  obtain ⟨after, ideal, kept⟩ := refines_sendRequest refines frameFits taken
  refine ⟨_, after, taken, ideal, kept, fun running => follows.block ?_⟩
  rw [← refines.ended_iff]
  exact mt kept.ended_iff.mp running

/-- **The channel on its buffers** is the ideal one, where every turn is permitted. -/
theorem buffered_refines (protobuf : Protobuf Method Message) (asks : Nat → Bytes → Nat)
    (readMemory writeMemory : Ptr → Nat → UInt8) :
    (buffered protobuf asks readMemory writeMemory).Refines (endpoint (onBuffers protobuf asks))
      BufferedChannel.Follows Permits (CallFits protobuf) where
  init := ⟨refines_init readMemory writeMemory, fun _ => keepsBlock_init readMemory⟩
  ended follows := by
    change decide _ = decide _
    rw [decide_eq_decide]
    exact follows.refines.ended_iff
  closed follows := follows.refines.closed
  awaits follows := by
    have waits := follows.refines.awaits_iff (onBuffers protobuf asks)
    change decide _ = true ↔ decide _ = false ∧ _
    rw [decide_eq_true_iff, decide_eq_false_iff_not, waits]
    rfl
  running {s next} taken := by
    change advanceOn protobuf asks s = some next at taken
    unfold advanceOn at taken
    split at taken
    next => cases taken
    next goes =>
      obtain ⟨waits, running⟩ := not_or.mp goes
      exact ⟨decide_eq_false waits, decide_eq_false running⟩
  advance follows goes running permits := by
    obtain ⟨next, taken, kept⟩ :=
      follows.advance (of_decide_eq_false goes) (of_decide_eq_false running) permits
    obtain ⟨after, ideal, refines⟩ := refines_advance follows.refines permits.1 taken
    refine ⟨next, after, taken, ideal, ⟨refines, fun running => ?_⟩, rfl⟩
    exact kept (mt refines.ended_iff.mp running)
  read follows awaits := follows.read protobuf (of_decide_eq_true awaits)
  toWriteBytes follows := by
    obtain ⟨before, last, stores⟩ := follows.refines.writeBuf
    exact stores.totalSize
  accepts {s results after} taken := by
    obtain ⟨wrote, run, -⟩ := Option.map_eq_some_iff.mp taken
    simp only [ChainedBuffer.asyncWrite, Option.ite_none_right_eq_some] at run
    exact run.1
  write {s t sent results} follows accepts ends := by
    have refines := follows.refines
    obtain ⟨before, last, stores⟩ := refines.writeBuf
    obtain ⟨writeBuf, outcome, wrote⟩ := stores.asyncWrite_total accepts ends
    change ShortWriteEnds (needWrite s.writeBuf.totalSize) results at ends
    rw [stores.totalSize] at ends
    obtain ⟨ideal, within, -, stored⟩ := stores.asyncWrite ends wrote
    rw [List.length_drop] at within
    refine ⟨{ s with writeBuf }, outcome, ?_, ideal, ?_, follows.block⟩
    · change (s.writeBuf.asyncWrite results).map _ = _
      rw [wrote, Option.map_some]
    · refine { refines with writeBuf := ?_, sent := ?_ }
      · rw [← List.drop_drop]
        exact stored
      · have sent := refines.sent
        omega
  close follows := ⟨{ follows.refines with closed := rfl }, follows.block⟩
  userClose follows taken := by
    cases taken
    exact ⟨_, rfl, { follows.refines with closed := rfl }, follows.block⟩
  sendRequest follows fits := follows.sendRequest fits

end Drpc.Client
