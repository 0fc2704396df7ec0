import Drpc.Server.Buffered
import Drpc.Server.Reference
import Drpc.EndToEnd.Resumption

/-! # The stream the server answers

The coroutine of the server runs on its buffers; its kernel gives it the incoming bytes,
cut as it likes, and takes the outgoing ones. What comes in is handled as the parser of
the whole byte string handles it, and what has gone out, with what the write buffer still
holds, is the frames of the responses (`stream_answered`). The announced lengths have to
be limits of the read buffer, and a response has to fit in the tail of the write buffer.
-/

namespace Drpc.Server

open Proto Net Util Settling Transition

variable {Method Message : Type}

/-- A connection of the server with the bytes that went through its socket. -/
structure ServedStream (Method Message : Type) where
  receiver : BufferedReceiver Method Message
  /-- What `::read` has given. -/
  incoming : Bytes
  /-- What `::writev` has taken. -/
  outgoing : Bytes

/-- A new connection. -/
def ServedStream.init (readMemory writeMemory : Ptr → Nat → UInt8) :
    ServedStream Method Message where
  receiver := .init readMemory writeMemory
  incoming := []
  outgoing := []

/-- What happens at the connection. -/
inductive StreamStep where
  /-- `async_read` of `recv_fn`. -/
  | read (results : List ReadResult)
  /-- `recv_fn` goes on to its next wait. -/
  | advance
  /-- `async_write` of `send_fn`. -/
  | write (results : List WriteResult)

/-- The coroutine has ended. -/
def BufferedReceiver.Ended (s : BufferedReceiver Method Message) : Prop :=
  match s.phase with
  | .stopped _ => True
  | .headerLen | .header _ | .requestLen _ | .request .. => False

instance decidableEnded (s : BufferedReceiver Method Message) : Decidable s.Ended :=
  match s with
  | ⟨_, _, _, .stopped _, _⟩ => .isTrue trivial
  | ⟨_, _, _, .headerLen, _⟩ | ⟨_, _, _, .header _, _⟩ | ⟨_, _, _, .requestLen _, _⟩
  | ⟨_, _, _, .request .., _⟩ => .isFalse id

variable (server : RpcServer Method Message) (asks : Nat → Bytes → Nat)

/-- One step of the connection. -/
def RpcServer.streamStep (s : ServedStream Method Message) :
    StreamStep → Option (ServedStream Method Message)
  | .read results =>
      (s.receiver.read results).map fun receiver =>
        { s with receiver, incoming := s.incoming ++ bytesOf results }
  | .advance => (server.advanceOn asks s.receiver).map fun receiver => { s with receiver }
  | .write results =>
      (s.receiver.writeBuf.asyncWrite results).map fun (writeBuf, outcome) =>
        { s with
          receiver := { s.receiver with writeBuf }
          outgoing := s.outgoing ++ outcome.bytes }

/-- The kernel gives no more than the view has room for, and nothing behind the end of the
stream; it takes nothing more after a short write. The lengths are limits, and the
responses fit. -/
def RpcServer.Steady (s : ServedStream Method Message) : StreamStep → Prop
  | .read results =>
      (∀ view ∈ s.receiver.readBuf.writeView 4096, Answers view.2.2 results) ∧
        (s.receiver.closed = true → bytesOf results = [])
  | .advance => s.receiver.phase.Bounded ∧ server.ResponseFits s.receiver
  | .write results => ShortWriteEnds (needWrite s.receiver.writeBuf.totalSize) results

instance decidableSteady (s : ServedStream Method Message) :
    ∀ label, Decidable (server.Steady s label)
  | .read _ => inferInstanceAs (Decidable ((∀ view ∈ _, _) ∧ _))
  | .advance => inferInstanceAs (Decidable (_ ∧ _))
  | .write _ => inferInstanceAs (Decidable (ShortWriteEnds _ _))

/-! ## The reference does not see the buffers -/

theorem reference_onBuffers : (server.onBuffers asks).reference = server.reference := by
  have frames : ∀ fuel bytes,
      (server.onBuffers asks).referenceFrames fuel bytes = server.referenceFrames fuel bytes := by
    intro fuel
    induction fuel with
    | zero => exact fun _ => rfl
    | succ fuel ih =>
        intro bytes
        have first : (server.onBuffers asks).referenceFrame bytes = server.referenceFrame bytes :=
          rfl
        simp only [RpcServer.referenceFrames, first, ih]
  funext bytes
  exact frames bytes.length bytes

/-- A response frame is written for every dispatch, and none is taken back. -/
theorem log_advance {s t : Receiver Method Message} (taken : server.advance s = some t) :
    (t.dispatched = s.dispatched ∧ t.output = s.output) ∨
      ∃ dispatch, t.dispatched = s.dispatched ++ [dispatch] ∧
        t.output = s.output ++ server.responseFrame dispatch := by
  obtain ⟨-, ⟨-, rfl⟩ | ⟨-, -, rfl⟩⟩ := advance_cases server taken
  · rcases silent_or_request server s with silent | ⟨header, service, method, requestLen, phase⟩
    · exact .inl silent
    · simp only [RpcServer.proceed, phase, RpcServer.readRequest]
      split
      · exact .inl ⟨rfl, rfl⟩
      · exact .inr ⟨_, rfl, rfl⟩
  · exact .inl ⟨rfl, rfl⟩

/-- What settling adds comes behind. -/
theorem dispatched_prefix_settled (s : Receiver Method Message) :
    s.dispatched <+: (server.settled s).dispatched := by
  have kept : ∀ t next, s.dispatched <+: t.dispatched → server.advance t = some next →
      s.dispatched <+: next.dispatched := by
    intro t next before taken
    rcases log_advance server taken with ⟨same, -⟩ | ⟨dispatch, more, -⟩
    · rwa [same]
    · rw [more]
      exact before.trans (List.prefix_append ..)
  exact settle_invariant (ranked_advance server) kept s (List.prefix_refl _)

/-! ## The run behind a state -/

/-- The ideal coroutine `t` has been given `calls`, up to the turns it can still make; the
connection is that of `t`. -/
structure ServedStream.Traced (s : ServedStream Method Message) (t : Receiver Method Message)
    (calls : List ReadCall) : Prop where
  refines : s.receiver.Refines t s.outgoing.length
  outgoing : s.outgoing = t.output.take s.outgoing.length
  output : t.output = t.dispatched.flatMap server.responseFrame
  incoming : s.incoming = received calls
  ends : EndsStream calls
  closed : ¬ t.Ended → t.closed = calls.any fun call => call.outcome.closes
  settled : (server.onBuffers asks).settled t = (server.onBuffers asks).recvFn calls

variable {server asks} {s next : ServedStream Method Message} {t : Receiver Method Message}
  {calls : List ReadCall}

theorem traced_init (readMemory writeMemory : Ptr → Nat → UInt8) :
    (ServedStream.init readMemory writeMemory : ServedStream Method Message).Traced server asks
      .init [] where
  refines := refines_init readMemory writeMemory
  outgoing := rfl
  output := rfl
  incoming := rfl
  ends := trivial
  closed _ := rfl
  settled := rfl

theorem ServedStream.Traced.read (traced : s.Traced server asks t calls)
    {results : List ReadResult} (steady : server.Steady s (.read results))
    (taken : server.streamStep asks s (.read results) = some next) :
    ∃ after more, next.Traced server asks after more := by
  obtain ⟨answers, silent⟩ := steady
  obtain ⟨receiver, read, rfl⟩ := Option.map_eq_some_iff.mp taken
  obtain ⟨running, waits, view, shown, refines⟩ :=
    refines_read traced.refines (server.onBuffers asks) read answers
  set call : ReadCall := ⟨view.2.2, results⟩
  have bytes : call.outcome.bytes = bytesOf results :=
    ChainedBuffer.bytes_readLoop (answers view shown)
  have settled : (server.onBuffers asks).recvFn calls = t :=
    traced.settled.symm.trans (settle_of_none waits)
  refine ⟨t.deliver call, calls ++ [call], refines, traced.outgoing, traced.output, ?_, ?_, ?_, ?_⟩
  · rw [received, List.flatMap_append, ← received, ← traced.incoming, List.flatMap_singleton,
      bytes]
  · apply ends_iff_pairwise.mpr
    rw [List.pairwise_append]
    refine ⟨ends_iff_pairwise.mp traced.ends, List.pairwise_singleton _ _, ?_⟩
    intro earlier member last same closes
    obtain rfl := List.mem_singleton.mp same
    rw [bytes]
    apply silent
    rw [traced.refines.closed, traced.closed running]
    exact List.any_eq_true.mpr ⟨earlier, member, closes⟩
  · intro _
    rw [List.any_append, ← traced.closed running]
    simp only [List.any_cons, List.any_nil, Bool.or_false]
    rfl
  · rw [RpcServer.recvFn, List.foldl_append, ← RpcServer.recvFn, settled]
    simp only [List.foldl_cons, List.foldl_nil, RpcServer.receive, feed, running, ↓reduceIte]
    rfl

theorem ServedStream.Traced.advance (traced : s.Traced server asks t calls)
    (steady : server.Steady s .advance)
    (taken : server.streamStep asks s .advance = some next) :
    ∃ after, next.Traced server asks after calls := by
  obtain ⟨bounded, fits⟩ := steady
  obtain ⟨receiver, advanced, rfl⟩ := Option.map_eq_some_iff.mp taken
  obtain ⟨after, ideal, refines⟩ := refines_advance traced.refines bounded fits advanced
  have sent := traced.refines.sent
  refine ⟨after, refines, ?_, ?_, traced.incoming, traced.ends, ?_, ?_⟩
  · rcases log_advance _ ideal with ⟨-, same⟩ | ⟨dispatch, -, more⟩
    · rw [same]
      exact traced.outgoing
    · rw [more, List.take_append_of_le_length sent]
      exact traced.outgoing
  · rcases log_advance _ ideal with ⟨same, also⟩ | ⟨dispatch, more, also⟩
    · rw [same, also, traced.output]
    · rw [more, also, traced.output, List.flatMap_append, List.flatMap_singleton]
      rfl
  · intro running
    obtain ⟨same, -⟩ | ⟨ended, -⟩ := advance_closed _ ideal
    · rw [same]
      exact traced.closed (advance_cases _ ideal).1
    · exact absurd ended running
  · rw [← traced.settled]
    exact (settle_of_some (ranked_advance _) ideal).symm

theorem ServedStream.Traced.write (traced : s.Traced server asks t calls)
    {results : List WriteResult} (steady : server.Steady s (.write results))
    (taken : server.streamStep asks s (.write results) = some next) :
    next.Traced server asks t calls := by
  obtain ⟨⟨writeBuf, outcome⟩, wrote, rfl⟩ := Option.map_eq_some_iff.mp taken
  obtain ⟨before, last, stores⟩ := traced.refines.writeBuf
  have ends : ShortWriteEnds (needWrite (t.output.drop s.outgoing.length).length) results := by
    rw [← stores.totalSize]
    exact steady
  obtain ⟨-, within, front, stored⟩ := stores.asyncWrite ends wrote
  have sent := traced.refines.sent
  rw [List.length_drop] at within
  have long : (s.outgoing ++ outcome.bytes).length = s.outgoing.length + outcome.written := by
    rw [List.length_append, front, List.length_take, List.length_drop, min_eq_left within]
  refine ⟨⟨traced.refines.readBuf, ?_, ?_, traced.refines.closed, traced.refines.phase,
    traced.refines.dispatched⟩, ?_, traced.output, traced.incoming, traced.ends, traced.closed,
    traced.settled⟩
  · rw [long, ← List.drop_drop]
    exact stored
  · dsimp only
    rw [long]
    omega
  · dsimp only
    rw [long, List.take_add, ← traced.outgoing, ← front]

/-- **One step** keeps the connection that of an ideal coroutine. -/
theorem traced_step {label : StreamStep}
    (traced : ∃ t calls, s.Traced server asks t calls) (steady : server.Steady s label)
    (taken : server.streamStep asks s label = some next) :
    ∃ t calls, next.Traced server asks t calls := by
  obtain ⟨t, calls, traced⟩ := traced
  cases label with
  | read results => exact traced.read steady taken
  | advance =>
      obtain ⟨after, traced⟩ := traced.advance steady taken
      exact ⟨after, calls, traced⟩
  | write results => exact ⟨t, calls, traced.write steady taken⟩

/-! ## The stream as a whole -/

/-- What the ideal coroutine has dispatched when it waits or has ended. -/
theorem dispatched_recvFn (calls : List ReadCall) (ends : EndsStream calls) :
    ((server.onBuffers asks).recvFn calls).dispatched = server.reference (received calls) := by
  have whole := view_recvFn (server.onBuffers asks) Receiver.log (fun _ _ _ => rfl) ends
  have log := log_settled (server.onBuffers asks) { (.init : Receiver Method Message) with
    queue := LimitedQueue.empty.append (received calls)
    closed := calls.any fun call => call.outcome.closes } rfl rfl
  have both := congrArg Prod.fst (whole.trans log)
  simpa [Receiver.log, Receiver.init, LimitedQueue.empty, reference_onBuffers] using both

/-- **The stream is answered.** In every run of the connection on its buffers, however the
kernels cut the two streams: the requests handled so far are the first that the parser of
all incoming bytes finds, and they are all of them whenever the coroutine waits or has
ended; what was sent and what the write buffer still holds are the frames of their
responses, in this order. -/
theorem stream_answered (readMemory writeMemory : Ptr → Nat → UInt8) {labels : List StreamStep}
    (run : exec (server.streamStep asks) (.init readMemory writeMemory) labels = some s)
    (steady : Along (server.streamStep asks) server.Steady (.init readMemory writeMemory) labels) :
    s.receiver.dispatched <+: server.reference s.incoming ∧
      s.outgoing ++ s.receiver.writeBuf.contents =
        s.receiver.dispatched.flatMap server.responseFrame ∧
      (s.receiver.Awaits ∨ s.receiver.Ended →
        s.receiver.dispatched = server.reference s.incoming) := by
  have start : ∃ t calls, (ServedStream.init readMemory writeMemory :
      ServedStream Method Message).Traced server asks t calls :=
    ⟨_, _, traced_init readMemory writeMemory⟩
  obtain ⟨t, calls, traced⟩ := exec_invariant
    (fun s label next traced steady taken => traced_step traced steady taken) start run steady
  have refines := traced.refines
  have whole : ((server.onBuffers asks).settled t).dispatched = server.reference s.incoming := by
    rw [traced.settled, traced.incoming]
    exact dispatched_recvFn calls traced.ends
  refine ⟨?_, ?_, fun rests => ?_⟩
  · rw [refines.dispatched, ← whole]
    exact dispatched_prefix_settled _ t
  · obtain ⟨before, last, stores⟩ := refines.writeBuf
    rw [stores.contents_eq, refines.dispatched, ← traced.output]
    nth_rewrite 1 [traced.outgoing]
    exact List.take_append_drop ..
  · have waits : (server.onBuffers asks).advance t = none := by
      rcases rests with awaits | ended
      · exact ((refines.awaits_iff _).mp awaits).2
      · apply advance_of_ended
        have phase := refines.phase
        simp only [BufferedReceiver.Ended, phase] at ended
        unfold Receiver.Ended
        split at ended <;> simp_all
    rw [refines.dispatched, ← whole, RpcServer.settled, settle_of_none waits]

/-- A call of `Echo` cut inside its header: the response goes out in two writes. -/
theorem stream_answered_of_cut :
    ∃ s ∈ exec (Example.echoServer.streamStep fun _ _ => 0) (.init (fun _ _ => 0) fun _ _ => 0)
        [.read [.data (Example.hiRequest.take 10), .again], .advance,
          .read [.data (Example.hiRequest.drop 10), .again], .advance, .advance, .advance,
          .write [.accepted 5, .again], .write [.interrupted, .accepted 2, .again]],
      s.outgoing.length = 7 ∧ s.outgoing ++ s.receiver.writeBuf.contents =
        s.receiver.dispatched.flatMap Example.echoServer.responseFrame := by
  obtain ⟨s, run, sent⟩ : ∃ s ∈ exec (Example.echoServer.streamStep fun _ _ => 0)
      (.init (fun _ _ => 0) fun _ _ => 0)
      [.read [.data (Example.hiRequest.take 10), .again], .advance,
        .read [.data (Example.hiRequest.drop 10), .again], .advance, .advance, .advance,
        .write [.accepted 5, .again], .write [.interrupted, .accepted 2, .again]],
      s.outgoing.length = 7 := by
    decide +kernel
  refine ⟨s, run, sent, (stream_answered (fun _ _ => 0) (fun _ _ => 0) run ?_).2.1⟩
  decide +kernel

end Drpc.Server
