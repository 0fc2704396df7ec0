import Drpc.Net.BufferedEndpoint

/-! # Receiving ends

What it means on the buffers that `recv_fn` ends when the peer has closed
(`BufferedEndpoint.ReceivingEnds`), and that it does for an endpoint that refines an ideal
one whose coroutine does not read a closed connection (`receivingEnds`).
-/

namespace Drpc.Net

open Transition Settling

variable {State Call Ideal : Type}

/-- The kernel gives the calls in their order, each with what its view has room for. -/
def Kernel (calls : Nat → ReadCall) (r : Reader State Call) : Label Call → Prop
  | .read call => call = calls r.count ∧ Answers call.space call.results
  | .callMethod _ | .userClose | .task | .event .. | .write _ | .goOn => True

instance decidableKernel (calls : Nat → ReadCall) (r : Reader State Call) :
    ∀ label, Decidable (Kernel calls r label)
  | .read _ => inferInstanceAs (Decidable (_ ∧ _))
  | .callMethod _ | .userClose | .task | .event .. | .write _ | .goOn => .isTrue trivial

namespace BufferedEndpoint

variable (buffered : BufferedEndpoint State Call)

/-- One step, with the calls of `async_read` counted. -/
def readingStep : Reader State Call → Label Call → Option (Reader State Call) :=
  readerStep buffered.step

/-- The steps of a run that is given the calls. -/
def Given (careful : Connection State Call → Label Call → Prop) (calls : Nat → ReadCall)
    (r : Reader State Call) (label : Label Call) : Prop :=
  Kernel calls r label ∧ careful r.connection label

instance decidableGiven (careful : Connection State Call → Label Call → Prop)
    [∀ s label, Decidable (careful s label)] (calls : Nat → ReadCall) (r : Reader State Call)
    (label : Label Call) : Decidable (Given careful calls r label) :=
  inferInstanceAs (Decidable (_ ∧ _))

/-- A careful run leads to the connection, with the calls given to it. -/
def Reached (careful : Connection State Call → Label Call → Prop) (calls : Nat → ReadCall)
    (r : Reader State Call) : Prop :=
  ∃ labels, exec buffered.readingStep ⟨buffered.connect, 0⟩ labels = some r ∧
    Along buffered.readingStep (Given careful calls) ⟨buffered.connect, 0⟩ labels

/-- **Receiving ends** in every careful run that is given the calls. -/
structure ReceivingEnds (careful : Connection State Call → Label Call → Prop)
    (calls : Nat → ReadCall) : Prop where
  /-- `recv_fn` does not call `async_read` on a closed connection, -/
  opened : ∀ r, buffered.Reached careful calls r → buffered.Reads r.connection →
    buffered.closed r.connection.state = false
  /-- it calls it finitely often, -/
  enough : ∃ enough, ∀ r, buffered.Reached careful calls r → r.count ≤ enough
  /-- and the thread that runs it neither comes to undefined code, -/
  goes : ∀ r, buffered.Reached careful calls r → buffered.Goes careful r.connection
  resumed : ∀ r, buffered.Reached careful calls r → ∀ resume ∈ r.connection.resumed, resume.Sound
  /-- nor does it go on for ever; -/
  bounded : ∀ r, buffered.Reached careful calls r → ∃ bound, ∀ labels final,
    exec buffered.readingStep r labels = some final →
      Along buffered.readingStep (Given careful calls) r labels →
        (∀ label ∈ labels, label.Own) → labels.length ≤ bound
  /-- where it is idle behind the end of the stream, `recv_fn` has come to its end. -/
  finished : ∀ r, buffered.Reached careful calls r → Closes (firstCalls calls r.count) →
    r.connection.Idle → r.connection.recv = .finished

end BufferedEndpoint

/-! ## On an endpoint that refines an ideal one -/

section Ends

variable {buffered : BufferedEndpoint State Call} {endpoint : Endpoint Ideal Call}
  {related : State → Ideal → Nat → Prop} {admits : State → Prop} {fits : State → Call → Prop}
  {quiet : Ideal → Prop} {tracks : Ideal → Nat → Prop} {calls : Nat → ReadCall}

/-- The connection follows one of the ideal endpoint that keeps its invariant. -/
def Reader.Follows (related : State → Ideal → Nat → Prop) (endpoint : Endpoint Ideal Call)
    (calls : Nat → ReadCall) (tracks : Ideal → Nat → Prop) (r : Reader State Call)
    (image : Reader Ideal Call) : Prop :=
  r.connection.Related related image.connection ∧ r.count = image.count ∧
    image.Inv endpoint calls tracks

/-- The thread has at most `bound` steps of its own to make. -/
def Reader.Within (related : State → Ideal → Nat → Prop) (endpoint : Endpoint Ideal Call)
    (calls : Nat → ReadCall) (tracks : Ideal → Nat → Prop) (rank : Ideal → Nat) (bytes : Bytes)
    (r : Reader State Call) (bound : Nat) : Prop :=
  ∃ image, r.Follows related endpoint calls tracks image ∧
    image.budget endpoint rank bytes calls = bound

variable {r after : Reader State Call} {image : Reader Ideal Call}

/-- A careful step is one that the ideal run heeds. -/
theorem heeds_of_careful (refines : buffered.Refines endpoint related admits fits)
    (quietly : ∀ {s t sent}, related s t sent → admits s → endpoint.closed t = true →
      (endpoint.advance t).isSome = true → quiet t)
    (follows : r.Follows related endpoint calls tracks image) {label : Label Call}
    (given : BufferedEndpoint.Given (buffered.Careful admits fits) calls r label) :
    endpoint.Heeds calls quiet image label := by
  obtain ⟨connection, counted⟩ := image
  obtain ⟨⟨t, relates, rfl⟩, count, -⟩ := follows
  obtain ⟨kernel, careful⟩ := given
  cases label with
  | callMethod call | userClose => trivial
  | read call => exact kernel.1.trans (congrArg calls count)
  | goOn => exact fun still inLoop closed goes => quietly relates (careful still inLoop) closed goes
  | event hup out in_ =>
      have ended := refines.ended relates
      simp only [BufferedEndpoint.Careful, ended] at careful
      exact careful
  | task =>
      have closed := refines.closed relates
      have same : (r.connection.on t).tasks = r.connection.tasks := rfl
      unfold Endpoint.Heeds
      dsimp only
      rw [same]
      cases tasks : r.connection.tasks with
      | nil => trivial
      | cons task rest =>
          cases task with
          | sendFn | recvFn => trivial
          | sendRequest call =>
              simp only [BufferedEndpoint.Careful, tasks] at careful
              exact closed.symm.trans careful.1
  | write results =>
      have bytes := refines.toWriteBytes relates
      change ((endpoint.output t).drop r.connection.sent).length < 2 ^ 31
      rw [← bytes]
      exact careful.2

theorem follows_connect (refines : buffered.Refines endpoint related admits fits)
    (lawful : endpoint.Lawful quiet) (tracked : endpoint.Tracked calls tracks) :
    (⟨buffered.connect, 0⟩ : Reader State Call).Follows related endpoint calls tracks
      ⟨endpoint.connect, 0⟩ :=
  ⟨refines.connect, rfl, reader_inv_connect lawful tracked⟩

/-- **One step** of the buffers is one of the ideal endpoint, which keeps its invariant. -/
theorem Reader.Follows.step (refines : buffered.Refines endpoint related admits fits)
    (lawful : endpoint.Lawful quiet) (tracked : endpoint.Tracked calls tracks)
    (quietly : ∀ {s t sent}, related s t sent → admits s → endpoint.closed t = true →
      (endpoint.advance t).isSome = true → quiet t)
    (follows : r.Follows related endpoint calls tracks image) {label : Label Call}
    (given : BufferedEndpoint.Given (buffered.Careful admits fits) calls r label)
    (taken : buffered.readingStep r label = some after) :
    ∃ next, readerStep endpoint.step image label = some next ∧
      endpoint.Heeds calls quiet image label ∧
        after.Follows related endpoint calls tracks next := by
  have heeds := heeds_of_careful refines quietly follows given
  obtain ⟨relates, count, inv⟩ := follows
  obtain ⟨connection, moved, rfl⟩ := Option.map_eq_some_iff.mp taken
  have answers : ∀ call, label = .read call → Answers call.space call.results := by
    rintro call rfl
    exact given.1.2
  obtain ⟨next, ideal, kept⟩ := refines.step relates given.2 answers moved
  have also : readerStep endpoint.step image label = some ⟨next, image.count + label.reads⟩ := by
    rw [readerStep, ideal, Option.map_some]
  exact ⟨_, also, heeds, kept, congrArg (· + label.reads) count,
    inv.step lawful tracked heeds also⟩

/-- **Receiving ends** on buffers that refine an ideal endpoint whose `recv_fn` reads no
closed connection and makes finitely many turns between two of its reads. -/
theorem receivingEnds {rank : Ideal → Nat} {bytes : Bytes}
    (refines : buffered.Refines endpoint related admits fits) (lawful : endpoint.Lawful quiet)
    (tracked : endpoint.Tracked calls tracks) (ranked : Ranked endpoint.advance rank)
    (delivers : ∀ s call, rank (endpoint.deliver s call) ≤ rank s + 2 * call.outcome.bytes.length)
    (quietly : ∀ {s t sent}, related s t sent → admits s → endpoint.closed t = true →
      (endpoint.advance t).isSome = true → quiet t)
    (stream : ReadsStream bytes calls) :
    buffered.ReceivingEnds (buffered.Careful admits fits) calls := by
  have preserved : ∀ (r : Reader State Call) label after,
      (∃ image, r.Follows related endpoint calls tracks image) →
        BufferedEndpoint.Given (buffered.Careful admits fits) calls r label →
          buffered.readingStep r label = some after →
            ∃ image, after.Follows related endpoint calls tracks image := by
    intro r label after follows given taken
    obtain ⟨image, follows⟩ := follows
    obtain ⟨next, -, -, kept⟩ := follows.step refines lawful tracked quietly given taken
    exact ⟨next, kept⟩
  have followed : ∀ r, buffered.Reached (buffered.Careful admits fits) calls r →
      ∃ image, r.Follows related endpoint calls tracks image := by
    intro r reached
    obtain ⟨labels, run, along⟩ := reached
    exact exec_invariant preserved ⟨_, follows_connect refines lawful tracked⟩ run along
  have descends : ∀ (r : Reader State Call) label after bound,
      r.Within related endpoint calls tracks rank bytes bound →
        BufferedEndpoint.Given (buffered.Careful admits fits) calls r label ∧ label.Own →
          buffered.readingStep r label = some after →
            ∃ less < bound, after.Within related endpoint calls tracks rank bytes less := by
    intro r label after bound within both taken
    obtain ⟨image, follows, rfl⟩ := within
    obtain ⟨next, ideal, heeds, kept⟩ := follows.step refines lawful tracked quietly both.1 taken
    exact ⟨_, follows.2.2.budget_lt lawful tracked ranked delivers stream heeds both.2 ideal,
      next, kept, rfl⟩
  obtain ⟨found, closes⟩ := stream.closes_eventually
  refine ⟨fun r reached reads => ?_, ⟨found + 1, fun r reached => ?_⟩, fun r reached => ?_,
    fun r reached => ?_, fun r reached => ?_, fun r reached closes idle => ?_⟩
  all_goals
    obtain ⟨⟨connection, counted⟩, follows⟩ := followed r reached
    have ⟨⟨t, relates, same⟩, count, inv⟩ := follows
    subst same
  · have waits := ((refines.awaits relates).mp reads.2.2).2
    exact (refines.closed relates).trans (inv.opened tracked reads.2.1 waits)
  · exact count.trans_le (inv.count_le closes)
  · refine refines.goes ⟨t, relates, rfl⟩ fun running => ?_
    rw [refines.ended relates]
    by_contra ended
    have finished : r.connection.recv = .finished :=
      inv.handles.ended.mpr (Bool.eq_true_of_not_eq_false ended)
    rw [finished] at running
    cases running
  · exact inv.handles.resumed
  · exact ⟨_, fun labels final run along own => exec_length_le descends ⟨_, follows, rfl⟩ run
      (along_and along (along_of_forall_mem own r))⟩
  · exact inv.finished (count ▸ closes) idle

end Ends

end Drpc.Net
