import Drpc.Net.Coroutines

/-! # The tasks of a connection

The code of a connection does not look at the tasks behind it: it does the same whatever
they are (`step_withTasks`), and leaves them (`tasks_of_step`). Several connections can thus
keep their tasks in one queue.
-/

namespace Drpc.Net

variable {State Call : Type}

/-- The connection with other tasks. -/
def withTasks (tasks : List (Task Call)) (c : Connection State Call) :
    Connection State Call := { c with tasks }

/-- The call behind a closure of `CallMethod`. -/
def Task.closure : Task Call → Option Call
  | .sendRequest call => some call
  | .sendFn | .recvFn => none

variable {endpoint : Endpoint State Call} {s next : Connection State Call}

theorem resumeWrite_withTasks (tasks : List (Task Call)) (c : Connection State Call) :
    (withTasks tasks c).resumeWrite = withTasks tasks c.resumeWrite := by
  unfold Connection.resumeWrite withTasks
  dsimp only
  split <;> rfl

/-- `send_fn` does not look at the tasks. -/
theorem sendFn_withTasks (tasks : List (Task Call)) (c : Connection State Call)
    (point : SendPoint) :
    endpoint.sendFn (withTasks tasks c) point =
      (endpoint.sendFn c point).map (withTasks tasks) := by
  cases point with
  | top | asyncWrite => rfl
  | waitWrite =>
      unfold Endpoint.sendFn
      rw [apply_ite (Option.map (withTasks tasks))]
      rfl

/-- Nor does `recv_fn`, -/
theorem recvFn_withTasks (tasks : List (Task Call)) (c : Connection State Call)
    (point : RecvPoint) :
    endpoint.recvFn (withTasks tasks c) point =
      (endpoint.recvFn c point).map (withTasks tasks) := by
  cases point with
  | loop =>
      unfold Endpoint.recvFn
      dsimp only
      rw [Option.map_map]
      change Option.map _ (endpoint.advance c.state) = _
      congr 1
      funext after
      rw [Function.comp_apply, apply_ite (withTasks tasks), apply_ite (withTasks tasks),
        ← resumeWrite_withTasks]
      rfl
  | awaiting read =>
      unfold Endpoint.recvFn
      dsimp only
      rw [apply_ite (Option.map (withTasks tasks))]
      rfl

/-- nor the thread. -/
theorem goOn_withTasks (tasks : List (Task Call)) (c : Connection State Call) :
    endpoint.goOn (withTasks tasks c) = (endpoint.goOn c).map (withTasks tasks) := by
  obtain ⟨state, sent, recv, send, readHandle, writeHandle, registered, armed, old, readable,
    resumed⟩ := c
  cases send with
  | running point => exact sendFn_withTasks tasks _ point
  | notStarted | suspended awaiter | finished =>
      cases recv with
      | running point => exact recvFn_withTasks tasks _ point
      | notStarted | suspended | finished => cases readable <;> rfl

theorem handle_withTasks (tasks : List (Task Call)) (c : Connection State Call)
    (hup out in_ : Bool) :
    endpoint.handle (withTasks tasks c) hup out in_ =
      withTasks tasks (endpoint.handle c hup out in_) := by
  unfold Endpoint.handle
  cases hup with
  | true => rfl
  | false =>
      cases out with
      | false => rfl
      | true =>
          change ({ (withTasks tasks { c with armed := false }).resumeWrite with readable := in_ } :
            Connection State Call) = _
          rw [resumeWrite_withTasks]
          rfl

theorem read_withTasks (tasks : List (Task Call)) (c : Connection State Call)
    (call : ReadCall) :
    endpoint.read (withTasks tasks c) call = withTasks tasks (endpoint.read c call) := by
  unfold Endpoint.read
  dsimp only
  rw [apply_ite (withTasks tasks), ← resumeWrite_withTasks]
  rfl

theorem write_withTasks (tasks : List (Task Call)) (c : Connection State Call)
    (results : List WriteResult) :
    endpoint.write (withTasks tasks c) results =
      (endpoint.write c results).map (withTasks tasks) := by
  unfold Endpoint.write
  rw [Option.map_map]
  change Option.map _ (asyncWrite (endpoint.content c) results) = _
  congr 1
  funext outcome
  rw [Function.comp_apply, apply_ite (withTasks tasks)]
  rfl

/-- Only a task and `CallMethod` look at the tasks. -/
theorem step_withTasks (tasks : List (Task Call)) (c : Connection State Call)
    {label : Label Call} (code : label ≠ .task) (own : ∀ call, label ≠ .callMethod call) :
    endpoint.step (withTasks tasks c) label =
      (endpoint.step c label).map (withTasks tasks) := by
  cases label with
  | callMethod call => exact absurd rfl (own call)
  | task => exact absurd rfl code
  | goOn => exact goOn_withTasks tasks c
  | userClose =>
      unfold Endpoint.step
      rw [apply_ite (Option.map (withTasks tasks)), Option.map_map]
      rfl
  | event hup out in_ =>
      unfold Endpoint.step
      rw [apply_ite (Option.map (withTasks tasks)), Option.map_some, ← handle_withTasks]
      rfl
  | read call =>
      unfold Endpoint.step
      rw [apply_ite (Option.map (withTasks tasks)), Option.map_some, ← read_withTasks]
      rfl
  | write results =>
      unfold Endpoint.step
      rw [apply_ite (Option.map (withTasks tasks)), ← write_withTasks]
      rfl

/-- A task does not look at the others. -/
theorem runTask_withTasks (tasks : List (Task Call)) (c : Connection State Call)
    (task : Task Call) :
    endpoint.runTask (withTasks tasks c) task =
      (endpoint.runTask c task).map (withTasks tasks) := by
  cases task with
  | sendFn | recvFn => rfl
  | sendRequest call =>
      unfold Endpoint.runTask
      dsimp only
      rw [Option.map_map]
      change Option.map _ (endpoint.sendRequest c.state call) = _
      congr 1
      funext state
      rw [Function.comp_apply, ← resumeWrite_withTasks]
      rfl

/-- What a step leaves of the tasks. -/
theorem tasks_of_step {label : Label Call} (taken : endpoint.step s label = some next) :
    (∃ call, label = .callMethod call ∧ next.tasks = s.tasks ++ [.sendRequest call]) ∨
      (∃ task rest, label = .task ∧ s.tasks = task :: rest ∧ next.tasks = rest) ∨
      ((∀ call, label ≠ .callMethod call) ∧ label ≠ .task ∧ next.tasks = s.tasks) := by
  by_cases task : label = .task
  · subst task
    simp only [Endpoint.step] at taken
    cases tasks : s.tasks with
    | nil => simp only [tasks, reduceCtorEq] at taken
    | cons task rest =>
        simp only [tasks, Option.ite_none_right_eq_some] at taken
        have same : endpoint.runTask { s with tasks := rest } task =
            (endpoint.runTask { s with tasks := rest } task).map (withTasks rest) :=
          runTask_withTasks rest { s with tasks := rest } task
        rw [taken.2, Option.map_some, Option.some.injEq] at same
        refine .inr (.inl ⟨task, rest, rfl, rfl, ?_⟩)
        rw [same]
        rfl
  · by_cases calls : ∃ call, label = .callMethod call
    · obtain ⟨call, rfl⟩ := calls
      cases taken
      exact .inl ⟨call, rfl, rfl⟩
    · have code : ∀ call, label ≠ .callMethod call := fun call same => calls ⟨call, same⟩
      have same : endpoint.step s label = (endpoint.step s label).map (withTasks s.tasks) :=
        step_withTasks s.tasks s task code
      rw [taken, Option.map_some, Option.some.injEq] at same
      refine .inr (.inr ⟨code, task, ?_⟩)
      rw [same]
      rfl

end Drpc.Net
