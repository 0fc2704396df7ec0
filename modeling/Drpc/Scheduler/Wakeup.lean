import Drpc.Library.Transition
import Mathlib.Logic.Function.Basic

/-! # Waking the executor

The executor thread pops tasks until its queue is empty, sets `should_notify_`
and blocks in `epoll_wait`. A thread that calls `spawn` pushes its task, tries to
take the flag from `true` to `false`, and writes to the eventfd when it took it.
Every atomic operation and every system call is one step here; the task queue is
an ideal queue.

The window between the last `pop` and the store of the flag is not covered: a
task pushed there is announced by nobody (`wakeup_lost`). As long as no `spawn`
whose task is still in the queue meets the lowered flag in that window or behind
another caller's unwritten notification, a task whose `spawn` has returned always
finds a pending notification (`wakeup_pending`).
-/

namespace Drpc.Scheduler

open Transition

/-- Where the executor thread stands in its loop. -/
inductive ExecutorPc where
  /-- Before `task_queue_.pop`, or inside a task. -/
  | popping
  /-- The queue was empty; before `should_notify_.store(true)`. -/
  | storing
  /-- Inside `epoll_wait`. -/
  | waiting
  /-- The eventfd is ready; before `::read`. -/
  | reading
  /-- The eventfd is read; before `should_notify_.store(false)`. -/
  | clearing
  deriving DecidableEq, Repr

/-- Where one call of `spawn` stands. -/
inductive SpawnPc where
  | idle
  /-- The task is in the queue; before the `compare_exchange`. -/
  | pushed
  /-- The flag was taken; before the `::write` to the eventfd. -/
  | won
  | returned
  deriving DecidableEq, Repr

/-- The shared state. A call of `spawn` and its task have the same number. -/
structure Executor where
  taskQueue : List Nat
  shouldNotify : Bool
  /-- The counter of the eventfd: a notification is pending when it is positive. -/
  eventFd : Nat
  pc : ExecutorPc
  spawn : Nat → SpawnPc

/-- A new executor: no task, the flag down, the thread at the top of its loop. -/
def Executor.init : Executor where
  taskQueue := []
  shouldNotify := false
  eventFd := 0
  pc := .popping
  spawn := fun _ => .idle

/-- The indivisible steps of the executor thread and of the callers of `spawn`. -/
inductive ExecutorStep where
  | push (call : Nat)
  | compareExchange (call : Nat)
  | write (call : Nat)
  | pop
  | store
  /-- `epoll_wait` returns: with the eventfd among its events, or without it
  (another descriptor, the timeout, an error). -/
  | wake (eventFdReady : Bool)
  | read
  | clear
  deriving DecidableEq, Repr

/-- One step of the executor or of a caller. -/
def Executor.step (s : Executor) : ExecutorStep → Option Executor
  | .push call =>
      if s.spawn call = .idle then
        some { s with
          taskQueue := s.taskQueue ++ [call]
          spawn := Function.update s.spawn call .pushed }
      else none
  | .compareExchange call =>
      if s.spawn call = .pushed then
        if s.shouldNotify then
          some { s with shouldNotify := false, spawn := Function.update s.spawn call .won }
        else some { s with spawn := Function.update s.spawn call .returned }
      else none
  | .write call =>
      if s.spawn call = .won then
        some { s with
          eventFd := s.eventFd + 1
          spawn := Function.update s.spawn call .returned }
      else none
  | .pop =>
      if s.pc = .popping then
        match s.taskQueue with
        | [] => some { s with pc := .storing }
        | _ :: rest => some { s with taskQueue := rest }
      else none
  | .store =>
      if s.pc = .storing then some { s with shouldNotify := true, pc := .waiting } else none
  | .wake eventFdReady =>
      if s.pc = .waiting then
        if eventFdReady then
          if 0 < s.eventFd then some { s with pc := .reading } else none
        else some { s with pc := .popping }
      else none
  | .read => if s.pc = .reading then some { s with eventFd := 0, pc := .clearing } else none
  | .clear =>
      if s.pc = .clearing then some { s with shouldNotify := false, pc := .popping } else none

/-- A task of a returned `spawn` that the executor has not popped. -/
def Executor.Stranded (s : Executor) (call : Nat) : Prop :=
  call ∈ s.taskQueue ∧ s.spawn call = .returned

/-- The executor has found its queue empty and has not come back from `epoll_wait`. -/
def Executor.Parking (s : Executor) : Prop := s.pc = .storing ∨ s.pc = .waiting

/-- No `spawn` whose task is still to be popped meets a lowered flag while the
executor is parking and no notification is pending. -/
def Timely (s : Executor) : ExecutorStep → Prop
  | .compareExchange call =>
      s.shouldNotify = true ∨ ¬ s.Parking ∨ 0 < s.eventFd ∨ call ∉ s.taskQueue
  | _ => True

instance (s : Executor) (label : ExecutorStep) : Decidable (Timely s label) := by
  cases label <;> unfold Timely <;> try unfold Executor.Parking
  all_goals infer_instance

/-- The invariant behind the wake-up: while the executor is parking, a task of a
returned `spawn` comes with a pending notification. -/
def Executor.Announced (s : Executor) : Prop :=
  s.Parking → (∃ call, s.Stranded call) → 0 < s.eventFd

/-- A step that leaves the queue and the eventfd as they are, and lets no call
return, keeps a parked executor's tasks announced. -/
private theorem announced_of_same {s t : Executor} (announced : s.Announced)
    (parked : t.Parking → s.Parking) (sameFd : t.eventFd = s.eventFd)
    (stranded : ∀ call, t.Stranded call → s.Stranded call) : t.Announced := by
  intro parking ⟨call, waiting⟩
  rw [sameFd]
  exact announced (parked parking) ⟨call, stranded call waiting⟩

/-- One timely step keeps the tasks of a parked executor announced. -/
theorem announced_step (s : Executor) (label : ExecutorStep) (t : Executor)
    (announced : s.Announced) (timely : Timely s label) (taken : s.step label = some t) :
    t.Announced := by
  cases label with
  | push call =>
      simp only [Executor.step, Option.ite_none_right_eq_some, Option.some.injEq] at taken
      obtain ⟨-, rfl⟩ := taken
      -- The pushed task belongs to a call that has not returned.
      refine announced_of_same announced id rfl fun other ⟨member, returned⟩ => ?_
      by_cases same : other = call
      · subst same
        simp at returned
      · simp only [Function.update_of_ne same] at returned
        simp only [List.mem_append, List.mem_singleton, same, or_false] at member
        exact ⟨member, returned⟩
  | compareExchange call =>
      simp only [Executor.step, Option.ite_none_right_eq_some] at taken
      obtain ⟨-, taken⟩ := taken
      by_cases flag : s.shouldNotify
      · simp only [flag, ↓reduceIte, Option.some.injEq] at taken
        subst taken
        refine announced_of_same announced id rfl fun other ⟨member, returned⟩ => ?_
        by_cases same : other = call
        · subst same
          simp at returned
        · simp only [Function.update_of_ne same] at returned
          exact ⟨member, returned⟩
      · simp only [flag, Bool.false_eq_true, ↓reduceIte, Option.some.injEq] at taken
        subst taken
        intro parking ⟨other, member, returned⟩
        rcases timely with raised | elsewhere | pending | popped
        · exact (flag raised).elim
        · exact (elsewhere parking).elim
        · exact pending
        · -- the task that waits is another one
          have different : other ≠ call := by
            rintro rfl
            exact popped member
          simp only [Function.update_of_ne different] at returned
          exact announced parking ⟨other, member, returned⟩
  | write call =>
      simp only [Executor.step, Option.ite_none_right_eq_some, Option.some.injEq] at taken
      obtain ⟨-, rfl⟩ := taken
      exact fun _ _ => Nat.succ_pos _
  | pop =>
      simp only [Executor.step, Option.ite_none_right_eq_some] at taken
      obtain ⟨popping, taken⟩ := taken
      cases queue : s.taskQueue with
      | nil =>
          simp only [queue, Option.some.injEq] at taken
          subst taken
          rintro - ⟨call, member, -⟩
          simp at member
      | cons task rest =>
          simp only [queue, Option.some.injEq] at taken
          subst taken
          intro parking
          simp [Executor.Parking, popping] at parking
  | store =>
      simp only [Executor.step, Option.ite_none_right_eq_some, Option.some.injEq] at taken
      obtain ⟨storing, rfl⟩ := taken
      exact announced_of_same announced (fun _ => .inl storing) rfl fun _ stranded => stranded
  | wake eventFdReady =>
      simp only [Executor.step, Option.ite_none_right_eq_some] at taken
      obtain ⟨-, taken⟩ := taken
      intro parking
      cases eventFdReady
      · simp only [Bool.false_eq_true, ↓reduceIte, Option.some.injEq] at taken
        subst taken
        simp [Executor.Parking] at parking
      · simp only [↓reduceIte, Option.ite_none_right_eq_some, Option.some.injEq] at taken
        obtain ⟨-, rfl⟩ := taken
        simp [Executor.Parking] at parking
  | read =>
      simp only [Executor.step, Option.ite_none_right_eq_some, Option.some.injEq] at taken
      obtain ⟨-, rfl⟩ := taken
      intro parking
      simp [Executor.Parking] at parking
  | clear =>
      simp only [Executor.step, Option.ite_none_right_eq_some, Option.some.injEq] at taken
      obtain ⟨-, rfl⟩ := taken
      intro parking
      simp [Executor.Parking] at parking

/-- The tasks of a parked executor are announced in every timely run. -/
theorem announced_of_run {labels : List ExecutorStep} {s : Executor}
    (run : exec Executor.step .init labels = some s)
    (timely : Along Executor.step Timely .init labels) : s.Announced :=
  exec_invariant announced_step
    (fun parking => by simp [Executor.Parking, Executor.init] at parking) run timely

/-- **A timely run never loses a wake-up.** In every run in which each `spawn`
finds the flag raised, the executor awake, a notification pending, or its task
popped, an executor blocked in `epoll_wait` with the task of a returned `spawn` in
its queue has a pending notification. -/
theorem wakeup_pending (labels : List ExecutorStep) (s : Executor)
    (run : exec Executor.step .init labels = some s)
    (timely : Along Executor.step Timely .init labels)
    (waiting : s.pc = .waiting) (call : Nat) (stranded : s.Stranded call) :
    0 < s.eventFd :=
  announced_of_run run timely (.inr waiting) ⟨call, stranded⟩

/-- A `spawn` that arrives after the store takes the flag and its notification is
pending when it returns. -/
theorem wakeup_pending_after_store :
    ∃ s, exec Executor.step .init
        [.pop, .store, .push 0, .compareExchange 0, .write 0] = some s ∧
      s.pc = .waiting ∧ s.Stranded 0 ∧ 0 < s.eventFd := by
  refine ⟨_, rfl, rfl, ⟨by decide, rfl⟩, ?_⟩
  exact wakeup_pending [.pop, .store, .push 0, .compareExchange 0, .write 0] _ rfl
    (by simp [Along, Timely, Executor.step, Executor.init, Executor.Parking])
    rfl 0 ⟨by decide, rfl⟩

/-- An untimely `spawn` does lose its wake-up: once its `compare_exchange` has
missed between the last `pop` and the store, the store blocks the executor with
the task in the queue and nothing pending. -/
theorem blocked_of_untimely (s : Executor) (call : Nat) (member : call ∈ s.taskQueue)
    (pushed : s.spawn call = .pushed) (lowered : s.shouldNotify = false)
    (storing : s.pc = .storing) (quiet : s.eventFd = 0) :
    ∃ t, exec Executor.step s [.compareExchange call, .store] = some t ∧
      t.pc = .waiting ∧ t.Stranded call ∧ t.eventFd = 0 := by
  refine ⟨{ s with
    shouldNotify := true, pc := .waiting,
    spawn := Function.update s.spawn call .returned }, ?_, rfl, ⟨member, ?_⟩, quiet⟩
  · simp [exec_cons, Executor.step, pushed, lowered, storing]
  · simp

/-- The task pushed between the last `pop` and the store of the flag: its `spawn`
has returned, the executor is blocked, and no notification is pending. -/
theorem wakeup_lost :
    ¬ ∀ (labels : List ExecutorStep) (s : Executor),
      exec Executor.step .init labels = some s → s.pc = .waiting →
        ∀ call, s.Stranded call → 0 < s.eventFd := by
  intro always
  have pending := always [.pop, .push 0, .compareExchange 0, .store] _ rfl rfl 0
    ⟨by decide, rfl⟩
  exact absurd pending (by decide)

end Drpc.Scheduler
