import Mathlib.Data.List.Nodup
import Drpc.Library.Simulation
import Drpc.Net.Tasks
import Drpc.Scheduler.Wakeup

/-! # The thread of an executor

One thread runs the coroutines of all connections of an executor. It pops tasks until the
queue is empty, raises `should_notify_`, and handles the events of `epoll_wait` one behind
the other; the eventfd is one of the descriptors. As in `Wakeup`, `task_queue_` is an ideal
FIFO queue, in place of `MPMCQueue`.

Seen from one connection, a run of the thread is a run of this connection alone
(`connection_of_run`): what holds of the runs of one connection holds of each of many. Seen
from the callers of `spawn`, it is a run of `Executor` (`executor_of_run`).
-/

namespace Drpc.Scheduler

open Transition Net

variable {State Call : Type}

/-- What `epoll_wait` gives for a descriptor. -/
inductive Event where
  | eventFd
  | connection (conn : Nat) (hup out in_ : Bool)
  deriving DecidableEq, Repr

/-- The connection of the descriptor. -/
def Event.descriptor : Event → Option Nat
  | .eventFd => none
  | .connection conn _ _ _ => some conn

/-- Where the thread stands in its loop. -/
inductive LoopPc where
  /-- Before `task_queue_.pop`, or inside a task. -/
  | popping
  /-- The queue was empty; before `should_notify_.store(true)`. -/
  | storing
  /-- Inside `epoll_wait`. -/
  | waiting
  /-- In the `for` over the events, with those still to come, or inside an event. -/
  | handling (events : List Event)
  /-- The eventfd is read; before `should_notify_.store(false)`. -/
  | clearing (events : List Event)
  /-- `stop_` was set. -/
  | exited
  deriving DecidableEq, Repr

/-- The events still to come. -/
def LoopPc.events : LoopPc → List Event
  | .handling events | .clearing events => events
  | .popping | .storing | .waiting | .exited => []

/-- A task in `task_queue_`, with the call of `spawn` that has pushed it. -/
structure Queued (Call : Type) where
  call : Nat
  conn : Nat
  task : Net.Task Call

/-- The executor, its thread and its connections. The tasks of all connections are in the
one queue, an ideal one, so that the connections hold none. -/
structure ThreadLoop (State Call : Type) where
  taskQueue : List (Queued Call)
  shouldNotify : Bool
  eventFd : Nat
  stop : Bool
  pc : LoopPc
  spawn : Nat → SpawnPc
  connections : Nat → Connection State Call
  /-- The tasks that the maker of a connection has not spawned yet. -/
  unspawned : Nat → List (Net.Task Call)
  /-- The connection whose code the thread runs or has run last. -/
  running : Option Nat

/-- What happens at the executor. -/
inductive LoopStep (Call : Type) where
  /-- `RpcServer::start` or the constructor of `ClientChannel` pushes the next of the two
  tasks of a connection. -/
  | start (call conn : Nat)
  /-- `CallMethod` pushes its closure. -/
  | callMethod (call conn : Nat) (request : Call)
  /-- The `compare_exchange` of `spawn`. -/
  | compareExchange (call : Nat)
  /-- The `::write` of `spawn` to the eventfd. -/
  | notify (call : Nat)
  /-- `EpollExecutor::stop` -/
  | stop
  /-- `task_queue_.pop`, and the task up to its first await. -/
  | pop
  | store
  /-- `epoll_wait` returns: with events, at the timeout, or with an error. -/
  | wake (events : List Event)
  | readEventFd
  | clear
  /-- The next event is that of a connection. -/
  | handle
  /-- The `for` is over. -/
  | again
  /-- `async_read` of the running code. -/
  | read (call : ReadCall)
  /-- `async_write` of the running code. -/
  | write (results : List WriteResult)
  /-- The running code goes on. -/
  | goOn
  /-- `ClientChannel::close` -/
  | userClose (conn : Nat)

/-- `MAX_EVENTS` -/
def maxEvents : Nat := 1024

namespace ThreadLoop

/-- The thread is not inside the code of a connection. -/
def Free (s : ThreadLoop State Call) : Prop := ∀ conn ∈ s.running, (s.connections conn).Idle

instance decidableFree (s : ThreadLoop State Call) : Decidable s.Free :=
  inferInstanceAs (Decidable (∀ conn ∈ s.running, _))

/-- An event of a descriptor that epoll watches for it. -/
def Pending (s : ThreadLoop State Call) : Event → Prop
  | .eventFd => 0 < s.eventFd
  | .connection conn _ out _ =>
      (s.connections conn).registered = true ∧ (out = true → (s.connections conn).armed = true)

instance decidablePending (s : ThreadLoop State Call) : DecidablePred s.Pending
  | .eventFd => inferInstanceAs (Decidable (_ < _))
  | .connection .. => inferInstanceAs (Decidable (_ ∧ _))

/-- What `epoll_wait` can return: one event for a descriptor, and no more than fit. -/
def Ready (s : ThreadLoop State Call) (events : List Event) : Prop :=
  (∀ event ∈ events, s.Pending event) ∧ (events.map Event.descriptor).Nodup ∧
    events.length ≤ maxEvents

instance decidableReady (s : ThreadLoop State Call) (events : List Event) :
    Decidable (s.Ready events) :=
  inferInstanceAs (Decidable (_ ∧ _ ∧ _))

/-- A task is pushed. -/
def push (s : ThreadLoop State Call) (entry : Queued Call) : ThreadLoop State Call :=
  { s with
    taskQueue := s.taskQueue ++ [entry]
    spawn := Function.update s.spawn entry.call .pushed }

/-- The code of a connection has run. -/
def setConnection (s : ThreadLoop State Call) (conn : Nat) (connection : Connection State Call) :
    ThreadLoop State Call :=
  { s with connections := Function.update s.connections conn connection }

end ThreadLoop

variable (endpoint : Endpoint State Call)

/-- A new executor. Its connections are not started; `stop_` is not initialised. -/
def ThreadLoop.init (stop : Bool) : ThreadLoop State Call where
  taskQueue := []
  shouldNotify := false
  eventFd := 0
  stop := stop
  pc := if stop then .exited else .popping
  spawn := fun _ => .idle
  connections := fun _ => { endpoint.connect with tasks := [] }
  unspawned := fun _ => endpoint.connect.tasks
  running := none

/-- The running code makes a step of its connection. -/
def runCode (s : ThreadLoop State Call) (label : Label Call) : Option (ThreadLoop State Call) :=
  s.running.bind fun conn =>
    (endpoint.step (s.connections conn) label).map fun connection => s.setConnection conn connection

/-- One step of the executor. -/
def ThreadLoop.step (s : ThreadLoop State Call) : LoopStep Call → Option (ThreadLoop State Call)
  | .start call conn =>
      match s.unspawned conn with
      | [] => none
      | task :: rest =>
          if s.spawn call = .idle then
            some ({ s with unspawned := Function.update s.unspawned conn rest }.push
              ⟨call, conn, task⟩)
          else none
  | .callMethod call conn request =>
      if s.spawn call = .idle ∧ (s.unspawned conn).isEmpty = true then
        some (s.push ⟨call, conn, .sendRequest request⟩)
      else none
  | .compareExchange call =>
      if s.spawn call = .pushed then
        if s.shouldNotify then
          some { s with shouldNotify := false, spawn := Function.update s.spawn call .won }
        else some { s with spawn := Function.update s.spawn call .returned }
      else none
  | .notify call =>
      if s.spawn call = .won then
        some { s with
          eventFd := s.eventFd + 1
          spawn := Function.update s.spawn call .returned }
      else none
  | .stop => some { s with stop := true }
  | .pop =>
      if s.pc = .popping ∧ s.Free then
        match s.taskQueue with
        | [] => some { s with pc := .storing }
        | entry :: rest =>
            (endpoint.runTask (s.connections entry.conn) entry.task).map fun connection =>
              { s with taskQueue := rest, running := some entry.conn }.setConnection entry.conn
                connection
      else none
  | .store => if s.pc = .storing then some { s with shouldNotify := true, pc := .waiting } else none
  | .wake events =>
      if s.pc = .waiting ∧ s.Ready events then some { s with pc := .handling events } else none
  | .readEventFd =>
      match s.pc with
      | .handling (.eventFd :: rest) =>
          if s.Free then some { s with eventFd := 0, pc := .clearing rest } else none
      | _ => none
  | .clear =>
      match s.pc with
      | .clearing rest => some { s with shouldNotify := false, pc := .handling rest }
      | _ => none
  | .handle =>
      match s.pc with
      | .handling (.connection conn hup out in_ :: rest) =>
          if s.Free then
            some ({ s with pc := .handling rest, running := some conn }.setConnection conn
              (endpoint.handle (s.connections conn) hup out in_))
          else none
      | _ => none
  | .again =>
      if s.pc = .handling [] ∧ s.Free then
        some { s with pc := if s.stop then .exited else .popping }
      else none
  | .read call => runCode endpoint s (.read call)
  | .write results => runCode endpoint s (.write results)
  | .goOn => runCode endpoint s .goOn
  | .userClose conn =>
      (endpoint.step (s.connections conn) .userClose).map fun connection =>
        s.setConnection conn connection

/-! ## A connection among others -/

/-- The tasks of a connection, in the order in which they will run. -/
def ThreadLoop.tasksOf (s : ThreadLoop State Call) (conn : Nat) : List (Net.Task Call) :=
  ((s.taskQueue.filter fun entry => entry.conn = conn).map Queued.task) ++ s.unspawned conn

/-- The connection with its tasks. -/
def ThreadLoop.view (s : ThreadLoop State Call) (conn : Nat) : Connection State Call :=
  withTasks (s.tasksOf conn) (s.connections conn)

/-- The connection whose step this is, with the step; `none` where it is one of the thread or
of a caller of `spawn`. -/
def ThreadLoop.own (s : ThreadLoop State Call) : LoopStep Call → Option (Nat × Label Call)
  | .callMethod _ conn request => some (conn, .callMethod request)
  | .pop => s.taskQueue.head?.map fun entry => (entry.conn, .task)
  | .handle =>
      match s.pc with
      | .handling (.connection conn hup out in_ :: _) => some (conn, .event hup out in_)
      | _ => none
  | .read call => s.running.map fun conn => (conn, .read call)
  | .write results => s.running.map fun conn => (conn, .write results)
  | .goOn => s.running.map fun conn => (conn, .goOn)
  | .userClose conn => some (conn, .userClose)
  | .start .. | .compareExchange _ | .notify _ | .stop | .store | .wake _ | .readEventFd
  | .clear | .again => none

section Connection

variable {endpoint : Endpoint State Call} {c next : Connection State Call}

/-- Code runs on a connection that is not idle. -/
theorem not_idle_of_code {label : Label Call}
    (code : (∃ call, label = .read call) ∨ (∃ results, label = .write results) ∨ label = .goOn)
    (taken : endpoint.step c label = some next) : ¬ c.Idle := by
  intro idle
  obtain ⟨sends, receives, readable⟩ := idle
  rcases code with ⟨call, rfl⟩ | ⟨results, rfl⟩ | rfl
  · simp only [Endpoint.step, Option.ite_none_right_eq_some] at taken
    obtain ⟨⟨-, running, -⟩, -⟩ := taken
    rw [running] at receives
    cases receives
  · simp only [Endpoint.step, Option.ite_none_right_eq_some] at taken
    rw [taken.1] at sends
    cases sends
  · rcases endpoint.goOn_cases taken with ⟨point, running, -⟩ | ⟨-, ⟨point, running, -⟩ |
      ⟨-, pending, -⟩⟩
    · rw [running] at sends
      cases sends
    · rw [running] at receives
      cases receives
    · rw [readable] at pending
      cases pending

/-- A close of the user changes the state of the endpoint alone. -/
theorem userClose_cases (taken : endpoint.step c .userClose = some next) :
    c.MayClose ∧ ∃ state, next = { c with state } := by
  simp only [Endpoint.step, Option.ite_none_right_eq_some, Option.map_eq_some_iff] at taken
  obtain ⟨may, state, -, rfl⟩ := taken
  exact ⟨may, state, rfl⟩

end Connection

/-! ## The invariant -/

/-- The thread is inside the code of one connection at most, and a connection whose event
is still to come has not run since `epoll_wait` returned. -/
structure ThreadLoop.Inv (s : ThreadLoop State Call) : Prop where
  idle : ∀ conn, s.running ≠ some conn → (s.connections conn).Idle
  free : s.pc = .storing ∨ s.pc = .waiting → s.Free
  events : ∀ conn hup out in_, .connection conn hup out in_ ∈ s.pc.events →
    (s.connections conn).Idle ∧ (s.connections conn).registered = true ∧
      (out = true → (s.connections conn).armed = true)
  distinct : (s.pc.events.map Event.descriptor).Nodup
  cleared : ∀ rest, s.pc = .clearing rest → .eventFd ∉ rest

variable {endpoint : Endpoint State Call} {s next : ThreadLoop State Call}

theorem idle_connect : ({ endpoint.connect with tasks := [] } : Connection State Call).Idle :=
  ⟨rfl, rfl, rfl⟩

theorem loop_inv_init (stop : Bool) : (ThreadLoop.init endpoint stop).Inv where
  idle _ _ := idle_connect
  free storing := by cases stop <;> simp [ThreadLoop.init] at storing
  events conn hup out in_ member := by
    cases stop <;> simp [ThreadLoop.init, LoopPc.events] at member
  distinct := by cases stop <;> exact List.nodup_nil
  cleared rest clearing := by cases stop <;> simp [ThreadLoop.init] at clearing

namespace ThreadLoop.Inv

/-- A free thread is inside no code. -/
theorem idle_of_free (inv : s.Inv) (free : s.Free) (conn : Nat) : (s.connections conn).Idle := by
  by_cases runs : s.running = some conn
  · exact free conn runs
  · exact inv.idle conn runs

/-- Nothing but the queue and the calls of `spawn` changes. -/
theorem of_spawn (inv : s.Inv) {taskQueue : List (Queued Call)} {spawn : Nat → SpawnPc}
    {unspawned : Nat → List (Net.Task Call)} {shouldNotify : Bool} {eventFd : Nat} :
    ({ s with taskQueue, spawn, unspawned, shouldNotify, eventFd } :
      ThreadLoop State Call).Inv :=
  { inv with }

/-- The thread comes into the code of a connection that has no event to come. -/
theorem enter (inv : s.Inv) (free : s.Free) {conn : Nat} {connection : Connection State Call}
    {pc : LoopPc} (elsewhere : pc ≠ .storing ∧ pc ≠ .waiting)
    (fewer : pc.events.Sublist s.pc.events) (gone : some conn ∉ pc.events.map Event.descriptor)
    (cleared : ∀ rest, pc = .clearing rest → .eventFd ∉ rest) {taskQueue : List (Queued Call)} :
    ({ s with taskQueue, pc, running := some conn }.setConnection conn connection :
      ThreadLoop State Call).Inv where
  idle other runs := by
    have different : other ≠ conn := fun same => runs (congrArg some same.symm)
    simp only [setConnection, Function.update_of_ne different]
    exact inv.idle_of_free free other
  free storing := (storing.elim elsewhere.1 elsewhere.2).elim
  events other hup out in_ member := by
    have different : other ≠ conn := by
      rintro rfl
      exact gone (List.mem_map.mpr ⟨_, member, rfl⟩)
    simp only [setConnection, Function.update_of_ne different]
    exact inv.events other hup out in_ (fewer.subset member)
  distinct := inv.distinct.sublist (fewer.map Event.descriptor)
  cleared := cleared

/-- The code of the running connection goes on. -/
theorem runCode (inv : s.Inv) {label : Label Call}
    (code : (∃ call, label = .read call) ∨ (∃ results, label = .write results) ∨ label = .goOn)
    (taken : runCode endpoint s label = some next) : next.Inv := by
  obtain ⟨conn, runs, taken⟩ := Option.bind_eq_some_iff.mp taken
  obtain ⟨connection, ran, rfl⟩ := Option.map_eq_some_iff.mp taken
  have busy := not_idle_of_code code ran
  refine { inv with idle := ?_, free := ?_, events := ?_ }
  · intro other elsewhere
    have different : other ≠ conn := by
      rintro rfl
      exact elsewhere runs
    simp only [setConnection, Function.update_of_ne different]
    exact inv.idle other elsewhere
  · exact fun storing => absurd (inv.free storing conn runs) busy
  · intro other hup out in_ member
    have pending := inv.events other hup out in_ member
    have different : other ≠ conn := by
      rintro rfl
      exact busy pending.1
    simp only [setConnection, Function.update_of_ne different]
    exact pending

theorem userClose (inv : s.Inv) {conn : Nat}
    (taken : s.step endpoint (.userClose conn) = some next) : next.Inv := by
  obtain ⟨connection, closed, rfl⟩ := Option.map_eq_some_iff.mp taken
  obtain ⟨-, state, rfl⟩ := userClose_cases closed
  have same : ∀ other, ((s.setConnection conn { s.connections conn with state }).connections
      other).Idle ↔ (s.connections other).Idle := by
    intro other
    by_cases here : other = conn
    · subst here
      simp only [setConnection, Function.update_self]
      exact Iff.rfl
    · simp only [setConnection, Function.update_of_ne here]
  refine { inv with idle := ?_, free := ?_, events := ?_ }
  · exact fun other elsewhere => (same other).mpr (inv.idle other elsewhere)
  · exact fun storing other runs => (same other).mpr (inv.free storing other runs)
  · intro other hup out in_ member
    have pending := inv.events other hup out in_ member
    refine ⟨(same other).mpr pending.1, ?_⟩
    by_cases here : other = conn
    · subst here
      simp only [setConnection, Function.update_self]
      exact pending.2
    · simp only [setConnection, Function.update_of_ne here]
      exact pending.2

/-- **One step** keeps the invariant. -/
theorem step (inv : s.Inv) {label : LoopStep Call} (taken : s.step endpoint label = some next) :
    next.Inv := by
  cases label with
  | start call conn =>
      simp only [ThreadLoop.step] at taken
      cases rest : s.unspawned conn with
      | nil => simp only [rest, reduceCtorEq] at taken
      | cons task others =>
          simp only [rest, Option.ite_none_right_eq_some, Option.some.injEq] at taken
          obtain ⟨-, rfl⟩ := taken
          exact inv.of_spawn
  | callMethod call conn request =>
      simp only [ThreadLoop.step, Option.ite_none_right_eq_some, Option.some.injEq] at taken
      obtain ⟨-, rfl⟩ := taken
      exact inv.of_spawn
  | compareExchange call =>
      simp only [ThreadLoop.step, Option.ite_none_right_eq_some] at taken
      obtain ⟨-, taken⟩ := taken
      split at taken
      · cases taken
        exact inv.of_spawn
      · cases taken
        exact inv.of_spawn
  | notify call =>
      simp only [ThreadLoop.step, Option.ite_none_right_eq_some, Option.some.injEq] at taken
      obtain ⟨-, rfl⟩ := taken
      exact inv.of_spawn
  | stop =>
      cases taken
      exact { inv with }
  | pop =>
      simp only [ThreadLoop.step, Option.ite_none_right_eq_some] at taken
      obtain ⟨⟨popping, free⟩, taken⟩ := taken
      cases queue : s.taskQueue with
      | nil =>
          simp only [queue, Option.some.injEq] at taken
          subst taken
          exact ⟨inv.idle, fun _ => free, fun _ _ _ _ member => absurd member List.not_mem_nil,
            List.nodup_nil, by simp⟩
      | cons entry rest =>
          simp only [queue] at taken
          obtain ⟨connection, -, rfl⟩ := Option.map_eq_some_iff.mp taken
          apply inv.enter free
          · rw [popping]
            exact ⟨by simp, by simp⟩
          · exact List.Sublist.refl _
          · rw [popping]
            exact List.not_mem_nil
          · exact inv.cleared
  | store =>
      simp only [ThreadLoop.step, Option.ite_none_right_eq_some, Option.some.injEq] at taken
      obtain ⟨storing, rfl⟩ := taken
      exact ⟨inv.idle, fun _ => inv.free (.inl storing),
        fun _ _ _ _ member => absurd member List.not_mem_nil, List.nodup_nil, by simp⟩
  | wake events =>
      simp only [ThreadLoop.step, Option.ite_none_right_eq_some, Option.some.injEq] at taken
      obtain ⟨⟨waiting, pending, distinct, -⟩, rfl⟩ := taken
      have free := inv.free (.inr waiting)
      refine ⟨inv.idle, fun _ => free, ?_, distinct, (by simp)⟩
      intro conn hup out in_ member
      exact ⟨inv.idle_of_free free conn, pending _ member⟩
  | readEventFd =>
      simp only [ThreadLoop.step] at taken
      split at taken
      next rest handling =>
        simp only [Option.ite_none_right_eq_some, Option.some.injEq] at taken
        obtain ⟨free, rfl⟩ := taken
        have events := inv.events
        have distinct := inv.distinct
        simp only [handling, LoopPc.events, List.map_cons, List.nodup_cons] at events distinct
        refine ⟨inv.idle, fun _ => free, ?_, distinct.2, ?_⟩
        · intro conn hup out in_ member
          exact events conn hup out in_ (List.mem_cons_of_mem _ member)
        · rintro _ ⟨⟩ member
          exact distinct.1 (List.mem_map.mpr ⟨_, member, rfl⟩)
      next => cases taken
  | clear =>
      simp only [ThreadLoop.step] at taken
      split at taken
      next rest clearing =>
        cases taken
        have events := inv.events
        have distinct := inv.distinct
        simp only [clearing, LoopPc.events] at events distinct
        exact ⟨inv.idle, (fun storing => by simp at storing), events, distinct, by simp⟩
      next => cases taken
  | handle =>
      simp only [ThreadLoop.step] at taken
      split at taken
      next conn hup out in_ rest handling =>
        simp only [Option.ite_none_right_eq_some, Option.some.injEq] at taken
        obtain ⟨free, rfl⟩ := taken
        have distinct := inv.distinct
        simp only [handling, LoopPc.events, List.map_cons, List.nodup_cons] at distinct
        apply inv.enter free
        · exact ⟨by simp, by simp⟩
        · rw [handling]
          exact List.sublist_cons_self ..
        · exact distinct.1
        · simp
      next => cases taken
  | again =>
      simp only [ThreadLoop.step, Option.ite_none_right_eq_some, Option.some.injEq] at taken
      obtain ⟨⟨-, free⟩, rfl⟩ := taken
      refine ⟨inv.idle, fun _ => free, ?_, ?_, ?_⟩
      · intro conn hup out in_ member
        cases stopped : s.stop <;> simp [stopped, LoopPc.events] at member
      · cases stopped : s.stop <;> simp [LoopPc.events]
      · intro rest clearing
        cases stopped : s.stop <;> simp [stopped] at clearing
  | read call => exact inv.runCode (.inl ⟨call, rfl⟩) taken
  | write results => exact inv.runCode (.inr (.inl ⟨results, rfl⟩)) taken
  | goOn => exact inv.runCode (.inr (.inr rfl)) taken
  | userClose conn => exact inv.userClose taken

end ThreadLoop.Inv

/-! ## What a step is for a connection -/

/-- Where the connection and its tasks stay, so does its view. -/
theorem view_congr {conn : Nat} (connection : next.connections conn = s.connections conn)
    (tasks : next.tasksOf conn = s.tasksOf conn) : next.view conn = s.view conn := by
  rw [ThreadLoop.view, ThreadLoop.view, connection, tasks]

/-- The task joins those of its connection. -/
theorem tasksOf_push (s : ThreadLoop State Call) (entry : Queued Call) (conn : Nat) :
    (s.push entry).tasksOf conn =
      ((s.taskQueue.filter fun entry => entry.conn = conn).map Queued.task) ++
        ((if entry.conn = conn then [entry.task] else []) ++ s.unspawned conn) := by
  simp only [ThreadLoop.tasksOf, ThreadLoop.push, List.filter_append, List.map_append,
    List.append_assoc]
  by_cases same : entry.conn = conn
  · simp [same]
  · simp [same]

theorem view_setConnection_self (s : ThreadLoop State Call) (conn : Nat)
    (connection : Connection State Call) :
    (s.setConnection conn connection).view conn = withTasks (s.tasksOf conn) connection := by
  simp only [ThreadLoop.view, ThreadLoop.setConnection, Function.update_self]
  rfl

theorem view_setConnection_of_ne (s : ThreadLoop State Call) {conn other : Nat}
    (different : other ≠ conn) (connection : Connection State Call) :
    (s.setConnection conn connection).view other = s.view other :=
  view_congr (Function.update_of_ne different ..) rfl

/-- The running code makes a step of its connection and leaves the others. -/
theorem view_runCode {label : Label Call} (code : label ≠ .task)
    (own : ∀ call, label ≠ .callMethod call) (taken : runCode endpoint s label = some next)
    (conn : Nat) :
    ∃ other, s.running = some other ∧ (other ≠ conn → next.view conn = s.view conn) ∧
      (other = conn → endpoint.step (s.view conn) label = some (next.view conn)) := by
  obtain ⟨other, runs, taken⟩ := Option.bind_eq_some_iff.mp taken
  obtain ⟨connection, ran, rfl⟩ := Option.map_eq_some_iff.mp taken
  refine ⟨other, runs, ?_, ?_⟩
  · exact fun different => view_setConnection_of_ne s (Ne.symm different) connection
  · rintro rfl
    rw [ThreadLoop.view, step_withTasks _ _ code own, ran, Option.map_some,
      view_setConnection_self]

/-- The maker of a connection pushes its next task: it was counted already. -/
theorem view_start {call other : Nat} (taken : s.step endpoint (.start call other) = some next)
    (conn : Nat) : next.view conn = s.view conn := by
  simp only [ThreadLoop.step] at taken
  cases rest : s.unspawned other with
  | nil => simp only [rest, reduceCtorEq] at taken
  | cons task others =>
      simp only [rest, Option.ite_none_right_eq_some, Option.some.injEq] at taken
      obtain ⟨-, rfl⟩ := taken
      apply view_congr
      · rfl
      · rw [tasksOf_push, ThreadLoop.tasksOf]
        by_cases same : other = conn
        · subst same
          simp [rest]
        · simp [same, Function.update_of_ne (Ne.symm same)]

/-- `CallMethod` adds its closure. -/
theorem view_callMethod {call other : Nat} {request : Call}
    (taken : s.step endpoint (.callMethod call other request) = some next) (conn : Nat) :
    (other ≠ conn → next.view conn = s.view conn) ∧
      (other = conn → endpoint.step (s.view conn) (.callMethod request) =
        some (next.view conn)) := by
  simp only [ThreadLoop.step, Option.ite_none_right_eq_some, Option.some.injEq] at taken
  obtain ⟨⟨-, made⟩, rfl⟩ := taken
  constructor
  · intro different
    apply view_congr
    · rfl
    · rw [tasksOf_push, ThreadLoop.tasksOf]
      simp [different]
  · rintro rfl
    have all : s.unspawned other = [] := List.isEmpty_iff.mp made
    have tasks : (s.push ⟨call, other, .sendRequest request⟩).tasksOf other =
        s.tasksOf other ++ [.sendRequest request] := by
      rw [tasksOf_push, ThreadLoop.tasksOf]
      simp [all]
    unfold ThreadLoop.view
    rw [tasks]
    rfl

/-- The first task is the first of its connection. -/
theorem view_pop {entry : Queued Call} {rest : List (Queued Call)}
    (queue : s.taskQueue = entry :: rest) (taken : s.step endpoint .pop = some next)
    (inv : s.Inv) (conn : Nat) :
    (entry.conn ≠ conn → next.view conn = s.view conn) ∧
      (entry.conn = conn → endpoint.step (s.view conn) .task = some (next.view conn)) := by
  simp only [ThreadLoop.step, Option.ite_none_right_eq_some, queue] at taken
  obtain ⟨⟨-, free⟩, taken⟩ := taken
  obtain ⟨connection, ran, rfl⟩ := Option.map_eq_some_iff.mp taken
  constructor
  · intro different
    rw [view_setConnection_of_ne _ (Ne.symm different)]
    apply view_congr
    · rfl
    · simp [ThreadLoop.tasksOf, queue, different]
  · rintro rfl
    have idle : (s.view entry.conn).Idle := inv.idle_of_free free entry.conn
    set left := ((rest.filter fun other => other.conn = entry.conn).map Queued.task) ++
      s.unspawned entry.conn with others
    have tasks : (s.view entry.conn).tasks = entry.task :: left := by
      simp [ThreadLoop.view, withTasks, ThreadLoop.tasksOf, queue, others]
    simp only [Endpoint.step, tasks, idle, ↓reduceIte]
    rw [view_setConnection_self]
    change endpoint.runTask (withTasks left (s.connections entry.conn)) entry.task = _
    rw [runTask_withTasks, ran]
    rfl

/-- An event is one of its connection. -/
theorem view_handle {other : Nat} {hup out in_ : Bool} {rest : List Event}
    (handling : s.pc = .handling (.connection other hup out in_ :: rest))
    (taken : s.step endpoint .handle = some next) (inv : s.Inv) (conn : Nat) :
    (other ≠ conn → next.view conn = s.view conn) ∧
      (other = conn →
        endpoint.step (s.view conn) (.event hup out in_) = some (next.view conn)) := by
  simp only [ThreadLoop.step, handling, Option.ite_none_right_eq_some, Option.some.injEq] at taken
  obtain ⟨-, rfl⟩ := taken
  constructor
  · intro different
    rw [view_setConnection_of_ne _ (Ne.symm different)]
    exact view_congr rfl rfl
  · rintro rfl
    have pending := inv.events other hup out in_ (by
      rw [handling]
      exact List.mem_cons_self ..)
    have watched : (s.view other).Idle ∧ (s.view other).registered = true ∧
        (out = true → (s.view other).armed = true) := pending
    simp only [Endpoint.step]
    rw [if_pos watched, view_setConnection_self, ThreadLoop.view, handle_withTasks]
    rfl

/-- **One step of the thread** is for each connection one of its own, or none. -/
theorem view_step (inv : s.Inv) {label : LoopStep Call}
    (taken : s.step endpoint label = some next) (conn : Nat) :
    ((∀ order, s.own label ≠ some (conn, order)) → next.view conn = s.view conn) ∧
      ∀ order, s.own label = some (conn, order) →
        endpoint.step (s.view conn) order = some (next.view conn) := by
  have either : ∀ {other : Nat} {order : Label Call}, s.own label = some (other, order) →
      (other ≠ conn → next.view conn = s.view conn) ∧
        (other = conn → endpoint.step (s.view conn) order = some (next.view conn)) →
      ((∀ order, s.own label ≠ some (conn, order)) → next.view conn = s.view conn) ∧
        ∀ order, s.own label = some (conn, order) →
          endpoint.step (s.view conn) order = some (next.view conn) := by
    intro other order owner both
    rw [owner]
    constructor
    · intro elsewhere
      refine both.1 fun same => elsewhere order ?_
      rw [same]
    · intro own same
      cases same
      exact both.2 rfl
  have none_ : s.own label = none → next.view conn = s.view conn →
      ((∀ order, s.own label ≠ some (conn, order)) → next.view conn = s.view conn) ∧
        ∀ order, s.own label = some (conn, order) →
          endpoint.step (s.view conn) order = some (next.view conn) := by
    intro owner same
    rw [owner]
    exact ⟨fun _ => same, fun order impossible => by cases impossible⟩
  cases label with
  | start call other => exact none_ rfl (view_start taken conn)
  | callMethod call other request => exact either rfl (view_callMethod taken conn)
  | compareExchange call =>
      refine none_ rfl ?_
      simp only [ThreadLoop.step, Option.ite_none_right_eq_some] at taken
      obtain ⟨-, taken⟩ := taken
      split at taken <;> cases taken <;> exact view_congr rfl rfl
  | notify call =>
      refine none_ rfl ?_
      simp only [ThreadLoop.step, Option.ite_none_right_eq_some, Option.some.injEq] at taken
      obtain ⟨-, rfl⟩ := taken
      exact view_congr rfl rfl
  | stop =>
      cases taken
      exact none_ rfl (view_congr rfl rfl)
  | pop =>
      cases queue : s.taskQueue with
      | nil =>
          refine none_ (by simp [ThreadLoop.own, queue]) ?_
          simp only [ThreadLoop.step, Option.ite_none_right_eq_some, queue,
            Option.some.injEq] at taken
          obtain ⟨-, rfl⟩ := taken
          apply view_congr
          · rfl
          · simp [ThreadLoop.tasksOf, queue]
      | cons entry rest =>
          exact either (by simp [ThreadLoop.own, queue]) (view_pop queue taken inv conn)
  | store | wake events | again =>
      refine none_ rfl ?_
      simp only [ThreadLoop.step, Option.ite_none_right_eq_some, Option.some.injEq] at taken
      obtain ⟨-, rfl⟩ := taken
      exact view_congr rfl rfl
  | readEventFd =>
      refine none_ rfl ?_
      simp only [ThreadLoop.step] at taken
      split at taken
      next =>
        simp only [Option.ite_none_right_eq_some, Option.some.injEq] at taken
        obtain ⟨-, rfl⟩ := taken
        exact view_congr rfl rfl
      next => cases taken
  | clear =>
      refine none_ rfl ?_
      simp only [ThreadLoop.step] at taken
      split at taken
      next =>
        cases taken
        exact view_congr rfl rfl
      next => cases taken
  | handle =>
      have handles := taken
      simp only [ThreadLoop.step] at handles
      split at handles
      next other hup out in_ rest handling =>
        exact either (by simp only [ThreadLoop.own, handling]) (view_handle handling taken inv conn)
      next => cases handles
  | read call =>
      obtain ⟨other, runs, both⟩ := view_runCode (by simp) (by simp) taken conn
      exact either (by simp [ThreadLoop.own, runs]) both
  | write results =>
      obtain ⟨other, runs, both⟩ := view_runCode (by simp) (by simp) taken conn
      exact either (by simp [ThreadLoop.own, runs]) both
  | goOn =>
      obtain ⟨other, runs, both⟩ := view_runCode (by simp) (by simp) taken conn
      exact either (by simp [ThreadLoop.own, runs]) both
  | userClose other =>
      refine either rfl ?_
      obtain ⟨connection, closed, rfl⟩ := Option.map_eq_some_iff.mp taken
      constructor
      · exact fun different => view_setConnection_of_ne s (Ne.symm different) connection
      · rintro rfl
        rw [ThreadLoop.view, step_withTasks _ _ (by simp) (by simp), closed, Option.map_some,
          view_setConnection_self]

/-- A new connection has its two tasks to come. -/
theorem view_init (stop : Bool) (conn : Nat) :
    (ThreadLoop.init endpoint stop).view conn = endpoint.connect := rfl

variable (endpoint)

/-- The thread simulates each of its connections. -/
theorem connection_simulates (allowed : Connection State Call → Label Call → Prop) (conn : Nat) :
    Simulates (ThreadLoop.step endpoint) endpoint.step (fun s c => s.Inv ∧ s.view conn = c)
      (fun s label => ∀ own ∈ s.own label, own.1 = conn → allowed (s.view own.1) own.2)
      allowed := by
  refine Simulates.of_stutter fun s c label next related allows taken => ?_
  obtain ⟨inv, rfl⟩ := related
  obtain ⟨stays, moves⟩ := view_step inv taken conn
  have kept := inv.step taken
  by_cases own : ∃ order, s.own label = some (conn, order)
  · obtain ⟨order, own⟩ := own
    exact .inr ⟨order, _, moves order own, allows _ own rfl, kept, rfl⟩
  · exact .inl ⟨kept, stays (not_exists.mp own)⟩

/-- **Each connection by itself.** However the thread interleaves its connections, the steps
of one of them are a run of this connection alone, and a condition on these steps is one
along that run. -/
theorem connection_of_run {allowed : Connection State Call → Label Call → Prop} {stop : Bool}
    {labels : List (LoopStep Call)} {s : ThreadLoop State Call} (conn : Nat)
    (run : exec (ThreadLoop.step endpoint) (.init endpoint stop) labels = some s)
    (allows : Along (ThreadLoop.step endpoint)
      (fun s label => ∀ own ∈ s.own label, own.1 = conn → allowed (s.view own.1) own.2)
      (.init endpoint stop) labels) :
    ∃ orders, exec endpoint.step endpoint.connect orders = some (s.view conn) ∧
      Along endpoint.step allowed endpoint.connect orders := by
  obtain ⟨orders, c, own, along, -, rfl⟩ := (connection_simulates endpoint allowed conn).exec
    ⟨loop_inv_init stop, view_init stop conn⟩ run allows
  exact ⟨orders, own, along⟩

/-- The invariant holds in every run. -/
theorem loop_inv_of_run {stop : Bool} {labels : List (LoopStep Call)} {s : ThreadLoop State Call}
    (run : exec (ThreadLoop.step endpoint) (.init endpoint stop) labels = some s) : s.Inv :=
  exec_invariant (fun _ _ _ inv _ taken => inv.step taken) (loop_inv_init stop) run
    (along_of_forall_mem (fun _ _ => trivial) _)

/-- What a maker has not spawned yet is the end of what it had to. -/
theorem unspawned_step {endpoint : Endpoint State Call} {s next : ThreadLoop State Call}
    {label : LoopStep Call} (taken : s.step endpoint label = some next) (conn : Nat) :
    next.unspawned conn <:+ s.unspawned conn := by
  have runs : ∀ {own : Label Call}, runCode endpoint s own = some next →
      next.unspawned conn <:+ s.unspawned conn := by
    intro own ran
    obtain ⟨other, -, ran⟩ := Option.bind_eq_some_iff.mp ran
    obtain ⟨connection, -, rfl⟩ := Option.map_eq_some_iff.mp ran
    exact List.suffix_refl _
  cases label with
  | start call other =>
      simp only [ThreadLoop.step] at taken
      cases rest : s.unspawned other with
      | nil => simp only [rest, reduceCtorEq] at taken
      | cons task others =>
          simp only [rest, Option.ite_none_right_eq_some, Option.some.injEq] at taken
          obtain ⟨-, rfl⟩ := taken
          by_cases same : conn = other
          · subst same
            simp only [ThreadLoop.push, Function.update_self, rest]
            exact List.suffix_cons ..
          · simp only [ThreadLoop.push, Function.update_of_ne same]
            exact List.suffix_refl _
  | compareExchange call =>
      simp only [ThreadLoop.step, Option.ite_none_right_eq_some] at taken
      obtain ⟨-, taken⟩ := taken
      split at taken <;> cases taken <;> exact List.suffix_refl _
  | stop =>
      cases taken
      exact List.suffix_refl _
  | pop =>
      simp only [ThreadLoop.step, Option.ite_none_right_eq_some] at taken
      obtain ⟨-, taken⟩ := taken
      split at taken
      · cases taken
        exact List.suffix_refl _
      · obtain ⟨connection, -, rfl⟩ := Option.map_eq_some_iff.mp taken
        exact List.suffix_refl _
  | callMethod call other request | notify call | store | wake events | again =>
      simp only [ThreadLoop.step, Option.ite_none_right_eq_some, Option.some.injEq] at taken
      obtain ⟨-, rfl⟩ := taken
      exact List.suffix_refl _
  | readEventFd | handle =>
      simp only [ThreadLoop.step] at taken
      split at taken
      next =>
        simp only [Option.ite_none_right_eq_some, Option.some.injEq] at taken
        obtain ⟨-, rfl⟩ := taken
        exact List.suffix_refl _
      next => cases taken
  | clear =>
      simp only [ThreadLoop.step] at taken
      split at taken
      next =>
        cases taken
        exact List.suffix_refl _
      next => cases taken
  | userClose other =>
      obtain ⟨connection, -, rfl⟩ := Option.map_eq_some_iff.mp taken
      exact List.suffix_refl _
  | read call | write results | goOn => exact runs taken

/-! ## The callers of `spawn` -/

/-- Where the thread stands for the callers of `spawn`: the eventfd is read when its event
comes. -/
def LoopPc.executor : LoopPc → ExecutorPc
  | .popping | .exited => .popping
  | .storing => .storing
  | .waiting => .waiting
  | .handling events => if .eventFd ∈ events then .reading else .popping
  | .clearing _ => .clearing

/-- The executor without its connections. -/
def ThreadLoop.executor (s : ThreadLoop State Call) : Executor where
  taskQueue := s.taskQueue.map Queued.call
  shouldNotify := s.shouldNotify
  eventFd := s.eventFd
  pc := s.pc.executor
  spawn := s.spawn

/-- What the step is for the callers of `spawn`. -/
def LoopStep.executor : LoopStep Call → Option ExecutorStep
  | .start call _ | .callMethod call _ _ => some (.push call)
  | .compareExchange call => some (.compareExchange call)
  | .notify call => some (.write call)
  | .pop => some .pop
  | .store => some .store
  | .wake events => some (.wake (decide (.eventFd ∈ events)))
  | .readEventFd => some .read
  | .clear => some .clear
  | .stop | .handle | .again | .read _ | .write _ | .goOn | .userClose _ => none

variable {endpoint}

theorem executor_runCode {label : Label Call} (taken : runCode endpoint s label = some next) :
    next.executor = s.executor := by
  obtain ⟨other, -, taken⟩ := Option.bind_eq_some_iff.mp taken
  obtain ⟨connection, -, rfl⟩ := Option.map_eq_some_iff.mp taken
  rfl

/-- **One step of the thread** is for the callers of `spawn` one of the executor, or none. -/
theorem executor_step (inv : s.Inv) {label : LoopStep Call}
    (taken : s.step endpoint label = some next) :
    (label.executor = none → next.executor = s.executor) ∧
      ∀ order ∈ label.executor, s.executor.step order = some next.executor := by
  cases label with
  | start call conn =>
      refine ⟨by simp [LoopStep.executor], ?_⟩
      rintro _ ⟨⟩
      simp only [ThreadLoop.step] at taken
      cases rest : s.unspawned conn with
      | nil => simp only [rest, reduceCtorEq] at taken
      | cons task others =>
          simp only [rest, Option.ite_none_right_eq_some, Option.some.injEq] at taken
          obtain ⟨idle, rfl⟩ := taken
          simp [Executor.step, ThreadLoop.executor, ThreadLoop.push, idle]
  | callMethod call conn request =>
      refine ⟨by simp [LoopStep.executor], ?_⟩
      rintro _ ⟨⟩
      simp only [ThreadLoop.step, Option.ite_none_right_eq_some, Option.some.injEq] at taken
      obtain ⟨⟨idle, -⟩, rfl⟩ := taken
      simp [Executor.step, ThreadLoop.executor, ThreadLoop.push, idle]
  | compareExchange call =>
      refine ⟨by simp [LoopStep.executor], ?_⟩
      rintro _ ⟨⟩
      simp only [ThreadLoop.step, Option.ite_none_right_eq_some] at taken
      obtain ⟨pushed, taken⟩ := taken
      split at taken
      next flag =>
        cases taken
        simp [Executor.step, ThreadLoop.executor, pushed, flag]
      next flag =>
        cases taken
        simp [Executor.step, ThreadLoop.executor, pushed, flag]
  | notify call =>
      refine ⟨by simp [LoopStep.executor], ?_⟩
      rintro _ ⟨⟩
      simp only [ThreadLoop.step, Option.ite_none_right_eq_some, Option.some.injEq] at taken
      obtain ⟨won, rfl⟩ := taken
      simp [Executor.step, ThreadLoop.executor, won]
  | stop =>
      cases taken
      exact ⟨fun _ => rfl, by simp [LoopStep.executor]⟩
  | pop =>
      refine ⟨by simp [LoopStep.executor], ?_⟩
      rintro _ ⟨⟩
      simp only [ThreadLoop.step, Option.ite_none_right_eq_some] at taken
      obtain ⟨⟨popping, -⟩, taken⟩ := taken
      cases queue : s.taskQueue with
      | nil =>
          simp only [queue, Option.some.injEq] at taken
          subst taken
          simp [Executor.step, ThreadLoop.executor, popping, LoopPc.executor, queue]
      | cons entry rest =>
          simp only [queue] at taken
          obtain ⟨connection, -, rfl⟩ := Option.map_eq_some_iff.mp taken
          simp [Executor.step, ThreadLoop.executor, popping, LoopPc.executor, queue,
            ThreadLoop.setConnection]
  | store =>
      refine ⟨by simp [LoopStep.executor], ?_⟩
      rintro _ ⟨⟩
      simp only [ThreadLoop.step, Option.ite_none_right_eq_some, Option.some.injEq] at taken
      obtain ⟨storing, rfl⟩ := taken
      simp [Executor.step, ThreadLoop.executor, storing, LoopPc.executor]
  | wake events =>
      refine ⟨by simp [LoopStep.executor], ?_⟩
      rintro _ ⟨⟩
      simp only [ThreadLoop.step, Option.ite_none_right_eq_some, Option.some.injEq] at taken
      obtain ⟨⟨waiting, ready⟩, rfl⟩ := taken
      by_cases notified : Event.eventFd ∈ events
      · have positive : 0 < s.eventFd := ready.1 _ notified
        simp [Executor.step, ThreadLoop.executor, waiting, LoopPc.executor, notified, positive]
      · simp [Executor.step, ThreadLoop.executor, waiting, LoopPc.executor, notified]
  | readEventFd =>
      refine ⟨by simp [LoopStep.executor], ?_⟩
      rintro _ ⟨⟩
      simp only [ThreadLoop.step] at taken
      split at taken
      next rest handling =>
        simp only [Option.ite_none_right_eq_some, Option.some.injEq] at taken
        obtain ⟨-, rfl⟩ := taken
        simp [Executor.step, ThreadLoop.executor, handling, LoopPc.executor]
      next => cases taken
  | clear =>
      refine ⟨by simp [LoopStep.executor], ?_⟩
      rintro _ ⟨⟩
      simp only [ThreadLoop.step] at taken
      split at taken
      next rest clearing =>
        cases taken
        have gone := inv.cleared rest clearing
        simp [Executor.step, ThreadLoop.executor, clearing, LoopPc.executor, gone]
      next => cases taken
  | handle =>
      refine ⟨fun _ => ?_, by simp [LoopStep.executor]⟩
      simp only [ThreadLoop.step] at taken
      split at taken
      next conn hup out in_ rest handling =>
        simp only [Option.ite_none_right_eq_some, Option.some.injEq] at taken
        obtain ⟨-, rfl⟩ := taken
        simp [ThreadLoop.executor, ThreadLoop.setConnection, handling, LoopPc.executor]
      next => cases taken
  | again =>
      refine ⟨fun _ => ?_, by simp [LoopStep.executor]⟩
      simp only [ThreadLoop.step, Option.ite_none_right_eq_some, Option.some.injEq] at taken
      obtain ⟨⟨handling, -⟩, rfl⟩ := taken
      cases stopped : s.stop <;> simp [ThreadLoop.executor, handling, LoopPc.executor]
  | read call | write results | goOn =>
      exact ⟨fun _ => executor_runCode taken, by simp [LoopStep.executor]⟩
  | userClose conn =>
      obtain ⟨connection, -, rfl⟩ := Option.map_eq_some_iff.mp taken
      exact ⟨fun _ => rfl, by simp [LoopStep.executor]⟩

/-- The thread waits with no notification pending, and no call of `spawn` that has pushed one
of its tasks is under way. -/
def ThreadLoop.Parked (s : ThreadLoop State Call) : Prop :=
  s.pc = .waiting ∧ s.eventFd = 0 ∧ ∀ entry ∈ s.taskQueue, s.spawn entry.call = .returned

instance decidableParked (s : ThreadLoop State Call) : Decidable s.Parked :=
  inferInstanceAs (Decidable (_ ∧ _ ∧ ∀ entry ∈ s.taskQueue, _))

/-- One step whose `compare_exchange` is timely keeps the tasks of a parked thread announced. -/
theorem announced_loop (inv : s.Inv) {label : LoopStep Call} (announced : s.executor.Announced)
    (timely : ∀ order ∈ label.executor, Timely s.executor order)
    (taken : s.step endpoint label = some next) : next.executor.Announced := by
  obtain ⟨stays, moves⟩ := executor_step inv taken
  cases order : label.executor with
  | none => rwa [stays order]
  | some own => exact announced_step _ own _ announced (timely own order) (moves own order)

/-- **A parked thread has nothing left to do**: its queue is empty, and it is inside the code
of no connection. -/
theorem ThreadLoop.Parked.rests (parked : s.Parked) (inv : s.Inv)
    (announced : s.executor.Announced) :
    s.taskQueue = [] ∧ ∀ conn, (s.connections conn).Idle := by
  obtain ⟨waiting, quiet, settled⟩ := parked
  constructor
  · by_contra some_
    obtain ⟨entry, member⟩ := List.exists_mem_of_ne_nil _ some_
    have stranded : s.executor.Stranded entry.call :=
      ⟨List.mem_map.mpr ⟨entry, member, rfl⟩, settled entry member⟩
    have waits : s.executor.Parking :=
      .inr (by simp [ThreadLoop.executor, waiting, LoopPc.executor])
    have pending : 0 < s.eventFd := announced waits ⟨_, stranded⟩
    omega
  · exact inv.idle_of_free (inv.free (.inr waiting))

variable (endpoint)

/-- The thread simulates the executor. -/
theorem executor_simulates (allowed : Executor → ExecutorStep → Prop) :
    Simulates (ThreadLoop.step endpoint) Executor.step (fun s e => s.Inv ∧ s.executor = e)
      (fun s label => ∀ order ∈ label.executor, allowed s.executor order) allowed := by
  refine Simulates.of_stutter fun s e label next related allows taken => ?_
  obtain ⟨inv, rfl⟩ := related
  obtain ⟨stays, moves⟩ := executor_step inv taken
  have kept := inv.step taken
  cases order : label.executor with
  | none => exact .inl ⟨kept, stays order⟩
  | some own => exact .inr ⟨own, _, moves own order, allows own order, kept, rfl⟩

/-- **The executor by itself.** Whatever the connections do, the steps of the thread and of
the callers of `spawn` are a run of the executor alone. -/
theorem executor_of_run {allowed : Executor → ExecutorStep → Prop} {stop : Bool}
    {labels : List (LoopStep Call)} {s : ThreadLoop State Call}
    (run : exec (ThreadLoop.step endpoint) (.init endpoint stop) labels = some s)
    (allows : Along (ThreadLoop.step endpoint)
      (fun s label => ∀ order ∈ label.executor, allowed s.executor order)
      (.init endpoint stop) labels) :
    ∃ orders, exec Executor.step .init orders = some s.executor ∧
      Along Executor.step allowed .init orders := by
  have start : (ThreadLoop.init endpoint stop).executor = .init := by cases stop <;> rfl
  obtain ⟨orders, e, own, along, -, rfl⟩ := (executor_simulates endpoint allowed).exec
    ⟨loop_inv_init stop, start⟩ run allows
  exact ⟨orders, own, along⟩

end Drpc.Scheduler
