import Drpc.Library.Transition
import Mathlib.Data.List.Basic
import Mathlib.Logic.Function.Basic

/-! # The atomic queue

A FIFO queue that any number of threads call. Every call takes effect in one step between
its call and its reply; a `pop` may also reply that the queue was empty when it was so at
some moment of the call. The histories of this machine are those a queue must have to be
linearizable. Their values have one order, in which each thread puts its own in the order
of its calls and from the front of which they are taken (`ordered_of_run`).
-/

namespace AtomicQueue

open Transition

variable {Thread Value : Type}

/-- What a thread calls. -/
inductive Request (Value : Type) where
  | push (value : Value)
  | pop
  deriving DecidableEq

/-- What a call replies. -/
inductive Reply (Value : Type) where
  | pushed (value : Value)
  | popped (value : Value)
  | empty
  deriving DecidableEq

/-- What is seen of a thread. -/
inductive Action (Value : Type) where
  | call (request : Request Value)
  | reply (reply : Reply Value)
  deriving DecidableEq

/-- How far the call of a thread is. -/
inductive Stage (Value : Type) where
  | idle
  | pushing (value : Value)
  /-- The value is in the queue. -/
  | pushed (value : Value)
  | popping (sawEmpty : Bool)
  /-- The value is out of the queue. -/
  | popped (value : Value)
  deriving DecidableEq

/-- The queue, the calls that are under way, and what was seen of all calls. -/
structure State (Thread Value : Type) where
  queue : List Value
  stage : Thread → Stage Value
  history : List (Thread × Action Value)

/-- A new queue. -/
def State.init : State Thread Value := ⟨[], fun _ => .idle, []⟩

/-- The steps of the machine. A call takes effect in a step of its own. -/
inductive Move (Thread Value : Type) where
  | call (thread : Thread) (request : Request Value)
  /-- A `push` takes effect. -/
  | put (thread : Thread)
  /-- A `pop` takes effect. -/
  | take (thread : Thread)
  /-- A `pop` finds the queue empty. -/
  | see (thread : Thread)
  | reply (thread : Thread)

/-- The stage a call starts in. -/
def Request.stage : Request Value → Stage Value
  | .push value => .pushing value
  | .pop => .popping false

/-- What a call replies that has taken effect. -/
def Stage.reply : Stage Value → Option (Reply Value)
  | .pushed value => some (.pushed value)
  | .popped value => some (.popped value)
  | .popping true => some .empty
  | _ => none

section

variable [DecidableEq Thread]

/-- The call of one thread gets further. -/
def State.setStage (s : State Thread Value) (thread : Thread) (stage : Stage Value) :
    State Thread Value :=
  { s with stage := Function.update s.stage thread stage }

/-- One step of the machine. -/
def step (s : State Thread Value) : Move Thread Value → Option (State Thread Value)
  | .call thread request =>
      match s.stage thread with
      | .idle => some { s.setStage thread request.stage with
          history := s.history ++ [(thread, .call request)] }
      | _ => none
  | .put thread =>
      match s.stage thread with
      | .pushing value =>
          some { s.setStage thread (.pushed value) with queue := s.queue ++ [value] }
      | _ => none
  | .take thread =>
      match s.stage thread, s.queue with
      | .popping _, value :: rest => some { s.setStage thread (.popped value) with queue := rest }
      | _, _ => none
  | .see thread =>
      match s.stage thread, s.queue with
      | .popping _, [] => some (s.setStage thread (.popping true))
      | _, _ => none
  | .reply thread =>
      (s.stage thread).reply.map fun reply =>
        { s.setStage thread .idle with history := s.history ++ [(thread, .reply reply)] }

section

variable {s : State Thread Value} {thread : Thread}

/-- A thread that is idle may call. -/
theorem step_call (idle : s.stage thread = .idle) (request : Request Value) :
    step s (.call thread request) = some ⟨s.queue, Function.update s.stage thread request.stage,
      s.history ++ [(thread, .call request)]⟩ := by
  rw [step, idle]
  rfl

/-- The value goes to the back. -/
theorem step_put {value : Value} (here : s.stage thread = .pushing value) :
    step s (.put thread) = some ⟨s.queue ++ [value],
      Function.update s.stage thread (.pushed value), s.history⟩ := by
  rw [step, here]
  rfl

/-- The value at the front goes out. -/
theorem step_take {sawEmpty : Bool} {value : Value} {rest : List Value}
    (here : s.stage thread = .popping sawEmpty) (queue : s.queue = value :: rest) :
    step s (.take thread) =
      some ⟨rest, Function.update s.stage thread (.popped value), s.history⟩ := by
  rw [step, here, queue]
  rfl

/-- A `pop` notes that there is no value; it may still take one that comes later. -/
theorem step_see {sawEmpty : Bool} (here : s.stage thread = .popping sawEmpty)
    (queue : s.queue = []) : step s (.see thread) =
      some ⟨s.queue, Function.update s.stage thread (.popping true), s.history⟩ := by
  rw [step, here, queue]
  exact congrArg some (congrArg (State.mk · _ _) queue)

/-- A call that has taken effect replies. -/
theorem step_reply {reply : Reply Value} (replies : (s.stage thread).reply = some reply) :
    step s (.reply thread) = some ⟨s.queue, Function.update s.stage thread .idle,
      s.history ++ [(thread, .reply reply)]⟩ := by
  rw [step, replies]
  rfl

end

/-! ## The order of the values -/

/-- The value a thread calls `push` with. -/
def Action.pushing : Action Value → Option Value
  | .call (.push value) => some value
  | _ => none

/-- The value a thread was told it has pushed. -/
def Action.pushed : Action Value → Option Value
  | .reply (.pushed value) => some value
  | _ => none

/-- The value a thread was given. -/
def Action.popped : Action Value → Option Value
  | .reply (.popped value) => some value
  | _ => none

/-- The values of one kind of action of a thread. -/
def valuesOf (kind : Action Value → Option Value) (thread : Thread)
    (history : List (Thread × Action Value)) : List Value :=
  (history.filter fun entry => entry.1 = thread).filterMap fun entry => kind entry.2

/-- The values of one thread. -/
def ownedBy (thread : Thread) (values : List (Thread × Value)) : List Value :=
  (values.filter fun entry => entry.1 = thread).map Prod.snd

/-- A new action of the thread adds its value. -/
theorem valuesOf_concat_self (kind : Action Value → Option Value) (thread : Thread)
    (history : List (Thread × Action Value)) (action : Action Value) :
    valuesOf kind thread (history ++ [(thread, action)]) =
      valuesOf kind thread history ++ (kind action).toList := by
  rw [valuesOf, List.filter_append, List.filterMap_append, ← valuesOf]
  congr 1
  rw [List.filter_cons_of_pos (by simp), List.filter_nil]
  cases found : kind action <;> simp [found]

/-- A new action of another thread adds none. -/
theorem valuesOf_concat_of_ne (kind : Action Value → Option Value) {thread other : Thread}
    (differs : other ≠ thread) (history : List (Thread × Action Value)) (action : Action Value) :
    valuesOf kind other (history ++ [(thread, action)]) = valuesOf kind other history := by
  rw [valuesOf, List.filter_append, List.filter_cons_of_neg (by simpa using differs.symm),
    List.filter_nil, List.append_nil, ← valuesOf]

/-- The same of the values of the thread. -/
theorem ownedBy_concat_self (thread : Thread) (values : List (Thread × Value)) (value : Value) :
    ownedBy thread (values ++ [(thread, value)]) = ownedBy thread values ++ [value] := by
  rw [ownedBy, List.filter_append, List.map_append, ← ownedBy]
  simp

/-- And of those of another one. -/
theorem ownedBy_concat_of_ne {thread other : Thread} (differs : other ≠ thread)
    (values : List (Thread × Value)) (value : Value) :
    ownedBy other (values ++ [(thread, value)]) = ownedBy other values := by
  rw [ownedBy, List.filter_append, List.filter_cons_of_neg (by simpa using differs.symm),
    List.filter_nil, List.append_nil, ← ownedBy]

/-- The value that a call is still going to put into the queue. -/
def Stage.toPut : Stage Value → List Value
  | .pushing value => [value]
  | _ => []

/-- The value that a call has put, and not yet replied. -/
def Stage.put : Stage Value → List Value
  | .pushed value => [value]
  | _ => []

/-- The value that a call has taken, and not yet replied. -/
def Stage.taken : Stage Value → List Value
  | .popped value => [value]
  | _ => []

/-- How the values went through the queue: each with the thread that put it, or took it, in
the order in which they did. -/
structure Explained (s : State Thread Value) (puts takes : List (Thread × Value)) : Prop where
  order : puts.map Prod.snd = takes.map Prod.snd ++ s.queue
  pushing : ∀ thread, valuesOf Action.pushing thread s.history =
    ownedBy thread puts ++ (s.stage thread).toPut
  pushed : ∀ thread, ownedBy thread puts =
    valuesOf Action.pushed thread s.history ++ (s.stage thread).put
  popped : ∀ thread, ownedBy thread takes =
    valuesOf Action.popped thread s.history ++ (s.stage thread).taken
  popping : ∀ thread sawEmpty, s.stage thread = .popping sawEmpty →
    (thread, .call .pop) ∈ s.history
  takers : ∀ entry ∈ takes, (entry.1, .call .pop) ∈ s.history

/-- No value has gone through a new queue. -/
theorem explained_init :
    Explained (State.init : State Thread Value) [] [] :=
  ⟨rfl, fun _ => rfl, fun _ => rfl, fun _ => rfl, by simp [State.init], by simp⟩

variable {s next : State Thread Value} {thread : Thread} {puts takes : List (Thread × Value)}

/-- Who pops has called `pop`. -/
theorem Explained.called (explained : Explained s puts takes) {stage : Stage Value}
    {history : List (Thread × Action Value)} (kept : ∀ entry ∈ s.history, entry ∈ history)
    (pops : ∀ sawEmpty, stage = .popping sawEmpty → (thread, .call .pop) ∈ history)
    (other : Thread) (sawEmpty : Bool)
    (stands : (s.setStage thread stage).stage other = .popping sawEmpty) :
    (other, .call .pop) ∈ history := by
  by_cases self : other = thread
  · subst self
    simp only [State.setStage, Function.update_self] at stands
    exact pops sawEmpty stands
  · simp only [State.setStage, Function.update_of_ne self] at stands
    exact kept _ (explained.popping other sawEmpty stands)

/-- An action of a thread is seen. -/
theorem Explained.act (explained : Explained s puts takes) {action : Action Value}
    {stage : Stage Value}
    (pushing : (s.stage thread).toPut ++ action.pushing.toList = stage.toPut)
    (pushed : (s.stage thread).put = action.pushed.toList ++ stage.put)
    (popped : (s.stage thread).taken = action.popped.toList ++ stage.taken)
    (pops : ∀ sawEmpty, stage = .popping sawEmpty → action = .call .pop) :
    Explained { s.setStage thread stage with history := s.history ++ [(thread, action)] }
      puts takes where
  order := explained.order
  pushing other := by
    by_cases self : other = thread
    · subst self
      rw [valuesOf_concat_self, explained.pushing, List.append_assoc, pushing]
      simp [State.setStage]
    · rw [valuesOf_concat_of_ne _ self, explained.pushing]
      simp [State.setStage, self]
  pushed other := by
    by_cases self : other = thread
    · subst self
      rw [valuesOf_concat_self, explained.pushed, pushed, List.append_assoc]
      simp [State.setStage]
    · rw [valuesOf_concat_of_ne _ self, explained.pushed]
      simp [State.setStage, self]
  popped other := by
    by_cases self : other = thread
    · subst self
      rw [valuesOf_concat_self, explained.popped, popped, List.append_assoc]
      simp [State.setStage]
    · rw [valuesOf_concat_of_ne _ self, explained.popped]
      simp [State.setStage, self]
  popping := explained.called (fun _ => List.mem_append_left _) fun sawEmpty stands => by
    rw [pops sawEmpty stands]
    exact List.mem_append_right _ (List.mem_singleton_self _)
  takers entry member := List.mem_append_left _ (explained.takers entry member)

/-- A call goes on with the same values. -/
theorem Explained.restage (explained : Explained s puts takes) {stage : Stage Value}
    (toPut : stage.toPut = (s.stage thread).toPut) (put : stage.put = (s.stage thread).put)
    (taken : stage.taken = (s.stage thread).taken)
    (pops : ∀ sawEmpty, stage = .popping sawEmpty → (thread, .call .pop) ∈ s.history) :
    Explained (s.setStage thread stage) puts takes := by
  have same {values : Stage Value → List Value} (kept : values stage = values (s.stage thread))
      (other : Thread) : values ((s.setStage thread stage).stage other) =
        values (s.stage other) := by
    by_cases self : other = thread
    · subst self
      simpa [State.setStage] using kept
    · simp [State.setStage, self]
  constructor
  · exact explained.order
  · intro other
    rw [same toPut]
    exact explained.pushing other
  · intro other
    rw [same put]
    exact explained.pushed other
  · intro other
    rw [same taken]
    exact explained.popped other
  · exact explained.called (fun _ => id) pops
  · exact explained.takers

/-- A value goes in. -/
theorem Explained.put (explained : Explained s puts takes) {value : Value}
    (here : s.stage thread = .pushing value) :
    Explained { s.setStage thread (.pushed value) with queue := s.queue ++ [value] }
      (puts ++ [(thread, value)]) takes where
  order := by
    rw [List.map_append, explained.order, List.append_assoc]
    rfl
  pushing other := by
    by_cases self : other = thread
    · subst self
      rw [ownedBy_concat_self]
      simpa [State.setStage, here, Stage.toPut] using explained.pushing other
    · rw [ownedBy_concat_of_ne self]
      simpa [State.setStage, self] using explained.pushing other
  pushed other := by
    by_cases self : other = thread
    · subst self
      rw [ownedBy_concat_self, explained.pushed]
      simp [State.setStage, here, Stage.put]
    · rw [ownedBy_concat_of_ne self]
      simpa [State.setStage, self] using explained.pushed other
  popped other := by
    by_cases self : other = thread
    · subst self
      simpa [State.setStage, here, Stage.taken] using explained.popped other
    · simpa [State.setStage, self] using explained.popped other
  popping := explained.called (fun _ => id) fun _ stands => by cases stands
  takers := explained.takers

/-- The first value goes out. -/
theorem Explained.take (explained : Explained s puts takes) {value : Value} {rest : List Value}
    {sawEmpty : Bool} (here : s.stage thread = .popping sawEmpty)
    (queue : s.queue = value :: rest) :
    Explained { s.setStage thread (.popped value) with queue := rest }
      puts (takes ++ [(thread, value)]) where
  order := by
    rw [explained.order, queue, List.map_append, List.append_assoc]
    rfl
  pushing other := by
    by_cases self : other = thread
    · subst self
      simpa [State.setStage, here, Stage.toPut] using explained.pushing other
    · simpa [State.setStage, self] using explained.pushing other
  pushed other := by
    by_cases self : other = thread
    · subst self
      simpa [State.setStage, here, Stage.put] using explained.pushed other
    · simpa [State.setStage, self] using explained.pushed other
  popped other := by
    by_cases self : other = thread
    · subst self
      rw [ownedBy_concat_self, explained.popped]
      simp [State.setStage, here, Stage.taken]
    · rw [ownedBy_concat_of_ne self]
      simpa [State.setStage, self] using explained.popped other
  popping := explained.called (fun _ => id) fun _ stands => by cases stands
  takers := by
    intro entry member
    rcases List.mem_append.mp member with before | last
    · exact explained.takers entry before
    · rw [List.mem_singleton.mp last]
      exact explained.popping thread sawEmpty here

/-- **One step** keeps the order of the values. -/
theorem Explained.step (explained : Explained s puts takes) {move : Move Thread Value}
    (taken : AtomicQueue.step s move = some next) :
    ∃ puts takes, Explained next puts takes := by
  cases move with
  | call thread request =>
      simp only [AtomicQueue.step] at taken
      split at taken
      next idle =>
        cases taken
        refine ⟨puts, takes, explained.act ?_ ?_ ?_ ?_⟩
        · rw [idle]
          cases request <;> rfl
        · rw [idle]
          cases request <;> rfl
        · rw [idle]
          cases request <;> rfl
        · intro sawEmpty pops
          cases request with
          | push => cases pops
          | pop => rfl
      next => cases taken
  | put thread =>
      simp only [AtomicQueue.step] at taken
      split at taken
      next value here =>
        cases taken
        exact ⟨_, takes, explained.put here⟩
      next => cases taken
  | take thread =>
      simp only [AtomicQueue.step] at taken
      split at taken
      next saw value rest here queue =>
        cases taken
        exact ⟨puts, _, explained.take here queue⟩
      next => cases taken
  | see thread =>
      simp only [AtomicQueue.step] at taken
      split at taken
      next saw here queue =>
        cases taken
        have called := explained.popping thread saw here
        refine ⟨puts, takes, explained.restage ?_ ?_ ?_ fun _ _ => called⟩
        all_goals
          rw [here]
          rfl
      next => cases taken
  | reply thread =>
      simp only [AtomicQueue.step, Option.map_eq_some_iff] at taken
      obtain ⟨reply, replies, rfl⟩ := taken
      refine ⟨puts, takes, explained.act ?_ ?_ ?_ fun _ stands => by cases stands⟩
      all_goals
        cases here : s.stage thread with
        | idle | pushing =>
            rw [here] at replies
            cases replies
        | pushed | popped =>
            rw [here] at replies
            cases replies
            rfl
        | popping sawEmpty =>
            rw [here] at replies
            cases sawEmpty <;> cases replies
            rfl

/-- **The values have one order.** In every history, each thread puts the values it pushes in
the order of its calls, beginning with those it has pushed; the values are taken from the front,
and what a thread has popped are the first it took. -/
theorem ordered_of_run {moves : List (Move Thread Value)} {s : State Thread Value}
    (run : exec AtomicQueue.step .init moves = some s) :
    ∃ puts takes : List (Thread × Value), takes.map Prod.snd <+: puts.map Prod.snd ∧
      (∀ entry ∈ takes, (entry.1, .call .pop) ∈ s.history) ∧
      ∀ thread, ownedBy thread puts <+: valuesOf Action.pushing thread s.history ∧
        valuesOf Action.pushed thread s.history <+: ownedBy thread puts ∧
        valuesOf Action.popped thread s.history <+: ownedBy thread takes := by
  obtain ⟨puts, takes, explained⟩ : ∃ puts takes, Explained s puts takes := by
    have free : Along AtomicQueue.step (fun _ _ => True) .init moves :=
      along_of_forall_mem (fun _ _ => trivial) _
    have preserved : ∀ (s : State Thread Value) move (next : State Thread Value),
        (∃ puts takes, Explained s puts takes) → True → AtomicQueue.step s move = some next →
        ∃ puts takes, Explained next puts takes := by
      rintro s move next ⟨puts, takes, explained⟩ - taken
      exact explained.step taken
    exact exec_invariant preserved ⟨[], [], explained_init⟩ run free
  refine ⟨puts, takes, ⟨s.queue, explained.order.symm⟩, explained.takers,
    fun thread => ⟨?_, ?_, ?_⟩⟩
  · exact ⟨_, (explained.pushing thread).symm⟩
  · exact ⟨_, (explained.pushed thread).symm⟩
  · exact ⟨_, (explained.popped thread).symm⟩

/-- What one consumer has popped is the beginning of the order. -/
theorem popped_of_one {puts takes : List (Thread × Value)}
    {history : List (Thread × Action Value)} {consumer : Thread}
    (order : takes.map Prod.snd <+: puts.map Prod.snd)
    (takers : ∀ entry ∈ takes, (entry.1, .call .pop) ∈ history)
    (popped : valuesOf Action.popped consumer history <+: ownedBy consumer takes)
    (one : ∀ thread, (thread, Action.call .pop) ∈ history → thread = consumer) :
    valuesOf Action.popped consumer history <+: puts.map Prod.snd := by
  have all : takes.filter (fun entry => entry.1 = consumer) = takes :=
    List.filter_eq_self.mpr fun entry member => by simpa using one _ (takers entry member)
  rw [ownedBy, all] at popped
  exact popped.trans order

end

end AtomicQueue
