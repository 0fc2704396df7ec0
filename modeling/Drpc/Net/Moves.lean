import Drpc.Net.PendingOutput
import Drpc.Net.Teardown

/-! # A connection and its moves

A closure of `CallMethod` runs as a whole, and so do the loop of one `async_read`, that of
one `async_write` and each part of a frame in `recv_fn`; tasks, handles and events only say
whose turn it is. `Endpoint.move` has these four moves on the state of the endpoint and the
number of the bytes sent, and nothing of the coroutines. As long as nobody closes the
connection, every step of the coroutines is one move or none (`Connection.Settled.step`).
-/

namespace Drpc.Net

open Transition

variable {State Call : Type}

/-- What changes the state of an endpoint or its write buffer. -/
inductive Move (Call : Type) where
  | call (call : Call)
  | read (call : ReadCall)
  | advance
  | write (results : List WriteResult)
  deriving DecidableEq, Repr

/-- An endpoint without its coroutines. -/
structure Core (State : Type) where
  state : State
  sent : Nat

/-- A connection without its coroutines. -/
def Connection.core (s : Connection State Call) : Core State := ⟨s.state, s.sent⟩

/-- Nobody closes the connection in this step. -/
def Label.Gentle : Label Call → Prop
  | .userClose => False
  | .event hup _ _ => hup = false
  | .read call => call.outcome.closes = false
  | .callMethod _ | .task | .write _ | .goOn => True

/-- Gentleness can be checked. -/
instance decidableGentle : DecidablePred (@Label.Gentle Call)
  | .userClose => inferInstanceAs (Decidable False)
  | .event .. => inferInstanceAs (Decidable (_ = false))
  | .read _ => inferInstanceAs (Decidable (_ = false))
  | .callMethod _ | .task | .write _ | .goOn => inferInstanceAs (Decidable True)

/-- The move that a step of the coroutines makes. -/
def Connection.moveOf (s : Connection State Call) : Label Call → Option (Move Call)
  | .callMethod _ | .userClose | .event .. => none
  | .task =>
      match s.tasks with
      | .sendRequest call :: _ => some (.call call)
      | [] | .sendFn :: _ | .recvFn :: _ => none
  | .read call => some (.read call)
  | .write results => some (.write results)
  | .goOn =>
      if s.send.isRunning = false ∧ s.recv = .running .loop then some .advance else none

namespace Endpoint

variable (endpoint : Endpoint State Call)

/-- One move. While `recv_fn` can go on, neither a closure nor an `async_read` runs. -/
def move (c : Core State) : Move Call → Option (Core State)
  | .call call =>
      if (endpoint.advance c.state).isNone then
        (endpoint.sendRequest c.state call).map fun state => { c with state }
      else none
  | .read call =>
      if (endpoint.advance c.state).isNone ∧ endpoint.ended c.state = false then
        some { c with state := endpoint.deliver c.state call }
      else none
  | .advance => (endpoint.advance c.state).map fun state => { c with state }
  | .write results =>
      (asyncWrite ((endpoint.output c.state).drop c.sent) results).map fun outcome =>
        { c with sent := c.sent + outcome.written }

/-- `recv_fn` waits at first, once it has ended, and until something arrives. -/
structure Patient : Prop where
  init_running : endpoint.ended endpoint.init = false
  init_waits : endpoint.advance endpoint.init = none
  ended_waits : ∀ {s}, endpoint.ended s = true → endpoint.advance s = none
  deliver_ended : ∀ s call, endpoint.ended (endpoint.deliver s call) = endpoint.ended s
  deliver_nothing : ∀ s call, call.outcome = ⟨[], false⟩ → endpoint.deliver s call = s
  sendRequest_ended : ∀ {s call t}, endpoint.sendRequest s call = some t →
    endpoint.ended t = endpoint.ended s
  sendRequest_waits : ∀ {s call t}, endpoint.sendRequest s call = some t →
    endpoint.advance s = none → endpoint.advance t = none

end Endpoint

/-- A `recv_fn` that is off the stack, or about to suspend, has nothing to do. -/
structure Connection.Settled (endpoint : Endpoint State Call) (s : Connection State Call) :
    Prop where
  running : s.recv ≠ .finished → endpoint.ended s.state = false
  waits : s.recv.isRunning = false ∨ s.recv = .running (.awaiting false) →
    endpoint.advance s.state = none

/-- The step makes the move, or leaves the state of the endpoint and what was sent. -/
structure Connection.Makes (endpoint : Endpoint State Call) (s next : Connection State Call)
    (move : Option (Move Call)) : Prop where
  settled : next.Settled endpoint
  stays : move = none → next.core = s.core
  moves : ∀ own ∈ move, endpoint.move s.core own = some next.core

variable {endpoint : Endpoint State Call} {s next : Connection State Call}

/-- Before anything ran, nothing has arrived. -/
theorem settled_connect (patient : endpoint.Patient) : endpoint.connect.Settled endpoint where
  running _ := patient.init_running
  waits _ := patient.init_waits

/-- Resuming `send_fn` changes only where it stands. -/
theorem core_resumeWrite (s : Connection State Call) : s.resumeWrite.core = s.core := by
  unfold Connection.resumeWrite
  dsimp only
  split <;> rfl

/-- Resuming `recv_fn` changes only where it stands. -/
theorem core_resumeRead (s : Connection State Call) : s.resumeRead.core = s.core := by
  unfold Connection.resumeRead
  dsimp only
  split <;> rfl

/-- The step is the move. -/
theorem Connection.Makes.of_move {move : Move Call} (settled : next.Settled endpoint)
    (moves : endpoint.move s.core move = some next.core) : s.Makes endpoint next (some move) where
  settled := settled
  stays none_ := by cases none_
  moves own member := by
    obtain rfl := Option.mem_some_iff.mp member
    exact moves

namespace Connection.Settled

/-- A step that keeps the state of the endpoint and `recv_fn` where it is. -/
theorem congr (settled : s.Settled endpoint) (state : next.state = s.state)
    (recv : next.recv = s.recv) : next.Settled endpoint := by
  constructor
  · rw [state, recv]
    exact settled.running
  · rw [state, recv]
    exact settled.waits

/-- A `recv_fn` that runs suspends next only where it has nothing to do. -/
theorem of_running {point : RecvPoint} (recv : s.recv = .running point)
    (running : endpoint.ended s.state = false)
    (waits : point = .awaiting false → endpoint.advance s.state = none) :
    s.Settled endpoint where
  running _ := running
  waits rests := by
    rcases rests with still | suspends
    · rw [recv] at still
      cases still
    · rw [recv] at suspends
      cases suspends
      exact waits rfl

/-- Nothing but the place of `send_fn`, the handles and the tasks changes. -/
theorem makes_none (settled : s.Settled endpoint) (core : next.core = s.core)
    (recv : next.recv = s.recv) : s.Makes endpoint next none where
  settled := settled.congr (congrArg Core.state core) recv
  stays _ := core
  moves _ member := by cases member

/-! ## The steps -/

/-- A task starts a coroutine, or a `SendRequestTask` appends its request. -/
theorem task (patient : endpoint.Patient) (settled : s.Settled endpoint)
    (underway : s.Underway endpoint) (idle : s.Idle) {task : Task Call}
    {rest : List (Task Call)} (first : s.tasks = task :: rest)
    (taken : endpoint.runTask { s with tasks := rest } task = some next) :
    s.Makes endpoint next (s.moveOf .task) := by
  obtain ⟨calls, ⟨rfl, -⟩ | ⟨rfl, -, early, -⟩ | ⟨call, rfl, -⟩⟩ :=
    task_cases first underway.tasks underway.order
  · simp only [Connection.moveOf, first]
    simp only [Endpoint.runTask, Option.some.injEq] at taken
    subst taken
    exact settled.makes_none rfl rfl
  · simp only [Connection.moveOf, first]
    simp only [Endpoint.runTask, Option.some.injEq] at taken
    subst taken
    refine ⟨of_running rfl (settled.running (by simp [early])) (fun suspends => ?_), fun _ => rfl,
      fun _ member => by cases member⟩
    cases suspends
  · simp only [Connection.moveOf, first]
    simp only [Endpoint.runTask, Option.map_eq_some_iff] at taken
    obtain ⟨state, requested, rfl⟩ := taken
    have waits : endpoint.advance s.state = none := settled.waits (.inl idle.2.1)
    apply Connection.Makes.of_move
    · have moved : ({ s with tasks := rest, state } : Connection State Call).Settled endpoint := {
        running := fun running => (patient.sendRequest_ended requested).trans
          (settled.running running)
        waits := fun _ => patient.sendRequest_waits requested waits }
      exact moved.congr (state_resumeWrite _) (recv_resumeWrite _)
    · rw [core_resumeWrite]
      simp [Endpoint.move, Connection.core, waits, requested]

/-- An event resumes `send_fn` and notes that `recv_fn` is to be resumed. -/
theorem event (settled : s.Settled endpoint) (out in_ : Bool) :
    s.Makes endpoint (endpoint.handle s false out in_) none := by
  unfold Endpoint.handle
  cases out with
  | false => exact settled.makes_none rfl rfl
  | true =>
      apply settled.makes_none
      · exact core_resumeWrite { s with armed := false }
      · exact recv_resumeWrite { s with armed := false }

/-- `async_read` delivers what it read to the endpoint. -/
theorem read (patient : endpoint.Patient) (settled : s.Settled endpoint)
    (inLoop : s.recv = .running .loop) (waits : (endpoint.advance s.state).isNone = true)
    {call : ReadCall} (opened : call.outcome.closes = false) :
    s.Makes endpoint (endpoint.read s call) (some (.read call)) := by
  have running : endpoint.ended s.state = false := settled.running (by simp [inLoop])
  set moved : Connection State Call := { s with
    state := endpoint.deliver s.state call
    recv := .running (.awaiting (decide (call.outcome.bytes ≠ []))) } with same
  have kept : moved.Settled endpoint := by
    refine of_running rfl ((patient.deliver_ended _ _).trans running) fun suspends => ?_
    simp only [RecvPoint.awaiting.injEq, decide_eq_false_iff_not, not_not] at suspends
    have nothing : call.outcome = ⟨[], false⟩ := by rw [← suspends, ← opened]
    rw [same, patient.deliver_nothing s.state call nothing]
    exact Option.isNone_iff_eq_none.mp waits
  have core : (endpoint.read s call).core = moved.core := by
    unfold Endpoint.read
    dsimp only
    split
    · exact core_resumeWrite moved
    · rfl
  have recv : (endpoint.read s call).recv = moved.recv := by
    unfold Endpoint.read
    dsimp only
    split
    · exact recv_resumeWrite moved
    · rfl
  refine .of_move (kept.congr (congrArg Core.state core) recv) ?_
  rw [core]
  simp only [Endpoint.move, Connection.core, waits, running, and_self, ↓reduceIte, same]

/-- `async_write` sends what the sockets took. -/
theorem write (settled : s.Settled endpoint) {results : List WriteResult}
    (taken : endpoint.write s results = some next) :
    s.Makes endpoint next (some (.write results)) := by
  simp only [Endpoint.write, Option.map_eq_some_iff] at taken
  obtain ⟨outcome, written, rfl⟩ := taken
  have wrote : asyncWrite ((endpoint.output s.state).drop s.sent) results = some outcome := written
  apply Connection.Makes.of_move
  · apply settled.congr <;> split <;> rfl
  · simp only [Endpoint.move, Connection.core, wrote, Option.map_some, Option.some.injEq]
    split <;> rfl

/-- `send_fn` goes on without a move. -/
theorem sendFn (settled : s.Settled endpoint) {point : SendPoint}
    (taken : endpoint.sendFn s point = some next) : s.Makes endpoint next none := by
  cases point with
  | top =>
      cases taken
      exact settled.makes_none rfl rfl
  | waitWrite =>
      simp only [Endpoint.sendFn] at taken
      split at taken <;> cases taken <;> exact settled.makes_none rfl rfl
  | asyncWrite => cases taken

/-- In its loop, `recv_fn` advances the endpoint; around the awaiter it makes no move. -/
theorem recvFn (patient : endpoint.Patient) (settled : s.Settled endpoint) {point : RecvPoint}
    (running : s.recv = .running point) (taken : endpoint.recvFn s point = some next) :
    s.Makes endpoint next (if point = .loop then some .advance else none) := by
  have open_ : endpoint.ended s.state = false := settled.running (by simp [running])
  cases point with
  | loop =>
      simp only [Endpoint.recvFn, Option.map_eq_some_iff] at taken
      obtain ⟨state, advanced, rfl⟩ := taken
      have moves : endpoint.move s.core .advance = some ⟨state, s.sent⟩ := by
        simp only [Endpoint.move, Connection.core, advanced, Option.map_some]
      rw [if_pos rfl]
      split
      next ended =>
        refine .of_move ⟨fun unfinished => absurd rfl unfinished, fun _ => ?_⟩ moves
        exact patient.ended_waits ended
      next opened =>
        have goes : ({ s with state } : Connection State Call).Settled endpoint := by
          refine of_running running (Bool.eq_false_iff.mpr opened) fun suspends => ?_
          cases suspends
        split
        · refine .of_move (goes.congr (state_resumeWrite _) (recv_resumeWrite _)) ?_
          rw [core_resumeWrite]
          exact moves
        · exact .of_move goes moves
  | awaiting read =>
      rw [if_neg (by simp)]
      simp only [Endpoint.recvFn] at taken
      split at taken
      · cases taken
        refine ⟨of_running rfl open_ fun suspends => ?_, fun _ => rfl, fun _ member => ?_⟩
        · cases suspends
        · cases member
      · cases taken
        refine ⟨⟨fun _ => open_, fun rests => ?_⟩, fun _ => rfl, fun _ member => ?_⟩
        · cases read with
          | false => exact settled.waits (.inr running)
          | true => simp [RecvState.isRunning] at rests
        · cases member

/-- Resuming `recv_fn` is no move. -/
theorem resumeRead (settled : s.Settled endpoint) : s.Makes endpoint s.resumeRead none := by
  cases recv : s.recv with
  | suspended =>
      have resumed : s.resumeRead.recv = .running .loop := by
        simp only [Connection.resumeRead, recv]
      have state : s.resumeRead.state = s.state := congrArg Core.state (core_resumeRead s)
      refine ⟨of_running resumed ?_ (fun suspends => ?_), fun _ => core_resumeRead s,
        fun _ member => ?_⟩
      · rw [state]
        exact settled.running (by simp [recv])
      · cases suspends
      · cases member
  | notStarted | running point | finished =>
      apply settled.makes_none (core_resumeRead s)
      simp only [Connection.resumeRead, recv]

/-- **One step** of the coroutines makes one move, or none. -/
theorem step (patient : endpoint.Patient) (settled : s.Settled endpoint)
    (underway : s.Underway endpoint) {label : Label Call} (gentle : label.Gentle)
    (taken : endpoint.step s label = some next) : s.Makes endpoint next (s.moveOf label) := by
  cases label with
  | callMethod call =>
      cases taken
      exact settled.makes_none rfl rfl
  | userClose => exact absurd gentle id
  | task =>
      simp only [Endpoint.step] at taken
      cases tasks : s.tasks with
      | nil => simp only [tasks, reduceCtorEq] at taken
      | cons task rest =>
          simp only [tasks, Option.ite_none_right_eq_some] at taken
          exact settled.task patient underway taken.1 tasks taken.2
  | event hup out in_ =>
      simp only [Endpoint.step, Option.ite_none_right_eq_some, Option.some.injEq] at taken
      obtain ⟨-, rfl⟩ := taken
      obtain rfl : hup = false := gentle
      exact settled.event out in_
  | read call =>
      simp only [Endpoint.step, Option.ite_none_right_eq_some, Option.some.injEq] at taken
      obtain ⟨⟨-, inLoop, waits⟩, rfl⟩ := taken
      exact settled.read patient inLoop waits gentle
  | write results =>
      simp only [Endpoint.step, Option.ite_none_right_eq_some] at taken
      exact settled.write taken.2
  | goOn =>
      rcases endpoint.goOn_cases taken with ⟨point, send, sends⟩ | ⟨still, ⟨point, recv, receives⟩ |
        ⟨stopped, -, rfl⟩⟩
      · have none_ : s.moveOf .goOn = none := by simp [Connection.moveOf, send, SendState.isRunning]
        rw [none_]
        exact settled.sendFn sends
      · have own : s.moveOf .goOn = if point = .loop then some .advance else none := by
          simp [Connection.moveOf, still, recv]
        rw [own]
        exact settled.recvFn patient recv receives
      · have none_ : s.moveOf .goOn = none := by
          simp only [Connection.moveOf, ite_eq_right_iff, reduceCtorEq, imp_false, not_and]
          intro _ running
          simp [running, RecvState.isRunning] at stopped
        rw [none_]
        have handled : ({ s with readable := false } : Connection State Call).Settled endpoint :=
          settled.congr rfl rfl
        exact ⟨handled.resumeRead.settled, handled.resumeRead.stays, handled.resumeRead.moves⟩

end Connection.Settled

/-! ## Both invariants -/

/-- The invariant of `PendingOutput`, over steps whose events are in time. -/
theorem Connection.Attended.of_step (silent : endpoint.Silent) (attended : s.Attended endpoint)
    {label : Label Call} (taken : endpoint.step s label = some next) :
    next.Attended endpoint := by
  cases label with
  | event hup out in_ =>
      simp only [Endpoint.step, Option.ite_none_right_eq_some, Option.some.injEq] at taken
      obtain ⟨-, rfl⟩ := taken
      exact attended.event silent hup out in_
  | callMethod call =>
      have late : endpoint.lateStep s (.callMethod call) = some next := taken
      exact attended.step silent late
  | userClose =>
      have late : endpoint.lateStep s .userClose = some next := taken
      exact attended.step silent late
  | task =>
      have late : endpoint.lateStep s .task = some next := taken
      exact attended.step silent late
  | read call =>
      have late : endpoint.lateStep s (.read call) = some next := taken
      exact attended.step silent late
  | write results =>
      have late : endpoint.lateStep s (.write results) = some next := taken
      exact attended.step silent late
  | goOn =>
      have late : endpoint.lateStep s .goOn = some next := taken
      exact attended.step silent late

end Drpc.Net
