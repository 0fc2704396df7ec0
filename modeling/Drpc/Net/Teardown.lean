import Drpc.Net.Coroutines

/-! # Teardown

`async_read` is the one place that takes a connection down: where it finds the end of the
stream it resumes `send_fn`, which finishes, its awaiter takes the descriptor out of
epoll, and `recv_fn` finishes behind it. In every run in which a connection closes there
alone, nothing is left behind (`Connection.TornDown`). The other closes do a part of this.
-/

namespace Drpc.Net

open Transition

variable {State Call : Type}

/-- Once `recv_fn` has finished, or the descriptor was taken out of epoll, both coroutines
have finished, and epoll does not watch the descriptor. -/
def Connection.TornDown (s : Connection State Call) : Prop :=
  s.recv = .finished ∨ (s.recv ≠ .notStarted ∧ s.registered = false) →
    s.recv = .finished ∧ s.send = .finished ∧ s.registered = false

instance Connection.decidableTornDown (s : Connection State Call) : Decidable s.TornDown :=
  inferInstanceAs (Decidable (_ → _))

/-- The run is timely, `EPOLLHUP` does not come, the user does not close an open connection,
and on an open connection `recv_fn` goes on with frames it `admits`. -/
def Endpoint.Orderly (endpoint : Endpoint State Call) (quiet admits : State → Prop)
    (s : Connection State Call) (label : Label Call) : Prop :=
  endpoint.Timely quiet s label ∧
    match label with
    | .event hup _ _ => hup = false
    | .userClose => endpoint.closed s.state = true
    | .goOn => s.send.isRunning = false → s.recv = .running .loop →
        endpoint.closed s.state = false → admits s.state
    | .callMethod _ | .task | .read _ | .write _ => True

instance Endpoint.decidableOrderly (endpoint : Endpoint State Call) (quiet admits : State → Prop)
    [DecidablePred quiet] [DecidablePred admits] (s : Connection State Call)
    (label : Label Call) : Decidable (endpoint.Orderly quiet admits s label) :=
  match label with
  | .event .. | .userClose => inferInstanceAs (Decidable (_ ∧ _ = _))
  | .goOn => inferInstanceAs (Decidable (_ ∧ (_ → _ → _ → _)))
  | .callMethod _ | .task | .read _ | .write _ => inferInstanceAs (Decidable (_ ∧ True))

/-- The invariant: an open connection is watched, and a closed one is being taken down by
the `async_read` that has closed it, or is down but for `recv_fn`. -/
structure Connection.Closing (endpoint : Endpoint State Call) (s : Connection State Call) :
    Prop where
  opened : endpoint.closed s.state = false →
    s.recv ≠ .finished ∧ (s.recv ≠ .notStarted → s.registered = true)
  closed : endpoint.closed s.state = true →
    ((∃ read, s.recv = .running (.awaiting read)) ∧
        (s.send.isRunning = true ∨ s.send = .finished)) ∨
      (s.registered = false ∧ s.send = .finished ∧
        (s.recv = .running .loop ∨ s.recv = .finished))

variable {endpoint : Endpoint State Call} {quiet admits : State → Prop}
  {s next : Connection State Call}

/-- A new connection is open, or it is not used at all. -/
theorem closing_connect (opened : endpoint.closed endpoint.init = false) :
    endpoint.connect.Closing endpoint where
  opened _ := ⟨nofun, fun started => absurd rfl started⟩
  closed closed := by simp [Endpoint.connect, opened] at closed

/-- Resuming `send_fn` leaves `recv_fn` where it is. -/
@[simp] theorem recv_resumeWrite (s : Connection State Call) : s.resumeWrite.recv = s.recv := by
  unfold Connection.resumeWrite
  cases s.send <;> rfl

/-- It leaves what epoll watches. -/
@[simp] theorem registered_resumeWrite (s : Connection State Call) :
    s.resumeWrite.registered = s.registered := by
  unfold Connection.resumeWrite
  cases s.send <;> rfl

/-- It leaves the state of the endpoint. -/
@[simp] theorem state_resumeWrite (s : Connection State Call) : s.resumeWrite.state = s.state := by
  unfold Connection.resumeWrite
  cases s.send <;> rfl

/-- A suspended `send_fn` runs then. -/
theorem isRunning_resumeWrite (suspended : s.send.isSuspended = true) :
    s.resumeWrite.send.isRunning = true := by
  unfold Connection.resumeWrite
  cases send : s.send with
  | suspended awaiter => rfl
  | notStarted | running point | finished => simp [send, SendState.isSuspended] at suspended

namespace Connection.Closing

/-- While the thread is idle, a connection is open and watched, or down. -/
theorem tornDown (closing : s.Closing endpoint) (idle : s.Idle) : s.TornDown := by
  intro leaves
  cases closed : endpoint.closed s.state with
  | false =>
      obtain ⟨running, watched⟩ := closing.opened closed
      rcases leaves with finished | ⟨started, removed⟩
      · exact absurd finished running
      · rw [watched started] at removed
        cases removed
  | true =>
      rcases closing.closed closed with ⟨⟨read, awaiting⟩, -⟩ | ⟨removed, sent, inLoop | finished⟩
      · simp [Idle, awaiting, RecvState.isRunning] at idle
      · simp [Idle, inLoop, RecvState.isRunning] at idle
      · exact ⟨finished, sent, removed⟩

/-- A connection whose `recv_fn` neither runs nor has finished is open. -/
theorem open_of_waiting (closing : s.Closing endpoint) (still : s.recv.isRunning = false)
    (watched : s.recv ≠ .finished ∨ s.registered = true) : endpoint.closed s.state = false := by
  cases closed : endpoint.closed s.state with
  | false => rfl
  | true =>
      rcases closing.closed closed with ⟨⟨read, awaiting⟩, -⟩ | ⟨removed, -, inLoop | finished⟩
      · simp [awaiting, RecvState.isRunning] at still
      · simp [inLoop, RecvState.isRunning] at still
      · simp [finished, removed] at watched

/-- Where `send_fn` runs, a closed connection is about to be taken out of epoll. -/
theorem awaiting_of_sending (closing : s.Closing endpoint) (running : s.send.isRunning = true)
    (closed : endpoint.closed s.state = true) : ∃ read, s.recv = .running (.awaiting read) := by
  rcases closing.closed closed with ⟨awaiting, -⟩ | ⟨-, sent, -⟩
  · exact awaiting
  · simp [sent, SendState.isRunning] at running

/-- The connection is open, and stays so, with `recv_fn` in its loop or waiting. -/
theorem of_open (closing : s.Closing endpoint) (before : endpoint.closed s.state = false)
    (after : endpoint.closed next.state = false) (running : next.recv ≠ .finished)
    (started : next.recv ≠ .notStarted → s.recv ≠ .notStarted)
    (registered : next.registered = s.registered) : next.Closing endpoint where
  opened _ := ⟨running, fun now => registered.trans ((closing.opened before).2 (started now))⟩
  closed closed := by simp [after] at closed

/-! ## The steps -/

/-- A task starts a coroutine, or appends a request. -/
theorem task (lawful : endpoint.Lawful quiet) (inv : s.Inv endpoint)
    (closing : s.Closing endpoint) {task : Task Call} {rest : List (Task Call)}
    (first : s.tasks = task :: rest) (timely : endpoint.Timely quiet s .task)
    (taken : endpoint.runTask { s with tasks := rest } task = some next) :
    next.Closing endpoint := by
  obtain ⟨calls, ⟨rfl, new, early, rfl⟩ | ⟨rfl, started, early, rfl⟩ |
    ⟨call, rfl, started, received, rfl⟩⟩ := task_cases first inv.tasks inv.order
  · have opened := closing.open_of_waiting (by simp [early, RecvState.isRunning])
      (.inl (by simp [early]))
    simp only [Endpoint.runTask, Option.some.injEq] at taken
    subst taken
    exact closing.of_open opened opened (by simp [early]) id rfl
  · have opened := closing.open_of_waiting (by simp [early, RecvState.isRunning])
      (.inl (by simp [early]))
    simp only [Endpoint.runTask, Option.some.injEq] at taken
    subst taken
    exact {
      opened := fun _ => ⟨by simp, fun _ => rfl⟩
      closed := fun closed => by simp [opened] at closed }
  · have opened : endpoint.closed s.state = false := by
      simpa only [Endpoint.Timely, first] using timely
    simp only [Endpoint.runTask, Option.map_eq_some_iff] at taken
    obtain ⟨state, requested, rfl⟩ := taken
    have still : endpoint.closed state = false :=
      (lawful.sendRequest_closed requested).trans opened
    apply closing.of_open opened
    · rw [state_resumeWrite]
      exact still
    · rw [recv_resumeWrite]
      exact (closing.opened opened).1
    · exact fun _ => received
    · exact registered_resumeWrite _

/-- `EPOLLHUP` closes the connection and stops watching it. -/
theorem event (closing : s.Closing endpoint) (idle : s.Idle) (watched : s.registered = true)
    (out in_ : Bool) : (endpoint.handle s false out in_).Closing endpoint := by
  have opened := closing.open_of_waiting idle.2.1 (.inr watched)
  have running := (closing.opened opened).1
  unfold Endpoint.handle
  rw [if_neg Bool.false_ne_true]
  cases out with
  | false => exact closing.of_open opened opened running id rfl
  | true =>
      apply closing.of_open opened
      · change endpoint.closed ({ s with armed := false } : Connection State Call).resumeWrite.state
          = false
        rw [state_resumeWrite]
        exact opened
      · change ({ s with armed := false } : Connection State Call).resumeWrite.recv ≠ .finished
        rw [recv_resumeWrite]
        exact running
      · intro started
        change ({ s with armed := false } : Connection State Call).resumeWrite.recv ≠ .notStarted
          at started
        rw [recv_resumeWrite] at started
        exact started
      · change ({ s with armed := false } : Connection State Call).resumeWrite.registered = _
        rw [registered_resumeWrite]

/-- `async_read` closes the connection and resumes `send_fn`. -/
theorem read (lawful : endpoint.Lawful quiet) (inv : s.Inv endpoint)
    (closing : s.Closing endpoint) (still : s.send.isRunning = false)
    (inLoop : s.recv = .running .loop) (awaits : (endpoint.advance s.state).isNone)
    {call : ReadCall} (timely : endpoint.Timely quiet s (.read call)) :
    (endpoint.read s call).Closing endpoint := by
  have started : s.recv ≠ .notStarted := by simp [inLoop]
  have opened := inv.open_of_read lawful still inLoop awaits timely
  have suspended := inv.suspended_of_open started still opened
  have watched := (closing.opened opened).2 started
  unfold Endpoint.read
  dsimp only
  split
  next shut =>
    exact {
      opened := fun open_ => by
        rw [state_resumeWrite] at open_
        simp [shut] at open_
      closed := fun _ => .inl ⟨⟨_, recv_resumeWrite _⟩, .inl (isRunning_resumeWrite suspended)⟩ }
  next open_ =>
    exact closing.of_open opened (Bool.eq_false_iff.mpr open_) nofun (fun _ => started) rfl

/-- `async_write` suspends on an open connection only. -/
theorem write (closing : s.Closing endpoint) (writing : s.send = .running .asyncWrite)
    {results : List WriteResult} (taken : endpoint.write s results = some next) :
    next.Closing endpoint := by
  have running : s.send.isRunning = true := by rw [writing]; rfl
  simp only [Endpoint.write, Option.map_eq_some_iff] at taken
  obtain ⟨outcome, -, rfl⟩ := taken
  split
  next waits =>
    have opened := waits.1
    exact closing.of_open opened opened (closing.opened opened).1 id rfl
  next =>
    exact {
      opened := closing.opened
      closed := fun closed => .inl ⟨closing.awaiting_of_sending running closed, .inl rfl⟩ }

/-- `send_fn` ends on a closed connection. -/
theorem sendFn (closing : s.Closing endpoint) {point : SendPoint}
    (sends : s.send = .running point) (taken : endpoint.sendFn s point = some next) :
    next.Closing endpoint := by
  have running : s.send.isRunning = true := by rw [sends]; rfl
  cases point with
  | top =>
      simp only [Endpoint.sendFn, Option.some.injEq] at taken
      subst taken
      refine { opened := closing.opened, closed := fun closed => .inl ?_ }
      exact ⟨closing.awaiting_of_sending running closed, .inr (if_pos closed)⟩
  | waitWrite =>
      simp only [Endpoint.sendFn] at taken
      split at taken
      next =>
        cases taken
        exact {
          opened := closing.opened
          closed := fun closed => .inl ⟨closing.awaiting_of_sending running closed, .inl rfl⟩ }
      next waits =>
        cases taken
        have opened := Bool.eq_false_iff.mpr (not_or.mp waits).1
        exact closing.of_open opened opened (closing.opened opened).1 id rfl
  | asyncWrite => simp [Endpoint.sendFn] at taken

/-- `recv_fn` ends there as well, or its awaiter stops the watching. -/
theorem recvFn (lawful : endpoint.Lawful quiet) (inv : s.Inv endpoint)
    (admitted : ∀ {s t}, endpoint.closed s = false → admits s → endpoint.advance s = some t →
      endpoint.ended t = false)
    (closing : s.Closing endpoint) (still : s.send.isRunning = false) {point : RecvPoint}
    (running : s.recv = .running point) (orderly : endpoint.Orderly quiet admits s .goOn)
    (taken : endpoint.recvFn s point = some next) : next.Closing endpoint := by
  have started : s.recv ≠ .notStarted := by simp [running]
  cases point with
  | awaiting read =>
      simp only [Endpoint.recvFn] at taken
      split at taken
      next closed =>
        cases taken
        have sent : s.send = .finished := by
          rcases closing.closed closed with ⟨-, sends | sent⟩ | ⟨-, sent, -⟩
          · simp [still] at sends
          · exact sent
          · exact sent
        exact {
          opened := fun opened => by simp [closed] at opened
          closed := fun _ => .inr ⟨rfl, sent, .inl rfl⟩ }
      next opened =>
        cases taken
        have open_ := Bool.eq_false_iff.mpr opened
        have running_ : (if read = true then RecvState.running RecvPoint.loop
            else RecvState.suspended) ≠ RecvState.finished := by
          cases read <;> simp
        exact {
          opened := fun _ => ⟨running_, fun _ => (closing.opened open_).2 started⟩
          closed := fun closed => absurd closed opened }
  | loop =>
      simp only [Endpoint.recvFn, Option.map_eq_some_iff] at taken
      obtain ⟨state, advanced, rfl⟩ := taken
      have shut := lawful.advance_closed advanced
      cases closed : endpoint.closed s.state with
      | false =>
          have goesOn := admitted closed (orderly.2 still running closed) advanced
          have open_ : endpoint.closed state = false := by rw [shut, closed, goesOn, Bool.or_false]
          simp only [goesOn, Bool.false_eq_true, ↓reduceIte]
          split
          next =>
            apply closing.of_open closed
            · rwa [state_resumeWrite]
            · rw [recv_resumeWrite]
              simp [running]
            · exact fun _ => started
            · exact registered_resumeWrite _
          next => exact closing.of_open closed open_ (by simp [running]) (fun _ => started) rfl
      | true =>
          have down : endpoint.closed state = true := by rw [shut, closed, Bool.true_or]
          obtain ⟨removed, sent⟩ : s.registered = false ∧ s.send = .finished := by
            rcases closing.closed closed with ⟨⟨read, awaiting⟩, -⟩ | ⟨removed, sent, -⟩
            · simp [running] at awaiting
            · exact ⟨removed, sent⟩
          have notEnded : endpoint.ended s.state = false := by
            simpa [running] using inv.ended
          obtain ⟨other, taken, quietly⟩ :=
            lawful.advance_quiet closed (orderly.1 still running closed) notEnded
          obtain rfl : state = other := Option.some.inj (advanced.symm.trans taken)
          split
          next =>
            exact {
              opened := fun opened => by simp [down] at opened
              closed := fun _ => .inr ⟨removed, sent, .inr rfl⟩ }
          next goesOn =>
            have silent := quietly.resolve_left goesOn
            simp only [silent, Bool.false_eq_true, ↓reduceIte]
            exact {
              opened := fun opened => by simp [down] at opened
              closed := fun _ => .inr ⟨removed, sent, .inl running⟩ }

/-- A `recv_fn` that waits is resumed. -/
theorem resumeRead (inv : s.Inv endpoint) (closing : s.Closing endpoint)
    (pending : s.readable = true) :
    ({ s with readable := false } : Connection State Call).resumeRead.Closing endpoint := by
  have waits := inv.readable pending
  have opened := closing.open_of_waiting (by simp [waits, RecvState.isRunning])
    (.inl (by simp [waits]))
  have next : ({ s with readable := false } : Connection State Call).resumeRead =
      { s with
        readable := false, resumed := s.resumed ++ [⟨s.readHandle, true⟩]
        recv := .running .loop } := by
    simp only [Connection.resumeRead, waits, decide_true]
  rw [next]
  exact closing.of_open opened opened (by simp) (fun _ => by simp [waits]) rfl

/-- **One step** keeps the invariant. -/
theorem step (lawful : endpoint.Lawful quiet)
    (admitted : ∀ {s t}, endpoint.closed s = false → admits s → endpoint.advance s = some t →
      endpoint.ended t = false)
    (inv : s.Inv endpoint) (closing : s.Closing endpoint) {label : Label Call}
    (orderly : endpoint.Orderly quiet admits s label)
    (taken : endpoint.step s label = some next) : next.Closing endpoint := by
  cases label with
  | callMethod call =>
      cases taken
      exact { closing with }
  | userClose =>
      simp only [Endpoint.step, Option.ite_none_right_eq_some] at taken
      obtain ⟨state, closes, rfl⟩ := Option.map_eq_some_iff.mp taken.2
      have closed := lawful.userClose_closed closes
      exact {
        opened := fun opened => by simp [closed] at opened
        closed := fun _ => closing.closed orderly.2 }
  | task =>
      simp only [Endpoint.step] at taken
      cases tasks : s.tasks with
      | nil => simp [tasks] at taken
      | cons task rest =>
          simp only [tasks, Option.ite_none_right_eq_some] at taken
          exact closing.task lawful inv tasks orderly.1 taken.2
  | event hup out in_ =>
      simp only [Endpoint.step, Option.ite_none_right_eq_some, Option.some.injEq] at taken
      obtain ⟨⟨idle, watched, -⟩, rfl⟩ := taken
      obtain rfl : hup = false := orderly.2
      exact closing.event idle watched out in_
  | read call =>
      simp only [Endpoint.step, Option.ite_none_right_eq_some, Option.some.injEq] at taken
      obtain ⟨⟨still, inLoop, awaits⟩, rfl⟩ := taken
      exact closing.read lawful inv still inLoop awaits orderly.1
  | write results =>
      simp only [Endpoint.step, Option.ite_none_right_eq_some] at taken
      exact closing.write taken.1 taken.2
  | goOn =>
      rcases endpoint.goOn_cases taken with ⟨point, send, sends⟩ | ⟨still, ⟨point, recv, receives⟩ |
        ⟨-, pending, rfl⟩⟩
      · exact closing.sendFn send sends
      · exact closing.recvFn lawful inv admitted still recv orderly receives
      · exact closing.resumeRead inv pending

end Connection.Closing

/-- **Teardown is complete** in every orderly run of a lawful endpoint, in every state in
which the thread is idle. -/
theorem tornDown_of_orderly (lawful : endpoint.Lawful quiet)
    (opened : endpoint.closed endpoint.init = false)
    (admitted : ∀ {s t}, endpoint.closed s = false → admits s → endpoint.advance s = some t →
      endpoint.ended t = false)
    {labels : List (Label Call)} {final : Connection State Call}
    (run : exec endpoint.step endpoint.connect labels = some final)
    (orderly : Along endpoint.step (endpoint.Orderly quiet admits) endpoint.connect labels)
    (idle : final.Idle) : final.TornDown := by
  have kept : ∀ (s : Connection State Call) (label : Label Call) (next : Connection State Call),
      s.Inv endpoint ∧ s.Closing endpoint → endpoint.Orderly quiet admits s label →
        endpoint.step s label = some next → next.Inv endpoint ∧ next.Closing endpoint := by
    intro s label next both orderly taken
    obtain ⟨inv, closing⟩ := both
    exact ⟨inv.step lawful orderly.1 taken, closing.step lawful admitted inv orderly taken⟩
  have both := exec_invariant kept ⟨inv_connect lawful, closing_connect opened⟩ run orderly
  exact both.2.tornDown idle

end Drpc.Net
