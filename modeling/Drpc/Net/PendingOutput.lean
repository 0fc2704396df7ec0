import Drpc.Net.Coroutines

/-! # Output is never stranded

`WaitWriteAwaiter` and `WriteAwaiter` share one handle, the event loop disarms
`EPOLLOUT` before it resumes `send_fn`, and frames that are appended meanwhile resume
it as well. Whenever the thread is idle and the connection open, a write buffer that is
not empty has a `send_fn` that waits for an armed `EPOLLOUT` (`Connection.Attended`), in
every run, also of events that come late or without cause.
-/

namespace Drpc.Net

open Transition

variable {State Call : Type} (endpoint : Endpoint State Call)

namespace Endpoint

/-- One step, where an event may be reported whatever epoll watches by then. -/
def lateStep (s : Connection State Call) : Label Call → Option (Connection State Call)
  | .event hup out in_ =>
      if s.Idle ∧ s.readHandle = true then some (endpoint.handle s hup out in_) else none
  | .callMethod call => endpoint.step s (.callMethod call)
  | .userClose => endpoint.step s .userClose
  | .task => endpoint.step s .task
  | .read call => endpoint.step s (.read call)
  | .write results => endpoint.step s (.write results)
  | .goOn => endpoint.step s .goOn

/-- What an endpoint appends is followed by a `resume_write`, as long as `recv_fn` is in its
loop, and closing an endpoint closes it. -/
structure Silent : Prop where
  init_output : endpoint.output endpoint.init = []
  advance_closed : ∀ {s t}, endpoint.advance s = some t →
    endpoint.closed t = (endpoint.closed s || endpoint.ended t)
  advance_output : ∀ {s t}, endpoint.advance s = some t → endpoint.answers s t = false →
    endpoint.output t = endpoint.output s
  deliver_closed : ∀ s call,
    endpoint.closed (endpoint.deliver s call) = (endpoint.closed s || call.outcome.closes)
  deliver_output : ∀ s call, endpoint.output (endpoint.deliver s call) = endpoint.output s
  close_closed : ∀ s, endpoint.closed (endpoint.close s) = true
  close_output : ∀ s, endpoint.output (endpoint.close s) = endpoint.output s
  userClose_closed : ∀ {s t}, endpoint.userClose s = some t → endpoint.closed t = true
  userClose_output : ∀ {s t}, endpoint.userClose s = some t →
    endpoint.output t = endpoint.output s
  sendRequest_closed : ∀ {s call t}, endpoint.sendRequest s call = some t →
    endpoint.closed t = endpoint.closed s

end Endpoint

/-- Where the coroutines stand, whatever the write buffer holds. -/
structure Connection.Underway (endpoint : Endpoint State Call) (s : Connection State Call) :
    Prop where
  tasks : ∃ calls : List Call, s.tasks = s.starting ++ calls.map .sendRequest
  order : s.recv ≠ .notStarted → s.send ≠ .notStarted
  early : s.recv = .notStarted →
    endpoint.output s.state = [] ∧ s.send ≠ .suspended .write
  watched : endpoint.closed s.state = false → s.recv ≠ .notStarted → s.registered = true
  writeHandle : s.send.isSuspended = true → s.writeHandle = true
  sendFinished : s.send = .finished → endpoint.closed s.state = true

/-- The invariant: a `send_fn` that waits on an open connection waits for `EPOLLOUT`, or the
write buffer is empty. -/
structure Connection.Attended (endpoint : Endpoint State Call) (s : Connection State Call) :
    Prop extends s.Underway endpoint where
  empty : endpoint.closed s.state = false → s.send = .suspended .waitWrite →
    endpoint.content s = []
  armed : endpoint.closed s.state = false → s.send = .suspended .write → s.armed = true

variable {endpoint : Endpoint State Call} {s : Connection State Call}

/-- A new connection has no output and no coroutine that waits. -/
theorem attended_connect (silent : endpoint.Silent) : endpoint.connect.Attended endpoint where
  tasks := ⟨[], rfl⟩
  order started := absurd rfl started
  early _ := ⟨silent.init_output, nofun⟩
  watched _ started := absurd rfl started
  writeHandle suspended := nomatch suspended
  sendFinished finished := nomatch finished
  empty _ suspended := nomatch suspended
  armed _ suspended := nomatch suspended

/-- A `send_fn` that runs waits for nothing. -/
theorem Connection.Attended.of_running {point : SendPoint} (running : s.send = .running point)
    (tasks : ∃ calls : List Call, s.tasks = s.starting ++ calls.map .sendRequest)
    (early : s.recv = .notStarted → endpoint.output s.state = [])
    (watched : endpoint.closed s.state = false → s.recv ≠ .notStarted → s.registered = true) :
    s.Attended endpoint where
  tasks := tasks
  order _ := by simp [running]
  early new := ⟨early new, by simp [running]⟩
  watched := watched
  writeHandle suspended := by simp [running, SendState.isSuspended] at suspended
  sendFinished finished := by simp [running] at finished
  empty _ waits := by simp [running] at waits
  armed _ waits := by simp [running] at waits

/-- A `send_fn` that was resumed runs. -/
theorem Connection.Underway.resumeWrite (underway : s.Underway endpoint) :
    s.resumeWrite.Attended endpoint := by
  have tasks := underway.tasks
  cases send : s.send with
  | suspended awaiter =>
      have next : s.resumeWrite =
          { s with
            resumed := s.resumed ++ [⟨s.writeHandle, true⟩], send := .running awaiter.next } := by
        simp only [Connection.resumeWrite, send, SendState.isSuspended]
      rw [next]
      apply Connection.Attended.of_running rfl
      · simpa [Connection.starting, send] using tasks
      · exact fun new => (underway.early new).1
      · exact underway.watched
  | notStarted | running point | finished =>
      have next : s.resumeWrite =
          { s with resumed := s.resumed ++ [⟨s.writeHandle, false⟩] } := by
        simp only [Connection.resumeWrite, send, SendState.isSuspended]
      rw [next]
      exact { underway with empty := by simp [send], armed := by simp [send] }

namespace Connection.Attended

/-- While the thread is idle, output waits for an armed `EPOLLOUT`. -/
theorem pending (attended : s.Attended endpoint) (idle : s.Idle)
    (opened : endpoint.closed s.state = false) :
    (0 < endpoint.toWriteBytes s →
      s.send = .suspended .write ∧ s.writeHandle = true ∧ s.armed = true) ∧
    (s.send = .suspended .waitWrite → endpoint.toWriteBytes s = 0) := by
  refine ⟨fun some_ => ?_, fun waits => ?_⟩
  · cases send : s.send with
    | notStarted =>
        have new : s.recv = .notStarted := by
          by_contra started
          exact attended.order started send
        simp [Endpoint.toWriteBytes, Endpoint.content, (attended.early new).1] at some_
    | running point => simp [Idle, send, SendState.isRunning] at idle
    | suspended awaiter =>
        have set := attended.writeHandle (by simp [send, SendState.isSuspended])
        cases awaiter with
        | waitWrite => simp [Endpoint.toWriteBytes, attended.empty opened send] at some_
        | write => exact ⟨rfl, set, attended.armed opened send⟩
    | finished => simp [attended.sendFinished send] at opened
  · rw [Endpoint.toWriteBytes, attended.empty opened waits, List.length_nil]

/-! ## The steps -/

/-- The endpoint closes. -/
theorem withClosed (attended : s.Attended endpoint) {state : State}
    (closed : endpoint.closed state = true)
    (output : endpoint.output state = endpoint.output s.state) :
    ({ s with state } : Connection State Call).Attended endpoint :=
  { attended with
    early := fun new => by rw [output]; exact attended.early new
    watched := fun opened => by simp [closed] at opened
    sendFinished := fun _ => closed
    empty := fun opened => by simp [closed] at opened
    armed := fun opened => by simp [closed] at opened }

/-- A task: the coroutines start with nothing to write, and a request that is appended
is followed by `resume_write`. -/
theorem task (silent : endpoint.Silent) (attended : s.Attended endpoint) {task : Task Call}
    {rest : List (Task Call)} (first : s.tasks = task :: rest) {next : Connection State Call}
    (taken : endpoint.runTask { s with tasks := rest } task = some next) :
    next.Attended endpoint := by
  obtain ⟨calls, ⟨rfl, new, early, rfl⟩ | ⟨rfl, started, early, rfl⟩ |
    ⟨call, rfl, started, received, rfl⟩⟩ := task_cases first attended.tasks attended.order
  · simp only [Endpoint.runTask, Option.some.injEq] at taken
    subst taken
    apply of_running rfl
    · exact ⟨calls, by simp [Connection.starting, early]⟩
    · exact fun new => (attended.early new).1
    · exact attended.watched
  · simp only [Endpoint.runTask, Option.some.injEq] at taken
    subst taken
    exact { attended with
      tasks := ⟨calls, by simp [Connection.starting, started]⟩
      order := fun _ => started
      early := fun new => by cases new
      watched := fun _ _ => rfl
      armed := fun _ waits => absurd waits (attended.early early).2 }
  · simp only [Endpoint.runTask, Option.map_eq_some_iff] at taken
    obtain ⟨state, requested, rfl⟩ := taken
    have closed := silent.sendRequest_closed requested
    exact Connection.Underway.resumeWrite {
      tasks := ⟨calls, by simp [Connection.starting, started, received]⟩
      order := fun _ => started
      early := fun new => absurd new received
      watched := fun opened => attended.watched (by rwa [closed] at opened)
      writeHandle := attended.writeHandle
      sendFinished := fun finished => closed.trans (attended.sendFinished finished) }

/-- An event that disarms `EPOLLOUT` resumes `send_fn`, or has closed the connection. -/
theorem event (silent : endpoint.Silent) (attended : s.Attended endpoint) (hup out in_ : Bool) :
    (endpoint.handle s hup out in_).Attended endpoint := by
  unfold Endpoint.handle
  cases hup with
  | true =>
      have closed := attended.withClosed (silent.close_closed s.state) (silent.close_output s.state)
      have shut := silent.close_closed s.state
      exact { closed with
        watched := fun opened => by simp [shut] at opened
        armed := fun opened => by simp [shut] at opened }
  | false =>
      simp only [Bool.false_eq_true, ↓reduceIte]
      cases out with
      | false => exact { attended with }
      | true =>
          have disarmed : ({ s with armed := false } : Connection State Call).Underway endpoint :=
            { attended.toUnderway with }
          have resumed := disarmed.resumeWrite
          exact { resumed with }

/-- `async_read` resumes `send_fn` when it has closed the connection. -/
theorem read (silent : endpoint.Silent) (attended : s.Attended endpoint)
    (inLoop : s.recv = .running .loop) (call : ReadCall) :
    (endpoint.read s call).Attended endpoint := by
  have started : s.recv ≠ .notStarted := by simp [inLoop]
  have closed := silent.deliver_closed s.state call
  have open_ : endpoint.closed (endpoint.deliver s.state call) = false →
      endpoint.closed s.state = false := by
    intro opened
    rw [closed, Bool.or_eq_false_iff] at opened
    exact opened.1
  have output := silent.deliver_output s.state call
  have moved : ({ s with
      state := endpoint.deliver s.state call
      recv := .running (.awaiting (decide (call.outcome.bytes ≠ []))) } :
        Connection State Call).Attended endpoint := {
    tasks := by simpa [Connection.starting, inLoop] using attended.tasks
    order := fun _ => attended.order started
    early := fun new => by cases new
    watched := fun opened _ => attended.watched (open_ opened) started
    writeHandle := attended.writeHandle
    sendFinished := fun finished => by
      rw [closed, attended.sendFinished finished, Bool.true_or]
    empty := fun opened waits => by
      simpa only [Endpoint.content, output] using attended.empty (open_ opened) waits
    armed := fun opened => attended.armed (open_ opened) }
  unfold Endpoint.read
  dsimp only
  split
  · exact moved.toUnderway.resumeWrite
  · exact moved

/-- `async_write` suspends on an armed `EPOLLOUT` only with output left. -/
theorem write (attended : s.Attended endpoint) (writing : s.send = .running .asyncWrite)
    {results : List WriteResult} {next : Connection State Call}
    (taken : endpoint.write s results = some next) : next.Attended endpoint := by
  have tasks := attended.tasks
  simp only [Endpoint.write, Option.map_eq_some_iff] at taken
  obtain ⟨outcome, -, rfl⟩ := taken
  split
  next waits =>
    obtain ⟨opened, short⟩ := waits
    have some_ : endpoint.content s ≠ [] := by
      intro nothing
      have none_ : needWrite (endpoint.toWriteBytes s) = 0 := by
        rw [Endpoint.toWriteBytes, nothing]
        decide
      rw [none_, decide_eq_true_eq] at short
      omega
    have started : s.recv ≠ .notStarted := by
      intro new
      exact some_ (by rw [Endpoint.content, (attended.early new).1, List.drop_nil])
    exact {
      tasks := by simpa [Connection.starting, writing] using tasks
      order := by simp
      early := fun new => absurd new started
      watched := attended.watched
      writeHandle := fun _ => rfl
      sendFinished := fun finished => by cases finished
      empty := fun _ waits => by cases waits
      armed := fun _ _ => attended.watched opened started }
  next =>
    apply of_running rfl
    · simpa [Connection.starting, writing] using tasks
    · exact fun new => (attended.early new).1
    · exact attended.watched

/-- `send_fn` waits in `wait_write` only when the buffer is empty. -/
theorem sendFn (attended : s.Attended endpoint) {point : SendPoint}
    (running : s.send = .running point) {next : Connection State Call}
    (taken : endpoint.sendFn s point = some next) : next.Attended endpoint := by
  have tasks := attended.tasks
  cases point with
  | top =>
      simp only [Endpoint.sendFn, Option.some.injEq] at taken
      subst taken
      cases closed : endpoint.closed s.state with
      | true =>
          exact { attended with
            tasks := by simpa [Connection.starting, running] using tasks
            order := by simp
            early := fun new => ⟨(attended.early new).1, by simp⟩
            writeHandle := fun suspended => by cases suspended
            sendFinished := fun _ => closed
            empty := fun _ waits => by cases waits
            armed := fun _ waits => by cases waits }
      | false =>
          apply of_running rfl
          · simpa [Connection.starting, running] using tasks
          · exact fun new => (attended.early new).1
          · exact attended.watched
  | waitWrite =>
      simp only [Endpoint.sendFn] at taken
      split at taken
      next ready =>
        cases taken
        apply of_running rfl
        · simpa [Connection.starting, running] using tasks
        · exact fun new => (attended.early new).1
        · exact attended.watched
      next waits =>
        cases taken
        rw [not_or, Nat.not_lt, Nat.le_zero, Endpoint.toWriteBytes,
          List.length_eq_zero_iff] at waits
        exact { attended with
          tasks := by simpa [Connection.starting, running] using tasks
          order := by simp
          early := fun new => ⟨(attended.early new).1, by simp⟩
          writeHandle := fun _ => rfl
          sendFinished := fun finished => by cases finished
          empty := fun _ _ => waits.2
          armed := fun _ writes => by cases writes }
  | asyncWrite => simp [Endpoint.sendFn] at taken

/-- What `recv_fn` appends, it announces with `resume_write`. -/
theorem recvFn (silent : endpoint.Silent) (attended : s.Attended endpoint) {point : RecvPoint}
    (running : s.recv = .running point) {next : Connection State Call}
    (taken : endpoint.recvFn s point = some next) : next.Attended endpoint := by
  have tasks := attended.tasks
  have started : s.recv ≠ .notStarted := by simp [running]
  cases point with
  | awaiting read =>
      simp only [Endpoint.recvFn] at taken
      split at taken
      next closed =>
        cases taken
        exact { attended with
          tasks := by simpa [Connection.starting, running] using tasks
          order := fun _ => attended.order started
          early := fun new => by cases new
          watched := fun opened => by simp [closed] at opened
          armed := fun opened => by simp [closed] at opened }
      next opened =>
        cases taken
        exact { attended with
          tasks := by cases read <;> simpa [Connection.starting, running] using tasks
          order := fun _ => attended.order started
          early := by cases read <;> simp
          watched := fun opened _ => attended.watched opened started }
  | loop =>
      simp only [Endpoint.recvFn, Option.map_eq_some_iff] at taken
      obtain ⟨state, advanced, rfl⟩ := taken
      have closed := silent.advance_closed advanced
      have open_ : endpoint.closed state = false → endpoint.closed s.state = false := by
        intro opened
        rw [closed, Bool.or_eq_false_iff] at opened
        exact opened.1
      have moved : ({ s with state } : Connection State Call).Underway endpoint := {
        tasks := tasks
        order := attended.order
        early := fun new => absurd new started
        watched := fun opened => attended.watched (open_ opened)
        writeHandle := attended.writeHandle
        sendFinished := fun finished => by
          rw [closed, attended.sendFinished finished, Bool.true_or] }
      split
      next ended =>
        have shut : endpoint.closed state = true := by rw [closed, ended, Bool.or_true]
        exact { moved with
          tasks := by simpa [Connection.starting, running] using tasks
          order := fun _ => attended.order started
          early := fun new => by cases new
          watched := fun opened => by simp [shut] at opened
          empty := fun opened => by simp [shut] at opened
          armed := fun opened => by simp [shut] at opened }
      next =>
        split
        next => exact moved.resumeWrite
        next silent_ =>
          have output := silent.advance_output advanced (Bool.eq_false_iff.mpr silent_)
          exact { moved with
            empty := fun opened waits => by
              simpa only [Endpoint.content, output] using attended.empty (open_ opened) waits
            armed := fun opened => attended.armed (open_ opened) }

/-- A `recv_fn` that is resumed has not changed the output. -/
theorem resumeRead (attended : s.Attended endpoint) : s.resumeRead.Attended endpoint := by
  cases recv : s.recv with
  | suspended =>
      have started : s.recv ≠ .notStarted := by simp [recv]
      have next : s.resumeRead =
          { s with
            resumed := s.resumed ++ [⟨s.readHandle, true⟩], recv := .running .loop } := by
        simp only [Connection.resumeRead, recv, decide_true]
      rw [next]
      exact { attended with
        tasks := by simpa [Connection.starting, recv] using attended.tasks
        order := fun _ => attended.order started
        early := fun new => by cases new
        watched := fun opened _ => attended.watched opened started }
  | notStarted | running point | finished =>
      have next : s.resumeRead =
          { s with resumed := s.resumed ++ [⟨s.readHandle, false⟩] } := by
        simp only [Connection.resumeRead, recv, reduceCtorEq, decide_false]
      rw [next]
      exact { attended with }

/-- **One step** keeps the invariant. -/
theorem step (silent : endpoint.Silent) (attended : s.Attended endpoint) {label : Label Call}
    {next : Connection State Call} (taken : endpoint.lateStep s label = some next) :
    next.Attended endpoint := by
  cases label with
  | callMethod call =>
      cases taken
      obtain ⟨calls, tasks⟩ := attended.tasks
      refine { attended with tasks := ⟨calls ++ [call], ?_⟩ }
      rw [tasks, List.map_append, List.append_assoc]
      rfl
  | userClose =>
      simp only [Endpoint.lateStep, Endpoint.step, Option.ite_none_right_eq_some] at taken
      obtain ⟨state, closes, rfl⟩ := Option.map_eq_some_iff.mp taken.2
      exact attended.withClosed (silent.userClose_closed closes) (silent.userClose_output closes)
  | task =>
      simp only [Endpoint.lateStep, Endpoint.step] at taken
      cases tasks : s.tasks with
      | nil => simp [tasks] at taken
      | cons task rest =>
          simp only [tasks, Option.ite_none_right_eq_some] at taken
          exact attended.task silent tasks taken.2
  | event hup out in_ =>
      simp only [Endpoint.lateStep, Option.ite_none_right_eq_some, Option.some.injEq] at taken
      obtain ⟨-, rfl⟩ := taken
      exact attended.event silent hup out in_
  | read call =>
      simp only [Endpoint.lateStep, Endpoint.step, Option.ite_none_right_eq_some,
        Option.some.injEq] at taken
      obtain ⟨⟨-, inLoop, -⟩, rfl⟩ := taken
      exact attended.read silent inLoop call
  | write results =>
      simp only [Endpoint.lateStep, Endpoint.step, Option.ite_none_right_eq_some] at taken
      exact attended.write taken.1 taken.2
  | goOn =>
      rcases endpoint.goOn_cases taken with ⟨point, send, sends⟩ | ⟨-, ⟨point, recv, receives⟩ |
        ⟨-, -, rfl⟩⟩
      · exact attended.sendFn send sends
      · exact attended.recvFn silent recv receives
      · have handled : ({ s with readable := false } : Connection State Call).Attended endpoint :=
          { attended with }
        exact handled.resumeRead

end Connection.Attended

/-- **The invariant holds in every run**, also of late and spurious events. -/
theorem attended_of_run (silent : endpoint.Silent) {labels : List (Label Call)}
    {final : Connection State Call}
    (run : exec endpoint.lateStep endpoint.connect labels = some final) :
    final.Attended endpoint :=
  exec_invariant (fun _ _ _ attended _ taken => Connection.Attended.step silent attended taken)
    (attended_connect silent) run (along_of_forall_mem (fun _ _ => trivial) _)

end Drpc.Net
