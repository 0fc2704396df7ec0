import Drpc.Library.Transition
import Drpc.Net.AsyncRead
import Drpc.Net.AsyncWrite

/-! # The coroutines of a connection

A connection has two coroutines, `recv_fn` and `send_fn`, which run on the one
thread of its executor. The thread takes a task, or an event of epoll, and runs
until the coroutine it has resumed awaits again; `recv_fn` itself resumes
`send_fn`, and goes on when that one awaits. A handle that is resumed should be set
and its coroutine suspended: `resumed` records what each `resume_read` and
`resume_write` has found.

The two sides of the library differ in what `recv_fn` does between its awaits and
in what a user can ask for. `Endpoint` collects that.
-/

namespace Drpc.Net

open Transition

/-- What a side of the library puts into a connection. -/
structure Endpoint (State Call : Type) where
  init : State
  /-- `recv_fn` between two awaits; `none` where it awaits `async_read`. -/
  advance : State → Option State
  /-- The bytes an `async_read` commits, and the close at the end of the stream. -/
  deliver : State → ReadCall → State
  /-- `recv_fn` has left its loop. -/
  ended : State → Bool
  closed : State → Bool
  /-- `Connection::close` -/
  close : State → State
  /-- `ClientChannel::close`; the server offers none. -/
  userClose : State → Option State
  /-- The closure of `CallMethod` up to its `resume_write`. -/
  sendRequest : State → Call → Option State
  /-- This advance has written a response, and `resume_write` follows. -/
  answers : State → State → Bool
  /-- Everything appended to the write buffer. -/
  output : State → Bytes

/-- Where `recv_fn` stands while it runs. -/
inductive RecvPoint where
  /-- In its loop, with no call of `async_read` open. -/
  | loop
  /-- Behind the reads of `async_read`; `read` says whether there were bytes. -/
  | awaiting (read : Bool)
  deriving DecidableEq, Repr

/-- Where `recv_fn` stands. -/
inductive RecvState where
  | notStarted
  | running (point : RecvPoint)
  /-- In `ReadAwaiter`. -/
  | suspended
  | finished
  deriving DecidableEq, Repr

/-- Where `send_fn` stands while it runs. -/
inductive SendPoint where
  /-- `while (!conn->closed())` -/
  | top
  /-- `WaitWriteAwaiter::await_ready` -/
  | waitWrite
  /-- `async_write` -/
  | asyncWrite
  deriving DecidableEq, Repr

/-- What `send_fn` can wait for. -/
inductive SendAwait where
  /-- `WaitWriteAwaiter` -/
  | waitWrite
  /-- `WriteAwaiter` -/
  | write
  deriving DecidableEq, Repr

/-- Where `send_fn` stands. -/
inductive SendState where
  | notStarted
  | running (point : SendPoint)
  | suspended (awaiter : SendAwait)
  | finished
  deriving DecidableEq, Repr

/-- Where `send_fn` goes on when it is resumed. -/
def SendAwait.next : SendAwait → SendPoint
  | .waitWrite => .asyncWrite
  | .write => .top

/-- `send_fn` is on the stack of the thread. -/
def SendState.isRunning : SendState → Bool
  | .running _ => true
  | .notStarted | .suspended _ | .finished => false

/-- It waits for a `resume_write`. -/
def SendState.isSuspended : SendState → Bool
  | .suspended _ => true
  | .notStarted | .running _ | .finished => false

/-- `recv_fn` is on the stack. -/
def RecvState.isRunning : RecvState → Bool
  | .running _ => true
  | .notStarted | .suspended | .finished => false

/-- A task of the executor. -/
inductive Task (Call : Type) where
  | sendFn
  | recvFn
  | sendRequest (call : Call)
  deriving DecidableEq, Repr

/-- What a call of `resume_read` or `resume_write` has found. -/
structure Resume where
  handleSet : Bool
  suspended : Bool
  deriving DecidableEq, Repr

/-- The handle is set and its coroutine is suspended. -/
def Resume.Sound (resume : Resume) : Prop := resume.handleSet = true ∧ resume.suspended = true

/-- A connection and what its executor has to do for it. -/
structure Connection (State Call : Type) where
  state : State
  /-- The bytes taken out of the write buffer. -/
  sent : Nat
  recv : RecvState
  send : SendState
  /-- `read_handle_` and `write_handle_` are set. -/
  readHandle : Bool
  writeHandle : Bool
  /-- epoll watches the descriptor, -/
  registered : Bool
  /-- for `EPOLLOUT` too. -/
  armed : Bool
  tasks : List (Task Call)
  /-- `EPOLLIN` of the event being handled is still to come. -/
  readable : Bool
  resumed : List Resume

/-- What happens to a connection. -/
inductive Label (Call : Type) where
  /-- `CallMethod` leaves its closure with the executor. -/
  | callMethod (call : Call)
  /-- `ClientChannel::close` -/
  | userClose
  /-- The executor takes the first task. -/
  | task
  /-- An event of epoll, with `EPOLLHUP`, `EPOLLOUT` and `EPOLLIN`. -/
  | event (hup out in_ : Bool)
  /-- `async_read`, with what `::read` gives. -/
  | read (call : ReadCall)
  /-- `async_write`, with what `::writev` gives. -/
  | write (results : List WriteResult)
  /-- The running code goes on. -/
  | goOn
  deriving DecidableEq, Repr

variable {State Call : Type}

namespace Connection

/-- The thread runs no coroutine and handles no event. -/
def Idle (s : Connection State Call) : Prop :=
  s.send.isRunning = false ∧ s.recv.isRunning = false ∧ s.readable = false

instance decidableIdle (s : Connection State Call) : Decidable s.Idle :=
  inferInstanceAs (Decidable (_ ∧ _ ∧ _))

/-- `closed_` is a plain `bool`: a `close` of the user comes between tasks and
events, or from the `done` that `recv_fn` runs. -/
def MayClose (s : Connection State Call) : Prop :=
  s.Idle ∨ (s.send.isRunning = false ∧ s.recv = .running .loop)

instance decidableMayClose (s : Connection State Call) : Decidable s.MayClose :=
  inferInstanceAs (Decidable (_ ∨ _))

/-- `Connection::resume_read`. Where the coroutine is not suspended the source is
undefined; the model goes on without it. -/
def resumeRead (s : Connection State Call) : Connection State Call :=
  let found : Resume := ⟨s.readHandle, decide (s.recv = .suspended)⟩
  let s := { s with resumed := s.resumed ++ [found] }
  match s.recv with
  | .suspended => { s with recv := .running .loop }
  | .notStarted | .running _ | .finished => s

/-- `Connection::resume_write` -/
def resumeWrite (s : Connection State Call) : Connection State Call :=
  let found : Resume := ⟨s.writeHandle, s.send.isSuspended⟩
  let s := { s with resumed := s.resumed ++ [found] }
  match s.send with
  | .suspended awaiter => { s with send := .running awaiter.next }
  | .notStarted | .running _ | .finished => s

end Connection

variable (endpoint : Endpoint State Call)

namespace Endpoint

/-- A new connection: `send_fn` is spawned before `recv_fn`. -/
def connect : Connection State Call where
  state := endpoint.init
  sent := 0
  recv := .notStarted
  send := .notStarted
  readHandle := false
  writeHandle := false
  registered := false
  armed := false
  tasks := [.sendFn, .recvFn]
  readable := false
  resumed := []

/-- The content of the write buffer. -/
def content (s : Connection State Call) : Bytes := (endpoint.output s.state).drop s.sent

/-- `to_write_bytes` -/
def toWriteBytes (s : Connection State Call) : Nat := (endpoint.content s).length

/-- `send_fn` goes on, up to `async_write`. -/
def sendFn (s : Connection State Call) : SendPoint → Option (Connection State Call)
  | .top =>
      some { s with send := if endpoint.closed s.state then .finished else .running .waitWrite }
  | .waitWrite =>
      if endpoint.closed s.state = true ∨ 0 < endpoint.toWriteBytes s then
        some { s with send := .running .asyncWrite }
      else some { s with writeHandle := true, send := .suspended .waitWrite }
  | .asyncWrite => none

/-- `async_write` and its `WriteAwaiter`. The `EPOLL_CTL_MOD` of a descriptor that
epoll does not watch fails. -/
def write (s : Connection State Call) (results : List WriteResult) :
    Option (Connection State Call) :=
  (asyncWrite (endpoint.content s) results).map fun outcome =>
    let short : Bool := decide ((outcome.written : Int) < needWrite (endpoint.toWriteBytes s))
    let s := { s with sent := s.sent + outcome.written }
    if endpoint.closed s.state = false ∧ short = true then
      { s with writeHandle := true, armed := s.registered, send := .suspended .write }
    else { s with send := .running .top }

/-- `async_read` up to its awaiter: on a closed connection `send_fn` is resumed. -/
def read (s : Connection State Call) (call : ReadCall) : Connection State Call :=
  let s := { s with
    state := endpoint.deliver s.state call
    recv := .running (.awaiting (decide (call.outcome.bytes ≠ []))) }
  if endpoint.closed s.state then s.resumeWrite else s

/-- `recv_fn` goes on, up to `async_read`. -/
def recvFn (s : Connection State Call) : RecvPoint → Option (Connection State Call)
  | .loop =>
      (endpoint.advance s.state).map fun next =>
        if endpoint.ended next then { s with state := next, recv := .finished }
        else if endpoint.answers s.state next then { s with state := next }.resumeWrite
        else { s with state := next }
  | .awaiting read =>
      -- `ReadAwaiter::await_suspend`
      if endpoint.closed s.state then
        some { s with registered := false, armed := false, recv := .running .loop }
      else some { s with recv := if read then .running .loop else .suspended }

/-- The thread goes on where it stands: in `send_fn`, in the `recv_fn` that has
resumed it, or in the handling of an event. -/
def goOn (s : Connection State Call) : Option (Connection State Call) :=
  match s.send with
  | .running point => endpoint.sendFn s point
  | .notStarted | .suspended _ | .finished =>
      match s.recv with
      | .running point => endpoint.recvFn s point
      | .notStarted | .suspended | .finished =>
          if s.readable then some { s with readable := false }.resumeRead else none

/-- A task of the executor. `RegisterReadAwaiter` does not suspend. -/
def runTask (s : Connection State Call) : Task Call → Option (Connection State Call)
  | .sendFn => some { s with send := .running .top }
  | .recvFn =>
      some { s with readHandle := true, registered := true, armed := false, recv := .running .loop }
  | .sendRequest call =>
      (endpoint.sendRequest s.state call).map fun state => { s with state }.resumeWrite

/-- An event of epoll. -/
def handle (s : Connection State Call) (hup out in_ : Bool) : Connection State Call :=
  if hup then { s with state := endpoint.close s.state, registered := false, armed := false }
  else
    let s := if out then { s with armed := false }.resumeWrite else s
    { s with readable := in_ }

/-- One step of a connection. -/
def step (s : Connection State Call) : Label Call → Option (Connection State Call)
  | .callMethod call => some { s with tasks := s.tasks ++ [.sendRequest call] }
  | .userClose =>
      if s.MayClose then (endpoint.userClose s.state).map fun state => { s with state } else none
  | .task =>
      match s.tasks with
      | task :: rest => if s.Idle then endpoint.runTask { s with tasks := rest } task else none
      | [] => none
  | .event hup out in_ =>
      if s.Idle ∧ s.registered = true ∧ (out = true → s.armed = true) then
        some (endpoint.handle s hup out in_)
      else none
  | .read call =>
      if s.send.isRunning = false ∧ s.recv = .running .loop ∧ (endpoint.advance s.state).isNone then
        some (endpoint.read s call)
      else none
  | .write results => if s.send = .running .asyncWrite then endpoint.write s results else none
  | .goOn => endpoint.goOn s

/-- The running code goes on in `send_fn`, else in `recv_fn`, else in the event loop. -/
theorem goOn_cases {s next : Connection State Call} (taken : endpoint.goOn s = some next) :
    (∃ point, s.send = .running point ∧ endpoint.sendFn s point = some next) ∨
      s.send.isRunning = false ∧
        ((∃ point, s.recv = .running point ∧ endpoint.recvFn s point = some next) ∨
          (s.recv.isRunning = false ∧ s.readable = true ∧
            next = ({ s with readable := false } : Connection State Call).resumeRead)) := by
  have received : s.send.isRunning = false → (match s.recv with
      | .running point => endpoint.recvFn s point
      | .notStarted | .suspended | .finished =>
          if s.readable then some ({ s with readable := false } : Connection State Call).resumeRead
          else none) = some next := by
    intro still
    unfold goOn at taken
    cases send : s.send with
    | running point => simp [send, SendState.isRunning] at still
    | notStarted | suspended awaiter | finished =>
        simp only [send] at taken
        exact taken
  cases send : s.send with
  | running point =>
      unfold goOn at taken
      rw [send] at taken
      exact .inl ⟨point, rfl, taken⟩
  | notStarted | suspended awaiter | finished =>
      refine .inr ⟨rfl, ?_⟩
      replace received := received (by simp [send, SendState.isRunning])
      cases recv : s.recv with
      | running point =>
          rw [recv] at received
          exact .inl ⟨point, rfl, received⟩
      | notStarted | suspended | finished =>
          simp only [recv, Option.ite_none_right_eq_some, Option.some.injEq] at received
          exact .inr ⟨rfl, received.1, by simp only [send, ← received.2]⟩

/-! ## When handles are resumed in time -/

/-- What an endpoint keeps, with `quiet` for the states in which `recv_fn` on a
closed connection neither reads again nor answers. -/
structure Lawful (quiet : State → Prop) : Prop where
  init_running : endpoint.ended endpoint.init = false
  advance_closed : ∀ {s t}, endpoint.advance s = some t →
    endpoint.closed t = (endpoint.closed s || endpoint.ended t)
  advance_quiet : ∀ {s}, endpoint.closed s = true → quiet s → endpoint.ended s = false →
    ∃ t, endpoint.advance s = some t ∧ (endpoint.ended t = true ∨ endpoint.answers s t = false)
  deliver_closed : ∀ s call,
    endpoint.closed (endpoint.deliver s call) = (endpoint.closed s || call.outcome.closes)
  deliver_ended : ∀ s call, endpoint.ended (endpoint.deliver s call) = endpoint.ended s
  close_ended : ∀ s, endpoint.ended (endpoint.close s) = endpoint.ended s
  close_closed : ∀ s, endpoint.closed (endpoint.close s) = true
  userClose_ended : ∀ {s t}, endpoint.userClose s = some t → endpoint.ended t = endpoint.ended s
  userClose_closed : ∀ {s t}, endpoint.userClose s = some t → endpoint.closed t = true
  sendRequest_ended : ∀ {s call t}, endpoint.sendRequest s call = some t →
    endpoint.ended t = endpoint.ended s
  sendRequest_closed : ∀ {s call t}, endpoint.sendRequest s call = some t →
    endpoint.closed t = endpoint.closed s

/-- `EPOLLIN` comes only while `recv_fn` is in its loop, no closure of `CallMethod`
runs on a closed connection, and `recv_fn` goes on on a closed connection only in a
`quiet` state. -/
def Timely (quiet : State → Prop) (s : Connection State Call) : Label Call → Prop
  | .event hup _ in_ => hup = false → in_ = true → endpoint.ended s.state = false
  | .task =>
      match s.tasks with
      | .sendRequest _ :: _ => endpoint.closed s.state = false
      | _ => True
  | .read _ | .goOn =>
      s.send.isRunning = false → s.recv = .running .loop → endpoint.closed s.state = true →
        quiet s.state
  | .callMethod _ | .userClose | .write _ => True

instance decidableTimely (quiet : State → Prop) [DecidablePred quiet] (s : Connection State Call)
    (label : Label Call) : Decidable (endpoint.Timely quiet s label) := by
  cases label with
  | task =>
      unfold Timely
      dsimp only
      split <;> infer_instance
  | _ =>
      unfold Timely
      dsimp only
      infer_instance

end Endpoint

/-- The tasks of the coroutines that have not been started. -/
def Connection.starting (s : Connection State Call) : List (Task Call) :=
  (if s.send = .notStarted then [.sendFn] else []) ++
    (if s.recv = .notStarted then [.recvFn] else [])

/-- The first task: `send_fn`, then `recv_fn`, then the closures of the user. -/
theorem Connection.task_cases {s : Connection State Call} {task : Task Call}
    {rest : List (Task Call)} (first : s.tasks = task :: rest)
    (tasks : ∃ calls : List Call, s.tasks = s.starting ++ calls.map .sendRequest)
    (order : s.recv ≠ .notStarted → s.send ≠ .notStarted) :
    ∃ calls : List Call,
      (task = .sendFn ∧ s.send = .notStarted ∧ s.recv = .notStarted ∧
        rest = .recvFn :: calls.map .sendRequest) ∨
      (task = .recvFn ∧ s.send ≠ .notStarted ∧ s.recv = .notStarted ∧
        rest = calls.map .sendRequest) ∨
      ∃ call, task = .sendRequest call ∧ s.send ≠ .notStarted ∧ s.recv ≠ .notStarted ∧
        rest = calls.map .sendRequest := by
  obtain ⟨calls, tasks⟩ := tasks
  rw [first] at tasks
  by_cases send : s.send = .notStarted
  · have recv : s.recv = .notStarted := by
      by_contra started
      exact order started send
    simp only [starting, send, recv, ↓reduceIte, List.cons_append, List.nil_append,
      List.cons.injEq] at tasks
    exact ⟨calls, .inl ⟨tasks.1, send, recv, tasks.2⟩⟩
  · by_cases recv : s.recv = .notStarted
    · simp only [starting, send, recv, ↓reduceIte, List.cons_append, List.nil_append,
        List.cons.injEq] at tasks
      exact ⟨calls, .inr (.inl ⟨tasks.1, send, recv, tasks.2⟩)⟩
    · cases calls with
      | nil => simp [starting, send, recv] at tasks
      | cons call calls =>
          simp only [starting, send, recv, ↓reduceIte, List.nil_append, List.map_cons,
            List.cons.injEq] at tasks
          exact ⟨calls, .inr (.inr ⟨call, tasks.1, send, recv, tasks.2⟩)⟩

/-- The invariant: the handles of suspended coroutines are set, `send_fn` finishes on
closed connections only, and an `EPOLLOUT` that is still armed on one finds `send_fn`
suspended, unless `recv_fn` is about to take the descriptor out of epoll. -/
structure Connection.Inv (endpoint : Endpoint State Call) (s : Connection State Call) : Prop where
  tasks : ∃ calls : List Call, s.tasks = s.starting ++ calls.map .sendRequest
  order : s.recv ≠ .notStarted → s.send ≠ .notStarted
  readHandle : s.recv ≠ .notStarted → s.readHandle = true
  writeHandle : s.send.isSuspended = true → s.writeHandle = true
  registered : s.registered = true → s.recv ≠ .notStarted
  ended : s.recv = .finished ↔ endpoint.ended s.state = true
  sendFinished : s.send = .finished → endpoint.closed s.state = true
  readable : s.readable = true → s.recv = .suspended
  armedRegistered : s.armed = true → s.registered = true
  armed : s.armed = true → endpoint.closed s.state = true →
    s.send.isSuspended = true ∨ ∃ read, s.recv = .running (.awaiting read)
  resumed : ∀ resume ∈ s.resumed, resume.Sound

variable {endpoint : Endpoint State Call} {quiet : State → Prop} {s : Connection State Call}

/-- Nothing of a new connection has run. -/
theorem inv_connect (lawful : endpoint.Lawful quiet) : endpoint.connect.Inv endpoint where
  tasks := ⟨[], rfl⟩
  order started := absurd rfl started
  readHandle started := absurd rfl started
  writeHandle suspended := nomatch suspended
  registered watched := nomatch watched
  ended := by simp [Endpoint.connect, lawful.init_running]
  sendFinished finished := nomatch finished
  readable pending := nomatch pending
  armedRegistered armed := nomatch armed
  armed armed := nomatch armed
  resumed resume member := by simp [Endpoint.connect] at member

namespace Connection.Inv

/-- `resume_write` finds what it should when `send_fn` is suspended. -/
theorem resumeWrite (inv : s.Inv endpoint) (suspended : s.send.isSuspended = true)
    (disarmed : s.armed = true → endpoint.closed s.state = true →
      ∃ read, s.recv = .running (.awaiting read)) : s.resumeWrite.Inv endpoint := by
  obtain ⟨awaiter, waits⟩ : ∃ awaiter, s.send = .suspended awaiter := by
    cases send : s.send with
    | suspended awaiter => exact ⟨awaiter, rfl⟩
    | notStarted | running point | finished => simp [send, SendState.isSuspended] at suspended
  have set := inv.writeHandle suspended
  have next : s.resumeWrite =
      { s with resumed := s.resumed ++ [⟨true, true⟩], send := .running awaiter.next } := by
    simp only [Connection.resumeWrite, waits, set, SendState.isSuspended]
  rw [next]
  refine { inv with
    tasks := ?_, order := ?_, writeHandle := ?_, sendFinished := ?_, armed := ?_, resumed := ?_ }
  · obtain ⟨calls, tasks⟩ := inv.tasks
    exact ⟨calls, by simpa [Connection.starting, waits] using tasks⟩
  · simp
  · simp [SendState.isSuspended]
  · simp
  · exact fun armed closed => .inr (disarmed armed closed)
  · intro resume member
    rw [List.mem_append, List.mem_singleton] at member
    rcases member with old | rfl
    · exact inv.resumed resume old
    · exact ⟨rfl, rfl⟩

/-- The endpoint moves on while the coroutines stay where they are. -/
theorem withState (inv : s.Inv endpoint) {state : State}
    (ended : endpoint.ended state = endpoint.ended s.state)
    (closed : endpoint.closed s.state = true → endpoint.closed state = true)
    (armed : s.armed = true → endpoint.closed state = true →
      s.send.isSuspended = true ∨ ∃ read, s.recv = .running (.awaiting read)) :
    ({ s with state } : Connection State Call).Inv endpoint :=
  { inv with
    ended := by rw [inv.ended, ended]
    sendFinished := fun finished => closed (inv.sendFinished finished)
    armed }

/-- A started `send_fn` that does not run is suspended on an open connection. -/
theorem suspended_of_open (inv : s.Inv endpoint) (started : s.recv ≠ .notStarted)
    (still : s.send.isRunning = false) (opened : endpoint.closed s.state = false) :
    s.send.isSuspended = true := by
  cases send : s.send with
  | notStarted => exact absurd send (inv.order started)
  | running point => simp [send, SendState.isRunning] at still
  | suspended awaiter => rfl
  | finished => simp [inv.sendFinished send] at opened

/-! ### The steps -/

/-- A call waits in the queue. -/
theorem callMethod (inv : s.Inv endpoint) (call : Call) :
    ({ s with tasks := s.tasks ++ [.sendRequest call] } : Connection State Call).Inv endpoint := by
  obtain ⟨calls, tasks⟩ := inv.tasks
  refine { inv with tasks := ⟨calls ++ [call], ?_⟩ }
  simp only [tasks, List.map_append, List.map_cons, List.map_nil, List.append_assoc]
  rfl

/-- The program closes the connection while the thread is idle. -/
theorem userClose (lawful : endpoint.Lawful quiet) (inv : s.Inv endpoint) (may : s.MayClose)
    {state : State} (taken : endpoint.userClose s.state = some state) :
    ({ s with state } : Connection State Call).Inv endpoint := by
  refine inv.withState (lawful.userClose_ended taken)
    (fun _ => lawful.userClose_closed taken) fun armed _ => .inl ?_
  have started := inv.registered (inv.armedRegistered armed)
  have still : s.send.isRunning = false := by
    rcases may with idle | inLoop
    · exact idle.1
    · exact inLoop.1
  cases closed : endpoint.closed s.state with
  | false => exact inv.suspended_of_open started still closed
  | true =>
      apply (inv.armed armed closed).resolve_right
      intro all
      obtain ⟨read, awaiting⟩ := all
      rcases may with idle | inLoop
      · simp [Idle, awaiting, RecvState.isRunning] at idle
      · simp [awaiting] at inLoop

/-- A task finds its coroutine where the order of the queue has left it. -/
theorem task (lawful : endpoint.Lawful quiet) (inv : s.Inv endpoint) (idle : s.Idle)
    {task : Task Call} {rest : List (Task Call)} (first : s.tasks = task :: rest)
    (timely : endpoint.Timely quiet s .task) {next : Connection State Call}
    (taken : endpoint.runTask { s with tasks := rest } task = some next) : next.Inv endpoint := by
  obtain ⟨calls, ⟨rfl, new, early, rfl⟩ | ⟨rfl, started, early, rfl⟩ |
    ⟨call, rfl, -, started, rfl⟩⟩ := task_cases first inv.tasks inv.order
  · simp only [Endpoint.runTask, Option.some.injEq] at taken
    subst taken
    refine { inv with
      tasks := ⟨calls, ?_⟩, order := ?_, writeHandle := ?_, sendFinished := ?_, armed := ?_ }
    · simp [Connection.starting, early]
    · simp
    · simp [SendState.isSuspended]
    · simp
    · intro armed
      exact absurd early (inv.registered (inv.armedRegistered armed))
  · have running := inv.ended
    simp only [Endpoint.runTask, Option.some.injEq] at taken
    subst taken
    refine { inv with
      tasks := ⟨calls, ?_⟩, order := ?_, readHandle := ?_, registered := ?_, ended := ?_
      readable := ?_, armedRegistered := ?_, armed := ?_ }
    · simp [Connection.starting, started]
    · exact fun _ => started
    · exact fun _ => rfl
    · simp
    · simpa [early] using running
    · intro pending
      have waits := inv.readable pending
      simp [early] at waits
    · simp
    · simp
  · have opened : endpoint.closed s.state = false := by
      simpa only [Endpoint.Timely, first] using timely
    simp only [Endpoint.runTask, Option.map_eq_some_iff] at taken
    obtain ⟨state, requested, rfl⟩ := taken
    have closed := lawful.sendRequest_closed requested
    have before : ({ s with tasks := calls.map .sendRequest } :
        Connection State Call).Inv endpoint := by
      refine { inv with tasks := ⟨calls, ?_⟩ }
      simp [Connection.starting, started, inv.order started]
    have moved := before.withState (lawful.sendRequest_ended requested)
      (fun shut => by rw [closed, shut]) fun _ shut => by simp [closed, opened] at shut
    refine moved.resumeWrite (inv.suspended_of_open started idle.1 opened) fun _ shut => ?_
    simp [closed, opened] at shut

/-- An event resumes coroutines that wait, with their handles set. -/
theorem event (lawful : endpoint.Lawful quiet) (inv : s.Inv endpoint) (idle : s.Idle)
    (watched : s.registered = true) {hup out in_ : Bool} (armed : out = true → s.armed = true)
    (timely : endpoint.Timely quiet s (.event hup out in_)) :
    (endpoint.handle s hup out in_).Inv endpoint := by
  have started := inv.registered watched
  have notAwaiting : ¬ ∃ read, s.recv = .running (.awaiting read) := by
    intro all
    obtain ⟨read, awaiting⟩ := all
    simp [Idle, awaiting, RecvState.isRunning] at idle
  unfold Endpoint.handle
  cases hup with
  | true =>
      rw [if_pos rfl]
      exact { inv with
        registered := nofun
        ended := by rw [inv.ended, ← lawful.close_ended]
        sendFinished := fun _ => lawful.close_closed s.state
        armedRegistered := nofun
        armed := nofun }
  | false =>
      have waits : in_ = true → s.recv = .suspended := by
        intro pending
        have running := timely rfl pending
        cases recv : s.recv with
        | notStarted => exact absurd recv started
        | running point => simp [Idle, recv, RecvState.isRunning] at idle
        | suspended => rfl
        | finished => simp [inv.ended.mp recv] at running
      simp only [Bool.false_eq_true, ↓reduceIte]
      cases out with
      | false => exact { inv with readable := waits }
      | true =>
          have suspended : s.send.isSuspended = true := by
            cases closed : endpoint.closed s.state with
            | false => exact inv.suspended_of_open started idle.1 closed
            | true => exact (inv.armed (armed rfl) closed).resolve_right notAwaiting
          have disarmed : ({ s with armed := false } : Connection State Call).Inv endpoint :=
            { inv with armedRegistered := nofun, armed := nofun }
          have resumed := disarmed.resumeWrite suspended nofun
          have same : ({ s with armed := false } : Connection State Call).resumeWrite.recv =
              s.recv := by
            simp only [Connection.resumeWrite]
            cases s.send <;> rfl
          exact { resumed with readable := fun pending => same.trans (waits pending) }

/-- `recv_fn` reads an open connection only. -/
theorem open_of_read (lawful : endpoint.Lawful quiet) (inv : s.Inv endpoint)
    (still : s.send.isRunning = false) (inLoop : s.recv = .running .loop)
    (awaits : (endpoint.advance s.state).isNone) {call : ReadCall}
    (timely : endpoint.Timely quiet s (.read call)) : endpoint.closed s.state = false := by
  have running : endpoint.ended s.state = false := by
    have ended := inv.ended
    simpa [inLoop] using ended
  cases closed : endpoint.closed s.state with
  | false => rfl
  | true =>
      obtain ⟨next, taken, -⟩ := lawful.advance_quiet closed (timely still inLoop closed) running
      simp [taken] at awaits

/-- `async_read` resumes `send_fn` only on a connection it has closed. -/
theorem read (lawful : endpoint.Lawful quiet) (inv : s.Inv endpoint)
    (still : s.send.isRunning = false) (inLoop : s.recv = .running .loop)
    (awaits : (endpoint.advance s.state).isNone) {call : ReadCall}
    (timely : endpoint.Timely quiet s (.read call)) : (endpoint.read s call).Inv endpoint := by
  have started : s.recv ≠ .notStarted := by simp [inLoop]
  have running : endpoint.ended s.state = false := by
    have ended := inv.ended
    simpa [inLoop] using ended
  have opened := inv.open_of_read lawful still inLoop awaits timely
  have suspended := inv.suspended_of_open started still opened
  have tasks := inv.tasks
  have moved : ({ s with
      state := endpoint.deliver s.state call
      recv := .running (.awaiting (decide (call.outcome.bytes ≠ []))) } :
        Connection State Call).Inv endpoint := by
    refine { inv with
      tasks := ?_, order := ?_, readHandle := ?_, registered := ?_, ended := ?_
      sendFinished := ?_, readable := ?_, armed := ?_ }
    · simpa [Connection.starting, inLoop] using tasks
    · exact fun _ => inv.order started
    · exact fun _ => inv.readHandle started
    · simp
    · simp [lawful.deliver_ended, running]
    · intro finished
      simp [inv.sendFinished finished] at opened
    · intro pending
      have waits := inv.readable pending
      simp [inLoop] at waits
    · exact fun _ _ => .inl suspended
  unfold Endpoint.read
  dsimp only
  split
  · exact moved.resumeWrite suspended fun _ _ => ⟨_, rfl⟩
  · exact moved

/-- The awaiter of `async_write` sets the handle before it suspends. -/
theorem write (inv : s.Inv endpoint) (writing : s.send = .running .asyncWrite)
    {results : List WriteResult} {next : Connection State Call}
    (taken : endpoint.write s results = some next) : next.Inv endpoint := by
  simp only [Endpoint.write, Option.map_eq_some_iff] at taken
  obtain ⟨outcome, -, rfl⟩ := taken
  have tasks := inv.tasks
  split
  next waits =>
    refine { inv with
      tasks := ?_, order := ?_, writeHandle := ?_, sendFinished := ?_, armedRegistered := ?_
      armed := ?_ }
    · simpa [Connection.starting, writing] using tasks
    · simp
    · exact fun _ => rfl
    · simp
    · exact id
    · intro _ closed
      simp [closed] at waits
  next goesOn =>
    refine { inv with
      tasks := ?_, order := ?_, writeHandle := ?_, sendFinished := ?_, armed := ?_ }
    · simpa [Connection.starting, writing] using tasks
    · simp
    · simp [SendState.isSuspended]
    · simp
    · intro armed closed
      refine .inr ((inv.armed armed closed).resolve_left ?_)
      simp [writing, SendState.isSuspended]

/-- So does the one of `wait_write`. -/
theorem sendFn (inv : s.Inv endpoint) {point : SendPoint} (running : s.send = .running point)
    {next : Connection State Call} (taken : endpoint.sendFn s point = some next) :
    next.Inv endpoint := by
  have tasks := inv.tasks
  have awaiting : s.armed = true → endpoint.closed s.state = true →
      ∃ read, s.recv = .running (.awaiting read) := fun armed closed =>
    (inv.armed armed closed).resolve_left (by simp [running, SendState.isSuspended])
  cases point with
  | top =>
      simp only [Endpoint.sendFn, Option.some.injEq] at taken
      subst taken
      refine { inv with
        tasks := ?_, order := ?_, writeHandle := ?_, sendFinished := ?_, armed := ?_ }
      · split <;> simpa [Connection.starting, running] using tasks
      · split <;> simp
      · split <;> simp [SendState.isSuspended]
      · simp
      · exact fun armed closed => .inr (awaiting armed closed)
  | waitWrite =>
      simp only [Endpoint.sendFn] at taken
      split at taken
      next ready =>
        cases taken
        refine { inv with
          tasks := ?_, order := ?_, writeHandle := ?_, sendFinished := ?_, armed := ?_ }
        · simpa [Connection.starting, running] using tasks
        · simp
        · simp [SendState.isSuspended]
        · simp
        · exact fun armed closed => .inr (awaiting armed closed)
      next waits =>
        cases taken
        refine { inv with
          tasks := ?_, order := ?_, writeHandle := ?_, sendFinished := ?_, armed := ?_ }
        · simpa [Connection.starting, running] using tasks
        · simp
        · exact fun _ => rfl
        · simp
        · exact fun armed closed => .inr (awaiting armed closed)
  | asyncWrite => simp [Endpoint.sendFn] at taken

/-- `recv_fn` resumes `send_fn` after an answer, and its own awaiter suspends it. -/
theorem recvFn (lawful : endpoint.Lawful quiet) (inv : s.Inv endpoint)
    (still : s.send.isRunning = false) {point : RecvPoint} (running : s.recv = .running point)
    (timely : endpoint.Timely quiet s .goOn) {next : Connection State Call}
    (taken : endpoint.recvFn s point = some next) : next.Inv endpoint := by
  have tasks := inv.tasks
  have started : s.recv ≠ .notStarted := by simp [running]
  have notEnded : endpoint.ended s.state = false := by
    have ended := inv.ended
    simpa [running] using ended
  have notReadable : s.readable = true → False := by
    intro pending
    have waits := inv.readable pending
    simp [running] at waits
  cases point with
  | awaiting read =>
      simp only [Endpoint.recvFn] at taken
      split at taken
      next closed =>
        cases taken
        refine { inv with
          tasks := ?_, order := ?_, readHandle := ?_, registered := ?_, ended := ?_
          readable := ?_, armedRegistered := ?_, armed := ?_ }
        · simpa [Connection.starting, running] using tasks
        · exact fun _ => inv.order started
        · exact fun _ => inv.readHandle started
        · simp
        · simpa using notEnded
        · exact fun pending => (notReadable pending).elim
        · simp
        · simp
      next opened =>
        cases taken
        refine { inv with
          tasks := ?_, order := ?_, readHandle := ?_, registered := ?_, ended := ?_
          readable := ?_, armed := ?_ }
        · cases read <;> simpa [Connection.starting, running] using tasks
        · exact fun _ => inv.order started
        · exact fun _ => inv.readHandle started
        · cases read <;> simp
        · cases read <;> simpa using notEnded
        · exact fun pending => (notReadable pending).elim
        · exact fun _ closed => absurd closed opened
  | loop =>
      simp only [Endpoint.recvFn, Option.map_eq_some_iff] at taken
      obtain ⟨state, advanced, rfl⟩ := taken
      have closed := lawful.advance_closed advanced
      have suspended : s.armed = true → s.send.isSuspended = true := by
        intro armed
        cases shut : endpoint.closed s.state with
        | false => exact inv.suspended_of_open started still shut
        | true => exact (inv.armed armed shut).resolve_right (by simp [running])
      split
      next ended =>
        refine { inv with
          tasks := ?_, order := ?_, readHandle := ?_, registered := ?_, ended := ?_
          sendFinished := ?_, readable := ?_, armed := ?_ }
        · simpa [Connection.starting, running] using tasks
        · exact fun _ => inv.order started
        · exact fun _ => inv.readHandle started
        · simp
        · simpa using ended
        · exact fun finished => by rw [closed, inv.sendFinished finished, Bool.true_or]
        · exact fun pending => (notReadable pending).elim
        · exact fun armed _ => .inl (suspended armed)
      next goesOn =>
        have same : endpoint.ended state = endpoint.ended s.state := by
          rw [notEnded]
          simpa using goesOn
        have moved := inv.withState same
          (fun shut => by rw [closed, shut, Bool.true_or]) fun armed _ => .inl (suspended armed)
        split
        next answers =>
          have opened : endpoint.closed s.state = false := by
            cases shut : endpoint.closed s.state with
            | false => rfl
            | true =>
                obtain ⟨other, taken, quietly⟩ :=
                  lawful.advance_quiet shut (timely still running shut) notEnded
                rw [advanced, Option.some.injEq] at taken
                subst taken
                rcases quietly with ended | silent
                · exact absurd ended goesOn
                · simp [answers] at silent
          refine moved.resumeWrite (inv.suspended_of_open started still opened) fun _ shut => ?_
          simp [closed, opened, goesOn] at shut
        next => exact moved

/-- An event that is readable resumes a `recv_fn` that waits. -/
theorem resumeRead (inv : s.Inv endpoint) (pending : s.readable = true) :
    ({ s with readable := false } : Connection State Call).resumeRead.Inv endpoint := by
  have waits := inv.readable pending
  have started : s.recv ≠ .notStarted := by simp [waits]
  have set := inv.readHandle started
  have notEnded := inv.ended
  have tasks := inv.tasks
  have next : ({ s with readable := false } : Connection State Call).resumeRead =
      { s with
        readable := false, resumed := s.resumed ++ [⟨true, true⟩], recv := .running .loop } := by
    simp only [Connection.resumeRead, waits, set, decide_true]
  rw [next]
  refine { inv with
    tasks := ?_, order := ?_, readHandle := ?_, registered := ?_, ended := ?_, readable := ?_
    armed := ?_, resumed := ?_ }
  · simpa [Connection.starting, waits] using tasks
  · exact fun _ => inv.order started
  · exact fun _ => set
  · simp
  · simpa [waits] using notEnded
  · simp
  · exact fun armed closed => .inl ((inv.armed armed closed).resolve_right (by simp [waits]))
  · intro resume member
    rw [List.mem_append, List.mem_singleton] at member
    rcases member with old | rfl
    · exact inv.resumed resume old
    · exact ⟨rfl, rfl⟩

/-- Whoever goes on keeps the invariant. -/
theorem goOn (lawful : endpoint.Lawful quiet) (inv : s.Inv endpoint)
    (timely : endpoint.Timely quiet s .goOn) {next : Connection State Call}
    (taken : endpoint.goOn s = some next) : next.Inv endpoint := by
  rcases endpoint.goOn_cases taken with ⟨point, send, sends⟩ | ⟨still, ⟨point, recv, receives⟩ |
    ⟨-, pending, rfl⟩⟩
  · exact inv.sendFn send sends
  · exact inv.recvFn lawful still recv timely receives
  · exact inv.resumeRead pending

/-- **One step** keeps the invariant. -/
theorem step (lawful : endpoint.Lawful quiet) (inv : s.Inv endpoint) {label : Label Call}
    (timely : endpoint.Timely quiet s label) {next : Connection State Call}
    (taken : endpoint.step s label = some next) : next.Inv endpoint := by
  cases label with
  | callMethod call =>
      cases taken
      exact inv.callMethod call
  | userClose =>
      simp only [Endpoint.step] at taken
      split at taken
      next may =>
        obtain ⟨state, closes, rfl⟩ := Option.map_eq_some_iff.mp taken
        exact inv.userClose lawful may closes
      next => cases taken
  | task =>
      simp only [Endpoint.step] at taken
      cases tasks : s.tasks with
      | nil => simp [tasks] at taken
      | cons task rest =>
          simp only [tasks] at taken
          split at taken
          next idle => exact inv.task lawful idle tasks timely taken
          next => cases taken
  | event hup out in_ =>
      simp only [Endpoint.step] at taken
      split at taken
      next delivered =>
        cases taken
        exact inv.event lawful delivered.1 delivered.2.1 delivered.2.2 timely
      next => cases taken
  | read call =>
      simp only [Endpoint.step] at taken
      split at taken
      next reads =>
        cases taken
        exact inv.read lawful reads.1 reads.2.1 reads.2.2 timely
      next => cases taken
  | write results =>
      simp only [Endpoint.step] at taken
      split at taken
      next writing => exact inv.write writing taken
      next => cases taken
  | goOn => exact inv.goOn lawful timely taken

end Connection.Inv

/-- **Resumed in time.** In every timely run of a lawful endpoint each handle that is
resumed is set, and its coroutine suspended. -/
theorem resumed_sound (lawful : endpoint.Lawful quiet) {labels : List (Label Call)}
    {final : Connection State Call}
    (run : exec endpoint.step endpoint.connect labels = some final)
    (timely : Along endpoint.step (endpoint.Timely quiet) endpoint.connect labels) :
    ∀ resume ∈ final.resumed, resume.Sound :=
  (exec_invariant (fun _ _ _ inv timely taken => Connection.Inv.step lawful inv timely taken)
    (inv_connect lawful) run timely).resumed

end Drpc.Net
