import Mathlib.Data.Nat.Pairing
import Mathlib.Logic.Embedding.Basic
import Drpc.Scheduler.ThreadLoop
import Drpc.EndToEnd.Coroutines

/-! # Many clients and a server

The server runs all its connections on one executor, and every client process has an
executor of its own with any number of channels. Each channel with its connection is a run of
the two pairs of coroutines alone (`Deployment.pair_step`), whatever the others do: they may
close, be cut off or send what the server rejects. So calls and responses agree on it
(`channel_calls_agree`), and once both threads are parked with nothing left on the connection,
every call made on the channel is completed (`channel_completed`). Buffers and task queues are
ideal queues.
-/

namespace Drpc.EndToEnd

open Proto Net Transition Client Server Scheduler

variable {Method Message : Type}

/-- The client processes, the server, and the bytes in flight on each of its connections. -/
structure Deployment (Method Message : Type) where
  clients : Nat → ThreadLoop (ClientChannel Method Message) (Call Method Message)
  server : ThreadLoop (Receiver Method Message) Empty
  toServer : Nat → Bytes
  toClient : Nat → Bytes

/-- What happens at the thread of a client process, or at that of the server. -/
inductive DeploymentStep (Method Message : Type) where
  | client (process : Nat) (label : LoopStep (Call Method Message))
  | server (label : LoopStep Empty)

section Thread

/-- A thread and the streams of its connections. -/
structure Streaming (State Calls : Type) where
  thread : ThreadLoop State Calls
  incoming : Nat → Bytes
  outgoing : Nat → Bytes

variable {State Calls : Type} (endpoint : Endpoint State Calls) (stream : Nat → Nat)

/-- A step of a thread. Its connection `conn` reads from and writes to `stream conn`. -/
def threadStep (s : Streaming State Calls) (label : LoopStep Calls) :
    Option (Streaming State Calls) :=
  match s.thread.own label with
  | none => (s.thread.step endpoint label).map fun thread => { s with thread }
  | some (conn, order) =>
      if TakesFrom (s.incoming (stream conn)) order then
        (s.thread.step endpoint label).map fun thread =>
          { thread
            incoming := Function.update s.incoming (stream conn)
              ((s.incoming (stream conn)).drop (takenBy order))
            outgoing := Function.update s.outgoing (stream conn)
              (s.outgoing (stream conn) ++ sentBy endpoint (s.thread.view conn) order) }
      else none

variable {endpoint stream} {s next : Streaming State Calls} {label : LoopStep Calls}

theorem thread_of_threadStep (taken : threadStep endpoint stream s label = some next) :
    s.thread.step endpoint label = some next.thread := by
  unfold threadStep at taken
  split at taken
  · obtain ⟨thread, stepped, rfl⟩ := Option.map_eq_some_iff.mp taken
    exact stepped
  · simp only [Option.ite_none_right_eq_some, Option.map_eq_some_iff] at taken
    obtain ⟨-, thread, stepped, rfl⟩ := taken
    exact stepped

/-- The connection whose step it is makes it on its streams. -/
theorem threadStep_own (inv : s.thread.Inv)
    (taken : threadStep endpoint stream s label = some next) {conn : Nat}
    {order : Net.Label Calls} (own : s.thread.own label = some (conn, order)) :
    TakesFrom (s.incoming (stream conn)) order ∧
      endpoint.step (s.thread.view conn) order = some (next.thread.view conn) ∧
      next.incoming = Function.update s.incoming (stream conn)
        ((s.incoming (stream conn)).drop (takenBy order)) ∧
      next.outgoing = Function.update s.outgoing (stream conn)
        (s.outgoing (stream conn) ++ sentBy endpoint (s.thread.view conn) order) := by
  have moves := (view_step inv (thread_of_threadStep taken) conn).2 order own
  simp only [threadStep, own, Option.ite_none_right_eq_some, Option.map_eq_some_iff] at taken
  obtain ⟨takes, thread, -, rfl⟩ := taken
  exact ⟨takes, moves, rfl, rfl⟩

/-- A stream that belongs to no connection whose step it is stays. -/
theorem threadStep_of_ne (taken : threadStep endpoint stream s label = some next) {other : Nat}
    (others : ∀ conn order, s.thread.own label = some (conn, order) → other ≠ stream conn) :
    next.incoming other = s.incoming other ∧ next.outgoing other = s.outgoing other := by
  unfold threadStep at taken
  split at taken
  next own =>
    obtain ⟨thread, -, rfl⟩ := Option.map_eq_some_iff.mp taken
    exact ⟨rfl, rfl⟩
  next conn order own =>
    simp only [Option.ite_none_right_eq_some, Option.map_eq_some_iff] at taken
    obtain ⟨-, thread, -, rfl⟩ := taken
    have different := others conn order own
    exact ⟨Function.update_of_ne different .., Function.update_of_ne different ..⟩

end Thread

variable (accepted : Nat × Nat ↪ Nat) (server : RpcServer Method Message)

/-- New executors. `accepted` is the connection of the server that belongs to a channel. -/
def Deployment.init (stopped : Nat → Bool) (serverStopped : Bool) : Deployment Method Message where
  clients process := .init (Client.endpoint server.protobuf) (stopped process)
  server := .init server.endpoint serverStopped
  toServer _ := []
  toClient _ := []

/-- One step of the deployment. -/
def deploymentStep (s : Deployment Method Message) :
    DeploymentStep Method Message → Option (Deployment Method Message)
  | .client process label =>
      (threadStep (Client.endpoint server.protobuf) (fun channel => accepted (process, channel))
        ⟨s.clients process, s.toClient, s.toServer⟩ label).map fun next =>
          { s with
            clients := Function.update s.clients process next.thread
            toClient := next.incoming
            toServer := next.outgoing }
  | .server label =>
      (threadStep server.endpoint id ⟨s.server, s.toServer, s.toClient⟩ label).map fun next =>
        { s with server := next.thread, toServer := next.incoming, toClient := next.outgoing }

/-- A channel and its connection. -/
def Deployment.pair (s : Deployment Method Message) (process channel : Nat) :
    Coroutines Method Message where
  client := (s.clients process).view channel
  server := s.server.view (accepted (process, channel))
  toServer := s.toServer (accepted (process, channel))
  toClient := s.toClient (accepted (process, channel))

/-- What the step is for a channel and its connection. -/
def Deployment.own (s : Deployment Method Message) (process channel : Nat) :
    DeploymentStep Method Message → Option (CoroutineStep Method Message)
  | .client other label =>
      ((s.clients other).own label).bind fun (conn, order) =>
        if other = process ∧ conn = channel then some (.client order) else none
  | .server label =>
      (s.server.own label).bind fun (conn, order) =>
        if conn = accepted (process, channel) then some (.server order) else none

/-- Nobody closes this connection, and no `async_write` of it goes on after a short write. -/
def ChannelCalm (process channel : Nat) (s : Deployment Method Message)
    (label : DeploymentStep Method Message) : Prop :=
  ∀ own ∈ s.own accepted process channel label,
    Calm server (s.pair accepted process channel) own

instance decidableChannelCalm (process channel : Nat) (s : Deployment Method Message)
    (label : DeploymentStep Method Message) :
    Decidable (ChannelCalm accepted server process channel s label) :=
  inferInstanceAs (Decidable (∀ own ∈ s.own accepted process channel label, _))

/-- The calls of a run on one channel are served. -/
def ChannelServed (process channel : Nat) (labels : List (DeploymentStep Method Message)) : Prop :=
  ∀ call request, .client process (.callMethod call channel request) ∈ labels →
    ∃ service, Serves server request service

/-- The calls of the step on one channel. -/
def DeploymentStep.calls (process channel : Nat) :
    DeploymentStep Method Message → List (Call Method Message)
  | .client other (.callMethod _ conn request) =>
      if other = process ∧ conn = channel then [request] else []
  | _ => []

/-! ## A channel among others -/

/-- The invariants of the threads. -/
structure Deployment.Inv (s : Deployment Method Message) : Prop where
  clients : ∀ process, (s.clients process).Inv
  server : s.server.Inv

variable {accepted server} {s next : Deployment Method Message}

theorem deployment_inv_init (stopped : Nat → Bool) (serverStopped : Bool) :
    (Deployment.init server stopped serverStopped).Inv where
  clients process := loop_inv_init (stopped process)
  server := loop_inv_init serverStopped

/-- A thread stays, or makes its step. -/
theorem threads_of_step {label : DeploymentStep Method Message}
    (taken : deploymentStep accepted server s label = some next) :
    (∀ process, next.clients process = s.clients process ∨
      ∃ own, label = .client process own ∧ (s.clients process).step
        (Client.endpoint server.protobuf) own = some (next.clients process)) ∧
    (next.server = s.server ∨
      ∃ own, label = .server own ∧ s.server.step server.endpoint own = some next.server) := by
  cases label with
  | client other label =>
      obtain ⟨after, stepped, rfl⟩ := Option.map_eq_some_iff.mp taken
      refine ⟨fun process => ?_, .inl rfl⟩
      dsimp only
      by_cases same : process = other
      · subst same
        rw [Function.update_self]
        exact .inr ⟨label, rfl, thread_of_threadStep stepped⟩
      · rw [Function.update_of_ne same]
        exact .inl rfl
  | server label =>
      obtain ⟨after, stepped, rfl⟩ := Option.map_eq_some_iff.mp taken
      exact ⟨fun _ => .inl rfl, .inr ⟨label, rfl, thread_of_threadStep stepped⟩⟩

namespace Deployment.Inv

theorem step (inv : s.Inv) {label : DeploymentStep Method Message}
    (taken : deploymentStep accepted server s label = some next) : next.Inv := by
  obtain ⟨clients, own⟩ := threads_of_step taken
  constructor
  · intro process
    rcases clients process with stays | ⟨own, -, stepped⟩
    · rw [stays]
      exact inv.clients process
    · exact (inv.clients process).step stepped
  · rcases own with stays | ⟨own, -, stepped⟩
    · rw [stays]
      exact inv.server
    · exact inv.server.step stepped

/-- **One step of the deployment** is for each channel one of its two ends, or none. -/
theorem pair_step (inv : s.Inv) {label : DeploymentStep Method Message}
    (taken : deploymentStep accepted server s label = some next) (process channel : Nat) :
    (s.own accepted process channel label = none →
      next.pair accepted process channel = s.pair accepted process channel) ∧
    ∀ own ∈ s.own accepted process channel label,
      coroutineStep server (s.pair accepted process channel) own =
        some (next.pair accepted process channel) := by
  cases label with
  | client other label =>
      obtain ⟨after, stepped, rfl⟩ := Option.map_eq_some_iff.mp taken
      by_cases mine : ∃ order, (s.clients other).own label = some (channel, order) ∧
          other = process
      · obtain ⟨order, own, rfl⟩ := mine
        obtain ⟨takes, moves, received, sent⟩ := threadStep_own (inv.clients other) stepped own
        have order_ : s.own accepted other channel (.client other label) =
            some (.client order) := by
          simp [Deployment.own, own]
        rw [order_]
        refine ⟨(fun none_ => by cases none_), ?_⟩
        rintro _ ⟨⟩
        simp only [coroutineStep, Deployment.pair, takes, moves, ↓reduceIte, Option.map_some,
          received, sent, Function.update_self]
      · have none_ : s.own accepted process channel (.client other label) = none := by
          simp only [Deployment.own, Option.bind_eq_none_iff, ite_eq_right_iff, reduceCtorEq,
            imp_false, not_and]
          rintro ⟨conn, order⟩ own rfl rfl
          exact mine ⟨order, own, rfl⟩
        have elsewhere : ∀ conn order, (s.clients other).own label = some (conn, order) →
            accepted (process, channel) ≠ accepted (other, conn) := by
          intro conn order own same
          cases accepted.injective same
          exact mine ⟨order, own, rfl⟩
        obtain ⟨received, sent⟩ := threadStep_of_ne stepped elsewhere
        rw [none_]
        refine ⟨fun _ => ?_, (fun own member => by cases member)⟩
        simp only [Deployment.pair, received, sent]
        by_cases same : other = process
        · subst same
          rw [Function.update_self, (view_step (inv.clients other) (thread_of_threadStep stepped)
            channel).1 fun order own => mine ⟨order, own, rfl⟩]
        · rw [Function.update_of_ne (Ne.symm same)]
  | server label =>
      obtain ⟨after, stepped, rfl⟩ := Option.map_eq_some_iff.mp taken
      by_cases mine : ∃ order, s.server.own label = some (accepted (process, channel), order)
      · obtain ⟨order, own⟩ := mine
        obtain ⟨takes, moves, received, sent⟩ := threadStep_own inv.server stepped own
        have order_ : s.own accepted process channel (.server label) = some (.server order) := by
          simp [Deployment.own, own]
        rw [order_]
        refine ⟨(fun none_ => by cases none_), ?_⟩
        rintro _ ⟨⟩
        have taken : TakesFrom (s.toServer (accepted (process, channel))) order := takes
        simp only [coroutineStep, Deployment.pair, taken, moves, ↓reduceIte, Option.map_some,
          received, sent, id_eq, Function.update_self]
      · have none_ : s.own accepted process channel (.server label) = none := by
          simp only [Deployment.own, Option.bind_eq_none_iff, ite_eq_right_iff, reduceCtorEq,
            imp_false]
          rintro ⟨conn, order⟩ own rfl
          exact mine ⟨order, own⟩
        have elsewhere : ∀ conn order, s.server.own label = some (conn, order) →
            accepted (process, channel) ≠ conn := by
          rintro conn order own rfl
          exact mine ⟨order, own⟩
        obtain ⟨received, sent⟩ := threadStep_of_ne stepped elsewhere
        rw [none_]
        refine ⟨fun _ => ?_, (fun own member => by cases member)⟩
        simp only [Deployment.pair, received, sent]
        rw [(view_step inv.server (thread_of_threadStep stepped) _).1 (not_exists.mp mine)]

end Deployment.Inv

theorem pair_init (stopped : Nat → Bool) (serverStopped : Bool) (process channel : Nat) :
    (Deployment.init server stopped serverStopped).pair accepted process channel =
      Coroutines.init server := rfl

variable (accepted server) in
/-- The deployment simulates each of its channels. -/
theorem channel_simulates (process channel : Nat)
    (allowed : Coroutines Method Message → CoroutineStep Method Message → Prop) :
    Simulates (deploymentStep accepted server) (coroutineStep server)
      (fun s c => s.Inv ∧ s.pair accepted process channel = c)
      (fun s label => ∀ own ∈ s.own accepted process channel label,
        allowed (s.pair accepted process channel) own) allowed := by
  refine Simulates.of_stutter fun s c label next related allows taken => ?_
  obtain ⟨inv, rfl⟩ := related
  obtain ⟨stays, moves⟩ := inv.pair_step taken process channel
  have kept := inv.step taken
  cases own : s.own accepted process channel label with
  | none => exact .inl ⟨kept, stays own⟩
  | some order => exact .inr ⟨order, _, moves order own, allows order own, kept, rfl⟩

/-! ## The calls of a channel -/

/-- What `CallMethod` leaves with a thread. -/
theorem callMethod_of_own {State Calls : Type} {thread : ThreadLoop State Calls}
    {label : LoopStep Calls} {conn : Nat} {request : Calls}
    (own : thread.own label = some (conn, .callMethod request)) :
    ∃ call, label = .callMethod call conn request := by
  cases label with
  | callMethod call other more =>
      cases own
      exact ⟨call, rfl⟩
  | pop | read call | write results | goOn =>
      obtain ⟨_, -, impossible⟩ := Option.map_eq_some_iff.mp own
      cases impossible
  | handle =>
      simp only [ThreadLoop.own] at own
      split at own <;> cases own
  | userClose other => cases own
  | start call other | compareExchange call | notify call | stop | store | wake events
  | readEventFd | clear | again => cases own

variable (accepted) in
/-- The calls of a channel are those of the pair. -/
theorem calls_of_own (process channel : Nat) (s : Deployment Method Message)
    (label : DeploymentStep Method Message) :
    ((s.own accepted process channel label).elim [] CoroutineStep.calls) =
      label.calls process channel := by
  cases label with
  | server label =>
      cases own : s.server.own label with
      | none => simp [Deployment.own, own, DeploymentStep.calls]
      | some own_ =>
          by_cases here : own_.1 = accepted (process, channel)
          · simp [Deployment.own, own, here, DeploymentStep.calls, CoroutineStep.calls]
          · simp [Deployment.own, own, here, DeploymentStep.calls]
  | client other label =>
      by_cases calls : ∃ call conn request, label = .callMethod call conn request
      · obtain ⟨call, conn, request, rfl⟩ := calls
        by_cases here : other = process ∧ conn = channel
        · simp [Deployment.own, ThreadLoop.own, here, DeploymentStep.calls, CoroutineStep.calls]
        · simp [Deployment.own, ThreadLoop.own, here, DeploymentStep.calls]
      · have none_ : DeploymentStep.calls process channel (.client other label) = [] := by
          cases label with
          | callMethod call conn request => exact absurd ⟨call, conn, request, rfl⟩ calls
          | start call conn | compareExchange call | notify call | stop | pop | store | wake events
          | readEventFd | clear | handle | again | read call | write results | goOn
          | userClose conn => rfl
        rw [none_]
        cases own : (s.clients other).own label with
        | none => simp [Deployment.own, own]
        | some own_ =>
            obtain ⟨conn, order⟩ := own_
            have silent : CoroutineStep.calls (.client order) = [] := by
              cases order with
              | callMethod request =>
                  obtain ⟨call, rfl⟩ := callMethod_of_own own
                  exact absurd ⟨call, conn, request, rfl⟩ calls
              | userClose | task | event hup out in_ | read call | write results | goOn => rfl
            by_cases here : other = process ∧ conn = channel
            · obtain ⟨rfl, rfl⟩ := here
              simp [Deployment.own, own, silent]
            · simp [Deployment.own, own, here]

theorem servedCall_of_own {process channel : Nat} {label : DeploymentStep Method Message}
    (served : ∀ call request, label = .client process (.callMethod call channel request) →
      ∃ service, Serves server request service) :
    ∀ own ∈ s.own accepted process channel label, ServedCall server own := by
  intro own member
  cases label with
  | server label =>
      simp only [Deployment.own, Option.mem_def, Option.bind_eq_some_iff,
        Option.ite_none_right_eq_some, Option.some.injEq] at member
      obtain ⟨_, -, -, rfl⟩ := member
      trivial
  | client other label =>
      simp only [Deployment.own, Option.mem_def, Option.bind_eq_some_iff,
        Option.ite_none_right_eq_some, Option.some.injEq] at member
      obtain ⟨⟨conn, order⟩, found, ⟨rfl, rfl⟩, rfl⟩ := member
      cases order with
      | callMethod request =>
          obtain ⟨call, rfl⟩ := callMethod_of_own found
          exact served call request rfl
      | userClose | task | event hup out in_ | read call | write results | goOn => trivial

/-- Each channel of a run, as in `channel_calls_agree`, refines a run of the plain system. -/
theorem channel_refines (process channel : Nat) {stopped : Nat → Bool} {serverStopped : Bool}
    {labels : List (DeploymentStep Method Message)}
    (served : ChannelServed server process channel labels)
    (run : exec (deploymentStep accepted server) (.init server stopped serverStopped) labels =
      some s)
    (calm : Along (deploymentStep accepted server) (ChannelCalm accepted server process channel)
      (.init server stopped serverStopped) labels) :
    ∃ orders t, exec (step server) .init orders = some t ∧
      Along (step server) (ServedStep server) .init orders ∧
      (s.pair accepted process channel).Refines server t := by
  have calls : Along (deploymentStep accepted server) (fun _ label => ∀ call request,
      label = .client process (.callMethod call channel request) →
        ∃ service, Serves server request service) (.init server stopped serverStopped) labels := by
    refine along_of_forall_mem ?_ _
    rintro _ member call request rfl
    exact served call request member
  have both : Along (deploymentStep accepted server) (fun s label =>
      ∀ own ∈ s.own accepted process channel label,
        Calm server (s.pair accepted process channel) own ∧ ServedCall server own)
      (.init server stopped serverStopped) labels :=
    (along_and calm calls).mono fun s label both own member =>
      ⟨both.1 own member, servedCall_of_own both.2 own member⟩
  have start : (Deployment.init server stopped serverStopped).Inv ∧
      (Deployment.init server stopped serverStopped).pair accepted process channel =
        Coroutines.init server :=
    ⟨deployment_inv_init stopped serverStopped, pair_init stopped serverStopped process channel⟩
  obtain ⟨moves, c, own, along, -, rfl⟩ := (channel_simulates accepted server process channel
    fun c order => Calm server c order ∧ ServedCall server order).exec start run both
  exact coroutines_simulate.exec refines_connect own along

/-- **Calls and responses agree on every channel**, in every run of any number of clients and a
server: whatever the other channels and connections do, this one is a run of a channel and a
server alone, in which no `async_write` goes on after a short write. It has to stay open, its
`async_write` to end at a short write, and its calls to be served. -/
theorem channel_calls_agree (process channel : Nat) {stopped : Nat → Bool} {serverStopped : Bool}
    {labels : List (DeploymentStep Method Message)}
    (served : ChannelServed server process channel labels)
    (run : exec (deploymentStep accepted server) (.init server stopped serverStopped) labels =
      some s)
    (calm : Along (deploymentStep accepted server) (ChannelCalm accepted server process channel)
      (.init server stopped serverStopped) labels) :
    Agreement server (s.pair accepted process channel).system ∧
      ∃ orders, exec (step server) .init orders =
          some (s.pair accepted process channel).system ∧
        Along (step server) ShortWritesEnd .init orders := by
  obtain ⟨orders, t, ideal, admitted, refines⟩ := channel_refines process channel served run calm
  rw [refines.system]
  exact ⟨agreement_of_explained refines.explained, orders, ideal,
    admitted.mono fun _ _ both => both.1⟩

/-- Both tasks of a connection are spawned and run up to the first `async_read`. -/
def starts {Calls : Type} : List (LoopStep Calls) :=
  [.start 0 0, .compareExchange 0, .start 1 0, .compareExchange 1, .pop, .goOn, .goOn, .pop]

/-- `recv_fn` finds nothing more, and the thread no task. -/
def parks {Calls : Type} : List (LoopStep Calls) := [.read ⟨8, []⟩, .goOn, .pop, .store]

def hiCalls : List (LoopStep (Call Example.EchoMethod Example.EchoMessage)) :=
  [.read ⟨8, []⟩, .goOn, .callMethod 2 0 hiCall, .compareExchange 2, .pop, .write [.accepted 41],
    .goOn, .goOn, .pop, .store]

def hiServes : List (LoopStep Empty) :=
  [.read (.ofBytes Example.hiRequest), .goOn, .goOn, .goOn, .goOn, .goOn, .write [.accepted 29],
    .goOn, .goOn]

def hiCompletes : List (LoopStep (Call Example.EchoMethod Example.EchoMessage)) :=
  [.wake [.connection 0 false false true], .handle, .goOn, .read (.ofBytes (hiAnswer 0)), .goOn,
    .goOn, .goOn, .goOn, .goOn, .read ⟨8, []⟩, .goOn, .again, .pop, .store]

/-- One call on a channel of process 0, while process 1 closes a channel of its own. -/
def hiDeployment : List (DeploymentStep Example.EchoMethod Example.EchoMessage) :=
  (starts ++ hiCalls).map (.client 0) ++ [.client 1 (.userClose 0)] ++
    (starts ++ hiServes ++ parks).map .server ++ hiCompletes.map (.client 0)

theorem hiDeployment_served : ChannelServed Example.echoServer 0 0 hiDeployment := by
  intro call request member
  have same : request = hiCall := by
    simp [hiDeployment, starts, hiCalls, hiServes, hiCompletes, parks] at member
    exact member.2
  rw [same]
  exact ⟨Example.echoService, hiCall_serves⟩

/-- The channel that stays open agrees, though another does not. -/
theorem channel_calls_agree_of_call :
    ∃ s ∈ exec (deploymentStep Nat.pairEquiv.toEmbedding Example.echoServer)
        (.init Example.echoServer (fun _ => false) false) hiDeployment,
      (s.pair Nat.pairEquiv.toEmbedding 1 0).client.state.closed = true ∧
        Agreement Example.echoServer (s.pair Nat.pairEquiv.toEmbedding 0 0).system := by
  obtain ⟨s, run, closed⟩ := show ∃ s ∈ exec
      (deploymentStep Nat.pairEquiv.toEmbedding Example.echoServer)
      (.init Example.echoServer (fun _ => false) false) hiDeployment,
      (s.pair Nat.pairEquiv.toEmbedding 1 0).client.state.closed = true by
    decide +kernel
  exact ⟨s, run, closed,
    (channel_calls_agree 0 0 hiDeployment_served run (by decide +kernel)).1⟩

/-! ## When the threads are parked -/

/-- **A parked thread has left nothing undone**, in every run of any number of connections whose
`compare_exchange`s are timely, whatever becomes of the connections: its queue is empty, it is
inside the code of none of them, and output that is left on an open one has a `send_fn` that
waits for an armed `EPOLLOUT`. -/
theorem parked_thread_rests {State Calls : Type} {endpoint : Endpoint State Calls}
    (silent : endpoint.Silent) {stopped : Bool} {labels : List (LoopStep Calls)}
    {thread : ThreadLoop State Calls}
    (run : exec (ThreadLoop.step endpoint) (.init endpoint stopped) labels = some thread)
    (timely : Along (ThreadLoop.step endpoint)
      (fun s label => ∀ order ∈ label.executor, Timely s.executor order)
      (.init endpoint stopped) labels)
    (parked : thread.Parked) :
    thread.taskQueue = [] ∧ ∀ conn, (thread.view conn).Idle ∧
      (endpoint.closed (thread.view conn).state = false →
        0 < endpoint.toWriteBytes (thread.view conn) →
          (thread.view conn).send = .suspended .write ∧ (thread.view conn).writeHandle = true ∧
            (thread.view conn).armed = true) := by
  have inv : thread.Inv := loop_inv_of_run endpoint run
  obtain ⟨spawns, executor, timely⟩ := executor_of_run endpoint run timely
  have announced : thread.executor.Announced := announced_of_run executor timely
  obtain ⟨empty, idle⟩ := parked.rests inv announced
  refine ⟨empty, fun conn => ⟨idle conn, fun opened some_ => ?_⟩⟩
  have free : Along (ThreadLoop.step endpoint) (fun _ _ => True) (.init endpoint stopped) labels :=
    along_of_forall_mem (fun _ _ => trivial) _
  obtain ⟨orders, own, -⟩ : ∃ orders, exec endpoint.step endpoint.connect orders =
      some (thread.view conn) ∧ Along endpoint.step (fun _ _ => True) endpoint.connect orders :=
    connection_of_run endpoint conn run (free.mono fun _ _ _ _ _ _ => trivial)
  have attended : (thread.view conn).Attended endpoint :=
    exec_invariant (fun _ _ _ attended _ taken => Connection.Attended.of_step silent attended taken)
      (attended_connect silent) own (along_of_forall_mem (fun _ _ => trivial) _)
  exact (attended.pending (idle conn) opened).1 some_

/-- The echo server is parked with a response that the socket has not taken whole. -/
theorem parked_thread_rests_of_short :
    ∃ thread ∈ exec (ThreadLoop.step Example.echoServer.endpoint)
        (.init Example.echoServer.endpoint false)
        (starts ++ [.read (.ofBytes Example.hiRequest), .goOn, .goOn, .goOn, .goOn, .goOn,
          .write [.accepted 9, .again]] ++ parks),
      (thread.view 0).send = .suspended .write ∧ (thread.view 0).armed = true := by
  obtain ⟨thread, run, parked, opened, some_⟩ := show
      ∃ thread ∈ exec (ThreadLoop.step Example.echoServer.endpoint)
        (.init Example.echoServer.endpoint false)
        (starts ++ [.read (.ofBytes Example.hiRequest), .goOn, .goOn, .goOn, .goOn, .goOn,
          .write [.accepted 9, .again]] ++ parks),
      thread.Parked ∧ (thread.view 0).state.closed = false ∧
        0 < Example.echoServer.endpoint.toWriteBytes (thread.view 0) by
    decide +kernel
  obtain ⟨waits, -, armed⟩ := ((parked_thread_rests (endpoint_silent Example.echoServer) run
    (by decide +kernel) parked).2 0).2 opened some_
  exact ⟨thread, run, waits, armed⟩

/-- Every `spawn` at the two threads of the channel meets a raised flag, a thread that is
awake, or a pending notification. -/
def ChannelTimely (process : Nat) (s : Deployment Method Message) :
    DeploymentStep Method Message → Prop
  | .client other label =>
      other = process → ∀ order ∈ label.executor, Timely (s.clients process).executor order
  | .server label => ∀ order ∈ label.executor, Timely s.server.executor order

instance decidableChannelTimely (process : Nat) (s : Deployment Method Message) :
    DecidablePred (ChannelTimely process s)
  | .client _ label => inferInstanceAs (Decidable (_ → ∀ order ∈ label.executor, _))
  | .server label => inferInstanceAs (Decidable (∀ order ∈ label.executor, _))

/-- Both threads of the channel are parked, and its connection has nothing to report: no byte
is in flight, and nobody waits for a socket to take output. -/
structure Deployment.Quiet (accepted : Nat × Nat ↪ Nat) (process channel : Nat)
    (s : Deployment Method Message) : Prop where
  client : (s.clients process).Parked
  server : s.server.Parked
  clientUnarmed : (s.pair accepted process channel).client.armed = false
  serverUnarmed : (s.pair accepted process channel).server.armed = false
  toServer : (s.pair accepted process channel).toServer = []
  toClient : (s.pair accepted process channel).toClient = []

/-- What the steps keep on a channel. -/
structure Deployment.Kept (accepted : Nat × Nat ↪ Nat) (server : RpcServer Method Message)
    (process channel : Nat) (s : Deployment Method Message) : Prop where
  inv : s.Inv
  refines : ∃ t, (s.pair accepted process channel).Refines server t
  client : (s.clients process).executor.Announced
  server : s.server.executor.Announced
  made : (s.clients process).unspawned channel <:+ [.sendFn, .recvFn]

theorem kept_init (stopped : Nat → Bool) (serverStopped : Bool) (process channel : Nat) :
    (Deployment.init server stopped serverStopped).Kept accepted server process channel where
  inv := deployment_inv_init stopped serverStopped
  refines := ⟨.init, refines_connect⟩
  client parking := by
    cases stop : stopped process <;>
      simp [Deployment.init, ThreadLoop.init, stop, ThreadLoop.executor, LoopPc.executor,
        Executor.Parking] at parking
  server parking := by
    cases serverStopped <;>
      simp [Deployment.init, ThreadLoop.init, ThreadLoop.executor, LoopPc.executor,
        Executor.Parking] at parking
  made := List.suffix_refl _

/-- **One step** keeps it, and adds its calls on the channel to those made so far. -/
theorem Deployment.Kept.step {process channel : Nat}
    (kept : s.Kept accepted server process channel) {label : DeploymentStep Method Message}
    (calm : ChannelCalm accepted server process channel s label)
    (served : ∀ own ∈ s.own accepted process channel label, ServedCall server own)
    (timely : ChannelTimely process s label)
    (taken : deploymentStep accepted server s label = some next) :
    next.Kept accepted server process channel ∧
      (next.pair accepted process channel).called =
        (s.pair accepted process channel).called ++ label.calls process channel := by
  obtain ⟨stays, moves⟩ := kept.inv.pair_step taken process channel
  obtain ⟨clients, own⟩ := threads_of_step taken
  obtain ⟨t, refines⟩ := kept.refines
  have both : (∃ t, (next.pair accepted process channel).Refines server t) ∧
      (next.pair accepted process channel).called =
        (s.pair accepted process channel).called ++ label.calls process channel := by
    rw [← calls_of_own accepted process channel s label]
    cases own : s.own accepted process channel label with
    | none =>
        rw [stays own]
        exact ⟨⟨t, refines⟩, (List.append_nil _).symm⟩
    | some order =>
        have stepped := moves order own
        have called := refines.called_step (calm order own) stepped
        obtain ⟨_, after, -, -, refines⟩ := coroutines_simulate _ _ _ _ refines
          ⟨calm order own, served order own⟩ stepped
        exact ⟨⟨after, refines⟩, called⟩
  refine ⟨⟨kept.inv.step taken, both.1, ?_, ?_, ?_⟩, both.2⟩
  · rcases clients process with same | ⟨own, rfl, stepped⟩
    · rw [same]
      exact kept.client
    · exact announced_loop (kept.inv.clients process) kept.client (timely rfl) stepped
  · rcases own with same | ⟨own, rfl, stepped⟩
    · rw [same]
      exact kept.server
    · exact announced_loop kept.inv.server kept.server timely stepped
  · rcases clients process with same | ⟨own, rfl, stepped⟩
    · rw [same]
      exact kept.made
    · exact (unspawned_step stepped channel).trans kept.made

/-- A parked thread with nothing to report has run every closure of the channel. -/
theorem issued_of_quiet {process channel : Nat} (kept : s.Kept accepted server process channel)
    (quiet : s.Quiet accepted process channel) :
    (s.pair accepted process channel).called =
      (s.pair accepted process channel).client.state.issued.map Prod.snd := by
  have empty := (quiet.client.rests (kept.inv.clients process) kept.client).1
  have tasks : (s.pair accepted process channel).client.tasks =
      (s.clients process).unspawned channel := by
    change (s.clients process).tasksOf channel = _
    simp [ThreadLoop.tasksOf, empty]
  have none_ : ((s.clients process).unspawned channel).filterMap Task.closure = [] := by
    rw [List.filterMap_eq_nil_iff]
    intro task member
    have starting := kept.made.subset member
    simp only [List.mem_cons, List.not_mem_nil, or_false] at starting
    rcases starting with rfl | rfl <;> rfl
  rw [Coroutines.called, tasks, none_, List.append_nil]

/-- **A quiet channel has completed every call.** In every run of any number of clients and a
server: when the two threads are parked and the connection of the channel has nothing to
report, every call that was ever made on the channel has been issued, in order, and answered.
The channel has to be as in `channel_calls_agree`, and no `spawn` at its two threads untimely. -/
theorem channel_completed (process channel : Nat) {stopped : Nat → Bool} {serverStopped : Bool}
    {labels : List (DeploymentStep Method Message)}
    (served : ChannelServed server process channel labels)
    (run : exec (deploymentStep accepted server) (.init server stopped serverStopped) labels =
      some s)
    (calm : Along (deploymentStep accepted server) (ChannelCalm accepted server process channel)
      (.init server stopped serverStopped) labels)
    (timely : Along (deploymentStep accepted server) (ChannelTimely process)
      (.init server stopped serverStopped) labels)
    (quiet : s.Quiet accepted process channel) :
    Completed server (s.pair accepted process channel).system ∧
      (s.pair accepted process channel).client.state.issued.map Prod.snd =
        labels.flatMap (DeploymentStep.calls process channel) := by
  have calls : Along (deploymentStep accepted server) (fun _ label => ∀ call request,
      label = .client process (.callMethod call channel request) →
        ∃ service, Serves server request service) (.init server stopped serverStopped) labels := by
    refine along_of_forall_mem ?_ _
    rintro _ member call request rfl
    exact served call request member
  have allowed := along_and (along_and calm calls) timely
  have start : (Deployment.init server stopped serverStopped).Kept accepted server process
      channel := kept_init stopped serverStopped process channel
  have kept : s.Kept accepted server process channel :=
    exec_invariant (fun _ _ _ kept allows taken =>
      (kept.step allows.1.1 (servedCall_of_own allows.1.2) allows.2 taken).1) start run allowed
  have called := exec_log (fun _ _ _ kept allows taken =>
    Deployment.Kept.step kept allows.1.1 (servedCall_of_own allows.1.2) allows.2 taken) start run
    allowed
  obtain ⟨t, refines⟩ := kept.refines
  have clientIdle := (quiet.client.rests (kept.inv.clients process) kept.client).2 channel
  have serverIdle := (quiet.server.rests kept.inv.server kept.server).2
    (accepted (process, channel))
  constructor
  · rw [refines.system]
    exact refines.completed clientIdle serverIdle quiet.clientUnarmed quiet.serverUnarmed
      quiet.toServer quiet.toClient
  · rw [← issued_of_quiet kept quiet, called]
    rfl

/-- Its call is completed when both threads are parked. -/
theorem channel_completed_of_call :
    ∃ s ∈ exec (deploymentStep Nat.pairEquiv.toEmbedding Example.echoServer)
        (.init Example.echoServer (fun _ => false) false) hiDeployment,
      Completed Example.echoServer (s.pair Nat.pairEquiv.toEmbedding 0 0).system ∧
        (s.pair Nat.pairEquiv.toEmbedding 0 0).client.state.issued.map Prod.snd = [hiCall] := by
  obtain ⟨s, run, client, server, clientUnarmed, serverUnarmed, toServer, toClient⟩ := show
      ∃ s ∈ exec (deploymentStep Nat.pairEquiv.toEmbedding Example.echoServer)
        (.init Example.echoServer (fun _ => false) false) hiDeployment,
      (s.clients 0).Parked ∧ s.server.Parked ∧
        (s.pair Nat.pairEquiv.toEmbedding 0 0).client.armed = false ∧
        (s.pair Nat.pairEquiv.toEmbedding 0 0).server.armed = false ∧
        (s.pair Nat.pairEquiv.toEmbedding 0 0).toServer = [] ∧
        (s.pair Nat.pairEquiv.toEmbedding 0 0).toClient = [] by
    decide +kernel
  obtain ⟨completed, issued⟩ := channel_completed 0 0 hiDeployment_served run (by decide +kernel)
    (by decide +kernel) ⟨client, server, clientUnarmed, serverUnarmed, toServer, toClient⟩
  exact ⟨s, run, completed, issued.trans (by decide)⟩

end Drpc.EndToEnd
