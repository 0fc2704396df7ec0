import Drpc.Library.Simulation
import Drpc.Net.Moves
import Drpc.Net.Tasks
import Drpc.Server.Reference
import Drpc.EndToEnd.Completion
import Drpc.EndToEnd.Connections

/-! # A channel and a server with their coroutines

Both ends of a connection that stays open, as their threads run them: tasks, events, handles
and the two coroutines of each end. A run of them is a run of the `System`
(`coroutines_simulate`), so that calls and responses agree. When both threads are idle,
nothing is in flight and no `EPOLLOUT` is armed, every call is completed
(`Coroutines.Refines.completed`).
-/

namespace Drpc.Server

open Net

variable {Method Message : Type} (server : RpcServer Method Message)

theorem endpoint_patient : server.endpoint.Patient where
  init_running := decide_eq_false id
  init_waits := rfl
  ended_waits ended := advance_of_ended server (of_decide_eq_true ended)
  deliver_ended s call := rfl
  deliver_nothing := by
    intro s call nothing
    obtain ⟨queue, closed, phase, dispatched, output⟩ := s
    simp [RpcServer.endpoint, Receiver.deliver, Receiver.append, Receiver.close, nothing,
      LimitedQueue.append]
  sendRequest_ended {_ call _} _ := nomatch call
  sendRequest_waits {_ call _} _ _ := nomatch call

end Drpc.Server

namespace Drpc.Client

open Net Proto

variable {Method Message : Type} (protobuf : Protobuf Method Message)

/-- `recv_fn` waits for bytes on an open connection, or has ended. -/
theorem advance_eq_none_iff (s : ClientChannel Method Message) :
    advance protobuf s = none ↔
      s.Ended ∨ (s.queue.size < s.phase.needs ∧ s.closed = false) := by
  rw [advance_eq]
  split_ifs with ended enough closed
  · simp [ended]
  · simp [ended, Nat.not_lt.mpr enough]
  · simp [ended, closed]
  · simp [ended, Nat.lt_of_not_le enough, closed]

/-- A closure of `CallMethod` gives a waiting `recv_fn` nothing to do. -/
theorem advance_sendRequest {s t : ClientChannel Method Message} {call : Call Method Message}
    (taken : sendRequest protobuf s call = some t) (waits : advance protobuf s = none) :
    advance protobuf t = none := by
  rw [advance_eq_none_iff] at waits ⊢
  unfold sendRequest at taken
  split at taken
  · cases taken
  · cases taken
    exact waits

theorem endpoint_patient : (endpoint protobuf).Patient where
  init_running := decide_eq_false id
  init_waits := rfl
  ended_waits ended := advance_of_ended protobuf (of_decide_eq_true ended)
  deliver_ended s call := rfl
  deliver_nothing := by
    intro s call nothing
    obtain ⟨queue, closed, phase, registry, requestId, output, issued, handled, tops⟩ := s
    simp [endpoint, ClientChannel.deliver, nothing, LimitedQueue.append]
  sendRequest_ended := (endpoint_lawful protobuf).sendRequest_ended
  sendRequest_waits := advance_sendRequest protobuf

end Drpc.Client

namespace Drpc.EndToEnd

open Proto Net Transition Client Server

variable {Method Message : Type}

/-- Both connections, and the bytes in flight. -/
structure Coroutines (Method Message : Type) where
  client : Connection (ClientChannel Method Message) (Call Method Message)
  server : Connection (Receiver Method Message) Empty
  toServer : Bytes
  toClient : Bytes

/-- What happens at one of the two ends. -/
inductive CoroutineStep (Method Message : Type) where
  | client (label : Net.Label (Call Method Message))
  | server (label : Net.Label Empty)

/-- An `async_read` of the connection takes the first bytes in flight. -/
def TakesFrom {Call : Type} (inFlight : Bytes) : Net.Label Call → Prop
  | .read call => call.outcome.bytes <+: inFlight
  | .callMethod _ | .userClose | .task | .event .. | .write _ | .goOn => True

instance decidableTakesFrom {Call : Type} (inFlight : Bytes) :
    DecidablePred (@TakesFrom Call inFlight)
  | .read call => inferInstanceAs (Decidable (call.outcome.bytes <+: inFlight))
  | .callMethod _ | .userClose | .task | .event .. | .write _ | .goOn =>
      inferInstanceAs (Decidable True)

/-- The number of the bytes taken in. -/
def takenBy {Call : Type} : Net.Label Call → Nat
  | .read call => call.outcome.bytes.length
  | .callMethod _ | .userClose | .task | .event .. | .write _ | .goOn => 0

/-- The bytes put on the wire. -/
def sentBy {State Call : Type} (endpoint : Endpoint State Call) (s : Connection State Call) :
    Net.Label Call → Bytes
  | .write results =>
      match asyncWrite (endpoint.content s) results with
      | some outcome => outcome.bytes
      | none => []
  | .callMethod _ | .userClose | .task | .event .. | .read _ | .goOn => []

variable (server : RpcServer Method Message)

/-- Two new connections. -/
def Coroutines.init : Coroutines Method Message where
  client := (Client.endpoint server.protobuf).connect
  server := server.endpoint.connect
  toServer := []
  toClient := []

/-- One step of the two connections. -/
def coroutineStep (s : Coroutines Method Message) :
    CoroutineStep Method Message → Option (Coroutines Method Message)
  | .client label =>
      if TakesFrom s.toClient label then
        ((Client.endpoint server.protobuf).step s.client label).map fun client =>
          { s with
            client
            toServer := s.toServer ++ sentBy (Client.endpoint server.protobuf) s.client label
            toClient := s.toClient.drop (takenBy label) }
      else none
  | .server label =>
      if TakesFrom s.toServer label then
        (server.endpoint.step s.server label).map fun receiver =>
          { s with
            server := receiver
            toClient := s.toClient ++ sentBy server.endpoint s.server label
            toServer := s.toServer.drop (takenBy label) }
      else none

/-- Nobody closes the connection, and no `async_write` goes on after a short write. -/
def Steadfast {State Call : Type} (endpoint : Endpoint State Call) (s : Connection State Call) :
    Net.Label Call → Prop
  | .userClose => False
  | .event hup _ _ => hup = false
  | .read call => call.outcome.closes = false
  | .write results => ShortWriteEnds (needWrite (endpoint.content s).length) results
  | .callMethod _ | .task | .goOn => True

instance decidableSteadfast {State Call : Type} (endpoint : Endpoint State Call)
    (s : Connection State Call) : DecidablePred (Steadfast endpoint s)
  | .userClose => inferInstanceAs (Decidable False)
  | .event hup _ _ => inferInstanceAs (Decidable (hup = false))
  | .read _ => inferInstanceAs (Decidable (_ = false))
  | .write _ => inferInstanceAs (Decidable (ShortWriteEnds _ _))
  | .callMethod _ | .task | .goOn => inferInstanceAs (Decidable True)

/-- Both ends are steadfast. -/
def Calm (s : Coroutines Method Message) : CoroutineStep Method Message → Prop
  | .client label => Steadfast (Client.endpoint server.protobuf) s.client label
  | .server label => Steadfast server.endpoint s.server label

instance decidableCalm (s : Coroutines Method Message) : DecidablePred (Calm server s)
  | .client label =>
      inferInstanceAs (Decidable (Steadfast (Client.endpoint server.protobuf) s.client label))
  | .server label => inferInstanceAs (Decidable (Steadfast server.endpoint s.server label))

/-- The calls of the step are served. -/
def ServedCall : CoroutineStep Method Message → Prop
  | .client (.callMethod call) => ∃ service, Serves server call service
  | .client .userClose | .client .task | .client (.event ..) | .client (.read _)
  | .client (.write _) | .client .goOn | .server _ => True

/-- The two ends without their coroutines. -/
def Coroutines.system (s : Coroutines Method Message) : System Method Message where
  client := s.client.state
  server := s.server.state
  clientSent := s.client.sent
  serverSent := s.server.sent
  toServer := s.toServer
  toClient := s.toClient

/-- The coroutines stand where the ideal system leaves them. -/
structure Coroutines.Refines (s : Coroutines Method Message) (t : System Method Message) :
    Prop where
  system : s.system = t
  explained : Explained server t
  clientSettled : s.client.Settled (Client.endpoint server.protobuf)
  serverSettled : s.server.Settled server.endpoint
  clientAttended : s.client.Attended (Client.endpoint server.protobuf)
  serverAttended : s.server.Attended server.endpoint
  served : ∀ call, .sendRequest call ∈ s.client.tasks → ∃ service, Serves server call service

/-- What the steps of the ideal system keep to. -/
def ServedStep (s : System Method Message) (label : SystemStep Method Message) : Prop :=
  ShortWritesEnd s label ∧ ∀ call, label = .call call → ∃ service, Serves server call service

variable {server} {s next : Coroutines Method Message} {t : System Method Message}

theorem refines_connect : (Coroutines.init server).Refines server .init where
  system := rfl
  explained := explained_init
  clientSettled := settled_connect (Client.endpoint_patient server.protobuf)
  serverSettled := settled_connect (endpoint_patient server)
  clientAttended := attended_connect (Client.endpoint_silent server.protobuf)
  serverAttended := attended_connect (endpoint_silent server)
  served call member := by
    simp [Coroutines.init, Endpoint.connect] at member

/-! ## The steps -/

theorem gentle_of_steadfast {State Call : Type} {endpoint : Endpoint State Call}
    {s : Connection State Call} {label : Net.Label Call} (steadfast : Steadfast endpoint s label) :
    label.Gentle := by
  cases label with
  | read call => exact steadfast
  | event hup out in_ => exact steadfast
  | userClose => exact steadfast
  | callMethod call | task | write results | goOn => trivial

/-- A step without a move neither sends nor takes in. -/
theorem silent_of_stays {State Call : Type} (endpoint : Endpoint State Call)
    {s : Connection State Call} {label : Net.Label Call} (stays : s.moveOf label = none) :
    sentBy endpoint s label = [] ∧ takenBy label = 0 := by
  cases label with
  | read call => cases stays
  | write results => cases stays
  | callMethod call | userClose | task | event hup out in_ | goOn => exact ⟨rfl, rfl⟩

/-- What the client waits to send comes from calls of the run. -/
theorem served_of_step {label : Net.Label (Call Method Message)}
    {connection after : Connection (ClientChannel Method Message) (Call Method Message)}
    (served : ∀ call, .sendRequest call ∈ connection.tasks → ∃ service, Serves server call service)
    (own : ServedCall server (.client label))
    (taken : (Client.endpoint server.protobuf).step connection label = some after) :
    ∀ call, .sendRequest call ∈ after.tasks → ∃ service, Serves server call service := by
  intro call member
  rcases tasks_of_step taken with ⟨new, rfl, tasks⟩ | ⟨task, rest, -, first, tasks⟩ |
    ⟨-, -, tasks⟩
  · rw [tasks, List.mem_append, List.mem_singleton, Task.sendRequest.injEq] at member
    rcases member with old | rfl
    · exact served call old
    · exact own
  · apply served call
    rw [first]
    exact List.mem_cons_of_mem _ (tasks ▸ member)
  · exact served call (tasks ▸ member)

/-- The move of the client is a step of the system. -/
theorem step_of_clientMove {label : Net.Label (Call Method Message)}
    (refines : s.Refines server t) (takes : TakesFrom s.toClient label)
    (steadfast : Steadfast (Client.endpoint server.protobuf) s.client label)
    {move : Move (Call Method Message)} (makes : s.client.moveOf label = some move)
    {core : Core (ClientChannel Method Message)}
    (moves : (Client.endpoint server.protobuf).move s.client.core move = some core) :
    ∃ order, ServedStep server s.system order ∧ step server s.system order =
      some { s.system with
        client := core.state
        clientSent := core.sent
        toServer := s.toServer ++ sentBy (Client.endpoint server.protobuf) s.client label
        toClient := s.toClient.drop (takenBy label) } := by
  cases label with
  | callMethod call | userClose | event hup out in_ => cases makes
  | task =>
      obtain ⟨call, rfl, pending⟩ : ∃ call, move = .call call ∧
          .sendRequest call ∈ s.client.tasks := by
        simp only [Connection.moveOf] at makes
        split at makes
        next call rest tasks =>
          cases makes
          refine ⟨call, rfl, ?_⟩
          rw [tasks]
          exact List.mem_cons_self ..
        all_goals cases makes
      simp only [Endpoint.move, Option.ite_none_right_eq_some, Option.map_eq_some_iff] at moves
      obtain ⟨waits, state, requested, rfl⟩ := moves
      refine ⟨.call call, ⟨trivial, ?_⟩, ?_⟩
      · rintro _ ⟨⟩
        exact refines.served call pending
      · have waiting : (advance server.protobuf s.system.client).isNone = true := waits
        have issued : sendRequest server.protobuf s.system.client call = some state := requested
        simp only [step, Client.step, waiting, issued, ↓reduceIte, Option.map_some, sentBy,
          takenBy, List.append_nil, List.drop_zero]
        rfl
  | read call =>
      cases makes
      simp only [Endpoint.move, Option.ite_none_right_eq_some, Option.some.injEq] at moves
      obtain ⟨⟨waits, running⟩, rfl⟩ := moves
      refine ⟨.clientRead call, ⟨trivial, by simp⟩, ?_⟩
      have waiting : (advance server.protobuf s.system.client).isNone = true := waits
      have arrives : Arrives call s.system.toClient := ⟨steadfast, takes⟩
      have unfinished : ¬ s.system.client.Ended := of_decide_eq_false running
      simp only [step, Client.step, waiting, arrives, unfinished, not_false_eq_true, and_self,
        ↓reduceIte, Option.map_some, sentBy, takenBy, List.append_nil]
      rfl
  | write results =>
      cases makes
      simp only [Endpoint.move, Option.map_eq_some_iff] at moves
      obtain ⟨outcome, written, rfl⟩ := moves
      refine ⟨.clientWrite results, ⟨steadfast, by simp⟩, ?_⟩
      have wrote : asyncWrite s.system.clientBuffer results = some outcome := written
      have sent : sentBy (Client.endpoint server.protobuf) s.client (.write results) =
          outcome.bytes := by
        have same : asyncWrite ((Client.endpoint server.protobuf).content s.client) results =
            some outcome := written
        simp only [sentBy, same]
      simp only [step, wrote, Option.map_some, sent, takenBy, List.drop_zero]
      rfl
  | goOn =>
      obtain rfl : move = .advance := by
        simp only [Connection.moveOf, Option.ite_none_right_eq_some, Option.some.injEq] at makes
        exact makes.2.symm
      simp only [Endpoint.move, Option.map_eq_some_iff] at moves
      obtain ⟨state, advanced, rfl⟩ := moves
      refine ⟨.clientAdvance, ⟨trivial, by simp⟩, ?_⟩
      have goes : advance server.protobuf s.system.client = some state := advanced
      simp only [step, Client.step, goes, Option.map_some, sentBy, takenBy, List.append_nil,
        List.drop_zero]
      rfl

/-- The move of the server is a step of the system. -/
theorem step_of_serverMove {label : Net.Label Empty} (takes : TakesFrom s.toServer label)
    (steadfast : Steadfast server.endpoint s.server label) {move : Move Empty}
    (makes : s.server.moveOf label = some move) {core : Core (Receiver Method Message)}
    (moves : server.endpoint.move s.server.core move = some core) :
    ∃ order, ServedStep server s.system order ∧ step server s.system order =
      some { s.system with
        server := core.state
        serverSent := core.sent
        toClient := s.toClient ++ sentBy server.endpoint s.server label
        toServer := s.toServer.drop (takenBy label) } := by
  cases label with
  | callMethod call | userClose | event hup out in_ => cases makes
  | task =>
      cases move with
      | call call => cases call
      | read call | advance | write results =>
          simp only [Connection.moveOf] at makes
          split at makes <;> cases makes
  | read call =>
      cases makes
      simp only [Endpoint.move, Option.ite_none_right_eq_some, Option.some.injEq] at moves
      obtain ⟨⟨waits, running⟩, rfl⟩ := moves
      refine ⟨.serverRead call, ⟨trivial, by simp⟩, ?_⟩
      have waiting : (server.advance s.system.server).isNone = true := waits
      have arrives : Arrives call s.system.toServer := ⟨steadfast, takes⟩
      have unfinished : ¬ s.system.server.Ended := of_decide_eq_false running
      simp only [step, waiting, arrives, unfinished, not_false_eq_true, and_self, ↓reduceIte,
        sentBy, takenBy, List.append_nil]
      rfl
  | write results =>
      cases makes
      simp only [Endpoint.move, Option.map_eq_some_iff] at moves
      obtain ⟨outcome, written, rfl⟩ := moves
      refine ⟨.serverWrite results, ⟨steadfast, by simp⟩, ?_⟩
      have wrote : asyncWrite s.system.serverBuffer results = some outcome := written
      have sent : sentBy server.endpoint s.server (.write results) = outcome.bytes := by
        have same : asyncWrite (server.endpoint.content s.server) results = some outcome := written
        simp only [sentBy, same]
      simp only [step, wrote, Option.map_some, sent, takenBy, List.drop_zero]
      rfl
  | goOn =>
      obtain rfl : move = .advance := by
        simp only [Connection.moveOf, Option.ite_none_right_eq_some, Option.some.injEq] at makes
        exact makes.2.symm
      simp only [Endpoint.move, Option.map_eq_some_iff] at moves
      obtain ⟨state, advanced, rfl⟩ := moves
      refine ⟨.serverAdvance, ⟨trivial, by simp⟩, ?_⟩
      have goes : server.advance s.system.server = some state := advanced
      simp only [step, goes, Option.map_some, sentBy, takenBy, List.append_nil, List.drop_zero]
      rfl

theorem Coroutines.Refines.clientStep {label : Net.Label (Call Method Message)}
    (refines : s.Refines server t) (calm : Calm server s (.client label))
    (own : ServedCall server (.client label))
    (taken : coroutineStep server s (.client label) = some next) :
    next.Refines server t ∨ ∃ order after, step server t order = some after ∧
      ServedStep server t order ∧ next.Refines server after := by
  obtain rfl := refines.system
  simp only [coroutineStep, Option.ite_none_right_eq_some, Option.map_eq_some_iff] at taken
  obtain ⟨takes, client, stepped, rfl⟩ := taken
  have makes := refines.clientSettled.step (Client.endpoint_patient server.protobuf)
    refines.clientAttended.toUnderway (gentle_of_steadfast calm) stepped
  have attended := refines.clientAttended.of_step (Client.endpoint_silent server.protobuf) stepped
  have served := served_of_step refines.served own stepped
  cases chosen : s.client.moveOf label with
  | none =>
      left
      have core := makes.stays chosen
      obtain ⟨sent, taken⟩ := silent_of_stays (Client.endpoint server.protobuf) chosen
      refine ⟨?_, refines.explained, makes.settled, refines.serverSettled, attended,
        refines.serverAttended, served⟩
      have state : client.state = s.client.state := congrArg Core.state core
      have count : client.sent = s.client.sent := congrArg Core.sent core
      simp only [Coroutines.system, state, count, sent, taken, List.append_nil, List.drop_zero]
  | some move =>
      right
      obtain ⟨order, admits, answered⟩ := step_of_clientMove refines takes calm chosen
        (makes.moves move chosen)
      exact ⟨order, _, answered, admits, rfl,
        explained_step refines.explained admits.1 admits.2 answered, makes.settled,
        refines.serverSettled, attended, refines.serverAttended, served⟩

theorem Coroutines.Refines.serverStep {label : Net.Label Empty} (refines : s.Refines server t)
    (calm : Calm server s (.server label))
    (taken : coroutineStep server s (.server label) = some next) :
    next.Refines server t ∨ ∃ order after, step server t order = some after ∧
      ServedStep server t order ∧ next.Refines server after := by
  obtain rfl := refines.system
  simp only [coroutineStep, Option.ite_none_right_eq_some, Option.map_eq_some_iff] at taken
  obtain ⟨takes, receiver, stepped, rfl⟩ := taken
  have makes := refines.serverSettled.step (endpoint_patient server)
    refines.serverAttended.toUnderway (gentle_of_steadfast calm) stepped
  have attended := refines.serverAttended.of_step (endpoint_silent server) stepped
  cases chosen : s.server.moveOf label with
  | none =>
      left
      have core := makes.stays chosen
      obtain ⟨sent, taken⟩ := silent_of_stays server.endpoint chosen
      refine ⟨?_, refines.explained, refines.clientSettled, makes.settled, refines.clientAttended,
        attended, refines.served⟩
      have state : receiver.state = s.server.state := congrArg Core.state core
      have count : receiver.sent = s.server.sent := congrArg Core.sent core
      simp only [Coroutines.system, state, count, sent, taken, List.append_nil, List.drop_zero]
  | some move =>
      right
      obtain ⟨order, admits, answered⟩ := step_of_serverMove takes calm chosen
        (makes.moves move chosen)
      exact ⟨order, _, answered, admits, rfl,
        explained_step refines.explained admits.1 admits.2 answered, refines.clientSettled,
        makes.settled, refines.clientAttended, attended, refines.served⟩

/-- **The coroutines refine the system**: a step of them is one of the system, or none. -/
theorem coroutines_simulate :
    Simulates (coroutineStep server) (step server) (Coroutines.Refines server)
      (fun s label => Calm server s label ∧ ServedCall server label) (ServedStep server) := by
  refine Simulates.of_stutter fun s t label next refines allows taken => ?_
  cases label with
  | client label => exact refines.clientStep allows.1 allows.2 taken
  | server label => exact refines.serverStep allows.1 taken

/-! ## What was called -/

/-- The calls made on the channel: those whose closure has run, and those still to run. -/
def Coroutines.called (s : Coroutines Method Message) : List (Call Method Message) :=
  s.client.state.issued.map Prod.snd ++ s.client.tasks.filterMap Task.closure

/-- The calls of the step. -/
def CoroutineStep.calls : CoroutineStep Method Message → List (Call Method Message)
  | .client (.callMethod call) => [call]
  | .client .userClose | .client .task | .client (.event ..) | .client (.read _)
  | .client (.write _) | .client .goOn | .server _ => []

theorem issued_of_move {c d : Core (ClientChannel Method Message)}
    {protobuf : Protobuf Method Message} {move : Move (Call Method Message)}
    (taken : (Client.endpoint protobuf).move c move = some d) :
    (∃ call, move = .call call ∧
      d.state.issued.map Prod.snd = c.state.issued.map Prod.snd ++ [call]) ∨
      ((∀ call, move ≠ .call call) ∧ d.state.issued = c.state.issued) := by
  cases move with
  | call call =>
      simp only [Endpoint.move, Option.ite_none_right_eq_some, Option.map_eq_some_iff] at taken
      obtain ⟨-, state, requested, rfl⟩ := taken
      have issued : sendRequest protobuf c.state call = some state := requested
      simp only [sendRequest, Option.ite_none_left_eq_some, Option.some.injEq] at issued
      obtain ⟨-, rfl⟩ := issued
      exact .inl ⟨call, rfl, by simp⟩
  | read call =>
      simp only [Endpoint.move, Option.ite_none_right_eq_some, Option.some.injEq] at taken
      obtain ⟨-, rfl⟩ := taken
      exact .inr ⟨by simp, rfl⟩
  | advance =>
      simp only [Endpoint.move, Option.map_eq_some_iff] at taken
      obtain ⟨state, advanced, rfl⟩ := taken
      refine .inr ⟨by simp, ?_⟩
      obtain ⟨-, ⟨-, rfl⟩ | ⟨-, -, rfl⟩⟩ := advance_cases protobuf advanced
      · exact (proceed_sessions protobuf c.state).1
      · rfl
  | write results =>
      simp only [Endpoint.move, Option.map_eq_some_iff] at taken
      obtain ⟨outcome, -, rfl⟩ := taken
      exact .inr ⟨by simp, rfl⟩

/-- `CallMethod` adds its call; whatever else happens, none gets lost. -/
theorem Coroutines.Refines.called_step (refines : s.Refines server t)
    {label : CoroutineStep Method Message} (calm : Calm server s label)
    (taken : coroutineStep server s label = some next) : next.called = s.called ++ label.calls := by
  cases label with
  | server label =>
      simp only [coroutineStep, Option.ite_none_right_eq_some, Option.map_eq_some_iff] at taken
      obtain ⟨-, receiver, -, rfl⟩ := taken
      simp [Coroutines.called, CoroutineStep.calls]
  | client label =>
      simp only [coroutineStep, Option.ite_none_right_eq_some, Option.map_eq_some_iff] at taken
      obtain ⟨takes, client, stepped, rfl⟩ := taken
      have makes := refines.clientSettled.step (Client.endpoint_patient server.protobuf)
        refines.clientAttended.toUnderway (gentle_of_steadfast calm) stepped
      have stays : s.client.moveOf label = none → client.state.issued = s.client.state.issued :=
        fun none_ => congrArg (fun core => core.state.issued) (makes.stays none_)
      rcases tasks_of_step stepped with ⟨call, rfl, tasks⟩ | ⟨task, rest, rfl, first, tasks⟩ |
        ⟨code, others, tasks⟩
      · simp [Coroutines.called, CoroutineStep.calls, Task.closure, tasks, stays rfl]
      · cases task with
        | sendFn | recvFn =>
            have none_ : s.client.moveOf .task = none := by simp [Connection.moveOf, first]
            simp [Coroutines.called, CoroutineStep.calls, Task.closure, List.filterMap_cons, first,
              tasks, stays none_]
        | sendRequest call =>
            have own : s.client.moveOf .task = some (.call call) := by
              simp [Connection.moveOf, first]
            rcases issued_of_move (makes.moves _ own) with ⟨_, ⟨⟩, issued⟩ | ⟨different, -⟩
            · have more : client.state.issued.map Prod.snd =
                  s.client.state.issued.map Prod.snd ++ [call] := issued
              simp [Coroutines.called, CoroutineStep.calls, Task.closure, first, tasks, more]
            · exact absurd rfl (different call)
      · have silent : CoroutineStep.calls (.client label) = [] := by
          cases label with
          | callMethod call => exact absurd rfl (code call)
          | userClose | task | event hup out in_ | read call | write results | goOn => rfl
        have issued : client.state.issued = s.client.state.issued := by
          cases own : s.client.moveOf label with
          | none => exact stays own
          | some move =>
              rcases issued_of_move (makes.moves _ own) with ⟨call, rfl, -⟩ | ⟨-, issued⟩
              · cases label with
                | task => exact absurd rfl others
                | goOn =>
                    simp only [Connection.moveOf, Option.ite_none_right_eq_some, Option.some.injEq,
                      reduceCtorEq, and_false] at own
                | callMethod call | userClose | event hup out in_ | read call | write results =>
                    cases own
              · exact issued
        simp [Coroutines.called, silent, tasks, issued]

/-! ## When both threads rest -/

/-- With nothing in flight and no `EPOLLOUT` armed, two idle threads have completed every
call that was issued. -/
theorem Coroutines.Refines.completed (refines : s.Refines server t) (clientIdle : s.client.Idle)
    (serverIdle : s.server.Idle) (clientUnarmed : s.client.armed = false)
    (serverUnarmed : s.server.armed = false) (toServer : s.toServer = [])
    (toClient : s.toClient = []) : Completed server t := by
  obtain ⟨answered, inFlight, waiting, linked⟩ := refines.explained
  have clientWaits : advance server.protobuf t.client = none := by
    rw [← refines.system]
    exact refines.clientSettled.waits (.inl clientIdle.2.1)
  have serverWaits : server.advance t.server = none := by
    rw [← refines.system]
    exact refines.serverSettled.waits (.inl serverIdle.2.1)
  have clientBuffer : t.clientBuffer = [] := by
    have opened : s.client.state.closed = false := by
      have opened := linked.clientOpen
      rwa [← refines.system] at opened
    by_contra some_
    rw [← refines.system] at some_
    have armed := ((refines.clientAttended.pending clientIdle opened).1
      (List.length_pos_iff.mpr some_)).2.2
    rw [clientUnarmed] at armed
    cases armed
  have serverBuffer : t.serverBuffer = [] := by
    have opened : s.server.state.closed = false := by
      have opened := linked.serverOpen
      rwa [← refines.system] at opened
    by_contra some_
    rw [← refines.system] at some_
    have armed := ((refines.serverAttended.pending serverIdle opened).1
      (List.length_pos_iff.mpr some_)).2.2
    rw [serverUnarmed] at armed
    cases armed
  have flown : t.toServer = [] ∧ t.toClient = [] := by
    rw [← refines.system]
    exact ⟨toServer, toClient⟩
  refine completed_of_rest refines.explained (rest_of_nothing serverWaits clientWaits clientBuffer
    serverBuffer flown.1 flown.2) ?_
  rintro (⟨some_, -⟩ | ⟨some_, -⟩)
  · exact some_ clientBuffer
  · exact some_ serverBuffer

end Drpc.EndToEnd
