import Drpc.EndToEnd.Deployment

/-! # Echo calls on generated code

The deployment of the echo service, with its ideal buffers and task queues, and with the
generated code of its messages, over any runtime of protobuf that keeps to its
documentation. What a call needs is said of its texts (`EchoCall`): then the code of the
messages gives all the calls rely on (`EchoCall.serves`), and each response is the tag and
the message of the call.
-/

namespace Drpc.EndToEnd

open Proto Net Transition Client Server Scheduler Example

variable {Unknown : Type} {accepted : Nat × Nat ↪ Nat} {runtime : Runtime Unknown}
  {s : Deployment EchoMethod (Parsed Unknown Bytes)}

/-- The calls of a run on one channel have readable texts. -/
def ChannelEchoes (runtime : Runtime Unknown) (process channel : Nat)
    (labels : List (DeploymentStep EchoMethod (Parsed Unknown Bytes))) : Prop :=
  ∀ call request, .client process (.callMethod call channel request) ∈ labels →
    EchoCall runtime request

/-- **Every echo is the message of its call**, on every channel of a deployment that stays open:
in every run of any number of clients and a server, each response goes once to the session of
the call it answers, and is the tag of the method and the message that was sent, without the
fields the service does not know. -/
theorem echo_calls_answered (sound : runtime.Lawful) (names : NamesReadable runtime)
    (process channel : Nat) {stopped : Nat → Bool} {serverStopped : Bool}
    {labels : List (DeploymentStep EchoMethod (Parsed Unknown Bytes))}
    (echoes : ChannelEchoes runtime process channel labels)
    (run : exec (deploymentStep accepted (generatedServer runtime))
      (.init (generatedServer runtime) stopped serverStopped) labels = some s)
    (calm : Along (deploymentStep accepted (generatedServer runtime))
      (ChannelCalm accepted (generatedServer runtime) process channel)
      (.init (generatedServer runtime) stopped serverStopped) labels) :
    ((s.pair accepted process channel).client.state.deliveries.map Delivery.requestId).Nodup ∧
      ∀ delivery ∈ (s.pair accepted process channel).client.state.deliveries, ∃ call,
        (delivery.requestId, call) ∈ (s.pair accepted process channel).client.state.issued ∧
        delivery.session = call.session ∧
        delivery.response = ⟨call.method.tag ++ call.request.fields, []⟩ := by
  have served : ChannelServed (generatedServer runtime) process channel labels :=
    fun call request member =>
      ⟨echoService, (echoes call request member).serves sound names⟩
  obtain ⟨orders, t, -, -, refines⟩ := channel_refines process channel served run calm
  have agreement := agreement_of_explained refines.explained
  rw [← refines.system] at agreement
  refine ⟨agreement.once, fun delivery member => ?_⟩
  obtain ⟨call, service, issued, session, registered, -, response⟩ :=
    agreement.delivered delivery member
  -- only one service is registered
  obtain rfl : echoService = service := Option.some.inj registered
  exact ⟨call, issued, session, response⟩

/-- A call of `Echo` with the message `"hi"` and a field 7 the service does not know. -/
def foreignCall : Call EchoMethod EchoMessage :=
  ⟨.echo, ⟨[104, 105], [⟨58, [1, 120]⟩]⟩, 0, none⟩

def foreignCalls : List (LoopStep (Call EchoMethod EchoMessage)) :=
  [.read ⟨8, []⟩, .goOn, .callMethod 2 0 foreignCall, .compareExchange 2, .pop,
    .write [.accepted 44], .goOn, .goOn, .pop, .store]

def foreignServes : List (LoopStep Empty) :=
  [.read (.ofBytes (requestFrame (generatedProtobuf flatRuntime) foreignCall 0)), .goOn, .goOn,
    .goOn, .goOn, .goOn, .write [.accepted 29], .goOn, .goOn]

def foreignCompletes : List (LoopStep (Call EchoMethod EchoMessage)) :=
  [.wake [.connection 0 false false true], .handle, .goOn, .read (.ofBytes (hiAnswer 0)), .goOn,
    .goOn, .goOn, .goOn, .goOn]

/-- The call on a channel of process 0. -/
def foreignDeployment : List (DeploymentStep EchoMethod EchoMessage) :=
  (starts ++ foreignCalls).map (.client 0) ++ (starts ++ foreignServes).map .server ++
    foreignCompletes.map (.client 0)

theorem foreignCall_echoes : EchoCall flatRuntime foreignCall where
  request := by
    refine ⟨by decide, ?_⟩
    intro field member
    obtain rfl := List.mem_singleton.mp member
    exact ⟨58, [1, 120], [], rfl, by decide, by decide⟩
  response := by decide
  fits := by decide

theorem foreignDeployment_echoes : ChannelEchoes flatRuntime 0 0 foreignDeployment := by
  intro call request member
  have same : request = foreignCall := by
    simp [foreignDeployment, starts, foreignCalls, foreignServes, foreignCompletes] at member
    exact member.2
  rw [same]
  exact foreignCall_echoes

/-- It is answered with `"[Echo] hi"`. -/
theorem echo_calls_answered_of_foreign :
    ∃ s ∈ exec (deploymentStep Nat.pairEquiv.toEmbedding (generatedServer flatRuntime))
        (.init (generatedServer flatRuntime) (fun _ => false) false) foreignDeployment,
      ∃ delivery ∈ (s.pair Nat.pairEquiv.toEmbedding 0 0).client.state.deliveries,
        delivery.response = ⟨EchoMethod.echo.tag ++ [104, 105], []⟩ := by
  obtain ⟨s, run, issued, delivered⟩ := show
      ∃ s ∈ exec (deploymentStep Nat.pairEquiv.toEmbedding (generatedServer flatRuntime))
        (.init (generatedServer flatRuntime) (fun _ => false) false) foreignDeployment,
      (s.pair Nat.pairEquiv.toEmbedding 0 0).client.state.issued = [(0, foreignCall)] ∧
        (s.pair Nat.pairEquiv.toEmbedding 0 0).client.state.deliveries ≠ [] by
    decide +kernel
  obtain ⟨delivery, member⟩ := List.exists_mem_of_ne_nil _ delivered
  obtain ⟨call, made, -, response⟩ := (echo_calls_answered flatRuntime_lawful flatRuntime_names 0 0
    foreignDeployment_echoes run (by decide +kernel)).2 delivery member
  rw [issued, List.mem_singleton] at made
  obtain ⟨-, rfl⟩ := Prod.mk.inj made
  exact ⟨s, run, delivery, member, response⟩

end Drpc.EndToEnd
