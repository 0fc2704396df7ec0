import Drpc.Library.Transition
import Drpc.Client.Channel
import Drpc.Example.Echo

/-! # Pending and completed calls

The closures of `CallMethod` and the steps of `recv_fn` share the channel on the
executor's thread. Over every byte stream and every order of these steps, a call
that was given an id is pending under it or was completed once
(`pending_or_completed`), as long as the body of a response to a pending call
parses: the session is erased before the body is parsed, so a body that does not
parse loses the call (`call_lost`).
-/

namespace Drpc.Client

open Proto Net Transition

variable {Method Message : Type} (protobuf : Protobuf Method Message)

/-- What happens on the executor's thread. -/
inductive Label (Method Message : Type) where
  /-- A closure of `CallMethod` runs. -/
  | call (call : Call Method Message)
  /-- `recv_fn` is resumed and calls `async_read`. -/
  | read (call : ReadCall)
  /-- `recv_fn` goes on to its next wait. -/
  | advance

/-- One step. While `recv_fn` can go on, nothing else runs. -/
def step (s : ClientChannel Method Message) :
    Label Method Message → Option (ClientChannel Method Message)
  | .call call => if (advance protobuf s).isNone then sendRequest protobuf s call else none
  | .read call =>
      if (advance protobuf s).isNone ∧ ¬ s.Ended then some (s.deliver call) else none
  | .advance => advance protobuf s

/-- The sessions completed under an id. -/
def ClientChannel.completions (s : ClientChannel Method Message) (requestId : Int64) :
    List (Session Method) :=
  (s.deliveries.filter fun delivery => delivery.requestId = requestId).map Delivery.session

/-- Ids are given out once, and each call is pending under its id, with its own
session, or was completed once, with its own session. -/
def PendingOrCompleted (s : ClientChannel Method Message) : Prop :=
  (s.issued.map Prod.fst).Nodup ∧
    ∀ requestId call, (requestId, call) ∈ s.issued →
      (s.sessionRegistry requestId = some call.session ∧ s.completions requestId = []) ∨
        (s.sessionRegistry requestId = none ∧ s.completions requestId = [call.session])

/-- When `recv_fn` comes to the body of a response to a pending call, the body
parses. -/
def BodyParses (s : ClientChannel Method Message) : Label Method Message → Prop
  | .advance =>
      match s.phase with
      | .response header responseLen =>
          responseLen ≤ s.queue.size → ∀ session ∈ s.sessionRegistry header.requestId,
            (protobuf.parseResponse session.method (s.queue.content.take responseLen)).isSome = true
      | _ => True
  | .call _ | .read _ => True

instance (s : ClientChannel Method Message) (label : Label Method Message) :
    Decidable (BodyParses protobuf s label) := by
  unfold BodyParses
  cases label <;> dsimp only <;> try infer_instance
  cases s.phase <;> dsimp only <;> infer_instance

/-! ## The invariant -/

/-- What the registry, the ids and the completed calls have to do with each other. -/
structure Accounted (s : ClientChannel Method Message) : Prop where
  below : ∀ entry ∈ s.issued, entry.1 < s.requestId
  keys : ∀ requestId session, s.sessionRegistry requestId = some session →
    ∃ call, (requestId, call) ∈ s.issued
  completed : ∀ delivery ∈ s.deliveries, ∃ call, (delivery.requestId, call) ∈ s.issued
  calls : PendingOrCompleted s

theorem accounted_init : Accounted (ClientChannel.init : ClientChannel Method Message) where
  below := by simp [ClientChannel.init]
  keys := by simp [ClientChannel.init]
  completed := by simp [ClientChannel.init, ClientChannel.deliveries]
  calls := by simp [PendingOrCompleted, ClientChannel.init]

/-- The next id is above the one before it. -/
theorem lt_next_of_ne_max {requestId : Int64} (small : requestId ≠ Int64.maxValue) :
    requestId < requestId + 1 := by
  rw [Int64.lt_iff_toInt_lt, Int64.toInt_add]
  have below := requestId.toInt_lt
  have above := requestId.le_toInt
  have notMax : requestId.toInt ≠ 2 ^ 63 - 1 := by
    intro same
    exact small (Int64.toInt_inj.mp same)
  have one : (1 : Int64).toInt = 1 := rfl
  rw [one, Int.bmod_eq_of_le (by omega) (by omega)]
  omega

/-- An id that was not given out has nothing completed under it. -/
theorem completions_eq_nil {s : ClientChannel Method Message} (accounted : Accounted s)
    {requestId : Int64} (unissued : ∀ call, (requestId, call) ∉ s.issued) :
    s.completions requestId = [] := by
  simp only [ClientChannel.completions, List.map_eq_nil_iff, List.filter_eq_nil_iff,
    decide_eq_true_eq]
  rintro delivery member rfl
  obtain ⟨call, issued⟩ := accounted.completed delivery member
  exact unissued call issued

/-- A new call is pending under an id that was not used before. -/
theorem accounted_sendRequest {s t : ClientChannel Method Message} {call : Call Method Message}
    (accounted : Accounted s) (taken : sendRequest protobuf s call = some t) : Accounted t := by
  simp only [sendRequest, Option.ite_none_left_eq_some, Option.some.injEq] at taken
  obtain ⟨small, rfl⟩ := taken
  have unissued : ∀ call, (s.requestId, call) ∉ s.issued := by
    intro call member
    exact absurd (accounted.below _ member) (Int64.lt_irrefl)
  constructor
  · intro entry member
    rw [List.mem_append, List.mem_singleton] at member
    rcases member with old | rfl
    · exact Int64.lt_trans (accounted.below entry old) (lt_next_of_ne_max small)
    · exact lt_next_of_ne_max small
  · intro requestId session found
    by_cases new : requestId = s.requestId
    · exact ⟨call, by simp [new]⟩
    · simp only [Function.update_of_ne new] at found
      obtain ⟨old, member⟩ := accounted.keys requestId session found
      exact ⟨old, List.mem_append_left _ member⟩
  · intro delivery member
    obtain ⟨old, issued⟩ := accounted.completed delivery member
    exact ⟨old, List.mem_append_left _ issued⟩
  · refine ⟨?_, ?_⟩
    · rw [List.map_append, List.nodup_append]
      refine ⟨accounted.calls.1, by simp, ?_⟩
      rintro _ member _ new rfl
      simp only [List.map_cons, List.map_nil, List.mem_singleton] at new
      obtain ⟨⟨requestId, old⟩, issued, rfl⟩ := List.mem_map.mp member
      exact unissued old (by rw [← new]; exact issued)
    · intro requestId issuedCall member
      rw [List.mem_append, List.mem_singleton] at member
      rcases member with old | new
      · have different : requestId ≠ s.requestId := by
          intro equal
          subst equal
          exact unissued issuedCall old
        simp only [Function.update_of_ne different]
        exact accounted.calls.2 requestId issuedCall old
      · cases new
        left
        exact ⟨by simp, completions_eq_nil accounted unissued⟩

/-- What one turn of `recv_fn` does to the sessions: nothing, or it takes the
session of the response in front of it. -/
theorem proceed_sessions (s : ClientChannel Method Message) :
    (proceed protobuf s).issued = s.issued ∧ (proceed protobuf s).requestId = s.requestId ∧
      (((proceed protobuf s).sessionRegistry = s.sessionRegistry ∧
          (proceed protobuf s).deliveries = s.deliveries) ∨
        ∃ header responseLen session, s.phase = .response header responseLen ∧
          s.sessionRegistry header.requestId = some session ∧
          (proceed protobuf s).sessionRegistry =
            Function.update s.sessionRegistry header.requestId none ∧
          match protobuf.parseResponse session.method (s.queue.content.take responseLen) with
          | none => (proceed protobuf s).deliveries = s.deliveries
          | some response => (proceed protobuf s).deliveries = s.deliveries ++
              [⟨header.requestId, session, s.queue.content.take responseLen, response⟩]) := by
  unfold proceed
  cases phase : s.phase with
  | headerLen =>
      simp only [readHeaderLen]
      split <;> exact ⟨rfl, rfl, .inl ⟨rfl, rfl⟩⟩
  | header headerLen =>
      simp only [readHeader]
      split <;> exact ⟨rfl, rfl, .inl ⟨rfl, rfl⟩⟩
  | responseLen header =>
      simp only [readResponseLen]
      split <;> exact ⟨rfl, rfl, .inl ⟨rfl, rfl⟩⟩
  | response header responseLen =>
      simp only [readResponse]
      cases live : s.sessionRegistry header.requestId with
      | none =>
          refine ⟨rfl, rfl, .inl ⟨rfl, ?_⟩⟩
          simp [ClientChannel.next, ClientChannel.deliveries]
      | some session =>
          have seen : (s.queue.pushLimit responseLen).window =
              s.queue.content.take responseLen := rfl
          simp only [LimitedQueue.parse, seen]
          cases parsed : protobuf.parseResponse session.method
              (s.queue.content.take responseLen) with
          | none =>
              refine ⟨rfl, rfl, .inr ⟨header, responseLen, session, rfl, live, rfl, ?_⟩⟩
              simp [parsed, ClientChannel.next, ClientChannel.deliveries]
          | some response =>
              refine ⟨rfl, rfl, .inr ⟨header, responseLen, session, rfl, live, rfl, ?_⟩⟩
              simp [parsed, ClientChannel.next, ClientChannel.deliveries]
  | stopped reason => exact ⟨rfl, rfl, .inl ⟨rfl, rfl⟩⟩

/-- Only the ids, the registry and the deliveries matter. -/
theorem accounted_congr {s t : ClientChannel Method Message} (accounted : Accounted s)
    (issued : t.issued = s.issued) (requestId : t.requestId = s.requestId)
    (registry : t.sessionRegistry = s.sessionRegistry) (deliveries : t.deliveries = s.deliveries) :
    Accounted t := by
  obtain ⟨below, keys, completed, calls⟩ := accounted
  constructor
  · rwa [issued, requestId]
  · rwa [issued, registry]
  · rwa [issued, deliveries]
  · simpa only [PendingOrCompleted, ClientChannel.completions, issued, registry, deliveries]
      using calls

/-- A call whose response parses is completed and no longer pending. -/
theorem accounted_complete {s t : ClientChannel Method Message} (accounted : Accounted s)
    {requestId : Int64} {session : Session Method} {body : Bytes} {response : Message}
    (live : s.sessionRegistry requestId = some session) (issued : t.issued = s.issued)
    (next : t.requestId = s.requestId)
    (registry : t.sessionRegistry = Function.update s.sessionRegistry requestId none)
    (deliveries : t.deliveries = s.deliveries ++ [⟨requestId, session, body, response⟩]) :
    Accounted t := by
  have completions : ∀ id, t.completions id =
      s.completions id ++ if id = requestId then [session] else [] := by
    intro id
    by_cases same : id = requestId
    · simp [ClientChannel.completions, deliveries, same]
    · simp [ClientChannel.completions, deliveries, same, Ne.symm same]
  obtain ⟨below, keys, completed, distinct, calls⟩ := accounted
  constructor
  · rwa [issued, next]
  · intro id found key
    rw [registry] at key
    rw [issued]
    by_cases same : id = requestId
    · simp [same] at key
    · exact keys id found (by simpa [Function.update_of_ne same] using key)
  · intro delivery member
    rw [deliveries, List.mem_append, List.mem_singleton] at member
    rw [issued]
    rcases member with old | rfl
    · exact completed delivery old
    · exact keys requestId session live
  · refine ⟨by rwa [issued], ?_⟩
    intro id call member
    rw [issued] at member
    rw [registry, completions]
    by_cases same : id = requestId
    · subst same
      rcases calls id call member with ⟨pending, none⟩ | ⟨gone, -⟩
      · rw [live] at pending
        right
        simp [none, Option.some.inj pending]
      · simp [live] at gone
    · simpa [Function.update_of_ne same, same] using calls id call member

/-- **One step** keeps the account, when the body of a response parses. -/
theorem accounted_step {s t : ClientChannel Method Message} {label : Label Method Message}
    (accounted : Accounted s) (parses : BodyParses protobuf s label)
    (taken : step protobuf s label = some t) : Accounted t := by
  cases label with
  | call call =>
      simp only [step, Option.ite_none_right_eq_some] at taken
      exact accounted_sendRequest protobuf accounted taken.2
  | read call =>
      simp only [step, Option.ite_none_right_eq_some, Option.some.injEq] at taken
      obtain ⟨-, rfl⟩ := taken
      exact accounted_congr accounted rfl rfl rfl rfl
  | advance =>
      obtain ⟨-, ⟨enough, rfl⟩ | ⟨-, -, rfl⟩⟩ := advance_cases protobuf taken
      · obtain ⟨issued, next, ⟨registry, deliveries⟩ | ⟨header, responseLen, session, phase, live,
          registry, deliveries⟩⟩ := proceed_sessions protobuf s
        · exact accounted_congr accounted issued next registry deliveries
        · simp only [BodyParses, phase] at parses
          have body := parses (by simpa [phase, Phase.needs] using enough) session live
          obtain ⟨response, parsed⟩ := Option.isSome_iff_exists.mp body
          rw [parsed] at deliveries
          exact accounted_complete accounted live issued next registry deliveries
      · exact accounted_congr accounted rfl rfl rfl rfl

/-- **Every call is pending or completed once.** Over every run in which the body
of each response to a pending call parses, whatever else the peer sends. -/
theorem pending_or_completed {labels : List (Label Method Message)}
    {s : ClientChannel Method Message} (run : exec (step protobuf) .init labels = some s)
    (parses : Along (step protobuf) (BodyParses protobuf) .init labels) : PendingOrCompleted s :=
  (exec_invariant (fun _ _ _ accounted allowed taken =>
    accounted_step protobuf accounted allowed taken) accounted_init run parses).calls

/-- A call of `Echo` with the message `"hi"`. -/
def hiCall : Call Example.EchoMethod Example.EchoMessage := ⟨.echo, Example.hi, 0, some 0⟩

/-- The response of the echo server to its first request, with the fields `body`. -/
def firstResponse (body : Bytes) : Bytes :=
  frame (Example.protobuf.serializeHeader (Server.responseHeader 0)) body

/-- A call and its response. -/
theorem pending_or_completed_of_response :
    ∃ s, exec (step Example.protobuf) .init
        [.call hiCall,
          .read (.ofBytes (firstResponse (Example.protobuf.serialize Example.hi))),
          .advance, .advance, .advance, .advance] = some s ∧ PendingOrCompleted s := by
  have runs : (exec (step Example.protobuf) .init
      [.call hiCall,
        .read (.ofBytes (firstResponse (Example.protobuf.serialize Example.hi))),
        .advance, .advance, .advance, .advance]).isSome = true := by
    decide +kernel
  obtain ⟨s, run⟩ := Option.isSome_iff_exists.mp runs
  exact ⟨s, run, pending_or_completed Example.protobuf run (by decide +kernel)⟩

/-- A call whose response has a body that does not parse (a field without its
text) is lost: it is neither pending nor completed. -/
theorem call_lost :
    ¬ ∀ (labels : List (Label Example.EchoMethod Example.EchoMessage))
      (s : ClientChannel Example.EchoMethod Example.EchoMessage),
      exec (step Example.protobuf) .init labels = some s → PendingOrCompleted s := by
  intro always
  have runs : ∃ s ∈ exec (step Example.protobuf) .init
      [.call hiCall, .read (.ofBytes (firstResponse [10])), .advance, .advance, .advance,
        .advance],
      (0, hiCall) ∈ s.issued ∧ s.sessionRegistry 0 = none ∧ s.completions 0 = [] := by
    decide +kernel
  obtain ⟨s, run, issued, gone, uncompleted⟩ := runs
  rcases (always _ s run).2 0 hiCall issued with ⟨pending, -⟩ | ⟨-, completed⟩
  · simp [gone] at pending
  · simp [uncompleted] at completed

end Drpc.Client
