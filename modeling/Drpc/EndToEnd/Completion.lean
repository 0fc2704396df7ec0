import Drpc.EndToEnd.Connections
import Drpc.Library.Fairness
import Mathlib.Data.Prod.Lex

/-! # Every call is completed

The other half of the agreement of calls and responses. A step of the system that
changes it moves a byte towards the other end, handles bytes, or uses up an id, so
that a rank falls; in a state that no step of the two ends can change, nothing is
left to be done for any call, unless an `async_write` takes the size of its buffer
for a negative number (`Stalled`). Hence every fair run completes every call
(`calls_complete`), and from every state of every run the two ends can come to that
point with no further call (`completion_reachable`). All of this is about the ideal byte
queues of `System`.
-/

namespace Drpc.EndToEnd

open Proto Net Transition Client Server

variable {Method Message : Type} (server : RpcServer Method Message)

/-- A step of the two ends themselves, no call. -/
def Internal (s : System Method Message) (label : SystemStep Method Message) : Prop :=
  ShortWritesEnd s label ∧ ∀ call, label ≠ .call call

/-- `async_write` finds bytes to write and does not come to write them. -/
def StalledBuffer (content : Bytes) : Prop := content ≠ [] ∧ needWrite content.length ≤ 0

instance (content : Bytes) : Decidable (StalledBuffer content) :=
  inferInstanceAs (Decidable (_ ∧ _))

def Stalled (s : System Method Message) : Prop :=
  StalledBuffer s.clientBuffer ∨ StalledBuffer s.serverBuffer

instance (s : System Method Message) : Decidable (Stalled s) := inferInstanceAs (Decidable (_ ∨ _))

/-- Every call was completed, in the order of the calls, with what the service
computes for it; no session is left, and no byte is under way. -/
structure Completed (s : System Method Message) : Prop extends Agreement server s where
  in_order : s.client.deliveries.map (fun delivery => (delivery.requestId, delivery.session)) =
    s.client.issued.map fun entry => (entry.1, entry.2.session)
  no_session : ∀ requestId, s.client.sessionRegistry requestId = none
  to_server : s.clientBuffer = [] ∧ s.toServer = [] ∧ s.server.queue.content = []
  to_client : s.serverBuffer = [] ∧ s.toClient = [] ∧ s.client.queue.content = []
  waiting : s.server.phase = .headerLen ∧ s.client.phase = .headerLen

/-! ## The rank -/

/-- What is left to do for the bytes towards the server. -/
def System.requestWork (s : System Method Message) : ℕ :=
  4 * s.clientBuffer.length + 3 * s.toServer.length + s.server.rank

/-- What is left to do for the bytes towards the client. -/
def System.responseWork (s : System Method Message) : ℕ :=
  4 * s.serverBuffer.length + 3 * s.toClient.length + s.client.rank

/-- The ids that can still be given out, then the work on requests, each of which
may make a response, then the work on responses. -/
def System.rank (s : System Method Message) : ℕ ×ₗ ℕ ×ₗ ℕ :=
  toLex ((Int64.maxValue.toInt - s.client.requestId.toInt).toNat,
    toLex (s.requestWork, s.responseWork))

variable {server}

theorem rank_lt_of_ids {s t : System Method Message}
    (less : (Int64.maxValue.toInt - t.client.requestId.toInt).toNat <
      (Int64.maxValue.toInt - s.client.requestId.toInt).toNat) : t.rank < s.rank :=
  Prod.Lex.toLex_lt_toLex.mpr (.inl less)

theorem rank_lt_of_requests {s t : System Method Message}
    (ids : t.client.requestId = s.client.requestId) (less : t.requestWork < s.requestWork) :
    t.rank < s.rank := by
  apply Prod.Lex.toLex_lt_toLex.mpr
  refine .inr ⟨by rw [ids], Prod.Lex.toLex_lt_toLex.mpr (.inl less)⟩

theorem rank_lt_of_responses {s t : System Method Message}
    (ids : t.client.requestId = s.client.requestId) (requests : t.requestWork = s.requestWork)
    (less : t.responseWork < s.responseWork) : t.rank < s.rank := by
  apply Prod.Lex.toLex_lt_toLex.mpr
  refine .inr ⟨by rw [ids], Prod.Lex.toLex_lt_toLex.mpr (.inr ⟨requests, less⟩)⟩

/-- `recv_fn` of the client gives out no id and writes nothing. -/
theorem advance_frame {s t : ClientChannel Method Message}
    {protobuf : Protobuf Method Message} (taken : Client.advance protobuf s = some t) :
    t.requestId = s.requestId ∧ t.output = s.output := by
  obtain ⟨-, ⟨-, rfl⟩ | ⟨-, -, rfl⟩⟩ := Client.advance_cases protobuf taken
  · exact ⟨(proceed_sessions protobuf s).2.1, Client.output_proceed protobuf s⟩
  · exact ⟨rfl, rfl⟩

/-- What an `async_write` counts is what it puts on the wire. -/
theorem written_eq_length {content : Bytes} {results : List WriteResult} {outcome : WriteOutcome}
    (ends : ShortWriteEnds (needWrite content.length) results)
    (taken : asyncWrite content results = some outcome) :
    outcome.bytes.length = outcome.written := by
  obtain ⟨within, front⟩ := asyncWrite_front ends taken
  have lengths := congrArg List.length front
  rw [List.length_append, List.length_drop] at lengths
  omega

/-- A read of an open connection moves the bytes it finds, or changes nothing. -/
theorem Arrives.length_le {call : ReadCall} {inFlight : Bytes} (arrives : Arrives call inFlight) :
    call.outcome.bytes.length ≤ inFlight.length :=
  arrives.2.length_le

/-- **Every step that changes the system lowers its rank.** -/
theorem falls_step : Falls (step server) ShortWritesEnd System.rank := by
  intro s label t ends taken
  cases label with
  | call call =>
      right
      simp only [step, Option.map_eq_some_iff, Client.step, Option.ite_none_right_eq_some,
        sendRequest, Option.ite_none_left_eq_some, Option.some.injEq] at taken
      obtain ⟨client, ⟨-, small, rfl⟩, rfl⟩ := taken
      apply rank_lt_of_ids
      have above := Int64.lt_iff_toInt_lt.mp (lt_next_of_ne_max small)
      have below := (s.client.requestId + 1).toInt_lt
      have greatest : Int64.maxValue.toInt = 2 ^ 63 - 1 := rfl
      dsimp only
      omega
  | clientAdvance =>
      right
      simp only [step, Client.step, Option.map_eq_some_iff] at taken
      obtain ⟨client, taken, rfl⟩ := taken
      obtain ⟨ids, output⟩ := advance_frame taken
      have less := Client.ranked_advance server.protobuf _ _ taken
      apply rank_lt_of_responses ids
      · simp only [System.requestWork, System.clientBuffer, output]
      · simp only [System.responseWork, System.serverBuffer]
        omega
  | serverAdvance =>
      right
      simp only [step, Option.map_eq_some_iff] at taken
      obtain ⟨receiver, taken, rfl⟩ := taken
      have less := Server.ranked_advance server _ _ taken
      refine rank_lt_of_requests ?_ ?_
      · rfl
      · simp only [System.requestWork, System.clientBuffer]
        omega
  | clientRead call =>
      simp only [step, Client.step, Option.ite_none_right_eq_some, Option.map_eq_some_iff,
        Option.some.injEq] at taken
      obtain ⟨arrives, client, ⟨-, rfl⟩, rfl⟩ := taken
      by_cases nothing : call.outcome.bytes = []
      · left
        simp only [ClientChannel.deliver, nothing, arrives.1, LimitedQueue.append_nil,
          Bool.or_false, List.length_nil, List.drop_zero]
      · right
        have some_ := List.length_pos_iff.mpr nothing
        have within := arrives.length_le
        refine rank_lt_of_responses ?_ ?_ ?_
        · rfl
        · rfl
        · simp only [System.responseWork, System.serverBuffer, ClientChannel.rank,
            ClientChannel.deliver, LimitedQueue.size_append, List.length_drop]
          omega
  | serverRead call =>
      simp only [step, Option.ite_none_right_eq_some, Option.some.injEq] at taken
      obtain ⟨⟨arrives, -⟩, rfl⟩ := taken
      by_cases nothing : call.outcome.bytes = []
      · left
        simp only [Receiver.deliver, Receiver.append, Receiver.close, nothing, arrives.1,
          LimitedQueue.append_nil, Bool.or_false, List.length_nil, List.drop_zero]
      · right
        have some_ := List.length_pos_iff.mpr nothing
        have within := arrives.length_le
        refine rank_lt_of_requests ?_ ?_
        · rfl
        · simp only [System.requestWork, System.clientBuffer, Receiver.rank, Receiver.deliver,
            Receiver.append, Receiver.close, LimitedQueue.size_append, List.length_drop]
          omega
  | clientWrite results =>
      simp only [step, Option.map_eq_some_iff] at taken
      obtain ⟨outcome, taken, rfl⟩ := taken
      have counted := written_eq_length ends taken
      have within := (asyncWrite_front ends taken).1
      by_cases nothing : outcome.written = 0
      · left
        have none_ : outcome.bytes = [] := List.length_eq_zero_iff.mp (counted.trans nothing)
        simp only [nothing, none_, Nat.add_zero, List.append_nil]
      · right
        refine rank_lt_of_requests ?_ ?_
        · rfl
        · simp only [System.requestWork, System.clientBuffer, List.length_drop, List.length_append]
            at within ⊢
          omega
  | serverWrite results =>
      simp only [step, Option.map_eq_some_iff] at taken
      obtain ⟨outcome, taken, rfl⟩ := taken
      have counted := written_eq_length ends taken
      have within := (asyncWrite_front ends taken).1
      by_cases nothing : outcome.written = 0
      · left
        have none_ : outcome.bytes = [] := List.length_eq_zero_iff.mp (counted.trans nothing)
        simp only [nothing, none_, Nat.add_zero, List.append_nil]
      · right
        refine rank_lt_of_responses ?_ ?_ ?_
        · rfl
        · rfl
        · simp only [System.responseWork, System.serverBuffer, List.length_drop, List.length_append]
            at within ⊢
          omega

/-! ## Where the two ends rest -/

/-- A socket with room takes something from a buffer that is not stalled. -/
theorem exists_write {content : Bytes} (some_ : content ≠ [])
    (moves : 0 < needWrite content.length) :
    ∃ results outcome, ShortWriteEnds (needWrite content.length) results ∧
      asyncWrite content results = some outcome ∧ 0 < outcome.written := by
  have long := List.length_pos_iff.mpr some_
  have offered : (content.take maxOffered).length = min maxOffered content.length :=
    List.length_take
  refine ⟨[.accepted (min maxOffered content.length)],
    ⟨(content.take maxOffered).take (min maxOffered content.length) ++ [],
      min maxOffered content.length⟩, fun _ => trivial, ?_, ?_⟩
  · have loop : writeLoop (content.take maxOffered) (needWrite content.length) 0
        [.accepted (min maxOffered content.length)] =
        ⟨(content.take maxOffered).take (min maxOffered content.length) ++ [],
          min maxOffered content.length⟩ := by
      simp [writeLoop, moves]
    have accepts : Accepts (content.take maxOffered)
        [.accepted (min maxOffered content.length)] := by
      simp [Accepts, offered]
    simp only [asyncWrite, loop]
    rw [if_pos ⟨accepts, min_le_right ..⟩]
  · simp only [maxOffered]
    omega

/-- The coroutines of two ends at rest wait. -/
theorem advance_none_of_rest {s : System Method Message}
    (rests : AtRest (step server) Internal s) :
    server.advance s.server = none ∧ Client.advance server.protobuf s.client = none := by
  constructor
  · cases taken : server.advance s.server with
    | none => rfl
    | some receiver =>
        have same := rests .serverAdvance { s with server := receiver }
          ⟨trivial, by simp⟩ (by simp [step, taken])
        have less := Server.ranked_advance server _ _ taken
        have equal : receiver = s.server := congrArg System.server same
        rw [equal] at less
        exact absurd less (lt_irrefl _)
  · cases taken : Client.advance server.protobuf s.client with
    | none => rfl
    | some client =>
        have same := rests .clientAdvance { s with client }
          ⟨trivial, by simp⟩ (by simp [step, Client.step, taken])
        have less := Client.ranked_advance server.protobuf _ _ taken
        have equal : client = s.client := congrArg System.client same
        rw [equal] at less
        exact absurd less (lt_irrefl _)

/-- A buffer that two ends at rest have left is stalled. -/
theorem buffers_of_rest {s : System Method Message} (rests : AtRest (step server) Internal s) :
    (s.clientBuffer = [] ∨ StalledBuffer s.clientBuffer) ∧
      (s.serverBuffer = [] ∨ StalledBuffer s.serverBuffer) := by
  constructor
  · by_contra both
    rw [not_or] at both
    have moves : 0 < needWrite s.clientBuffer.length := by
      by_contra none_
      exact both.2 ⟨both.1, not_lt.mp none_⟩
    obtain ⟨results, outcome, ends, taken, written⟩ := exists_write both.1 moves
    have same := rests (.clientWrite results) _ ⟨ends, by simp⟩ (by simp only [step, taken]; rfl)
    have sent := congrArg System.clientSent same
    dsimp only at sent
    omega
  · by_contra both
    rw [not_or] at both
    have moves : 0 < needWrite s.serverBuffer.length := by
      by_contra none_
      exact both.2 ⟨both.1, not_lt.mp none_⟩
    obtain ⟨results, outcome, ends, taken, written⟩ := exists_write both.1 moves
    have same := rests (.serverWrite results) _ ⟨ends, by simp⟩ (by simp only [step, taken]; rfl)
    have sent := congrArg System.serverSent same
    dsimp only at sent
    omega

/-- All bytes in flight can be read at once. -/
theorem arrives_all (inFlight : Bytes) : Arrives (.ofBytes inFlight) inFlight := by
  simp [Arrives]

/-- Two ends at rest have read everything. -/
theorem in_flight_of_rest {s : System Method Message} (rests : AtRest (step server) Internal s)
    (serverRuns : ¬ s.server.Ended) (clientRuns : ¬ s.client.Ended) :
    s.toServer = [] ∧ s.toClient = [] := by
  obtain ⟨serverWaits, clientWaits⟩ := advance_none_of_rest rests
  constructor
  · have same := rests (.serverRead (.ofBytes s.toServer)) _ ⟨trivial, by simp⟩
      (by simp only [step, arrives_all, serverWaits, Option.isNone_none, serverRuns,
        not_false_eq_true, and_self, ↓reduceIte]; rfl)
    have left := congrArg System.toServer same
    simp only [outcome_ofBytes, List.drop_length] at left
    exact left.symm
  · have same := rests (.clientRead (.ofBytes s.toClient)) _ ⟨trivial, by simp⟩
      (by simp only [step, Client.step, arrives_all, clientWaits, Option.isNone_none, clientRuns,
        not_false_eq_true, and_self, ↓reduceIte, Option.map_some]; rfl)
    have left := congrArg System.toClient same
    simp only [outcome_ofBytes, List.drop_length] at left
    exact left.symm

/-- A server that waits with everything read has no request in front of it. -/
theorem waiting_nil {s : Receiver Method Message} {waiting : List (Exchange server)}
    (waits : server.advance s = none) (at_ : ServerAt s.phase waiting s.queue.content) :
    waiting = [] ∧ s.phase = .headerLen ∧ s.queue.content = [] := by
  have running : ¬ s.Ended := by
    intro ended
    cases phase : s.phase with
    | stopped reason => simp [ServerAt, phase] at at_
    | headerLen | header length | requestLen header | request header service method length =>
        simp [Receiver.Ended, phase] at ended
  have short : s.queue.content.length < s.phase.needs := by
    by_contra enough
    rw [Server.advance_of_enough server running (not_lt.mp enough)] at waits
    cases waits
  cases phase : s.phase with
  | headerLen =>
      simp only [phase, ServerAt] at at_
      cases waiting with
      | nil => exact ⟨rfl, rfl, at_⟩
      | cons x rest =>
          simp only [phase, Server.Phase.needs, at_, List.flatMap_cons, Exchange.requestBytes,
            List.length_append, length_frame] at short
          omega
  | header headerLen =>
      cases waiting with
      | nil => simp [phase, ServerAt] at at_
      | cons x rest =>
          obtain ⟨rfl, at_⟩ : _ ∧ _ := by simpa only [phase, ServerAt] using at_
          simp only [phase, Server.Phase.needs, at_, List.length_append] at short
          omega
  | requestLen header =>
      cases waiting with
      | nil => simp [phase, ServerAt] at at_
      | cons x rest =>
          obtain ⟨-, at_⟩ : _ ∧ _ := by simpa only [phase, ServerAt] using at_
          simp only [phase, Server.Phase.needs, at_, List.length_append,
            LittleEndian.length_encode] at short
          omega
  | request header service method requestLen =>
      cases waiting with
      | nil => simp [phase, ServerAt] at at_
      | cons x rest =>
          obtain ⟨-, -, -, rfl, at_⟩ : _ ∧ _ ∧ _ ∧ _ ∧ _ := by
            simpa only [phase, ServerAt] using at_
          simp only [phase, Server.Phase.needs, at_, List.length_append] at short
          omega
  | stopped reason => exact (running (by simp [Receiver.Ended, phase])).elim

/-- A client that waits with everything read has no response in front of it. -/
theorem inFlight_nil {s : ClientChannel Method Message} {inFlight : List (Exchange server)}
    (waits : Client.advance server.protobuf s = none)
    (at_ : ClientAt s.phase inFlight s.queue.content) :
    inFlight = [] ∧ s.phase = .headerLen ∧ s.queue.content = [] := by
  have running : ¬ s.Ended := by
    intro ended
    cases phase : s.phase with
    | stopped reason => simp [ClientAt, phase] at at_
    | headerLen | header length | responseLen header | response header length =>
        simp [ClientChannel.Ended, phase] at ended
  have short : s.queue.content.length < s.phase.needs := by
    by_contra enough
    rw [Client.advance_of_enough server.protobuf running (not_lt.mp enough)] at waits
    cases waits
  cases phase : s.phase with
  | headerLen =>
      simp only [phase, ClientAt] at at_
      cases inFlight with
      | nil => exact ⟨rfl, rfl, at_⟩
      | cons x rest =>
          simp only [phase, Client.Phase.needs, at_, List.flatMap_cons, Exchange.responseBytes,
            List.length_append, length_frame] at short
          omega
  | header headerLen =>
      cases inFlight with
      | nil => simp [phase, ClientAt] at at_
      | cons x rest =>
          obtain ⟨rfl, at_⟩ : _ ∧ _ := by simpa only [phase, ClientAt] using at_
          simp only [phase, Client.Phase.needs, at_, List.length_append] at short
          omega
  | responseLen header =>
      cases inFlight with
      | nil => simp [phase, ClientAt] at at_
      | cons x rest =>
          obtain ⟨-, at_⟩ : _ ∧ _ := by simpa only [phase, ClientAt] using at_
          simp only [phase, Client.Phase.needs, at_, List.length_append,
            LittleEndian.length_encode] at short
          omega
  | response header responseLen =>
      cases inFlight with
      | nil => simp [phase, ClientAt] at at_
      | cons x rest =>
          obtain ⟨-, rfl, at_⟩ : _ ∧ _ ∧ _ := by simpa only [phase, ClientAt] using at_
          simp only [phase, Client.Phase.needs, at_, List.length_append] at short
          omega
  | stopped reason => exact (running (by simp [ClientChannel.Ended, phase])).elim

theorem serverAt_running {phase : Server.Phase Method Message} {waiting : List (Exchange server)}
    {bytes : Bytes} (at_ : ServerAt phase waiting bytes) (reason : Server.StopReason) :
    phase ≠ .stopped reason := by
  rintro rfl
  simp [ServerAt] at at_

theorem clientAt_running {phase : Client.Phase} {inFlight : List (Exchange server)}
    {bytes : Bytes} (at_ : ClientAt phase inFlight bytes) (reason : Client.StopReason) :
    phase ≠ .stopped reason := by
  rintro rfl
  simp [ClientAt] at at_

/-- **At rest, every call is completed**, or a write buffer is stalled. -/
theorem completed_of_rest {s : System Method Message} (explained : Explained server s)
    (rests : AtRest (step server) Internal s) (moves : ¬ Stalled s) : Completed server s := by
  have agrees := agreement_of_explained explained
  obtain ⟨answered, inFlight, waiting, linked⟩ := explained
  have serverRuns : ¬ s.server.Ended := by
    intro ended
    cases phase : s.server.phase with
    | stopped reason => exact serverAt_running linked.serverAt reason phase
    | headerLen | header length | requestLen header | request header service method length =>
        simp [Receiver.Ended, phase] at ended
  have clientRuns : ¬ s.client.Ended := by
    intro ended
    cases phase : s.client.phase with
    | stopped reason => exact clientAt_running linked.clientAt reason phase
    | headerLen | header length | responseLen header | response header length =>
        simp [ClientChannel.Ended, phase] at ended
  obtain ⟨serverWaits, clientWaits⟩ := advance_none_of_rest rests
  obtain ⟨toServer, toClient⟩ := in_flight_of_rest rests serverRuns clientRuns
  have clientBuffer := (buffers_of_rest rests).1.resolve_right fun stalled => moves (.inl stalled)
  have serverBuffer := (buffers_of_rest rests).2.resolve_right fun stalled => moves (.inr stalled)
  have serverAt := linked.serverAt
  have clientAt := linked.clientAt
  rw [toServer, clientBuffer, List.append_nil, List.append_nil] at serverAt
  rw [toClient, serverBuffer, List.append_nil, List.append_nil] at clientAt
  obtain ⟨rfl, serverPhase, serverRead⟩ := waiting_nil serverWaits serverAt
  obtain ⟨rfl, clientPhase, clientRead⟩ := inFlight_nil clientWaits clientAt
  have deliveries : s.client.deliveries = answered.map Exchange.delivery := by
    simp [ClientChannel.deliveries, linked.handled, List.filterMap_map]
  refine ⟨agrees, ?_, ?_, ⟨clientBuffer, toServer, serverRead⟩,
    ⟨serverBuffer, toClient, clientRead⟩, ⟨serverPhase, clientPhase⟩⟩
  · rw [deliveries, linked.issued, List.append_nil, List.append_nil, List.map_map, List.map_map]
    rfl
  · intro requestId
    cases found : s.client.sessionRegistry requestId with
    | none => rfl
    | some session =>
        obtain ⟨x, member, -⟩ := (linked.registry _ _).mp found
        cases member

/-- Two ends that wait, with nothing buffered for output and nothing in flight, rest. -/
theorem rest_of_nothing {s : System Method Message} (serverWaits : server.advance s.server = none)
    (clientWaits : Client.advance server.protobuf s.client = none)
    (clientBuffer : s.clientBuffer = []) (serverBuffer : s.serverBuffer = [])
    (toServer : s.toServer = []) (toClient : s.toClient = []) :
    AtRest (step server) Internal s := by
  intro label t allows taken
  have nothing : t = s ∨ t.rank < s.rank := falls_step s label t allows.1 taken
  refine nothing.resolve_right ?_
  cases label with
  | call call => exact absurd rfl (allows.2 call)
  | clientAdvance => simp [step, Client.step, clientWaits] at taken
  | serverAdvance => simp [step, serverWaits] at taken
  | clientRead call =>
      simp only [step, Client.step, Option.ite_none_right_eq_some, Option.map_eq_some_iff,
        Option.some.injEq] at taken
      obtain ⟨arrives, client, ⟨-, rfl⟩, rfl⟩ := taken
      have none_ : call.outcome.bytes = [] := by simpa [toClient] using arrives.2
      simp [ClientChannel.deliver, none_, arrives.1]
  | serverRead call =>
      simp only [step, Option.ite_none_right_eq_some, Option.some.injEq] at taken
      obtain ⟨⟨arrives, -⟩, rfl⟩ := taken
      have none_ : call.outcome.bytes = [] := by simpa [toServer] using arrives.2
      simp [Receiver.deliver, Receiver.append, Receiver.close, none_, arrives.1]
  | clientWrite results =>
      simp only [step, Option.map_eq_some_iff] at taken
      obtain ⟨outcome, taken, rfl⟩ := taken
      have counted := written_eq_length allows.1 taken
      have within := (asyncWrite_front allows.1 taken).1
      rw [clientBuffer, List.length_nil, Nat.le_zero] at within
      have none_ : outcome.bytes = [] := List.length_eq_zero_iff.mp (counted.trans within)
      simp [within, none_]
  | serverWrite results =>
      simp only [step, Option.map_eq_some_iff] at taken
      obtain ⟨outcome, taken, rfl⟩ := taken
      have counted := written_eq_length allows.1 taken
      have within := (asyncWrite_front allows.1 taken).1
      rw [serverBuffer, List.length_nil, Nat.le_zero] at within
      have none_ : outcome.bytes = [] := List.length_eq_zero_iff.mp (counted.trans within)
      simp [within, none_]

/-- **Every fair run completes every call.** It comes to a state in which it stays,
and there every call that was ever made is completed. Fair is a run in which, as long
as a step of one of the two ends could change something, something is changed later;
and no write buffer may be stalled for ever. -/
theorem calls_complete {states : ℕ → System Method Message} {labels : ℕ → SystemStep Method Message}
    (start : states 0 = .init) (endless : Endless (step server) ShortWritesEnd states labels)
    (served : ∀ n call, labels n = .call call → ∃ service, Serves server call service)
    (fair : Fair (step server) Internal states)
    (moves : ∀ n, ∃ m ≥ n, ¬ Stalled (states m)) :
    ∃ n, Completed server (states n) ∧ ∀ m ≥ n, states m = states n := by
  have explained : ∀ n, Explained server (states n) := by
    intro n
    induction n with
    | zero => exact start ▸ explained_init
    | succ n ih => exact explained_step ih (endless n).1 (served n) (endless n).2
  obtain ⟨n, rests, constant⟩ := endless.eventually_atRest falls_step fair
  obtain ⟨m, later, runs⟩ := moves n
  rw [constant m later] at runs
  exact ⟨n, completed_of_rest (explained n) rests runs, constant⟩

/-- **No state is a dead end.** From every state of a run of served calls, some steps
of the two ends complete every call or leave a write buffer stalled. -/
theorem completion_reachable {labels : List (SystemStep Method Message)}
    {s : System Method Message} (served : CallsServed server labels)
    (run : exec (step server) .init labels = some s)
    (ends : Along (step server) ShortWritesEnd .init labels) :
    ∃ more t, exec (step server) s more = some t ∧ Along (step server) Internal s more ∧
      (Completed server t ∨ Stalled t) := by
  have calls : Along (step server) (fun _ label => ∀ call, label = .call call →
      ∃ service, Serves server call service) .init labels := by
    refine along_of_forall_mem ?_ _
    rintro _ member call rfl
    exact served call member
  have explained : Explained server s :=
    exec_invariant (fun _ _ _ explained allowed taken =>
      explained_step explained allowed.1 allowed.2 taken) explained_init run (along_and ends calls)
  have falls : Falls (step server) Internal System.rank := fun s label t allows taken =>
    falls_step s label t allows.1 taken
  obtain ⟨more, t, steps, along, rests⟩ := exists_atRest falls s
  refine ⟨more, t, steps, along, ?_⟩
  have kept : Explained server t := by
    refine exec_invariant (fun _ _ _ explained allowed taken => ?_) explained steps along
    exact explained_step explained allowed.1 (fun call same => absurd same (allowed.2 call)) taken
  by_cases stalled : Stalled t
  · exact .inr stalled
  · exact .inl (completed_of_rest kept rests stalled)

/-- One call, whose request is cut on its way, and its answer. -/
def hiRun : List (SystemStep Example.EchoMethod Example.EchoMessage) :=
  [.call hiCall, .clientWrite [.accepted 9, .again],
    .serverRead (.ofBytes (Example.hiRequest.take 9)), .serverAdvance,
    .clientWrite [.interrupted, .accepted 32],
    .serverRead (.ofBytes (Example.hiRequest.drop 9)), .serverAdvance, .serverAdvance,
    .serverAdvance, .serverWrite [.accepted (hiAnswer 0).length],
    .clientRead (.ofBytes (hiAnswer 0)), .clientAdvance, .clientAdvance, .clientAdvance,
    .clientAdvance]

/-- After the answer the client reads on, and finds nothing any more. -/
theorem calls_complete_of_cut :
    ∃ states labels, labels 0 = .call hiCall ∧
      Endless (step Example.echoServer) ShortWritesEnd states labels ∧
        ∃ n, Completed Example.echoServer (states n) ∧ ∀ m ≥ n, states m = states n := by
  have runs : ∃ s ∈ exec (step Example.echoServer) .init hiRun,
      Example.echoServer.advance s.server = none ∧
        Client.advance Example.echoServer.protobuf s.client = none ∧ s.clientBuffer = [] ∧
        s.serverBuffer = [] ∧ s.toServer = [] ∧ s.toClient = [] ∧ ¬ s.client.Ended := by
    decide +kernel
  obtain ⟨s, run, serverWaits, clientWaits, clientBuffer, serverBuffer, toServer, toClient,
    running⟩ := runs
  have moves : ¬ Stalled s := by simp [Stalled, StalledBuffer, clientBuffer, serverBuffer]
  have idles : step Example.echoServer s (.clientRead ⟨1, []⟩) = some s := by
    have arrives : Arrives ⟨1, []⟩ s.toClient := by simp [Arrives, ReadCall.outcome, readLoop]
    simp [step, Client.step, arrives, clientWaits, running, ClientChannel.deliver,
      ReadCall.outcome, readLoop]
  have along : Along (step Example.echoServer)
      (fun s label => ShortWritesEnd s label ∧ ¬ Stalled s) .init hiRun := by
    decide +kernel
  have allows : ShortWritesEnd s (.clientRead ⟨1, []⟩) ∧ ¬ Stalled s := ⟨trivial, moves⟩
  obtain ⟨states, endless, start, ends⟩ := exists_endless run along allows idles
  have fair : Fair (step Example.echoServer) Internal states :=
    fair_of_ends ends (rest_of_nothing serverWaits clientWaits clientBuffer serverBuffer toServer
      toClient)
  refine ⟨states, _, rfl, fun n => ⟨(endless n).1.1, (endless n).2⟩, calls_complete start
    (fun n => ⟨(endless n).1.1, (endless n).2⟩) ?_ fair fun n => ⟨n, le_rfl, (endless n).1.2⟩⟩
  intro n call same
  have served : CallsServed Example.echoServer (hiRun ++ [.clientRead ⟨1, []⟩]) :=
    callsServed_of_hiCall (by simp [hiRun])
  refine served call ?_
  rw [← same, List.getD_eq_getElem?_getD]
  cases found : hiRun[n]? with
  | none => exact List.mem_append_right _ (List.mem_singleton_self _)
  | some label => exact List.mem_append_left _ (List.mem_of_getElem? found)

/-- While the request is cut, its call can still be completed. -/
theorem completion_reachable_of_cut :
    ∃ s more t, exec (step Example.echoServer) .init (hiRun.take 2) = some s ∧
      exec (step Example.echoServer) s more = some t ∧
        (Completed Example.echoServer t ∨ Stalled t) := by
  obtain ⟨s, run⟩ : ∃ s, exec (step Example.echoServer) .init (hiRun.take 2) = some s :=
    Option.isSome_iff_exists.mp (by decide +kernel)
  obtain ⟨more, t, steps, -, completed⟩ := completion_reachable
    (callsServed_of_hiCall (by simp [hiRun])) run (by decide +kernel)
  exact ⟨s, more, t, run, steps, completed⟩

end Drpc.EndToEnd
