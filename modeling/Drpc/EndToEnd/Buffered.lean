import Drpc.Library.Simulation
import Drpc.EndToEnd.Agreement
import Drpc.Client.Buffered
import Drpc.Server.Buffered

/-! # Both ends on their buffers

The system of a channel and a server whose read and write buffers are chains of blocks.
Every run of it is a run of the system on ideal queues (`buffered_simulates`), so that
calls and responses agree there too (`buffered_calls_agree`). What the code needs for this
is that the messages of the calls are shorter than a limit can say, and that each frame
fits in the tail of the write buffer it goes into.
-/

namespace Drpc.EndToEnd

open Proto Net Util Transition Client Server

variable {Method Message : Type}

/-- Both ends on their buffers, and the bytes in flight. -/
structure BufferedSystem (Method Message : Type) where
  client : BufferedChannel Method Message
  server : BufferedReceiver Method Message
  toServer : Bytes
  toClient : Bytes

/-- A new connection; the four buffers come with any memory. -/
def BufferedSystem.init (memory : Fin 4 → Ptr → Nat → UInt8) : BufferedSystem Method Message where
  client := .init (memory 0) (memory 1)
  server := .init (memory 2) (memory 3)
  toServer := []
  toClient := []

/-- What happens at one of the two ends. -/
inductive BufferedStep (Method Message : Type) where
  | call (call : Call Method Message)
  | clientRead (results : List ReadResult)
  | clientAdvance
  | clientWrite (results : List WriteResult)
  | serverRead (results : List ReadResult)
  | serverAdvance
  | serverWrite (results : List WriteResult)

/-- The results of a read of an open connection: its bytes are the first in flight. -/
def Arriving (results : List ReadResult) (inFlight : Bytes) : Prop :=
  (∀ result ∈ results, result ≠ .eof ∧ result ≠ .failed) ∧ bytesOf results <+: inFlight

instance decidableArriving (results : List ReadResult) (inFlight : Bytes) :
    Decidable (Arriving results inFlight) :=
  inferInstanceAs (Decidable (_ ∧ _))

variable (server : RpcServer Method Message) (asks : Nat → Bytes → Nat)

/-- One step of the system. While a coroutine can go on, no closure runs at its end. -/
def bufferedStep (s : BufferedSystem Method Message) :
    BufferedStep Method Message → Option (BufferedSystem Method Message)
  | .call call =>
      if s.client.Awaits ∨ s.client.Ended then
        (sendRequestOn server.protobuf s.client call).map fun client => { s with client }
      else none
  | .clientRead results =>
      if Arriving results s.toClient then
        (s.client.read results).map fun client =>
          { s with client, toClient := s.toClient.drop (bytesOf results).length }
      else none
  | .clientAdvance =>
      (advanceOn server.protobuf asks s.client).map fun client => { s with client }
  | .clientWrite results =>
      (s.client.writeBuf.asyncWrite results).map fun (writeBuf, outcome) =>
        { s with
          client := { s.client with writeBuf }
          toServer := s.toServer ++ outcome.bytes }
  | .serverRead results =>
      if Arriving results s.toServer then
        (s.server.read results).map fun server =>
          { s with server, toServer := s.toServer.drop (bytesOf results).length }
      else none
  | .serverAdvance => (server.advanceOn asks s.server).map fun server => { s with server }
  | .serverWrite results =>
      (s.server.writeBuf.asyncWrite results).map fun (writeBuf, outcome) =>
        { s with
          server := { s.server with writeBuf }
          toClient := s.toClient ++ outcome.bytes }

/-- Every message of the call is shorter than `push_limit` can say. -/
structure ShortCall (call : Call Method Message) : Prop where
  request_header : ∀ requestId,
    (server.protobuf.serializeHeader (requestHeader server.protobuf call requestId)).length <
      2 ^ 31 - 1
  request : (server.protobuf.serialize call.request).length < 2 ^ 31 - 1
  response_header : ∀ requestId,
    (server.protobuf.serializeHeader (responseHeader requestId)).length < 2 ^ 31 - 1
  response : ∀ service ∈ server.serviceRegistry (server.protobuf.serviceName call.method),
    (server.protobuf.serialize (service.callMethod call.method call.request)).length < 2 ^ 31 - 1

/-- The frame of a call fits, and so does the frame of a response. A kernel gives no more
than the view has room for, and takes nothing more after a short write. -/
def Steady (s : BufferedSystem Method Message) : BufferedStep Method Message → Prop
  | .call call => RequestFits server.protobuf s.client call
  | .clientRead results => ∀ view ∈ s.client.readBuf.writeView 4096, Answers view.2.2 results
  | .clientAdvance => True
  | .clientWrite results => ShortWriteEnds (needWrite s.client.writeBuf.totalSize) results
  | .serverRead results => ∀ view ∈ s.server.readBuf.writeView 4096, Answers view.2.2 results
  | .serverAdvance => server.ResponseFits s.server
  | .serverWrite results => ShortWriteEnds (needWrite s.server.writeBuf.totalSize) results

instance decidableSteady (s : BufferedSystem Method Message) :
    ∀ label, Decidable (Steady server s label)
  | .call call => inferInstanceAs (Decidable (RequestFits server.protobuf s.client call))
  | .clientRead _ | .serverRead _ => inferInstanceAs (Decidable (∀ view ∈ _, _))
  | .clientAdvance => .isTrue trivial
  | .clientWrite _ | .serverWrite _ => inferInstanceAs (Decidable (ShortWriteEnds _ _))
  | .serverAdvance => inferInstanceAs (Decidable (server.ResponseFits s.server))

/-- The calls of a run are served and short. -/
def ShortCallsServed (labels : List (BufferedStep Method Message)) : Prop :=
  ∀ call, .call call ∈ labels → (∃ service, Serves server call service) ∧ ShortCall server call

/-- What the steps keep to. -/
def Sound (s : BufferedSystem Method Message) (label : BufferedStep Method Message) : Prop :=
  Steady server s label ∧ ∀ call, label = .call call →
    (∃ service, Serves server call service) ∧ ShortCall server call

/-- What the steps of the ideal system keep to. -/
def Admitted (s : System Method Message) (label : SystemStep Method Message) : Prop :=
  ShortWritesEnd s label ∧ ∀ call, label = .call call →
    (∃ service, Serves (server.onBuffers asks) call service) ∧ ShortCall server call

/-- The buffers of both ends are the ideal ones. -/
structure BufferedSystem.Refines (s : BufferedSystem Method Message) (t : System Method Message) :
    Prop where
  client : s.client.Refines t.client t.clientSent
  server : s.server.Refines t.server t.serverSent
  toServer : s.toServer = t.toServer
  toClient : s.toClient = t.toClient

/-- Beside it, the ideal state is explained by its calls, which are short. -/
structure BufferedSystem.Related (s : BufferedSystem Method Message) (t : System Method Message) :
    Prop where
  refines : s.Refines t
  explained : Explained (server.onBuffers asks) t
  short : ∀ entry ∈ t.client.issued, ShortCall server entry.2

variable {server asks} {s next : BufferedSystem Method Message} {t : System Method Message}

theorem related_init (memory : Fin 4 → Ptr → Nat → UInt8) :
    (BufferedSystem.init memory : BufferedSystem Method Message).Related server asks .init where
  refines := ⟨Client.refines_init (memory 0) (memory 1), Server.refines_init (memory 2) (memory 3),
    rfl, rfl⟩
  explained := explained_init
  short := by simp [System.init, ClientChannel.init]

/-- The parser of the buffers serves the same calls. -/
theorem serves_onBuffers {call : Call Method Message} {service : Service Method Message}
    (serves : Serves server call service) : Serves (server.onBuffers asks) call service where
  registered := serves.registered
  found := serves.found
  request_header := serves.request_header
  request_header_fits := serves.request_header_fits
  request := serves.request
  request_fits := serves.request_fits
  response_header := serves.response_header
  response_header_fits := serves.response_header_fits
  response := serves.response
  response_fits := serves.response_fits

/-! ## The announced lengths are limits -/

namespace BufferedSystem.Related

/-- The calls under way are short. -/
theorem shortCall {answered inFlight waiting : List (Exchange (server.onBuffers asks))}
    (related : s.Related server asks t) (linked : Linked t answered inFlight waiting)
    {x : Exchange (server.onBuffers asks)} (member : x ∈ inFlight ++ waiting) :
    ShortCall server x.call := by
  apply related.short (x.requestId, x.call)
  rw [linked.issued]
  refine List.mem_map.mpr ⟨x, ?_, rfl⟩
  rw [List.append_assoc]
  exact List.mem_append_right _ member

/-- A length the server waits for is that of a message of the first waiting call. -/
theorem server_bounded (related : s.Related server asks t) : s.server.phase.Bounded := by
  obtain ⟨answered, inFlight, waiting, linked⟩ := related.explained
  have stands := linked.serverAt
  rw [related.refines.server.phase]
  unfold ServerAt at stands
  cases phase : t.server.phase with
  | headerLen | requestLen header | stopped reason => trivial
  | header headerLen =>
      cases waiting with
      | nil => simp only [phase] at stands
      | cons x rest =>
          simp only [phase] at stands
          rw [stands.1]
          exact (related.shortCall linked (x := x) (by simp)).request_header x.requestId
  | request header service method requestLen =>
      cases waiting with
      | nil => simp only [phase] at stands
      | cons x rest =>
          simp only [phase] at stands
          rw [stands.2.2.2.1]
          exact (related.shortCall linked (x := x) (by simp)).request

/-- A length the client waits for is that of a message of the first response in flight. -/
theorem client_bounded (related : s.Related server asks t) : s.client.phase.Bounded := by
  obtain ⟨answered, inFlight, waiting, linked⟩ := related.explained
  have stands := linked.clientAt
  rw [related.refines.client.phase]
  unfold ClientAt at stands
  cases phase : t.client.phase with
  | headerLen | responseLen header | stopped reason => trivial
  | header headerLen =>
      cases inFlight with
      | nil => simp only [phase] at stands
      | cons x rest =>
          simp only [phase] at stands
          rw [stands.1]
          exact (related.shortCall linked (x := x) (by simp)).response_header x.requestId
  | response header responseLen =>
      cases inFlight with
      | nil => simp only [phase] at stands
      | cons x rest =>
          simp only [phase] at stands
          rw [stands.2.1]
          exact (related.shortCall linked (x := x) (by simp)).response x.service x.serves.registered

end BufferedSystem.Related

/-! ## One step -/

/-- Only a closure issues a call. -/
theorem issued_step {server : RpcServer Method Message} {s t : System Method Message}
    {label : SystemStep Method Message} (taken : step server s label = some t) :
    ∀ entry ∈ t.client.issued, entry ∈ s.client.issued ∨ label = .call entry.2 := by
  cases label with
  | call call =>
      simp only [step, Option.map_eq_some_iff, Client.step, Option.ite_none_right_eq_some,
        sendRequest, Option.ite_none_left_eq_some, Option.some.injEq] at taken
      obtain ⟨client, ⟨-, -, rfl⟩, rfl⟩ := taken
      intro entry member
      rcases List.mem_append.mp member with old | new
      · exact .inl old
      · obtain rfl := List.mem_singleton.mp new
        exact .inr rfl
  | clientRead call =>
      simp only [step, Client.step, Option.ite_none_right_eq_some, Option.map_eq_some_iff,
        Option.some.injEq] at taken
      obtain ⟨-, client, ⟨-, rfl⟩, rfl⟩ := taken
      exact fun entry => .inl
  | clientAdvance =>
      obtain ⟨client, advanced, rfl⟩ := Option.map_eq_some_iff.mp taken
      obtain ⟨-, ⟨-, rfl⟩ | ⟨-, -, rfl⟩⟩ := Client.advance_cases _ advanced
      · intro entry member
        dsimp only at member
        rw [(proceed_sessions server.protobuf s.client).1] at member
        exact .inl member
      · exact fun entry => .inl
  | clientWrite results | serverWrite results =>
      obtain ⟨outcome, -, rfl⟩ := Option.map_eq_some_iff.mp taken
      exact fun entry => .inl
  | serverRead call =>
      simp only [step, Option.ite_none_right_eq_some, Option.some.injEq] at taken
      obtain ⟨-, rfl⟩ := taken
      exact fun entry => .inl
  | serverAdvance =>
      obtain ⟨receiver, -, rfl⟩ := Option.map_eq_some_iff.mp taken
      exact fun entry => .inl

/-- An admitted step of the ideal system that leads to the ideal buffers keeps the two
systems related. -/
theorem BufferedSystem.Related.of_step (related : s.Related server asks t)
    {label : SystemStep Method Message} {after : System Method Message}
    (taken : step (server.onBuffers asks) t label = some after)
    (admitted : Admitted server asks t label) (refines : next.Refines after) :
    next.Related server asks after where
  refines := refines
  explained := explained_step related.explained admitted.1
    (fun call same => (admitted.2 call same).1) taken
  short entry member := by
    rcases issued_step taken entry member with old | new
    · exact related.short entry old
    · exact (admitted.2 entry.2 new).2

/-- What a read takes from the bytes in flight. -/
theorem arrives_of_arriving {results : List ReadResult} {inFlight : Bytes} {space : Nat}
    (arriving : Arriving results inFlight) (answers : Answers space results) :
    (⟨space, results⟩ : ReadCall).outcome.bytes = bytesOf results ∧
      Arrives ⟨space, results⟩ inFlight := by
  have bytes : (⟨space, results⟩ : ReadCall).outcome.bytes = bytesOf results :=
    ChainedBuffer.bytes_readLoop answers
  refine ⟨bytes, ChainedBuffer.closes_readLoop arriving.1, ?_⟩
  rw [bytes]
  exact arriving.2

namespace BufferedSystem.Related

theorem call (related : s.Related server asks t) {call : Call Method Message}
    (steady : Steady server s (.call call))
    (taken : bufferedStep server asks s (.call call) = some next) :
    ∃ after, step (server.onBuffers asks) t (.call call) = some after ∧ next.Refines after := by
  simp only [bufferedStep, Option.ite_none_right_eq_some, Option.map_eq_some_iff] at taken
  obtain ⟨rests, client, sent, rfl⟩ := taken
  have refines := related.refines
  obtain ⟨after, ideal, refined⟩ := Client.refines_sendRequest refines.client steady sent
  have waits : Client.advance (server.onBuffers asks).protobuf t.client = none := by
    rcases rests with awaits | ended
    · exact ((refines.client.awaits_iff _).mp awaits).2
    · exact Client.advance_of_ended _ (refines.client.ended_iff.mp ended)
  refine ⟨{ t with client := after }, ?_, refined, refines.server, refines.toServer,
    refines.toClient⟩
  simp only [step, Client.step, waits, Option.isNone_none, ↓reduceIte]
  change Option.map _ (sendRequest server.protobuf t.client call) = _
  rw [ideal]
  rfl

theorem clientRead (related : s.Related server asks t) {results : List ReadResult}
    (steady : Steady server s (.clientRead results))
    (taken : bufferedStep server asks s (.clientRead results) = some next) :
    ∃ call after, step (server.onBuffers asks) t (.clientRead call) = some after ∧
      next.Refines after := by
  simp only [bufferedStep, Option.ite_none_right_eq_some, Option.map_eq_some_iff] at taken
  obtain ⟨arriving, client, read, rfl⟩ := taken
  have refines := related.refines
  obtain ⟨running, waits, view, shown, refined⟩ :=
    Client.refines_read refines.client (server.onBuffers asks).protobuf read steady
  rw [refines.toClient] at arriving
  obtain ⟨bytes, arrives⟩ := arrives_of_arriving arriving (steady view shown)
  refine ⟨⟨view.2.2, results⟩, { t with
    client := t.client.deliver ⟨view.2.2, results⟩
    toClient := t.toClient.drop (bytesOf results).length }, ?_, refined, refines.server,
    refines.toServer, congrArg (List.drop (bytesOf results).length) refines.toClient⟩
  simp only [step, Client.step, arrives, waits, running, Option.isNone_none, not_false_eq_true,
    and_self, ↓reduceIte, Option.map_some, bytes]

theorem clientAdvance (related : s.Related server asks t)
    (taken : bufferedStep server asks s .clientAdvance = some next) :
    ∃ after, step (server.onBuffers asks) t .clientAdvance = some after ∧ next.Refines after := by
  obtain ⟨client, advanced, rfl⟩ := Option.map_eq_some_iff.mp taken
  have refines := related.refines
  obtain ⟨after, ideal, refined⟩ :=
    Client.refines_advance refines.client related.client_bounded advanced
  refine ⟨{ t with client := after }, ?_, refined, refines.server, refines.toServer,
    refines.toClient⟩
  exact Option.map_eq_some_iff.mpr ⟨after, ideal, rfl⟩

theorem clientWrite (related : s.Related server asks t) {results : List WriteResult}
    (steady : Steady server s (.clientWrite results))
    (taken : bufferedStep server asks s (.clientWrite results) = some next) :
    ShortWritesEnd t (.clientWrite results) ∧
      ∃ after, step (server.onBuffers asks) t (.clientWrite results) = some after ∧
        next.Refines after := by
  obtain ⟨⟨writeBuf, outcome⟩, wrote, rfl⟩ := Option.map_eq_some_iff.mp taken
  have refines := related.refines
  obtain ⟨before, last, stores⟩ := refines.client.writeBuf
  have ends : ShortWriteEnds (needWrite t.clientBuffer.length) results := by
    have total : s.client.writeBuf.totalSize = t.clientBuffer.length := stores.totalSize
    rw [← total]
    exact steady
  obtain ⟨ideal, within, -, front, back, stored⟩ := stores.asyncWrite ends wrote
  rw [List.length_drop] at within
  have sent := refines.client.sent
  refine ⟨ends, _, Option.map_eq_some_iff.mpr ⟨outcome, ideal, rfl⟩, ?_, refines.server,
    congrArg (· ++ outcome.bytes) refines.toServer, refines.toClient⟩
  refine { refines.client with writeBuf := ⟨front, back, ?_⟩, sent := ?_ }
  · rw [List.drop_drop] at stored
    exact stored
  · dsimp only
    omega

theorem serverRead (related : s.Related server asks t) {results : List ReadResult}
    (steady : Steady server s (.serverRead results))
    (taken : bufferedStep server asks s (.serverRead results) = some next) :
    ∃ call after, step (server.onBuffers asks) t (.serverRead call) = some after ∧
      next.Refines after := by
  simp only [bufferedStep, Option.ite_none_right_eq_some, Option.map_eq_some_iff] at taken
  obtain ⟨arriving, receiver, read, rfl⟩ := taken
  have refines := related.refines
  obtain ⟨running, waits, view, shown, refined⟩ :=
    Server.refines_read refines.server (server.onBuffers asks) read steady
  rw [refines.toServer] at arriving
  obtain ⟨bytes, arrives⟩ := arrives_of_arriving arriving (steady view shown)
  refine ⟨⟨view.2.2, results⟩, { t with
    server := t.server.deliver ⟨view.2.2, results⟩
    toServer := t.toServer.drop (bytesOf results).length }, ?_, refines.client, refined,
    congrArg (List.drop (bytesOf results).length) refines.toServer, refines.toClient⟩
  simp only [step, arrives, waits, running, Option.isNone_none, not_false_eq_true, and_self,
    ↓reduceIte, bytes]

theorem serverAdvance (related : s.Related server asks t)
    (steady : Steady server s .serverAdvance)
    (taken : bufferedStep server asks s .serverAdvance = some next) :
    ∃ after, step (server.onBuffers asks) t .serverAdvance = some after ∧ next.Refines after := by
  obtain ⟨receiver, advanced, rfl⟩ := Option.map_eq_some_iff.mp taken
  have refines := related.refines
  obtain ⟨after, ideal, refined⟩ :=
    Server.refines_advance refines.server related.server_bounded steady advanced
  refine ⟨{ t with server := after }, ?_, refines.client, refined, refines.toServer,
    refines.toClient⟩
  exact Option.map_eq_some_iff.mpr ⟨after, ideal, rfl⟩

theorem serverWrite (related : s.Related server asks t) {results : List WriteResult}
    (steady : Steady server s (.serverWrite results))
    (taken : bufferedStep server asks s (.serverWrite results) = some next) :
    ShortWritesEnd t (.serverWrite results) ∧
      ∃ after, step (server.onBuffers asks) t (.serverWrite results) = some after ∧
        next.Refines after := by
  obtain ⟨⟨writeBuf, outcome⟩, wrote, rfl⟩ := Option.map_eq_some_iff.mp taken
  have refines := related.refines
  obtain ⟨before, last, stores⟩ := refines.server.writeBuf
  have ends : ShortWriteEnds (needWrite t.serverBuffer.length) results := by
    have total : s.server.writeBuf.totalSize = t.serverBuffer.length := stores.totalSize
    rw [← total]
    exact steady
  obtain ⟨ideal, within, -, front, back, stored⟩ := stores.asyncWrite ends wrote
  rw [List.length_drop] at within
  have sent := refines.server.sent
  refine ⟨ends, _, Option.map_eq_some_iff.mpr ⟨outcome, ideal, rfl⟩, refines.client, ?_,
    refines.toServer, congrArg (· ++ outcome.bytes) refines.toClient⟩
  refine { refines.server with writeBuf := ⟨front, back, ?_⟩, sent := ?_ }
  · rw [List.drop_drop] at stored
    exact stored
  · dsimp only
    omega

end BufferedSystem.Related

/-! ## Whole runs -/

variable (server asks)

/-- A step of the system on its buffers is a step of the ideal system. -/
theorem buffered_step_simulates :
    Simulates (bufferedStep server asks) (step (server.onBuffers asks))
      (BufferedSystem.Related server asks) (Sound server) (Admitted server asks) := by
  refine Simulates.of_step fun s t move next related sound taken => ?_
  have answers : ∀ label : SystemStep Method Message,
      ShortWritesEnd t label → (∀ call, label = .call call → move = .call call) →
      (∃ after, step (server.onBuffers asks) t label = some after ∧ next.Refines after) →
      ∃ order after, step (server.onBuffers asks) t order = some after ∧
        Admitted server asks t order ∧ next.Related server asks after := by
    intro label ends same answered
    obtain ⟨after, ideal, refines⟩ := answered
    have admitted : Admitted server asks t label := by
      refine ⟨ends, ?_⟩
      intro call calls
      obtain ⟨⟨service, serves⟩, short⟩ := sound.2 call (same call calls)
      exact ⟨⟨service, serves_onBuffers serves⟩, short⟩
    exact ⟨label, after, ideal, admitted, related.of_step ideal admitted refines⟩
  cases move with
  | call call => exact answers (.call call) trivial (by simp) (related.call sound.1 taken)
  | clientRead results =>
      obtain ⟨call, answered⟩ := related.clientRead sound.1 taken
      exact answers (.clientRead call) trivial (by simp) answered
  | clientAdvance => exact answers .clientAdvance trivial (by simp) (related.clientAdvance taken)
  | clientWrite results =>
      obtain ⟨ends, answered⟩ := related.clientWrite sound.1 taken
      exact answers _ ends (by simp) answered
  | serverRead results =>
      obtain ⟨call, answered⟩ := related.serverRead sound.1 taken
      exact answers (.serverRead call) trivial (by simp) answered
  | serverAdvance =>
      exact answers .serverAdvance trivial (by simp) (related.serverAdvance sound.1 taken)
  | serverWrite results =>
      obtain ⟨ends, answered⟩ := related.serverWrite sound.1 taken
      exact answers _ ends (by simp) answered

/-- **Calls and responses agree on the buffers.** Every run of a channel and a server on
their chains of blocks is a run of both on ideal queues, in which no `async_write` goes on
after a short write; and calls and responses agree in the state it leads to. -/
theorem buffered_calls_agree (memory : Fin 4 → Ptr → Nat → UInt8)
    {labels : List (BufferedStep Method Message)} (served : ShortCallsServed server labels)
    (run : exec (bufferedStep server asks) (.init memory) labels = some s)
    (steady : Along (bufferedStep server asks) (Steady server) (.init memory) labels) :
    ∃ orders t, exec (step (server.onBuffers asks)) .init orders = some t ∧
      Along (step (server.onBuffers asks)) ShortWritesEnd .init orders ∧ s.Refines t ∧
        Agreement (server.onBuffers asks) t := by
  have calls : Along (bufferedStep server asks) (fun _ label => ∀ call, label = .call call →
      (∃ service, Serves server call service) ∧ ShortCall server call) (.init memory) labels := by
    refine along_of_forall_mem ?_ _
    rintro _ member call rfl
    exact served call member
  obtain ⟨orders, t, ideal, admitted, related⟩ := (buffered_step_simulates server asks).exec
    (related_init memory) run (along_and steady calls)
  exact ⟨orders, t, ideal, admitted.mono fun _ _ both => both.1, related.refines,
    agreement_of_explained related.explained⟩

/-- The generated code keeps a call of the echo service short. -/
theorem short_of_echoCall {Unknown : Type} {runtime : Runtime Unknown} (sound : runtime.Lawful)
    (names : Example.NamesReadable runtime) {call : Call Example.EchoMethod (Parsed Unknown Bytes)}
    (echoCall : Example.EchoCall runtime call)
    (small : (Example.echoCode runtime).byteSizeLong call.request < maxMessage) :
    ShortCall (Example.generatedServer runtime) call where
  request_header requestId :=
    (Example.length_requestHeader_le sound names call requestId).trans_lt (by decide)
  request := (echoCall.length_request sound).trans_lt small
  response_header requestId :=
    (Example.length_responseHeader_le sound requestId).trans_lt (by decide)
  response := by
    rintro _ ⟨⟩
    exact echoCall.length_response_lt sound

/-- The run of one call, whose request is cut on its way. -/
def hiBuffered : List (BufferedStep Example.EchoMethod Example.EchoMessage) :=
  [.call hiCall, .clientWrite [.accepted 9, .again],
    .serverRead [.data (Example.hiRequest.take 9), .again], .serverAdvance,
    .clientWrite [.interrupted, .accepted 32],
    .serverRead [.data (Example.hiRequest.drop 9), .again], .serverAdvance, .serverAdvance,
    .serverAdvance, .serverWrite [.accepted (hiAnswer 0).length],
    .clientRead [.data (hiAnswer 0), .again], .clientAdvance, .clientAdvance, .clientAdvance,
    .clientAdvance]

theorem buffered_calls_agree_of_cut :
    ∃ s, exec (bufferedStep Example.echoServer fun _ _ => 0) (.init fun _ _ _ => 0) hiBuffered =
      some s ∧ s.client.handled.length = 1 ∧
        ∃ t, s.Refines t ∧ Agreement (Example.echoServer.onBuffers fun _ _ => 0) t := by
  obtain ⟨s, run, one⟩ : ∃ s ∈ exec (bufferedStep Example.echoServer fun _ _ => 0)
      (.init fun _ _ _ => 0) hiBuffered, s.client.handled.length = 1 := by
    decide +kernel
  have served : ShortCallsServed Example.echoServer hiBuffered := by
    intro call member
    obtain rfl : call = hiCall := by simpa [hiBuffered] using member
    exact ⟨⟨Example.echoService, hiCall_serves⟩,
      short_of_echoCall flatRuntime_lawful Example.flatRuntime_names hiCall_echo (by decide)⟩
  obtain ⟨-, t, -, -, refines, agrees⟩ := buffered_calls_agree Example.echoServer (fun _ _ => 0)
    (fun _ _ _ => 0) served run (by decide +kernel)
  exact ⟨s, run, one, t, refines, agrees⟩

end Drpc.EndToEnd
