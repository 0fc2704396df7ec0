import Drpc.Example.EchoCalls

/-! # Calls and responses agree

The calls of a channel fall into three groups, in the order of their ids: those
that were answered, those whose response is on its way, and those whose request
is. The bytes between the two ends are, in each direction, the rest of the frame
the reader stands in and the frames of the later calls of the group. This is
`Linked`; every step keeps it, as long as no `async_write` goes on after a short
write, and the agreement of calls and responses follows (`calls_agree`).
-/

namespace Drpc.EndToEnd

open Proto Net Transition Client Server

variable {Method Message : Type} (server : RpcServer Method Message)

/-- What a user of the channel sees: every response that came in found its
session and parsed; it went to the session of the very call that was given its
id, with what the service computes for the request of that call; no call was
completed twice; and the pending calls are those not completed yet. -/
structure Agreement (s : System Method Message) : Prop where
  ids : (s.client.issued.map Prod.fst).Nodup
  completed : ∀ handled ∈ s.client.handled, ∃ delivery, handled = .completed delivery
  delivered : ∀ delivery ∈ s.client.deliveries, ∃ call service,
    (delivery.requestId, call) ∈ s.client.issued ∧ delivery.session = call.session ∧
      server.serviceRegistry (server.protobuf.serviceName call.method) = some service ∧
      service.findMethodByName (server.protobuf.methodName call.method) = some call.method ∧
      delivery.response = service.callMethod call.method call.request
  once : (s.client.deliveries.map Delivery.requestId).Nodup
  keys : ∀ requestId session, s.client.sessionRegistry requestId = some session ↔
    (∃ call, (requestId, call) ∈ s.client.issued ∧ session = call.session) ∧
      requestId ∉ s.client.deliveries.map Delivery.requestId

/-- A served call with the id it was given. -/
structure Exchange where
  requestId : Int64
  call : Call Method Message
  service : Service Method Message
  serves : Serves server call service

variable {server}

namespace Exchange

/-- What the service computes for the call. -/
def response (x : Exchange server) : Message := x.service.callMethod x.call.method x.call.request

def requestHeader (x : Exchange server) : Header :=
  Client.requestHeader server.protobuf x.call x.requestId

def requestHeaderBytes (x : Exchange server) : Bytes :=
  server.protobuf.serializeHeader x.requestHeader

def requestBody (x : Exchange server) : Bytes := server.protobuf.serialize x.call.request

def responseHeaderBytes (x : Exchange server) : Bytes :=
  server.protobuf.serializeHeader (responseHeader x.requestId)

def responseBody (x : Exchange server) : Bytes := server.protobuf.serialize x.response

/-- The request frame of the call. -/
def requestBytes (x : Exchange server) : Bytes := frame x.requestHeaderBytes x.requestBody

/-- The response frame of the call. -/
def responseBytes (x : Exchange server) : Bytes := frame x.responseHeaderBytes x.responseBody

/-- What the client has done when the response came in. -/
def delivery (x : Exchange server) : Delivery Method Message :=
  ⟨x.requestId, x.call.session, x.responseBody, x.response⟩

/-- The call as the channel keeps it. -/
def issue (x : Exchange server) : Int64 × Call Method Message := (x.requestId, x.call)

theorem parse_requestHeader (x : Exchange server) :
    server.protobuf.parseHeader x.requestHeaderBytes = some x.requestHeader :=
  x.serves.request_header x.requestId

theorem requestHeader_fits (x : Exchange server) : x.requestHeaderBytes.length < 2 ^ 32 :=
  x.serves.request_header_fits x.requestId

/-- The names in the header lead the server to the service and the method. -/
theorem find_service (x : Exchange server) :
    server.serviceRegistry x.requestHeader.service = some x.service := x.serves.registered

theorem find_method (x : Exchange server) :
    x.service.findMethodByName x.requestHeader.method = some x.call.method := x.serves.found

theorem parse_request (x : Exchange server) :
    server.protobuf.parseRequest x.call.method x.requestBody = some x.call.request :=
  x.serves.request

theorem parse_responseHeader (x : Exchange server) :
    server.protobuf.parseHeader x.responseHeaderBytes = some (responseHeader x.requestId) :=
  x.serves.response_header x.requestId

theorem responseHeader_fits (x : Exchange server) : x.responseHeaderBytes.length < 2 ^ 32 :=
  x.serves.response_header_fits x.requestId

theorem parse_response (x : Exchange server) :
    server.protobuf.parseResponse x.call.method x.responseBody = some x.response :=
  x.serves.response

end Exchange

/-! ## Where a reader stands in its stream -/

/-- The server stands in the request of the first waiting call, and `bytes` are
what it has not taken yet. -/
def ServerAt (phase : Server.Phase Method Message) (waiting : List (Exchange server))
    (bytes : Bytes) : Prop :=
  match phase, waiting with
  | .headerLen, waiting => bytes = waiting.flatMap Exchange.requestBytes
  | .header headerLen, x :: rest =>
      headerLen = x.requestHeaderBytes.length ∧
        bytes = x.requestHeaderBytes ++ (LittleEndian.encode x.requestBody.length ++
          (x.requestBody ++ rest.flatMap Exchange.requestBytes))
  | .requestLen header, x :: rest =>
      header = x.requestHeader ∧
        bytes = LittleEndian.encode x.requestBody.length ++
          (x.requestBody ++ rest.flatMap Exchange.requestBytes)
  | .request header service method requestLen, x :: rest =>
      header = x.requestHeader ∧ service = x.service ∧ method = x.call.method ∧
        requestLen = x.requestBody.length ∧
        bytes = x.requestBody ++ rest.flatMap Exchange.requestBytes
  | _, _ => False

/-- The client stands in the response of the first call in flight, and `bytes` are
what it has not taken yet. -/
def ClientAt (phase : Client.Phase) (inFlight : List (Exchange server)) (bytes : Bytes) : Prop :=
  match phase, inFlight with
  | .headerLen, inFlight => bytes = inFlight.flatMap Exchange.responseBytes
  | .header headerLen, x :: rest =>
      headerLen = x.responseHeaderBytes.length ∧
        bytes = x.responseHeaderBytes ++ (LittleEndian.encode x.responseBody.length ++
          (x.responseBody ++ rest.flatMap Exchange.responseBytes))
  | .responseLen header, x :: rest =>
      header = responseHeader x.requestId ∧
        bytes = LittleEndian.encode x.responseBody.length ++
          (x.responseBody ++ rest.flatMap Exchange.responseBytes)
  | .response header responseLen, x :: rest =>
      header = responseHeader x.requestId ∧ responseLen = x.responseBody.length ∧
        bytes = x.responseBody ++ rest.flatMap Exchange.responseBytes
  | _, _ => False

/-- A further request joins the stream at its end. -/
theorem serverAt_append {phase : Server.Phase Method Message} {waiting : List (Exchange server)}
    {bytes : Bytes} (at_ : ServerAt phase waiting bytes) (x : Exchange server) :
    ServerAt phase (waiting ++ [x]) (bytes ++ x.requestBytes) := by
  unfold ServerAt at at_ ⊢
  cases phase <;> cases waiting <;> simp_all

/-- A further response joins the stream at its end. -/
theorem clientAt_append {phase : Client.Phase} {inFlight : List (Exchange server)}
    {bytes : Bytes} (at_ : ClientAt phase inFlight bytes) (x : Exchange server) :
    ClientAt phase (inFlight ++ [x]) (bytes ++ x.responseBytes) := by
  unfold ClientAt at at_ ⊢
  cases phase <;> cases inFlight <;> simp_all

/-- Bytes that are buffered already lie at the front of the queue. -/
theorem exists_of_append_eq {content more front rest : Bytes}
    (same : content ++ more = front ++ rest) (enough : front.length ≤ content.length) :
    ∃ behind, content = front ++ behind ∧ behind ++ more = rest := by
  refine ⟨content.drop front.length, ?_, ?_⟩
  · have taken := congrArg (List.take front.length) same
    rw [List.take_append_of_le_length enough, List.take_left] at taken
    conv_lhs => rw [← List.take_append_drop front.length content, taken]
  · have dropped := congrArg (List.drop front.length) same
    rwa [List.drop_append_of_le_length enough, List.drop_left] at dropped

/-- **One turn of the server** in its stream: it moves on in the request it stands
in, or it answers it. -/
theorem server_advance {s t : Receiver Method Message} {waiting : List (Exchange server)}
    {more : Bytes} (open_ : s.closed = false)
    (at_ : ServerAt s.phase waiting (s.queue.content ++ more))
    (taken : server.advance s = some t) :
    t.closed = false ∧
      ((t.output = s.output ∧ ServerAt t.phase waiting (t.queue.content ++ more)) ∨
        ∃ x rest, waiting = x :: rest ∧ t.output = s.output ++ x.responseBytes ∧
          ServerAt t.phase rest (t.queue.content ++ more)) := by
  obtain ⟨running, enough, rfl⟩ := (Server.advance_open server open_).mp taken
  obtain ⟨⟨content, consumed, limit⟩, closed, phase, dispatched, output⟩ := s
  simp only at open_
  subst open_
  cases phase with
  | headerLen =>
      simp only [Server.Phase.needs, LimitedQueue.size] at enough
      simp only [ServerAt] at at_
      cases waiting with
      | nil =>
          simp only [List.flatMap_nil, List.append_eq_nil_iff] at at_
          simp [at_.1] at enough
      | cons x rest =>
          simp only [List.flatMap_cons, Exchange.requestBytes, frame, List.append_assoc] at at_
          obtain ⟨behind, rfl, follows⟩ := exists_of_append_eq at_ (by simpa using enough)
          simp only [RpcServer.proceed, Server.readHeaderLen]
          rw [readWord_encode x.requestHeader_fits rfl]
          exact ⟨rfl, .inl ⟨rfl, rfl, follows⟩⟩
  | header headerLen =>
      simp only [Server.Phase.needs, LimitedQueue.size] at enough
      cases waiting with
      | nil => exact at_.elim
      | cons x rest =>
          obtain ⟨rfl, at_⟩ := at_
          obtain ⟨behind, rfl, follows⟩ := exists_of_append_eq at_ enough
          simp only [RpcServer.proceed]
          rw [Server.readHeader_front server rfl x.parse_requestHeader rfl rfl]
          exact ⟨rfl, .inl ⟨rfl, rfl, follows⟩⟩
  | requestLen header =>
      simp only [Server.Phase.needs, LimitedQueue.size] at enough
      cases waiting with
      | nil => exact at_.elim
      | cons x rest =>
          obtain ⟨rfl, at_⟩ := at_
          obtain ⟨behind, rfl, follows⟩ := exists_of_append_eq at_ (by simpa using enough)
          simp only [RpcServer.proceed]
          rw [Server.readRequestLen_encode server x.serves.request_fits rfl x.find_service
            x.find_method]
          exact ⟨rfl, .inl ⟨rfl, rfl, rfl, rfl, rfl, follows⟩⟩
  | request header service method requestLen =>
      simp only [Server.Phase.needs, LimitedQueue.size] at enough
      cases waiting with
      | nil => exact at_.elim
      | cons x rest =>
          obtain ⟨rfl, rfl, rfl, rfl, at_⟩ := at_
          obtain ⟨behind, rfl, follows⟩ := exists_of_append_eq at_ enough
          simp only [RpcServer.proceed]
          rw [Server.readRequest_front server rfl x.parse_request]
          exact ⟨rfl, .inr ⟨x, rest, rfl, rfl, follows⟩⟩
  | stopped reason => exact (running trivial).elim

/-- **One turn of the client** in its stream: it moves on in the response it stands
in, or it completes the call. -/
theorem client_advance {s t : ClientChannel Method Message} {inFlight : List (Exchange server)}
    {more : Bytes} (open_ : s.closed = false)
    (at_ : ClientAt s.phase inFlight (s.queue.content ++ more))
    (pending : ∀ x ∈ inFlight, s.sessionRegistry x.requestId = some x.call.session)
    (taken : Client.advance server.protobuf s = some t) :
    (t.closed = false ∧ t.issued = s.issued ∧ t.requestId = s.requestId ∧ t.output = s.output) ∧
      ((t.handled = s.handled ∧ t.sessionRegistry = s.sessionRegistry ∧
          ClientAt t.phase inFlight (t.queue.content ++ more)) ∨
        ∃ x rest, inFlight = x :: rest ∧ t.handled = s.handled ++ [.completed x.delivery] ∧
          t.sessionRegistry = Function.update s.sessionRegistry x.requestId none ∧
          ClientAt t.phase rest (t.queue.content ++ more)) := by
  obtain ⟨running, ⟨enough, rfl⟩ | ⟨closed, -⟩⟩ := Client.advance_cases server.protobuf taken
  swap
  · simp [open_] at closed
  obtain ⟨⟨content, consumed, limit⟩, closed, phase, registry, requestId, output, issued, handled,
    tops⟩ := s
  simp only at open_
  subst open_
  cases phase with
  | headerLen =>
      simp only [Client.Phase.needs, LimitedQueue.size] at enough
      simp only [ClientAt] at at_
      cases inFlight with
      | nil =>
          simp only [List.flatMap_nil, List.append_eq_nil_iff] at at_
          simp [at_.1] at enough
      | cons x rest =>
          simp only [List.flatMap_cons, Exchange.responseBytes, frame, List.append_assoc] at at_
          obtain ⟨behind, rfl, follows⟩ := exists_of_append_eq at_ (by simpa using enough)
          simp only [Client.proceed, Client.readHeaderLen]
          rw [readWord_encode x.responseHeader_fits rfl]
          exact ⟨⟨rfl, rfl, rfl, rfl⟩, .inl ⟨rfl, rfl, rfl, follows⟩⟩
  | header headerLen =>
      simp only [Client.Phase.needs, LimitedQueue.size] at enough
      cases inFlight with
      | nil => exact at_.elim
      | cons x rest =>
          obtain ⟨rfl, at_⟩ := at_
          obtain ⟨behind, rfl, follows⟩ := exists_of_append_eq at_ enough
          simp only [Client.proceed]
          rw [Client.readHeader_front server.protobuf rfl x.parse_responseHeader]
          exact ⟨⟨rfl, rfl, rfl, rfl⟩, .inl ⟨rfl, rfl, rfl, follows⟩⟩
  | responseLen header =>
      simp only [Client.Phase.needs, LimitedQueue.size] at enough
      cases inFlight with
      | nil => exact at_.elim
      | cons x rest =>
          obtain ⟨rfl, at_⟩ := at_
          obtain ⟨behind, rfl, follows⟩ := exists_of_append_eq at_ (by simpa using enough)
          simp only [Client.proceed]
          rw [Client.readResponseLen_encode x.serves.response_fits rfl]
          exact ⟨⟨rfl, rfl, rfl, rfl⟩, .inl ⟨rfl, rfl, rfl, rfl, follows⟩⟩
  | response header responseLen =>
      simp only [Client.Phase.needs, LimitedQueue.size] at enough
      cases inFlight with
      | nil => exact at_.elim
      | cons x rest =>
          obtain ⟨rfl, rfl, at_⟩ := at_
          obtain ⟨behind, rfl, follows⟩ := exists_of_append_eq at_ enough
          simp only [Client.proceed]
          rw [Client.readResponse_front server.protobuf (pending x (List.mem_cons_self ..)) rfl
            x.parse_response]
          exact ⟨⟨rfl, rfl, rfl, rfl⟩, .inr ⟨x, rest, rfl, rfl, rfl, follows⟩⟩
  | stopped reason => exact (running trivial).elim

/-! ## The invariant -/

/-- How the state comes from the three groups of calls. -/
structure Linked (s : System Method Message) (answered inFlight waiting : List (Exchange server)) :
    Prop where
  clientOpen : s.client.closed = false
  serverOpen : s.server.closed = false
  issued : s.client.issued = (answered ++ inFlight ++ waiting).map Exchange.issue
  distinct : ((answered ++ inFlight ++ waiting).map Exchange.requestId).Nodup
  below : ∀ x ∈ answered ++ inFlight ++ waiting, x.requestId < s.client.requestId
  registry : ∀ requestId session, s.client.sessionRegistry requestId = some session ↔
    ∃ x ∈ inFlight ++ waiting, x.requestId = requestId ∧ x.call.session = session
  handled : s.client.handled = answered.map fun x => .completed x.delivery
  clientSent : s.clientSent ≤ s.client.output.length
  serverSent : s.serverSent ≤ s.server.output.length
  serverAt : ServerAt s.server.phase waiting
    (s.server.queue.content ++ (s.toServer ++ s.clientBuffer))
  clientAt : ClientAt s.client.phase inFlight
    (s.client.queue.content ++ (s.toClient ++ s.serverBuffer))

/-- The calls fall into the three groups. -/
def Explained (server : RpcServer Method Message) (s : System Method Message) : Prop :=
  ∃ answered inFlight waiting : List (Exchange server), Linked s answered inFlight waiting

theorem explained_init : Explained server (System.init : System Method Message) := by
  refine ⟨[], [], [], rfl, rfl, rfl, List.nodup_nil, ?_, ?_, rfl, le_rfl, le_rfl, rfl, rfl⟩
  · intro x member
    simp at member
  · simp [System.init, ClientChannel.init]

/-- What `async_write` takes from a buffer, when a short write ends it. -/
theorem asyncWrite_front {content : Bytes} {results : List WriteResult} {outcome : WriteOutcome}
    (ends : ShortWriteEnds (needWrite content.length) results)
    (taken : asyncWrite content results = some outcome) :
    outcome.written ≤ content.length ∧ outcome.bytes ++ content.drop outcome.written = content := by
  simp only [asyncWrite, Option.ite_none_right_eq_some, Option.some.injEq] at taken
  obtain ⟨⟨accepts, within⟩, rfl⟩ := taken
  obtain ⟨n, small, same⟩ := writeLoop_of_shortWriteEnds accepts ends
  refine ⟨within, ?_⟩
  rw [List.length_take] at small
  rw [same]
  simp only [List.take_take, Nat.min_eq_left (small.trans (min_le_left ..)),
    List.take_append_drop]

/-- The bytes of a read come from the front of what is in flight. -/
theorem read_front {call : ReadCall} {content inFlight behind : Bytes}
    (arrives : Arrives call inFlight) :
    (content ++ call.outcome.bytes) ++ (inFlight.drop call.outcome.bytes.length ++ behind) =
      content ++ (inFlight ++ behind) := by
  obtain ⟨rest, rfl⟩ := arrives.2
  simp

/-- A new call joins the waiting ones. -/
theorem explained_call {s t : System Method Message} {call : Call Method Message}
    (explained : Explained server s) (served : ∃ service, Serves server call service)
    (taken : step server s (.call call) = some t) : Explained server t := by
  obtain ⟨answered, inFlight, waiting, linked⟩ := explained
  obtain ⟨service, serves⟩ := served
  simp only [step, Option.map_eq_some_iff, Client.step, Option.ite_none_right_eq_some,
    sendRequest, Option.ite_none_left_eq_some, Option.some.injEq] at taken
  obtain ⟨client, ⟨-, small, rfl⟩, rfl⟩ := taken
  let x : Exchange server := ⟨s.client.requestId, call, service, serves⟩
  have fresh : ∀ y ∈ answered ++ inFlight ++ waiting, y.requestId ≠ x.requestId := by
    intro y member same
    exact absurd (same ▸ linked.below y member) Int64.lt_irrefl
  have groups : answered ++ inFlight ++ (waiting ++ [x]) =
      (answered ++ inFlight ++ waiting) ++ [x] := by
    simp only [List.append_assoc]
  refine ⟨answered, inFlight, waiting ++ [x], ?_⟩
  constructor
  · exact linked.clientOpen
  · exact linked.serverOpen
  · rw [groups, List.map_append, ← linked.issued]
    rfl
  · rw [groups, List.map_append, List.nodup_append]
    refine ⟨linked.distinct, by simp, ?_⟩
    rintro _ member _ new rfl
    obtain ⟨y, old, same⟩ := List.mem_map.mp member
    exact fresh y old (same.trans (by simpa using new))
  · intro y member
    rw [groups, List.mem_append, List.mem_singleton] at member
    rcases member with old | rfl
    · exact Int64.lt_trans (linked.below y old) (lt_next_of_ne_max small)
    · exact lt_next_of_ne_max small
  · intro requestId session
    by_cases new : requestId = s.client.requestId
    · subst new
      simp only [Function.update_self, Option.some.injEq]
      constructor
      · intro equal
        subst equal
        exact ⟨x, by simp, rfl, rfl⟩
      · intro all
        obtain ⟨y, member, same, rfl⟩ := all
        rw [← List.append_assoc, List.mem_append, List.mem_singleton] at member
        rcases member with old | rfl
        · refine absurd same (fresh y ?_)
          rw [List.append_assoc]
          exact List.mem_append_right _ old
        · rfl
    · simp only [Function.update_of_ne new, linked.registry]
      constructor
      · intro all
        obtain ⟨y, member, facts⟩ := all
        exact ⟨y, by rw [← List.append_assoc]; exact List.mem_append_left _ member, facts⟩
      · intro all
        obtain ⟨y, member, same, session⟩ := all
        rw [← List.append_assoc, List.mem_append, List.mem_singleton] at member
        rcases member with old | rfl
        · exact ⟨y, old, same, session⟩
        · exact absurd same.symm new
  · exact linked.handled
  · have sent := linked.clientSent
    simp only [List.length_append]
    omega
  · exact linked.serverSent
  · have joined := serverAt_append linked.serverAt x
    have buffer : (s.client.output ++ requestFrame server.protobuf call s.client.requestId).drop
        s.clientSent = s.clientBuffer ++ x.requestBytes :=
      List.drop_append_of_le_length linked.clientSent
    simpa only [System.clientBuffer, buffer, List.append_assoc] using joined
  · exact linked.clientAt

/-- The client completes the first call in flight, or moves on in its response. -/
theorem explained_clientAdvance {s t : System Method Message} (explained : Explained server s)
    (taken : step server s .clientAdvance = some t) : Explained server t := by
  obtain ⟨answered, inFlight, waiting, linked⟩ := explained
  simp only [step, Client.step, Option.map_eq_some_iff] at taken
  obtain ⟨client, taken, rfl⟩ := taken
  have pending : ∀ x ∈ inFlight,
      s.client.sessionRegistry x.requestId = some x.call.session := fun x member =>
    (linked.registry _ _).mpr ⟨x, List.mem_append_left _ member, rfl, rfl⟩
  obtain ⟨⟨open_, issued, next, output⟩, moved⟩ :=
    client_advance linked.clientOpen linked.clientAt pending taken
  have buffer : client.output.drop s.clientSent = s.clientBuffer := by
    rw [output]
    rfl
  rcases moved with ⟨handled, registry, at_⟩ | ⟨x, rest, rfl, handled, registry, at_⟩
  · refine ⟨answered, inFlight, waiting, open_, linked.serverOpen, issued.trans linked.issued,
      linked.distinct, ?_, ?_, handled.trans linked.handled, ?_, linked.serverSent, ?_, at_⟩
    · rw [next]
      exact linked.below
    · rw [registry]
      exact linked.registry
    · rw [output]
      exact linked.clientSent
    · simpa only [System.clientBuffer, output] using linked.serverAt
  · have groups : (answered ++ [x]) ++ rest ++ waiting = answered ++ (x :: rest) ++ waiting := by
      simp only [List.append_assoc, List.cons_append, List.nil_append]
    refine ⟨answered ++ [x], rest, waiting, open_, linked.serverOpen, ?_, ?_, ?_, ?_, ?_, ?_,
      linked.serverSent, ?_, at_⟩
    · rw [groups]
      exact issued.trans linked.issued
    · rw [groups]
      exact linked.distinct
    · rw [groups, next]
      exact linked.below
    · intro requestId session
      have distinct := linked.distinct
      rw [List.append_assoc, List.map_append, List.nodup_append] at distinct
      have head := distinct.2.1
      simp only [List.cons_append, List.map_cons, List.nodup_cons] at head
      rw [registry]
      by_cases done : requestId = x.requestId
      · subst done
        simp only [Function.update_self, reduceCtorEq, false_iff]
        intro all
        obtain ⟨y, member, same, -⟩ := all
        exact head.1 (List.mem_map.mpr ⟨y, member, same⟩)
      · simp only [Function.update_of_ne done, linked.registry, List.cons_append, List.mem_cons]
        constructor
        · intro all
          obtain ⟨y, rfl | member, same, session⟩ := all
          · exact absurd same.symm done
          · exact ⟨y, member, same, session⟩
        · intro all
          obtain ⟨y, member, facts⟩ := all
          exact ⟨y, .inr member, facts⟩
    · rw [handled, linked.handled, List.map_append]
      rfl
    · rw [output]
      exact linked.clientSent
    · simpa only [System.clientBuffer, output] using linked.serverAt

/-- The server answers the first waiting call, or moves on in its request. -/
theorem explained_serverAdvance {s t : System Method Message} (explained : Explained server s)
    (taken : step server s .serverAdvance = some t) : Explained server t := by
  obtain ⟨answered, inFlight, waiting, linked⟩ := explained
  simp only [step, Option.map_eq_some_iff] at taken
  obtain ⟨receiver, taken, rfl⟩ := taken
  obtain ⟨open_, moved⟩ := server_advance linked.serverOpen linked.serverAt taken
  rcases moved with ⟨output, at_⟩ | ⟨x, rest, rfl, output, at_⟩
  · refine ⟨answered, inFlight, waiting, linked.clientOpen, open_, linked.issued, linked.distinct,
      linked.below, linked.registry, linked.handled, linked.clientSent, ?_, at_, ?_⟩
    · rw [output]
      exact linked.serverSent
    · simpa only [System.serverBuffer, output] using linked.clientAt
  · have groups : answered ++ (inFlight ++ [x]) ++ rest = answered ++ inFlight ++ x :: rest := by
      simp only [List.append_assoc, List.cons_append, List.nil_append]
    refine ⟨answered, inFlight ++ [x], rest, linked.clientOpen, open_, ?_, ?_, ?_, ?_,
      linked.handled, linked.clientSent, ?_, at_, ?_⟩
    · rw [groups]
      exact linked.issued
    · rw [groups]
      exact linked.distinct
    · rw [groups]
      exact linked.below
    · intro requestId session
      rw [linked.registry, List.append_assoc, List.cons_append, List.nil_append]
    · have sent := linked.serverSent
      dsimp only
      rw [output, List.length_append]
      omega
    · have joined := clientAt_append linked.clientAt x
      have buffer : (s.server.output ++ x.responseBytes).drop s.serverSent =
          s.serverBuffer ++ x.responseBytes :=
        List.drop_append_of_le_length linked.serverSent
      simpa only [System.serverBuffer, output, buffer, List.append_assoc] using joined

/-- **One step** keeps the state explained by the calls. -/
theorem explained_step {s t : System Method Message} {label : SystemStep Method Message}
    (explained : Explained server s) (ends : ShortWritesEnd s label)
    (served : ∀ call, label = .call call → ∃ service, Serves server call service)
    (taken : step server s label = some t) : Explained server t := by
  cases label with
  | call call => exact explained_call explained (served call rfl) taken
  | clientAdvance => exact explained_clientAdvance explained taken
  | serverAdvance => exact explained_serverAdvance explained taken
  | clientRead call =>
      obtain ⟨answered, inFlight, waiting, linked⟩ := explained
      simp only [step, Client.step, Option.ite_none_right_eq_some, Option.map_eq_some_iff,
        Option.some.injEq] at taken
      obtain ⟨arrives, client, ⟨-, rfl⟩, rfl⟩ := taken
      refine ⟨answered, inFlight, waiting, ?_, linked.serverOpen, linked.issued, linked.distinct,
        linked.below, linked.registry, linked.handled, linked.clientSent, linked.serverSent,
        linked.serverAt, ?_⟩
      · simp [ClientChannel.deliver, linked.clientOpen, arrives.1]
      · have same := linked.clientAt
        rw [← read_front arrives] at same
        exact same
  | clientWrite results =>
      obtain ⟨answered, inFlight, waiting, linked⟩ := explained
      simp only [step, Option.map_eq_some_iff] at taken
      obtain ⟨outcome, taken, rfl⟩ := taken
      obtain ⟨within, front⟩ := asyncWrite_front ends taken
      have sent := linked.clientSent
      simp only [System.clientBuffer, List.length_drop] at within
      refine ⟨answered, inFlight, waiting, linked.clientOpen, linked.serverOpen, linked.issued,
        linked.distinct, linked.below, linked.registry, linked.handled, ?_, linked.serverSent, ?_,
        linked.clientAt⟩
      · dsimp only
        omega
      · have same := linked.serverAt
        rw [← front] at same
        simpa only [System.clientBuffer, List.drop_drop, List.append_assoc] using same
  | serverRead call =>
      obtain ⟨answered, inFlight, waiting, linked⟩ := explained
      simp only [step, Option.ite_none_right_eq_some, Option.some.injEq] at taken
      obtain ⟨⟨arrives, -⟩, rfl⟩ := taken
      refine ⟨answered, inFlight, waiting, linked.clientOpen, ?_, linked.issued, linked.distinct,
        linked.below, linked.registry, linked.handled, linked.clientSent, linked.serverSent, ?_,
        linked.clientAt⟩
      · simp [Receiver.deliver, Receiver.close, Receiver.append, linked.serverOpen, arrives.1]
      · have same := linked.serverAt
        rw [← read_front arrives] at same
        exact same
  | serverWrite results =>
      obtain ⟨answered, inFlight, waiting, linked⟩ := explained
      simp only [step, Option.map_eq_some_iff] at taken
      obtain ⟨outcome, taken, rfl⟩ := taken
      obtain ⟨within, front⟩ := asyncWrite_front ends taken
      have sent := linked.serverSent
      simp only [System.serverBuffer, List.length_drop] at within
      refine ⟨answered, inFlight, waiting, linked.clientOpen, linked.serverOpen, linked.issued,
        linked.distinct, linked.below, linked.registry, linked.handled, linked.clientSent, ?_,
        linked.serverAt, ?_⟩
      · dsimp only
        omega
      · have same := linked.clientAt
        rw [← front] at same
        simpa only [System.serverBuffer, List.drop_drop, List.append_assoc] using same

/-- A state explained by the calls is one in which calls and responses agree. -/
theorem agreement_of_explained {s : System Method Message} (explained : Explained server s) :
    Agreement server s := by
  obtain ⟨answered, inFlight, waiting, linked⟩ := explained
  have deliveries : s.client.deliveries = answered.map Exchange.delivery := by
    simp [ClientChannel.deliveries, linked.handled, List.filterMap_map]
  have ids : s.client.deliveries.map Delivery.requestId = answered.map Exchange.requestId := by
    rw [deliveries, List.map_map]
    rfl
  have distinct := linked.distinct
  rw [List.append_assoc, List.map_append, List.nodup_append] at distinct
  obtain ⟨answeredOnce, -, apart⟩ := distinct
  constructor
  · rw [linked.issued, List.map_map]
    exact linked.distinct
  · intro handled member
    rw [linked.handled] at member
    obtain ⟨x, -, rfl⟩ := List.mem_map.mp member
    exact ⟨x.delivery, rfl⟩
  · intro delivery member
    rw [deliveries] at member
    obtain ⟨x, answered, rfl⟩ := List.mem_map.mp member
    refine ⟨x.call, x.service, ?_, rfl, x.serves.registered, x.serves.found, rfl⟩
    rw [linked.issued]
    exact List.mem_map.mpr ⟨x, by simp [answered], rfl⟩
  · rw [ids]
    exact answeredOnce
  · intro requestId session
    rw [linked.registry, ids, linked.issued]
    constructor
    · intro all
      obtain ⟨x, member, rfl, rfl⟩ := all
      refine ⟨⟨x.call, List.mem_map.mpr ⟨x, ?_, rfl⟩, rfl⟩, ?_⟩
      · rw [List.append_assoc]
        exact List.mem_append_right _ member
      · intro done
        exact apart _ done _ (List.mem_map.mpr ⟨x, member, rfl⟩) rfl
    · intro all
      obtain ⟨⟨call, member, rfl⟩, pending⟩ := all
      obtain ⟨x, grouped, same⟩ := List.mem_map.mp member
      cases same
      rw [List.append_assoc, List.mem_append] at grouped
      rcases grouped with done | member
      · exact absurd (List.mem_map.mpr ⟨x, done, rfl⟩) pending
      · exact ⟨x, member, rfl, rfl⟩

/-- **Calls and responses agree.** In every run of served calls in which no
`async_write` goes on after a short write: for every interleaving of the steps of
both ends and every way the kernels cut the two streams. -/
theorem calls_agree {labels : List (SystemStep Method Message)} {s : System Method Message}
    (served : CallsServed server labels) (run : exec (step server) .init labels = some s)
    (ends : Along (step server) ShortWritesEnd .init labels) : Agreement server s := by
  have calls : Along (step server) (fun _ label => ∀ call, label = .call call →
      ∃ service, Serves server call service) .init labels := by
    refine along_of_forall_mem ?_ _
    rintro _ member call rfl
    exact served call member
  refine agreement_of_explained (exec_invariant ?_ explained_init run (along_and ends calls))
  intro s label t explained allowed taken
  exact explained_step explained allowed.1 allowed.2 taken

theorem hiCall_echo : Example.EchoCall flatRuntime hiCall where
  request := .of_known (by decide)
  response := by decide
  fits := by decide

theorem hiCall_serves : Serves Example.echoServer hiCall Example.echoService :=
  hiCall_echo.serves flatRuntime_lawful Example.flatRuntime_names

/-- A response of the echo server to `hiCall`. -/
def hiAnswer (requestId : Int64) : Bytes :=
  Example.echoServer.responseFrame
    ⟨.echo, [], requestId, ⟨Example.EchoMethod.echo.tag ++ Example.hi.fields, []⟩⟩

theorem callsServed_of_hiCall
    {labels : List (SystemStep Example.EchoMethod Example.EchoMessage)}
    (same : ∀ call, .call call ∈ labels → call = hiCall) :
    CallsServed Example.echoServer labels := by
  intro call member
  rw [same call member]
  exact ⟨Example.echoService, hiCall_serves⟩

/-- One call, whose request is cut on its way. -/
theorem calls_agree_of_cut :
    ∃ s, exec (step Example.echoServer) .init
        [.call hiCall, .clientWrite [.accepted 9, .again],
          .serverRead (.ofBytes (Example.hiRequest.take 9)),
          .serverAdvance, .clientWrite [.interrupted, .accepted 32],
          .serverRead (.ofBytes (Example.hiRequest.drop 9)), .serverAdvance, .serverAdvance,
          .serverAdvance, .serverWrite [.accepted (hiAnswer 0).length],
          .clientRead (.ofBytes (hiAnswer 0)), .clientAdvance, .clientAdvance, .clientAdvance,
          .clientAdvance] = some s ∧ Agreement Example.echoServer s := by
  obtain ⟨s, run⟩ : ∃ s, exec (step Example.echoServer) .init
      [.call hiCall, .clientWrite [.accepted 9, .again],
        .serverRead (.ofBytes (Example.hiRequest.take 9)), .serverAdvance,
        .clientWrite [.interrupted, .accepted 32],
        .serverRead (.ofBytes (Example.hiRequest.drop 9)), .serverAdvance, .serverAdvance,
        .serverAdvance, .serverWrite [.accepted (hiAnswer 0).length],
        .clientRead (.ofBytes (hiAnswer 0)), .clientAdvance, .clientAdvance, .clientAdvance,
        .clientAdvance] = some s :=
    Option.isSome_iff_exists.mp (by decide +kernel)
  exact ⟨s, run, calls_agree (callsServed_of_hiCall (by simp)) run (by decide +kernel)⟩

/-- Two calls are buffered together. The kernel takes the first request; the loop
then offers both again and the kernel takes the first once more. The server
answers it twice, and the second answer finds no session. -/
theorem calls_disagree :
    ¬ ∀ (labels : List (SystemStep Example.EchoMethod Example.EchoMessage))
      (s : System Example.EchoMethod Example.EchoMessage),
      CallsServed Example.echoServer labels →
        exec (step Example.echoServer) .init labels = some s → Agreement Example.echoServer s := by
  intro always
  have runs : ∃ s ∈ exec (step Example.echoServer) .init
      [.call hiCall, .call hiCall, .clientWrite [.accepted 41, .accepted 43],
        .serverRead (.ofBytes (Example.hiRequest ++ Example.hiRequest)), .serverAdvance,
        .serverAdvance, .serverAdvance, .serverAdvance, .serverAdvance, .serverAdvance,
        .serverAdvance, .serverAdvance, .serverWrite [.accepted (2 * (hiAnswer 0).length)],
        .clientRead (.ofBytes (hiAnswer 0 ++ hiAnswer 0)), .clientAdvance, .clientAdvance,
        .clientAdvance, .clientAdvance, .clientAdvance, .clientAdvance, .clientAdvance,
        .clientAdvance],
      Handled.sessionNotFound 0 ∈ s.client.handled := by
    decide +kernel
  obtain ⟨s, run, missed⟩ := runs
  have agrees := always _ s (callsServed_of_hiCall (by simp)) run
  obtain ⟨delivery, impossible⟩ := agrees.completed _ missed
  cases impossible

end Drpc.EndToEnd
