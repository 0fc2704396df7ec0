import Drpc.Net.AsyncWrite
import Drpc.Client.Sessions

/-! # A channel and a server on one connection

The two ends of a connection that stays open, with the bytes in flight between
them. A step is a closure of `CallMethod`, a read or a turn of one of the two
`recv_fn`, or an `async_write` of one of the two `send_fn`; the kernels cut both
byte streams as they like. The four buffers are ideal byte queues here, in place of
`ChainedBuffer`; `BufferedSystem` is the same on the buffers.
-/

namespace Drpc.EndToEnd

open Proto Net Transition Client Server

variable {Method Message : Type}

/-- Both ends, and the bytes in flight. Of what an end has written to its output
stream, the first `clientSent` or `serverSent` bytes were taken out of its write
buffer. -/
structure System (Method Message : Type) where
  client : ClientChannel Method Message
  server : Receiver Method Message
  clientSent : Nat
  serverSent : Nat
  toServer : Bytes
  toClient : Bytes

/-- A new connection. -/
def System.init : System Method Message where
  client := .init
  server := .init
  clientSent := 0
  serverSent := 0
  toServer := []
  toClient := []

/-- What is left in the write buffer of the client. -/
def System.clientBuffer (s : System Method Message) : Bytes := s.client.output.drop s.clientSent

/-- What is left in the write buffer of the server. -/
def System.serverBuffer (s : System Method Message) : Bytes := s.server.output.drop s.serverSent

/-- What happens at one of the two ends. -/
inductive SystemStep (Method Message : Type) where
  /-- A closure of `CallMethod` runs at the client. -/
  | call (call : Call Method Message)
  /-- `async_read` of the client. -/
  | clientRead (call : ReadCall)
  /-- `recv_fn` of the client goes on to its next wait. -/
  | clientAdvance
  /-- `async_write` of the client. -/
  | clientWrite (results : List WriteResult)
  /-- `async_read` of the server. -/
  | serverRead (call : ReadCall)
  /-- `recv_fn` of the server goes on to its next wait. -/
  | serverAdvance
  /-- `async_write` of the server. -/
  | serverWrite (results : List WriteResult)

/-- A read of an open connection takes the first bytes in flight. -/
def Arrives (call : ReadCall) (inFlight : Bytes) : Prop :=
  call.outcome.closes = false ∧ call.outcome.bytes <+: inFlight

instance (call : ReadCall) (inFlight : Bytes) : Decidable (Arrives call inFlight) :=
  inferInstanceAs (Decidable (_ ∧ _))

variable (server : RpcServer Method Message)

/-- One step of the system. -/
def step (s : System Method Message) :
    SystemStep Method Message → Option (System Method Message)
  | .call call =>
      (Client.step server.protobuf s.client (.call call)).map fun client => { s with client }
  | .clientRead call =>
      if Arrives call s.toClient then
        (Client.step server.protobuf s.client (.read call)).map fun client =>
          { s with client, toClient := s.toClient.drop call.outcome.bytes.length }
      else none
  | .clientAdvance =>
      (Client.step server.protobuf s.client .advance).map fun client => { s with client }
  | .clientWrite results =>
      (asyncWrite s.clientBuffer results).map fun outcome =>
        { s with
          clientSent := s.clientSent + outcome.written
          toServer := s.toServer ++ outcome.bytes }
  | .serverRead call =>
      if Arrives call s.toServer ∧ (server.advance s.server).isNone ∧ ¬ s.server.Ended then
        some { s with
          server := s.server.deliver call
          toServer := s.toServer.drop call.outcome.bytes.length }
      else none
  | .serverAdvance => (server.advance s.server).map fun receiver => { s with server := receiver }
  | .serverWrite results =>
      (asyncWrite s.serverBuffer results).map fun outcome =>
        { s with
          serverSent := s.serverSent + outcome.written
          toClient := s.toClient ++ outcome.bytes }

/-- In each `async_write`, nothing more is accepted after a short write. -/
def ShortWritesEnd (s : System Method Message) : SystemStep Method Message → Prop
  | .clientWrite results => ShortWriteEnds (needWrite s.clientBuffer.length) results
  | .serverWrite results => ShortWriteEnds (needWrite s.serverBuffer.length) results
  | _ => True

instance (s : System Method Message) (label : SystemStep Method Message) :
    Decidable (ShortWritesEnd s label) := by
  cases label <;> unfold ShortWritesEnd <;> infer_instance

/-- What the calls rely on: the method is registered at the server, protobuf parses
back exactly what it has serialised, and nothing it serialises for the call is
longer than a length word can say. -/
structure Serves (call : Call Method Message) (service : Service Method Message) : Prop where
  registered : server.serviceRegistry (server.protobuf.serviceName call.method) = some service
  found : service.findMethodByName (server.protobuf.methodName call.method) = some call.method
  request_header : ∀ requestId,
    server.protobuf.parseHeader
        (server.protobuf.serializeHeader (requestHeader server.protobuf call requestId)) =
      some (requestHeader server.protobuf call requestId)
  request_header_fits : ∀ requestId,
    (server.protobuf.serializeHeader (requestHeader server.protobuf call requestId)).length < 2 ^ 32
  request : server.protobuf.parseRequest call.method (server.protobuf.serialize call.request) =
    some call.request
  request_fits : (server.protobuf.serialize call.request).length < 2 ^ 32
  response_header : ∀ requestId,
    server.protobuf.parseHeader (server.protobuf.serializeHeader (responseHeader requestId)) =
      some (responseHeader requestId)
  response_header_fits : ∀ requestId,
    (server.protobuf.serializeHeader (responseHeader requestId)).length < 2 ^ 32
  response : server.protobuf.parseResponse call.method
      (server.protobuf.serialize (service.callMethod call.method call.request)) =
    some (service.callMethod call.method call.request)
  response_fits :
    (server.protobuf.serialize (service.callMethod call.method call.request)).length < 2 ^ 32

/-- The calls of a run are served. -/
def CallsServed (labels : List (SystemStep Method Message)) : Prop :=
  ∀ call, .call call ∈ labels → ∃ service, Serves server call service

end Drpc.EndToEnd
