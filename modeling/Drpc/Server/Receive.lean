import Drpc.Net.AsyncRead

/-! # The receiving coroutine of the server

`RpcServer::recv_fn` reads requests from its connection: the length of a header,
the header, the length of a request, the request. In front of each part it waits
until the part is buffered. `RpcServer.advance` is what the coroutine does
between two of its waits, on an ideal byte queue; it gives `none` where the
coroutine awaits `async_read`, and where it has ended.

However the incoming bytes are cut, the coroutine dispatches exactly what a
parser of the whole byte string finds (`recv_eq_reference`).
-/

namespace Drpc.Server

open Proto Net Settling

variable {Method Message : Type}

/-- Why the coroutine has left its loop. -/
inductive StopReason where
  | closed
  | headerLenUnread
  | headerUnparsed
  | invalidMagic
  | invalidVersion
  | requestLenUnread
  | serviceNotFound
  | methodNotFound
  | requestUnparsed
  deriving DecidableEq, Repr

/-- What the coroutine waits for, with the locals it keeps across the wait. -/
inductive Phase (Method Message : Type) where
  | headerLen
  | header (headerLen : Nat)
  | requestLen (header : Header)
  | request (header : Header) (service : Service Method Message) (method : Method)
      (requestLen : Nat)
  | stopped (reason : StopReason)

/-- What `service->CallMethod` was given, and the response it filled. -/
structure Dispatch (Method Message : Type) where
  method : Method
  request : Bytes
  requestId : Int64
  response : Message
  deriving DecidableEq, Repr

/-- The receiving side of a connection of the server. -/
structure Receiver (Method Message : Type) where
  queue : LimitedQueue UInt8
  closed : Bool
  phase : Phase Method Message
  dispatched : List (Dispatch Method Message)
  /-- Everything `recv_fn` has written to the output stream. -/
  output : Bytes

/-- The coroutine at the top of its loop on a new connection. -/
def Receiver.init : Receiver Method Message where
  queue := .empty
  closed := false
  phase := .headerLen
  dispatched := []
  output := []

/-- Leave the loop; the connection is closed behind it. -/
def Receiver.stop (s : Receiver Method Message) (reason : StopReason) : Receiver Method Message :=
  { s with phase := .stopped reason, closed := true }

/-- The server: protobuf and the registered services. -/
structure RpcServer (Method Message : Type) where
  protobuf : Protobuf Method Message
  serviceRegistry : Bytes → Option (Service Method Message)

/-- The header of a response. -/
def responseHeader (requestId : Int64) : Header where
  magic := magicNum
  version := version
  messageType := .response
  requestId := requestId
  serviceName := none
  methodName := none

variable (server : RpcServer Method Message)

/-- The frame written for a dispatch. -/
def RpcServer.responseFrame (dispatch : Dispatch Method Message) : Bytes :=
  frame (server.protobuf.serializeHeader (responseHeader dispatch.requestId))
    (server.protobuf.serialize dispatch.response)

/-- From the length of the header on. -/
def readHeaderLen (s : Receiver Method Message) : Receiver Method Message :=
  match readWord s.queue with
  | (none, queue) => { s with queue }.stop .headerLenUnread
  | (some headerLen, queue) => { s with queue, phase := .header headerLen }

/-- From the header on: parse it under its limit and check what it says. -/
def RpcServer.readHeader (s : Receiver Method Message) (headerLen : Nat) :
    Receiver Method Message :=
  match (s.queue.pushLimit headerLen).parse server.protobuf.parseHeader
      server.protobuf.partway with
  | (none, queue) => { s with queue }.stop .headerUnparsed
  | (some header, queue) =>
      let s := { s with queue := queue.popLimit }
      if header.magic ≠ magicNum then s.stop .invalidMagic
      else if header.version ≠ version then s.stop .invalidVersion
      else { s with phase := .requestLen header }

/-- From the length of the request on: the service and the method are looked up
before the request is awaited. -/
def RpcServer.readRequestLen (s : Receiver Method Message) (header : Header) :
    Receiver Method Message :=
  match readWord s.queue with
  | (none, queue) => { s with queue }.stop .requestLenUnread
  | (some requestLen, queue) =>
      let s := { s with queue }
      match server.serviceRegistry header.service with
      | none => s.stop .serviceNotFound
      | some service =>
          match service.findMethodByName header.method with
          | none => s.stop .methodNotFound
          | some method => { s with phase := .request header service method requestLen }

/-- From the request on: parse it under its limit, call the method and write the
response. -/
def RpcServer.readRequest (s : Receiver Method Message) (header : Header)
    (service : Service Method Message) (method : Method) (requestLen : Nat) :
    Receiver Method Message :=
  let limited := s.queue.pushLimit requestLen
  match limited.parse (server.protobuf.parseRequest method) server.protobuf.partway with
  | (none, queue) => { s with queue }.stop .requestUnparsed
  | (some request, queue) =>
      let dispatch : Dispatch Method Message :=
        { method, request := limited.window, requestId := header.requestId
          response := service.callMethod method request }
      { s with
        queue := queue.popLimit
        phase := .headerLen
        dispatched := s.dispatched ++ [dispatch]
        output := s.output ++ server.responseFrame dispatch }

/-- **`RpcServer::recv_fn` between two waits.** The first three waits also end
when the connection is closed; the wait for the request does not. -/
def RpcServer.advance (s : Receiver Method Message) : Option (Receiver Method Message) :=
  match s.phase with
  | .headerLen =>
      if s.queue.size < 4 ∧ s.closed = false then none
      else if s.closed = true ∧ s.queue.size < 4 then some (s.stop .closed)
      else some (readHeaderLen s)
  | .header headerLen =>
      if s.queue.size < headerLen ∧ s.closed = false then none
      else if s.closed = true ∧ s.queue.size < headerLen then some (s.stop .closed)
      else some (server.readHeader s headerLen)
  | .requestLen header =>
      if s.queue.size < 4 ∧ s.closed = false then none
      else if s.closed = true ∧ s.queue.size < 4 then some (s.stop .closed)
      else some (server.readRequestLen s header)
  | .request header service method requestLen =>
      if s.queue.size < requestLen then none
      else some (server.readRequest s header service method requestLen)
  | .stopped _ => none

/-- The number of advances still possible is bounded by the buffered bytes. -/
def Receiver.rank (s : Receiver Method Message) : Nat :=
  2 * s.queue.size +
    match s.phase with
    | .stopped _ => 0
    | .headerLen | .requestLen _ => 1
    | .header _ | .request .. => 2

/-- More bytes are committed to the read buffer. -/
def Receiver.append (s : Receiver Method Message) (bytes : Bytes) : Receiver Method Message :=
  { s with queue := s.queue.append bytes }

/-- The connection is closed when a read found the end of the stream. -/
def Receiver.close (s : Receiver Method Message) (closes : Bool) : Receiver Method Message :=
  { s with closed := s.closed || closes }

/-- The coroutine has ended. -/
def Receiver.Ended (s : Receiver Method Message) : Prop :=
  match s.phase with
  | .stopped _ => True
  | _ => False

instance (s : Receiver Method Message) : Decidable s.Ended := by
  unfold Receiver.Ended
  cases s.phase <;> infer_instance

/-- What one call of `async_read` does to the connection. -/
def Receiver.deliver (s : Receiver Method Message) (call : ReadCall) : Receiver Method Message :=
  (s.append call.outcome.bytes).close call.outcome.closes

/-- One `async_read` of a coroutine that has not ended, and what the coroutine
then does until it awaits the next one. -/
def RpcServer.receive : Receiver Method Message → ReadCall → Receiver Method Message :=
  feed server.advance Receiver.rank Receiver.Ended Receiver.deliver

/-- `recv_fn` on a new connection, over the calls of `async_read` it makes. -/
def RpcServer.recvFn (calls : List ReadCall) : Receiver Method Message :=
  calls.foldl server.receive (settle server.advance Receiver.rank .init)

/-! ## One advance -/

/-- The bytes the coroutine waits for. -/
def Phase.needs : Phase Method Message → Nat
  | .headerLen | .requestLen _ => 4
  | .header length => length
  | .request _ _ _ length => length
  | .stopped _ => 0

/-- What the coroutine does once the bytes it waits for are there. -/
def RpcServer.proceed (s : Receiver Method Message) : Receiver Method Message :=
  match s.phase with
  | .headerLen => readHeaderLen s
  | .header headerLen => server.readHeader s headerLen
  | .requestLen header => server.readRequestLen s header
  | .request header service method requestLen =>
      server.readRequest s header service method requestLen
  | .stopped _ => s

/-- With enough bytes the coroutine goes on, whether or not the connection is
closed. -/
theorem advance_of_enough {s : Receiver Method Message} (running : ¬ s.Ended)
    (enough : s.phase.needs ≤ s.queue.size) : server.advance s = some (server.proceed s) := by
  unfold RpcServer.advance RpcServer.proceed
  cases phase : s.phase with
  | stopped reason => simp [Receiver.Ended, phase] at running
  | request header service method requestLen =>
      simp only [phase, Phase.needs] at enough
      simp only [Nat.not_lt.mpr enough, ↓reduceIte]
  | _ =>
      simp only [phase, Phase.needs] at enough
      simp only [Nat.not_lt.mpr enough, false_and, and_false, ↓reduceIte]

/-- Everything one advance can do: it handles the bytes it waited for, or it
gives up on a closed connection. -/
theorem advance_cases {s t : Receiver Method Message} (taken : server.advance s = some t) :
    ¬ s.Ended ∧ ((s.phase.needs ≤ s.queue.size ∧ t = server.proceed s) ∨
      (s.closed = true ∧ s.queue.size < s.phase.needs ∧ t = s.stop .closed)) := by
  have running : ¬ s.Ended := by
    intro ended
    cases phase : s.phase with
    | stopped reason => simp [RpcServer.advance, phase] at taken
    | _ => simp [Receiver.Ended, phase] at ended
  refine ⟨running, ?_⟩
  by_cases enough : s.phase.needs ≤ s.queue.size
  · rw [advance_of_enough server running enough, Option.some.injEq] at taken
    exact .inl ⟨enough, taken.symm⟩
  · have short := Nat.lt_of_not_le enough
    right
    unfold RpcServer.advance at taken
    cases phase : s.phase with
    | stopped reason => simp [Receiver.Ended, phase] at running
    | request header service method requestLen =>
        simp only [phase, Phase.needs] at taken short
        simp only [short, ↓reduceIte, reduceCtorEq] at taken
    | _ =>
        simp only [phase, Phase.needs] at taken short ⊢
        cases closed : s.closed
        · simp [short, closed] at taken
        · simp only [short, closed, Bool.true_eq_false, and_false, ↓reduceIte, and_self,
            Option.some.injEq] at taken
          exact ⟨rfl, short, taken.symm⟩

/-- The advances of an open connection. -/
theorem advance_open {s t : Receiver Method Message} (open_ : s.closed = false) :
    server.advance s = some t ↔
      ¬ s.Ended ∧ s.phase.needs ≤ s.queue.size ∧ t = server.proceed s := by
  constructor
  · intro taken
    obtain ⟨running, ⟨enough, same⟩ | ⟨closed, -⟩⟩ := advance_cases server taken
    · exact ⟨running, enough, same⟩
    · simp [open_] at closed
  · intro all
    obtain ⟨running, enough, rfl⟩ := all
    exact advance_of_enough server running enough

/-- Bytes that arrive behind the awaited ones, and a close, do not change what
the coroutine does with the awaited ones. -/
theorem proceed_append_close {s : Receiver Method Message}
    (enough : s.phase.needs ≤ s.queue.size) (more : Bytes) (closes : Bool) :
    server.proceed ((s.append more).close closes) =
      ((server.proceed s).append more).close closes := by
  obtain ⟨queue, closed, phase, dispatched, output⟩ := s
  cases phase with
  | headerLen =>
      simp only [Phase.needs] at enough
      simp only [RpcServer.proceed, Receiver.append, Receiver.close, readHeaderLen,
        readWord_append enough, readWord_eq enough]
  | header headerLen =>
      simp only [Phase.needs] at enough
      have parsed := LimitedQueue.parse_append (queue.pushLimit headerLen) rfl enough
        server.protobuf.parseHeader server.protobuf.partway more
      have same : (queue.append more).pushLimit headerLen =
          (queue.pushLimit headerLen).append more := rfl
      simp only [RpcServer.proceed, Receiver.append, Receiver.close, RpcServer.readHeader,
        same, parsed]
      cases (queue.pushLimit headerLen).parse server.protobuf.parseHeader
          server.protobuf.partway with
      | mk result rest =>
          cases result with
          | none => rfl
          | some header =>
              dsimp only
              split
              · rfl
              · split <;> rfl
  | requestLen header =>
      simp only [Phase.needs] at enough
      simp only [RpcServer.proceed, Receiver.append, Receiver.close, RpcServer.readRequestLen,
        readWord_append enough, readWord_eq enough]
      cases server.serviceRegistry header.service with
      | none => rfl
      | some service =>
          dsimp only
          cases service.findMethodByName header.method <;> rfl
  | request header service method requestLen =>
      simp only [Phase.needs] at enough
      have parsed := LimitedQueue.parse_append (queue.pushLimit requestLen) rfl enough
        (server.protobuf.parseRequest method) server.protobuf.partway more
      have seen := LimitedQueue.window_append (queue.pushLimit requestLen) rfl enough more
      have same : (queue.append more).pushLimit requestLen =
          (queue.pushLimit requestLen).append more := rfl
      simp only [RpcServer.proceed, Receiver.append, Receiver.close, RpcServer.readRequest,
        same, parsed, seen]
      cases (queue.pushLimit requestLen).parse (server.protobuf.parseRequest method)
          server.protobuf.partway with
      | mk result rest => cases result <;> rfl
  | stopped reason => rfl

/-- A header the server accepts in front of the coroutine. -/
theorem readHeader_front {s : Receiver Method Message} {header : Header}
    {headerBytes rest : Bytes} (content : s.queue.content = headerBytes ++ rest)
    (parsed : server.protobuf.parseHeader headerBytes = some header)
    (magic : header.magic = magicNum) (current : header.version = version) :
    server.readHeader s headerBytes.length =
      { s with
        queue := ⟨rest, s.queue.consumed + headerBytes.length, none⟩
        phase := .requestLen header } := by
  simp only [RpcServer.readHeader, LimitedQueue.parse_front _ content parsed, LimitedQueue.popLimit,
    magic, current, ne_eq, not_true_eq_false, ↓reduceIte]

/-- The length of a request to a registered method. -/
theorem readRequestLen_encode {s : Receiver Method Message} {header : Header}
    {service : Service Method Message} {method : Method} {requestLen : Nat} {rest : Bytes}
    (fits : requestLen < 2 ^ 32)
    (content : s.queue.content = LittleEndian.encode requestLen ++ rest)
    (registered : server.serviceRegistry header.service = some service)
    (found : service.findMethodByName header.method = some method) :
    server.readRequestLen s header =
      { s with
        queue := { s.queue with content := rest, consumed := s.queue.consumed + 4 }
        phase := .request header service method requestLen } := by
  simp only [RpcServer.readRequestLen, readWord_encode fits content, registered, found]

/-- A request that parses in front of the coroutine is dispatched and answered. -/
theorem readRequest_front {s : Receiver Method Message} {header : Header}
    {service : Service Method Message} {method : Method} {request : Message} {body rest : Bytes}
    (content : s.queue.content = body ++ rest)
    (parsed : server.protobuf.parseRequest method body = some request) :
    server.readRequest s header service method body.length =
      { s with
        queue := ⟨rest, s.queue.consumed + body.length, none⟩
        phase := .headerLen
        dispatched := s.dispatched ++
          [⟨method, body, header.requestId, service.callMethod method request⟩]
        output := s.output ++ server.responseFrame
          ⟨method, body, header.requestId, service.callMethod method request⟩ } := by
  have seen : (s.queue.pushLimit body.length).window = body := by
    simp only [LimitedQueue.pushLimit, LimitedQueue.window, content, List.take_left]
  simp only [RpcServer.readRequest, LimitedQueue.parse_front _ content parsed,
    LimitedQueue.popLimit, seen]

/-- Handling what was waited for lowers the rank: the length words take bytes,
and the other two phases come before a cheaper one. -/
private theorem rank_proceed {s : Receiver Method Message} (running : ¬ s.Ended)
    (enough : s.phase.needs ≤ s.queue.size) : (server.proceed s).rank < s.rank := by
  obtain ⟨queue, closed, phase, dispatched, output⟩ := s
  cases phase with
  | headerLen =>
      simp only [Phase.needs] at enough
      simp only [RpcServer.proceed, readHeaderLen, readWord_eq enough]
      simp only [LimitedQueue.size] at enough
      simp only [Receiver.rank, LimitedQueue.size, List.length_drop]
      omega
  | header headerLen =>
      have shrinks := LimitedQueue.size_parse_le (queue.pushLimit headerLen)
        server.protobuf.parseHeader server.protobuf.partway
      change _ ≤ queue.size at shrinks
      simp only [RpcServer.proceed, RpcServer.readHeader]
      revert shrinks
      rcases (queue.pushLimit headerLen).parse server.protobuf.parseHeader
        server.protobuf.partway with ⟨_ | header, rest⟩
      · intro shrinks
        dsimp only at shrinks
        simp only [Receiver.rank, Receiver.stop]
        omega
      · intro shrinks
        change rest.popLimit.size ≤ queue.size at shrinks
        dsimp only
        split
        · simp only [Receiver.rank, Receiver.stop]
          omega
        · split
          · simp only [Receiver.rank, Receiver.stop]
            omega
          · simp only [Receiver.rank]
            omega
  | requestLen header =>
      simp only [Phase.needs] at enough
      simp only [RpcServer.proceed, RpcServer.readRequestLen, readWord_eq enough]
      simp only [LimitedQueue.size] at enough
      cases server.serviceRegistry header.service with
      | none =>
          simp only [Receiver.rank, Receiver.stop, LimitedQueue.size, List.length_drop]
          omega
      | some service =>
          dsimp only
          cases service.findMethodByName header.method with
          | none =>
              simp only [Receiver.rank, Receiver.stop, LimitedQueue.size, List.length_drop]
              omega
          | some method =>
              simp only [Receiver.rank, LimitedQueue.size, List.length_drop]
              omega
  | request header service method requestLen =>
      have shrinks := LimitedQueue.size_parse_le (queue.pushLimit requestLen)
        (server.protobuf.parseRequest method) server.protobuf.partway
      change _ ≤ queue.size at shrinks
      simp only [RpcServer.proceed, RpcServer.readRequest]
      revert shrinks
      rcases (queue.pushLimit requestLen).parse (server.protobuf.parseRequest method)
        server.protobuf.partway with ⟨_ | request, rest⟩
      · intro shrinks
        dsimp only at shrinks
        simp only [Receiver.rank, Receiver.stop]
        omega
      · intro shrinks
        change rest.popLimit.size ≤ queue.size at shrinks
        simp only [Receiver.rank]
        omega
  | stopped reason => exact (running trivial).elim

/-- The coroutine comes to a wait or to its end after finitely many advances. -/
theorem ranked_advance : Ranked server.advance Receiver.rank := by
  intro s t taken
  obtain ⟨running, ⟨enough, rfl⟩ | ⟨-, -, rfl⟩⟩ := advance_cases server taken
  · exact rank_proceed server running enough
  · cases phase : s.phase with
    | stopped reason => simp [Receiver.Ended, phase] at running
    | _ => simp [Receiver.rank, Receiver.stop, phase]

/-- The connection stays open until the coroutine ends. -/
theorem advance_closed {s t : Receiver Method Message} (taken : server.advance s = some t) :
    (t.closed = s.closed ∧ ¬ t.Ended) ∨ (t.Ended ∧ t.closed = true) := by
  obtain ⟨running, ⟨enough, rfl⟩ | ⟨-, -, rfl⟩⟩ := advance_cases server taken
  · obtain ⟨queue, closed, phase, dispatched, output⟩ := s
    cases phase with
    | headerLen =>
        simp only [RpcServer.proceed, readHeaderLen, readWord_eq enough]
        exact .inl ⟨trivial, id⟩
    | header headerLen =>
        simp only [RpcServer.proceed, RpcServer.readHeader]
        split
        · exact .inr ⟨trivial, rfl⟩
        · split
          · exact .inr ⟨trivial, rfl⟩
          · split
            · exact .inr ⟨trivial, rfl⟩
            · exact .inl ⟨rfl, id⟩
    | requestLen header =>
        simp only [RpcServer.proceed, RpcServer.readRequestLen, readWord_eq enough]
        split
        · exact .inr ⟨trivial, rfl⟩
        · split
          · exact .inr ⟨trivial, rfl⟩
          · exact .inl ⟨rfl, id⟩
    | request header service method requestLen =>
        simp only [RpcServer.proceed, RpcServer.readRequest]
        split
        · exact .inr ⟨trivial, rfl⟩
        · exact .inl ⟨rfl, id⟩
    | stopped reason => exact (running trivial).elim
  · exact .inr ⟨trivial, rfl⟩

end Drpc.Server
