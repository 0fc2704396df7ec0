import Drpc.Example.EchoCode
import Drpc.Server.Receive

/-! # The echo service

The service of the example directory, and its server, with the generated code of all messages.
Over `flatRuntime` they are the concrete server and client on which the statements about the
protocol are evaluated.
-/

namespace Drpc.Example

open Proto Server

variable {Unknown : Type}

/-- The methods of `EchoService`. -/
inductive EchoMethod where
  | echo
  | echo1
  deriving DecidableEq, Repr

/-- `"EchoService"` -/
def serviceName : Bytes := [69, 99, 104, 111, 83, 101, 114, 118, 105, 99, 101]

/-- `"Echo"` and `"Echo1"` -/
def EchoMethod.name : EchoMethod → Bytes
  | .echo => [69, 99, 104, 111]
  | .echo1 => [69, 99, 104, 111, 49]

/-- `"[Echo] "` and `"[Echo1] "` -/
def EchoMethod.tag : EchoMethod → Bytes
  | .echo => [91, 69, 99, 104, 111, 93, 32]
  | .echo1 => [91, 69, 99, 104, 111, 49, 93, 32]

/-- Protobuf with the generated code of headers and echo messages. A failed parse has pulled
the whole window, as it does when the window lies in one block. -/
def generatedProtobuf (runtime : Runtime Unknown) :
    Protobuf EchoMethod (Parsed Unknown Bytes) where
  serviceName _ := serviceName
  methodName := EchoMethod.name
  parseHeader bytes := ((headerCode runtime).parseFromZeroCopyStream bytes).map Parsed.fields
  serializeHeader header := (headerCode runtime).internalSerialize ⟨header, []⟩
  parseRequest _ := (echoCode runtime).parseFromZeroCopyStream
  parseResponse _ := (echoCode runtime).parseFromZeroCopyStream
  serialize := (echoCode runtime).internalSerialize
  partway _ window := window.length

/-- `EchoServiceImpl`: on a new response, `set_message` to the message with the tag of the
method in front. -/
def echoService : Service EchoMethod (Parsed Unknown Bytes) where
  findMethodByName name :=
    if name = EchoMethod.echo.name then some .echo
    else if name = EchoMethod.echo1.name then some .echo1
    else none
  callMethod method request := ⟨method.tag ++ request.fields, []⟩

/-- The server of `echo_server.cpp`. -/
def generatedServer (runtime : Runtime Unknown) : RpcServer EchoMethod (Parsed Unknown Bytes) where
  protobuf := generatedProtobuf runtime
  serviceRegistry name := if name = serviceName then some echoService else none

/-- A header whose names are readable is read back. -/
theorem parseHeader_serializeHeader {runtime : Runtime Unknown} (sound : runtime.Lawful)
    {header : Header} (readable : header.Readable runtime) :
    (generatedProtobuf runtime).parseHeader ((generatedProtobuf runtime).serializeHeader header) =
      some header := by
  have back := (headerCode_lawful sound).parseFromZeroCopyStream_internalSerialize
    (.of_known readable)
  exact congrArg (Option.map Parsed.fields) back

/-! ## Over a concrete runtime -/

/-- An echo message, with the fields it does not know. -/
abbrev EchoMessage : Type := Parsed UnknownField Bytes

def protobuf : Protobuf EchoMethod EchoMessage := generatedProtobuf flatRuntime

def echoServer : RpcServer EchoMethod EchoMessage := generatedServer flatRuntime

/-- The header of a call of `method`. -/
def echoHeader (method : EchoMethod) (requestId : Int64) : Header where
  magic := magicNum
  version := version
  messageType := .request
  requestId := requestId
  serviceName := some serviceName
  methodName := some method.name

/-- A call on the wire. -/
def echoRequest (method : EchoMethod) (requestId : Int64) (message : EchoMessage) : Bytes :=
  frame (protobuf.serializeHeader (echoHeader method requestId)) (protobuf.serialize message)

/-- The message `"hi"`. -/
def hi : EchoMessage := ⟨[104, 105], []⟩

/-- The first call of `Echo`, with the message `"hi"`. -/
def hiRequest : Bytes := echoRequest .echo 0 hi

end Drpc.Example
