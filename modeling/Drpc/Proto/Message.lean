import Drpc.Library.LittleEndian
import Drpc.Library.LimitedQueue

/-! # Headers, frames and what the two ends use of protobuf

A frame on the wire is a `uint32_t` length and a serialised `Header`, then a
`uint32_t` length and a serialised message. Parsing and serialising are the work
of protobuf and stay parameters (`Protobuf`); a parse sees exactly the bytes the
limit of the stream shows it.
-/

namespace Drpc

abbrev Bytes := List UInt8

namespace Proto

/-- `MessageType` of `message.proto`; a proto3 enumeration also keeps the numbers
it has no name for. -/
inductive MessageType where
  | unspecified
  | request
  | response
  | unknown (value : Int32) (unnamed : value ∉ [0, 1, 2])
  deriving DecidableEq, Repr

/-- `Header` of `message.proto`. -/
structure Header where
  magic : UInt64
  version : Int32
  messageType : MessageType
  requestId : Int64
  serviceName : Option Bytes
  methodName : Option Bytes
  deriving DecidableEq, Repr

def magicNum : UInt64 := 0x30F8CA9B

def version : Int32 := 1

/-- `header.service_name()`: an absent name reads as the empty one. -/
def Header.service (header : Header) : Bytes := header.serviceName.getD []

/-- `header.method_name()`: an absent name reads as the empty one. -/
def Header.method (header : Header) : Bytes := header.methodName.getD []

/-- What the client and the server use of protobuf. The parsers are partial
functions of the bounded bytes; `partway` says how many of them a failed parse
has taken from the stream, at each position of the stream. -/
structure Protobuf (Method Message : Type) where
  /-- `method->service()->full_name()` -/
  serviceName : Method → Bytes
  /-- `method->name()` -/
  methodName : Method → Bytes
  parseHeader : Bytes → Option Header
  serializeHeader : Header → Bytes
  parseRequest : Method → Bytes → Option Message
  parseResponse : Method → Bytes → Option Message
  serialize : Message → Bytes
  partway : Nat → Bytes → Nat

/-- A registered service: its descriptor's `FindMethodByName` and its
`CallMethod`, which fills the response before it returns. -/
structure Service (Method Message : Type) where
  findMethodByName : Bytes → Option Method
  callMethod : Method → Message → Message

/-- The bytes of one frame: both lengths are converted to `uint32_t`. -/
def frame (header body : Bytes) : Bytes :=
  LittleEndian.encode header.length ++ header ++
    (LittleEndian.encode body.length ++ body)

theorem length_frame (header body : Bytes) :
    (frame header body).length = 8 + header.length + body.length := by
  simp only [frame, List.length_append, LittleEndian.length_encode]
  omega

end Proto

/-- Read a `uint32_t` from the front of a byte queue: the word, or `none` when
the read returned nothing. -/
def readWord (queue : LimitedQueue UInt8) : Option Nat × LimitedQueue UInt8 :=
  let (bytes, rest) := queue.read 4
  (if bytes.length = 0 then none else some (LittleEndian.decode bytes), rest)

/-- The word at the front does not depend on what comes after it. -/
theorem readWord_append {queue : LimitedQueue UInt8} (enough : 4 ≤ queue.size) (more : Bytes) :
    readWord (queue.append more) = ((readWord queue).1, (readWord queue).2.append more) := by
  simp only [readWord, LimitedQueue.read_append enough more]

/-- With four bytes in the queue the read succeeds and takes them. -/
theorem readWord_eq {queue : LimitedQueue UInt8} (enough : 4 ≤ queue.size) :
    readWord queue = (some (LittleEndian.decode queue.content),
      { queue with content := queue.content.drop 4, consumed := queue.consumed + 4 }) := by
  obtain ⟨content, consumed, limit⟩ := queue
  simp only [LimitedQueue.size] at enough
  have word : LittleEndian.decode (content.take 4) = LittleEndian.decode content := by
    conv_rhs => rw [← List.take_append_drop 4 content]
    exact (LittleEndian.decode_append (by simp; omega) _).symm
  simp only [readWord, LimitedQueue.read, List.length_take, word]
  have nonzero : min 4 content.length ≠ 0 := by omega
  simp only [nonzero, ↓reduceIte, Prod.mk.injEq, true_and, LimitedQueue.mk.injEq, and_true]
  omega

/-- A word at the front is read back. -/
theorem readWord_encode {queue : LimitedQueue UInt8} {value : Nat} {rest : Bytes}
    (fits : value < 2 ^ 32) (content : queue.content = LittleEndian.encode value ++ rest) :
    readWord queue =
      (some value, { queue with content := rest, consumed := queue.consumed + 4 }) := by
  have enough : 4 ≤ queue.size := by simp [LimitedQueue.size, content]
  rw [readWord_eq enough, content, LittleEndian.decode_encode_append fits]
  rfl

end Drpc
