import Drpc.Library.Settling
import Drpc.Proto.Message

/-! # The read loop of a connection

`Connection::async_read` calls `::read` until the view it was given is full, the
socket has nothing more, the peer has closed or an error ends the connection.
-/

namespace Drpc.Net

/-- What one `::read` can give. -/
inductive ReadResult where
  /-- `n > 0` bytes. -/
  | data (bytes : Bytes)
  /-- `n == 0`: the peer has closed. -/
  | eof
  /-- `EAGAIN` or `EWOULDBLOCK`. -/
  | again
  /-- `EINTR`. -/
  | interrupted
  /-- Any other error. -/
  | failed
  deriving DecidableEq, Repr

/-- One call of `async_read`: the space its view offers and what `::read` gives.
Where the results end before the loop does, the socket has nothing more. -/
structure ReadCall where
  space : Nat
  results : List ReadResult
  deriving DecidableEq, Repr

/-- What the loop leaves: the bytes placed in the view, and whether it closed the
connection. -/
structure ReadOutcome where
  bytes : Bytes
  closes : Bool
  deriving DecidableEq, Repr

/-- The loop of `Connection::async_read`. -/
def readLoop : Nat → List ReadResult → ReadOutcome
  | 0, _ => ⟨[], false⟩
  | _ + 1, [] => ⟨[], false⟩
  | maxsize + 1, .data bytes :: rest =>
      let after := readLoop (maxsize + 1 - bytes.length) rest
      ⟨bytes ++ after.bytes, after.closes⟩
  | _ + 1, .eof :: _ => ⟨[], true⟩
  | _ + 1, .again :: _ => ⟨[], false⟩
  | maxsize + 1, .interrupted :: rest => readLoop (maxsize + 1) rest
  | _ + 1, .failed :: _ => ⟨[], true⟩

/-- The outcome of one call. -/
def ReadCall.outcome (call : ReadCall) : ReadOutcome := readLoop call.space call.results

/-- A call that reads the bytes at once and finds nothing more. -/
def ReadCall.ofBytes (bytes : Bytes) : ReadCall := ⟨bytes.length + 1, [.data bytes]⟩

/-- A call that finds the peer closed. -/
def ReadCall.ofEof : ReadCall := ⟨1, [.eof]⟩

@[simp] theorem outcome_ofBytes (bytes : Bytes) :
    (ReadCall.ofBytes bytes).outcome = ⟨bytes, false⟩ := by
  have space : bytes.length + 1 - bytes.length = 1 := by omega
  simp only [ReadCall.ofBytes, ReadCall.outcome, readLoop, space, List.append_nil]

@[simp] theorem outcome_ofEof : ReadCall.ofEof.outcome = ⟨[], true⟩ := rfl

/-- The bytes a sequence of calls has received. -/
def received (calls : List ReadCall) : Bytes := calls.flatMap fun call => call.outcome.bytes

/-- Nothing arrives once the connection was closed: `::read` gives no more bytes. -/
def EndsStream (calls : List ReadCall) : Prop :=
  Settling.Ends (fun call => call.outcome.closes = true) (fun call => call.outcome.bytes = []) calls

end Drpc.Net
