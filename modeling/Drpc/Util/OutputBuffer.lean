import Drpc.Library.Transition
import Drpc.Util.Stores

/-! # The output side of the buffer as a stream

`output_next` and `output_back_up` are the `Next` and `BackUp` of a zero-copy
output stream: a caller fills the region it is given and returns what it did not
use. Mixed with `write` and `commit_send` in any order they append exactly what
the caller has put there (`output_faithful`), as long as `output_next` does not
find a full tail. On a full tail the block of the new tail is copied over the
block of the old one, and what that block held is lost (`output_overwrites`).
-/

namespace Drpc.Util

open Transition ChainedBuffer

/-- An operation of the output side. -/
inductive OutputOp where
  | write (data : Bytes)
  /-- `output_next`; the caller puts `source` into the region. -/
  | next (source : Nat → UInt8)
  | backUp (count : Nat)
  | commitSend (send : Nat)

/-- The buffer, with what its contents should be and the size of the region that
`output_next` has just returned. -/
structure Output where
  buffer : ChainedBuffer
  expected : Bytes
  region : Option Nat

def Output.init (memory : Ptr → Nat → UInt8) : Output := ⟨.init memory, [], none⟩

/-- One operation on a buffer with blocks of `blockSize` bytes. -/
def OutputOp.run (blockSize : Nat) (o : Output) : OutputOp → Option Output
  | .write data =>
      (o.buffer.write blockSize data).map fun (buffer, _) => ⟨buffer, o.expected ++ data, none⟩
  | .next source =>
      (o.buffer.outputNext blockSize).map fun (buffer, node, offset, size) =>
        let region := (List.range size.toNat).map source
        ⟨buffer.fill node offset region, o.expected ++ region, some size.toNat⟩
  | .backUp count =>
      (o.buffer.outputBackUp count).map fun buffer =>
        ⟨buffer, o.expected.take (o.expected.length - count), none⟩
  | .commitSend send =>
      (o.buffer.commitSend send).map fun buffer => ⟨buffer, o.expected.drop send, none⟩

/-- How the operations are called: a region is returned right after it was given,
and no more than `size()` is sent. -/
def OutputOp.Allowed (o : Output) : OutputOp → Prop
  | .write _ | .next _ => True
  | .backUp count => ∃ size ∈ o.region, count ≤ size
  | .commitSend send => send ≤ o.buffer.totalSize

/-- `output_next` finds room in the tail. -/
def OutputOp.FindsRoom (blockSize : Nat) (o : Output) : OutputOp → Prop
  | .next _ => ∀ tail ∈ o.buffer.tail, (o.buffer.block tail).full blockSize = false
  | .write _ | .backUp _ | .commitSend _ => True

instance OutputOp.decidableAllowed (o : Output) (op : OutputOp) : Decidable (op.Allowed o) := by
  cases op <;> unfold OutputOp.Allowed <;> infer_instance

instance OutputOp.decidableFindsRoom (blockSize : Nat) (o : Output) (op : OutputOp) :
    Decidable (op.FindsRoom blockSize o) := by
  cases op <;> unfold OutputOp.FindsRoom <;> infer_instance

/-- The stream is faithful: the contents are what they should be, `size()` is their
number, and a region that was given has room. -/
def Output.Faithful (o : Output) : Prop :=
  o.buffer.contents = o.expected ∧ o.buffer.totalSize = o.expected.length ∧
    ∀ size ∈ o.region, 0 < size

/-- The invariant: the blocks store what they should, and a region that was given
is the end of the tail. -/
def Output.Inv (blockSize : Nat) (o : Output) : Prop :=
  ∃ before last, o.buffer.Stores blockSize before last o.expected ∧
    ∀ size ∈ o.region, 0 < size ∧ size ≤ last.size

theorem Output.Inv.faithful {blockSize : Nat} {o : Output} (inv : o.Inv blockSize) :
    o.Faithful := by
  obtain ⟨before, last, stores, region⟩ := inv
  exact ⟨stores.contents_eq, stores.totalSize, fun size given => (region size given).1⟩

/-- **One operation** is defined and does what it should. -/
theorem run_inv {blockSize : Nat} (positive : 0 < blockSize) {o : Output} {op : OutputOp}
    (inv : o.Inv blockSize) (allowed : op.Allowed o) (room : op.FindsRoom blockSize o) :
    ∃ next, op.run blockSize o = some next ∧ next.Inv blockSize := by
  obtain ⟨before, last, stores, region⟩ := inv
  cases op with
  | write data =>
      obtain ⟨buffer, front, back, run, stored⟩ := stores.write positive data
      refine ⟨⟨buffer, o.expected ++ data, none⟩, ?_, front, back, stored, by simp⟩
      simp only [OutputOp.run, run, Option.map_some]
  | next source =>
      obtain ⟨tail, found, same, -⟩ := stores.tail
      have notFull := room tail found
      rw [same] at notFull
      have space : last.writePos < blockSize := by
        have within := stores.lastSound.within
        simp only [BufferBlock.full, decide_eq_false_iff_not] at notFull
        omega
      obtain ⟨buffer, node, run, filled⟩ := stores.outputNext space
      obtain ⟨after, stored, long⟩ := filled
        ((List.range (blockSize - last.writePos)).map source) (by simp)
      simp only [List.length_map, List.length_range] at long
      have given : ∀ size ∈ some (blockSize - last.writePos), 0 < size ∧ size ≤ after.size := by
        rintro _ ⟨⟩
        omega
      refine ⟨⟨_, _, some (blockSize - last.writePos)⟩, ?_, before, after, stored, given⟩
      simp only [OutputOp.run, run, Option.map_some, Int.toNat_natCast]
      rfl
  | backUp count =>
      obtain ⟨size, given, less⟩ := allowed
      obtain ⟨buffer, after, run, stored⟩ := stores.outputBackUp (less.trans (region size given).2)
      refine ⟨⟨buffer, _, none⟩, ?_, before, after, stored, by simp⟩
      simp only [OutputOp.run, run, Option.map_some]
  | commitSend send =>
      have within : send ≤ o.expected.length := stores.totalSize ▸ allowed
      obtain ⟨buffer, front, back, run, stored⟩ := stores.commitSend within
      refine ⟨⟨buffer, _, none⟩, ?_, front, back, stored, by simp⟩
      simp only [OutputOp.run, run, Option.map_some]

/-- **The output side is a faithful stream** in every run in which `output_next`
finds room in the tail: every operation returns, the contents are what was written
and filled in, less what was taken back and sent, and `size()` is their number. -/
theorem output_faithful (memory : Ptr → Nat → UInt8) (ops : List OutputOp)
    (allowed : Along (OutputOp.run 4096) (fun o op => op.Allowed o) (.init memory) ops)
    (room : Along (OutputOp.run 4096) (fun o op => op.FindsRoom 4096 o) (.init memory) ops) :
    ∃ o, exec (OutputOp.run 4096) (.init memory) ops = some o ∧ o.Faithful := by
  have start : (Output.init memory).Inv 4096 :=
    ⟨[], _, stores_init memory (by decide), by simp [Output.init]⟩
  obtain ⟨o, run, inv⟩ := exec_total (fun o op inv both =>
    run_inv (by decide) inv both.1 both.2) start (along_and allowed room)
  exact ⟨o, run, inv.faithful⟩

/-- A length word and a message of three bytes, through `Next` and `BackUp`. -/
theorem output_faithful_of_message :
    ∃ o, exec (OutputOp.run 4096) (.init fun _ _ => 0)
        [.write [3, 0, 0, 0], .next fun _ => 7, .backUp 4089, .commitSend 2] = some o ∧
      o.Faithful := by
  refine output_faithful (fun _ _ => 0) _ ?_ ?_
  · decide +kernel
  · decide +kernel

/-- A message that fills the first block and goes on: the second region lies in the
first block, and the first 4096 bytes are gone. -/
theorem output_overwrites :
    ¬ ∀ (memory : Ptr → Nat → UInt8) (ops : List OutputOp),
      Along (OutputOp.run 4096) (fun o op => op.Allowed o) (.init memory) ops →
        ∃ o, exec (OutputOp.run 4096) (.init memory) ops = some o ∧ o.Faithful := by
  intro always
  obtain ⟨o, run, same, -⟩ := always (fun _ _ => 0) [.next fun _ => 1, .next fun _ => 2]
    (by decide +kernel)
  have lost : ∀ o ∈ exec (OutputOp.run 4096) (.init fun _ _ => 0)
      [.next fun _ => 1, .next fun _ => 2],
      o.buffer.contents.length = 4096 ∧ o.expected.length = 8192 := by
    decide +kernel
  obtain ⟨short, long⟩ := lost o run
  rw [same, long] at short
  exact absurd short (by decide)

end Drpc.Util
