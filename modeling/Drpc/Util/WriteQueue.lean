import Drpc.Library.Transition
import Drpc.Util.Stores

/-! # The write buffer as a byte queue

What `write` and `commit_send` do to a buffer, in any order and any amounts: bytes
are appended at the end and dropped from the front, and `get_iovecs` shows the front
(`write_queue`). The loops of both operations return.
-/

namespace Drpc.Util

open Transition ChainedBuffer

/-- An operation on the write buffer. -/
inductive WriteOp where
  | write (data : Bytes)
  | commitSend (send : Nat)
  deriving DecidableEq, Repr

/-- One operation; it is `none` where the source does not return. -/
def WriteOp.run (blockSize : Nat) (b : ChainedBuffer) : WriteOp → Option ChainedBuffer
  | .write data => (b.write blockSize data).map Prod.fst
  | .commitSend send => b.commitSend send

/-- No more than `size()` is sent. -/
def WriteOp.Allowed (b : ChainedBuffer) : WriteOp → Prop
  | .write _ => True
  | .commitSend send => send ≤ b.totalSize

instance WriteOp.decidableAllowed (b : ChainedBuffer) (op : WriteOp) : Decidable (op.Allowed b) :=
  match op with
  | .write _ => .isTrue trivial
  | .commitSend send => inferInstanceAs (Decidable (send ≤ b.totalSize))

/-- What an operation does to a byte queue. -/
def WriteOp.onQueue (queue : Bytes) : WriteOp → Bytes
  | .write data => queue ++ data
  | .commitSend send => queue.drop send

namespace ChainedBuffer

variable {b : ChainedBuffer} {before : List BufferBlock} {last : BufferBlock} {contents : Bytes}
  {blockSize : Nat}

/-- `get_iovecs` shows the first `IOV_MAX` blocks of the chain. -/
theorem Stores.getIovecs (stores : b.Stores blockSize before last contents) :
    b.getIovecs.flatten = (b.nodes.take iovMax).flatMap fun node => (b.block node).unread := by
  rw [stores.holds.getIovecs_eq, ← stores.holds.map_nodes, ← List.map_take, List.map_map,
    List.flatMap_def]
  rfl

/-- That is everything when there are no more blocks. -/
theorem Stores.getIovecs_all (stores : b.Stores blockSize before last contents)
    (few : b.nodes.length ≤ iovMax) : b.getIovecs.flatten = contents := by
  rw [stores.getIovecs, List.take_of_length_le few, ← stores.contents_eq]
  rfl

theorem Stores.pointers (stores : b.Stores blockSize before last contents) :
    b.head ≠ none ∧ b.tail ≠ none :=
  stores.holds.pointers (by simp)

end ChainedBuffer

/-- **One operation** returns and does to the contents what it does to a queue. -/
theorem writeOp_stores {blockSize : Nat} (positive : 0 < blockSize) {b : ChainedBuffer}
    {before : List BufferBlock} {last : BufferBlock} {contents : Bytes}
    (stores : b.Stores blockSize before last contents) {op : WriteOp} (allowed : op.Allowed b) :
    ∃ next front back, op.run blockSize b = some next ∧
      next.Stores blockSize front back (op.onQueue contents) := by
  cases op with
  | write data =>
      obtain ⟨next, front, back, run, stored⟩ := stores.write positive data
      refine ⟨next, front, back, ?_, stored⟩
      simp only [WriteOp.run, run, Option.map_some]
  | commitSend send =>
      have within : send ≤ contents.length := stores.totalSize ▸ allowed
      exact stores.commitSend within

/-- A run of the operations on a queue. -/
theorem exec_stores {blockSize : Nat} (positive : 0 < blockSize) {b : ChainedBuffer}
    {before : List BufferBlock} {last : BufferBlock} {contents : Bytes}
    (stores : b.Stores blockSize before last contents) {ops : List WriteOp}
    (allowed : Along (WriteOp.run blockSize) (fun b op => op.Allowed b) b ops) :
    ∃ final front back, exec (WriteOp.run blockSize) b ops = some final ∧
      final.Stores blockSize front back (ops.foldl WriteOp.onQueue contents) := by
  induction ops generalizing b before last contents with
  | nil => exact ⟨b, before, last, rfl, stores⟩
  | cons op rest ih =>
      obtain ⟨next, front, back, run, stored⟩ := writeOp_stores positive stores allowed.1
      obtain ⟨final, front, back, runs, stored⟩ := ih stored (allowed.2 next run)
      exact ⟨final, front, back, exec_cons_eq_some.mpr ⟨next, run, runs⟩, stored⟩

/-- **The write buffer is a byte queue.** Every run of `write` and `commit_send` returns
and leaves what it leaves of a queue, with `size()` its length. In the state it leads
to, `write` returns the number of bytes it was given and appends them, `commit_send`
drops what it is given and keeps a head and a tail, and `get_iovecs` shows the first
`IOV_MAX` blocks, which is everything when there are no more. -/
theorem write_queue (memory : Ptr → Nat → UInt8) (ops : List WriteOp)
    (allowed : Along (WriteOp.run 4096) (fun b op => op.Allowed b) (init memory) ops) :
    ∃ b, exec (WriteOp.run 4096) (init memory) ops = some b ∧
      b.contents = ops.foldl WriteOp.onQueue [] ∧ b.totalSize = b.contents.length ∧
      b.head ≠ none ∧ b.tail ≠ none ∧
      (∀ data, ∃ next, b.write 4096 data = some (next, data.length) ∧
        next.contents = b.contents ++ data) ∧
      (∀ send ≤ b.totalSize, ∃ next, b.commitSend send = some next ∧
        next.contents = b.contents.drop send ∧ next.head ≠ none ∧ next.tail ≠ none) ∧
      b.getIovecs.flatten = ((b.nodes.take iovMax).flatMap fun node => (b.block node).unread) ∧
      (b.nodes.length ≤ iovMax → b.getIovecs.flatten = b.contents) := by
  obtain ⟨b, before, last, run, stores⟩ :=
    exec_stores (by decide) (stores_init memory (by decide)) allowed
  have same := stores.contents_eq
  refine ⟨b, run, same, by rw [same, stores.totalSize], stores.pointers.1, stores.pointers.2,
    fun data => ?_, fun send within => ?_, stores.getIovecs, fun few => ?_⟩
  · obtain ⟨next, front, back, written, stored⟩ := stores.write (by decide) data
    exact ⟨next, written, by rw [stored.contents_eq, same]⟩
  · obtain ⟨next, front, back, sent, stored⟩ := stores.commitSend (stores.totalSize ▸ within)
    exact ⟨next, sent, by rw [stored.contents_eq, same], stored.pointers⟩
  · rw [same, stores.getIovecs_all few]

/-- Five bytes, of which three are sent, and one more. -/
theorem write_queue_of_six :
    ∃ b, exec (WriteOp.run 4096) (init fun _ _ => 0)
        [.write [1, 2, 3, 4, 5], .commitSend 3, .write [6]] = some b ∧ b.contents = [4, 5, 6] := by
  obtain ⟨b, run, same, -⟩ := write_queue (fun _ _ => 0)
    [.write [1, 2, 3, 4, 5], .commitSend 3, .write [6]] (by decide +kernel)
  exact ⟨b, run, same⟩

end Drpc.Util
