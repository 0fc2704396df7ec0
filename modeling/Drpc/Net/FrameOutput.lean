import Mathlib.Data.List.GetD
import Drpc.Net.SendBuffer
import Drpc.Util.WriteQueue

/-! # Frames through the write buffer

A frame is written in four calls: a length word, a header through the zero-copy stream,
a length word, a message through the stream. `SerializeToZeroCopyStream` fills the
regions of `output_next` and gives back what it did not use of the last. As long as a
message fits in what is left of the tail, the frame is appended (`Stores.writeFrame`):
one that does not goes on on a full tail, where `output_next` overwrites the block.
`async_write` then sends what the ideal one sends (`Stores.asyncWrite`).
-/

namespace Drpc.Util

/-- Bytes that are in the array already may be stored again. -/
theorem BufferBlock.store_append_bytes (block : BufferBlock) (offset count : Nat)
    (source : Bytes) :
    block.store offset (source ++ block.bytes (offset + source.length) count) =
      block.store offset source := by
  simp only [store, mk.injEq, and_true]
  funext index
  simp only [List.length_append, length_bytes]
  by_cases inside : offset ≤ index ∧ index < offset + source.length
  · have both : offset ≤ index ∧ index < offset + (source.length + count) := by omega
    have before : index - offset < source.length := by omega
    rw [if_pos inside, if_pos both, List.getD_append _ _ _ _ before]
  · rw [if_neg inside]
    split
    next both =>
      have behind : source.length ≤ index - offset := by omega
      have short : index - offset - source.length < count := by omega
      have place : offset + source.length + (index - offset - source.length) = index := by omega
      rw [List.getD_append_right _ _ _ _ behind, bytes, List.getD_eq_getElem?_getD,
        List.getElem?_map, List.getElem?_range short, Option.map_some, Option.getD_some, place]
    next => rfl

namespace ChainedBuffer

/-- The loop of `SerializeToZeroCopyStream`. -/
def serializeLoop (blockSize : Nat) : Nat → ChainedBuffer → Bytes → Option ChainedBuffer
  | _, b, [] => some b
  | 0, _, _ :: _ => none
  | fuel + 1, b, byte :: rest =>
      (b.outputNext blockSize).bind fun (next, node, offset, size) =>
        let b := next.fill node offset ((byte :: rest).take size.toNat)
        if (byte :: rest).length ≤ size.toNat then
          b.outputBackUp (size - ((byte :: rest).length : Nat))
        else serializeLoop blockSize fuel b ((byte :: rest).drop size.toNat)

/-- `SerializeToZeroCopyStream` of a message: every region takes a byte at least. -/
def serialize (blockSize : Nat) (b : ChainedBuffer) (bytes : Bytes) : Option ChainedBuffer :=
  serializeLoop blockSize bytes.length b bytes

/-- What `recv_fn` of the server and the closure of `CallMethod` write for a frame. -/
def writeFrame (blockSize : Nat) (b : ChainedBuffer) (header body : Bytes) :
    Option ChainedBuffer :=
  (b.write blockSize (LittleEndian.encode header.length)).bind fun (b, _) =>
    (b.serialize blockSize header).bind fun b =>
      (b.write blockSize (LittleEndian.encode body.length)).bind fun (b, _) =>
        b.serialize blockSize body

/-- The message fits in what is left of the tail. -/
def FitsTail (blockSize : Nat) (b : ChainedBuffer) (bytes : Bytes) : Prop :=
  ∀ tail ∈ b.tail, bytes.length ≤ blockSize - (b.block tail).writePos

/-- So do the header and the message of a frame, each when it is written. -/
def FrameFits (blockSize : Nat) (b : ChainedBuffer) (header body : Bytes) : Prop :=
  ∀ first ∈ b.write blockSize (LittleEndian.encode header.length),
    first.1.FitsTail blockSize header ∧
      ∀ second ∈ first.1.serialize blockSize header,
        ∀ third ∈ second.write blockSize (LittleEndian.encode body.length),
          third.1.FitsTail blockSize body

instance decidableFitsTail (blockSize : Nat) (b : ChainedBuffer) (bytes : Bytes) :
    Decidable (b.FitsTail blockSize bytes) :=
  inferInstanceAs (Decidable (∀ tail ∈ b.tail, _))

instance decidableFrameFits (blockSize : Nat) (b : ChainedBuffer) (header body : Bytes) :
    Decidable (b.FrameFits blockSize header body) :=
  inferInstanceAs (Decidable (∀ first ∈ b.write blockSize _, _))

/-- **`async_write`** on the buffer; `none` where the kernel accepts more than it is
offered, or `commit_send` does not return. -/
def asyncWrite (b : ChainedBuffer) (results : List Net.WriteResult) :
    Option (ChainedBuffer × Net.WriteOutcome) :=
  let offered := b.getIovecs.flatten
  let outcome := Net.writeLoop offered (Net.needWrite b.totalSize) 0 results
  if Net.Accepts offered results then
    (b.commitSend outcome.written).map fun b => (b, outcome)
  else none

variable {blockSize : Nat} {b next : ChainedBuffer} {before : List BufferBlock}
  {last : BufferBlock} {contents : Bytes}

/-- A message that is not longer than the region takes one turn. -/
theorem serializeLoop_of_short {shown : ChainedBuffer} {node : Ptr} {offset space : Nat}
    {bytes : Bytes} (some_ : bytes ≠ [])
    (run : b.outputNext blockSize = some (shown, node, offset, (space : Int)))
    (short : bytes.length ≤ space) (fuel : Nat) :
    serializeLoop blockSize (fuel + 1) b bytes =
      (shown.fill node offset bytes).outputBackUp ((space - bytes.length : Nat) : Int) := by
  obtain ⟨byte, rest, rfl⟩ := List.exists_cons_of_ne_nil some_
  simp only [serializeLoop, run, Option.bind_some, Int.toNat_natCast, short, ↓reduceIte,
    List.take_of_length_le short, Int.ofNat_sub short]

/-- **A message that fits** is appended. -/
theorem Stores.serialize (stores : b.Stores blockSize before last contents) {bytes : Bytes}
    (fits : b.FitsTail blockSize bytes) :
    ∃ next after, b.serialize blockSize bytes = some next ∧
      next.Stores blockSize before after (contents ++ bytes) := by
  cases bytes with
  | nil => exact ⟨b, last, rfl, by rwa [List.append_nil]⟩
  | cons byte rest =>
      obtain ⟨tail, back, same, -⟩ := stores.tail
      have short := fits tail back
      rw [same] at short
      have some_ : 0 < (byte :: rest).length := Nat.zero_lt_succ _
      have within := stores.lastSound.within
      have room : last.writePos < blockSize := by omega
      obtain ⟨shown, node, run, filled⟩ := stores.outputNext room
      set message := byte :: rest
      set space := blockSize - last.writePos
      obtain ⟨after, stored, long⟩ := filled (message ++
        (shown.block node).bytes (last.writePos + message.length) (space - message.length)) (by
          rw [List.length_append, BufferBlock.length_bytes]
          omega)
      rw [List.length_append, BufferBlock.length_bytes] at long
      have given : shown.fill node last.writePos (message ++
          (shown.block node).bytes (last.writePos + message.length) (space - message.length)) =
          shown.fill node last.writePos message := by
        rw [fill, BufferBlock.store_append_bytes, fill]
      rw [given, ← List.append_assoc] at stored
      have unused : space - message.length ≤ after.size := by omega
      obtain ⟨next, final, returned, kept⟩ := stored.outputBackUp unused
      have whole : (contents ++ message ++ (shown.block node).bytes
          (last.writePos + message.length) (space - message.length)).length -
            (space - message.length) = (contents ++ message).length := by
        rw [List.length_append, BufferBlock.length_bytes]
        omega
      rw [whole, List.take_left] at kept
      refine ⟨next, final, ?_, kept⟩
      exact (serializeLoop_of_short (List.cons_ne_nil byte rest) run short rest.length).trans
        returned

/-- **A frame that fits** is appended. -/
theorem Stores.writeFrame (positive : 0 < blockSize)
    (stores : b.Stores blockSize before last contents) {header body : Bytes}
    (fits : b.FrameFits blockSize header body) :
    ∃ next front back, b.writeFrame blockSize header body = some next ∧
      next.Stores blockSize front back (contents ++ Proto.frame header body) := by
  obtain ⟨first, front, back, wrote, stored⟩ :=
    stores.write positive (LittleEndian.encode header.length)
  obtain ⟨headerFits, bodyFits⟩ := fits _ wrote
  obtain ⟨second, back, serialized, stored⟩ := stored.serialize headerFits
  obtain ⟨third, front, back, also, stored⟩ :=
    stored.write positive (LittleEndian.encode body.length)
  obtain ⟨next, back, done, stored⟩ := stored.serialize (bodyFits _ serialized _ also)
  refine ⟨next, front, back, ?_, ?_⟩
  · simp only [ChainedBuffer.writeFrame, wrote, Option.bind_some, serialized, also, done]
  · simpa only [Proto.frame, List.append_assoc] using stored

/-- What the loop counts does not depend on the bytes it offers. -/
theorem written_writeLoop (offered other : Bytes) (needWrite : Int) (written : Nat)
    (results : List Net.WriteResult) :
    (Net.writeLoop offered needWrite written results).written =
      (Net.writeLoop other needWrite written results).written := by
  induction results generalizing written with
  | nil => rfl
  | cons result rest ih =>
      by_cases more : (written : Int) < needWrite
      · cases result with
        | accepted n => simpa only [Net.writeLoop, more, ↓reduceIte] using ih (written + n)
        | interrupted => simpa only [Net.writeLoop, more, ↓reduceIte] using ih written
        | again | failed => simp only [Net.writeLoop, more, ↓reduceIte]
      · simp only [Net.writeLoop, more, ↓reduceIte]

/-- The blocks that are offered hold the first bytes, and not more than `IOV_MAX` blocks
can hold. -/
theorem Stores.offered (stores : b.Stores blockSize before last contents) :
    b.getIovecs.flatten <+: contents ∧ b.getIovecs.flatten.length ≤ iovMax * blockSize := by
  rw [stores.holds.getIovecs_eq, ← List.flatMap_def]
  constructor
  · rw [← stores.stored]
    conv_rhs => rw [← List.take_append_drop iovMax (before ++ [last]), List.flatMap_append]
    exact List.prefix_append ..
  · have bounded : ∀ blocks : List BufferBlock, (∀ block ∈ blocks, block.Sound blockSize) →
        (blocks.flatMap BufferBlock.unread).length ≤ blocks.length * blockSize := by
      intro blocks sound
      induction blocks with
      | nil => simp
      | cons block rest ih =>
          obtain ⟨first, others⟩ := List.forall_mem_cons.mp sound
          have size := first.size_eq
          have within := first.within
          have restShort := ih others
          rw [List.flatMap_cons, List.length_append, BufferBlock.length_unread, List.length_cons,
            Nat.succ_mul]
          omega
    refine (bounded _ fun block member => stores.sound block (List.mem_of_mem_take member)).trans ?_
    exact Nat.mul_le_mul_right _ (List.length_take_le ..)

/-- **`async_write`** on the buffer is the ideal one on its contents, when a short write
ends it: the first bytes go on the wire, and the others stay. -/
theorem Stores.asyncWrite (stores : b.Stores 4096 before last contents)
    {results : List Net.WriteResult} {outcome : Net.WriteOutcome}
    (ends : Net.ShortWriteEnds (Net.needWrite contents.length) results)
    (run : b.asyncWrite results = some (next, outcome)) :
    Net.asyncWrite contents results = some outcome ∧
      outcome.written ≤ contents.length ∧ outcome.bytes = contents.take outcome.written ∧
        ∃ front back, next.Stores 4096 front back (contents.drop outcome.written) := by
  simp only [ChainedBuffer.asyncWrite, stores.totalSize, Option.ite_none_right_eq_some,
    Option.map_eq_some_iff, Prod.mk.injEq] at run
  obtain ⟨accepts, committed, run, rfl, rfl⟩ := run
  obtain ⟨isPrefix, bounded⟩ := stores.offered
  obtain ⟨n, within, outcome⟩ := Net.writeLoop_of_shortWriteEnds accepts ends
  have most : n ≤ contents.length := within.trans isPrefix.length_le
  have cut : b.getIovecs.flatten.length ≤ (contents.take Net.maxOffered).length := by
    rw [List.length_take]
    exact Nat.le_min.mpr ⟨bounded, isPrefix.length_le⟩
  have alsoAccepts : Net.Accepts (contents.take Net.maxOffered) results := by
    intro result member
    have fits := accepts result member
    cases result with
    | accepted count => exact fits.trans cut
    | again | interrupted | failed => trivial
  have front : b.getIovecs.flatten.take n = contents.take n := by
    obtain ⟨rest, whole⟩ := isPrefix
    rw [← whole, List.take_append_of_le_length within]
  have same : Net.writeLoop (contents.take Net.maxOffered) (Net.needWrite contents.length) 0
      results = Net.writeLoop b.getIovecs.flatten (Net.needWrite contents.length) 0 results := by
    obtain ⟨count, -, other⟩ := Net.writeLoop_of_shortWriteEnds alsoAccepts ends
    have counted := written_writeLoop (contents.take Net.maxOffered) b.getIovecs.flatten
      (Net.needWrite contents.length) 0 results
    rw [other, outcome] at counted
    obtain rfl : count = n := counted
    have long := within.trans cut
    rw [List.length_take] at long
    rw [other, outcome, front, List.take_take, min_eq_left (long.trans (min_le_left ..))]
  have written : (Net.writeLoop b.getIovecs.flatten (Net.needWrite contents.length) 0
      results).written ≤ contents.length := by rw [outcome]; exact most
  refine ⟨?_, written, ?_, ?_⟩
  · simp only [Net.asyncWrite, same]
    rw [if_pos ⟨alsoAccepts, written⟩]
  · rw [outcome]
    exact front
  · obtain ⟨buffer, front, back, also, stored⟩ := stores.commitSend written
    cases also.symm.trans run
    exact ⟨front, back, stored⟩

end ChainedBuffer

end Drpc.Util
