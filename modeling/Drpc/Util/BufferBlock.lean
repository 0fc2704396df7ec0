import Mathlib.Algebra.Group.Int.Defs
import Drpc.Proto.Message

/-! # A block of a buffer

`BufferBlock`: an array of `capacity` bytes with a read and a write position. The
positions are `size_t`; a signed amount is added to them where the source adds
an `int`.
-/

namespace Drpc.Util

/-- A `size_t` plus a signed amount. -/
def wrapAdd (value : Nat) (amount : Int) : Nat := (((value : Int) + amount) % 2 ^ 64).toNat

/-- The difference of two `size_t`. -/
def wrapSub (value amount : Nat) : Nat := wrapAdd value (-amount)

/-- A counter of bytes plus a signed amount. It wraps around below zero; the bytes
it counts lie in memory or have gone through it, and they are not `2 ^ 64`. -/
def sizeAdd (value : Nat) (amount : Int) : Nat :=
  if 0 ≤ (value : Int) + amount then ((value : Int) + amount).toNat
  else ((value : Int) + amount + 2 ^ 64).toNat

/-- A counter of bytes less an amount. -/
def sizeSub (value amount : Nat) : Nat := sizeAdd value (-amount)

theorem wrapAdd_natCast {value amount : Nat} (small : value + amount < 2 ^ 64) :
    wrapAdd value amount = value + amount := by
  simp only [wrapAdd]
  omega

theorem wrapSub_of_le {value amount : Nat} (enough : amount ≤ value) (small : value < 2 ^ 64) :
    wrapSub value amount = value - amount := by
  simp only [wrapSub, wrapAdd]
  omega

@[simp] theorem sizeAdd_natCast (value amount : Nat) :
    sizeAdd value amount = value + amount := by
  have positive : 0 ≤ (value : Int) + amount := by omega
  simp only [sizeAdd, positive, ↓reduceIte]
  omega

theorem sizeSub_of_le {value amount : Nat} (enough : amount ≤ value) :
    sizeSub value amount = value - amount := by
  have positive : 0 ≤ (value : Int) + -amount := by omega
  simp only [sizeSub, sizeAdd, positive, ↓reduceIte]
  omega

/-- What a `size_t` shows of a counter. -/
def sizeT (count : Nat) : Nat := count % 2 ^ 64

/-- The counters go on as a `size_t` does. -/
theorem sizeT_sizeAdd {value : Nat} {amount : Int} (small : -2 ^ 64 ≤ (value : Int) + amount) :
    sizeT (sizeAdd value amount) = wrapAdd (sizeT value) amount := by
  simp only [sizeT, sizeAdd, wrapAdd]
  split <;> omega

/-- A block; its array is the part of `data` below the capacity. -/
structure BufferBlock where
  data : Nat → UInt8
  readPos : Nat
  writePos : Nat

namespace BufferBlock

def size (block : BufferBlock) : Nat := wrapSub block.writePos block.readPos

def available (capacity : Nat) (block : BufferBlock) : Nat := wrapSub capacity block.writePos

def full (capacity : Nat) (block : BufferBlock) : Bool := block.writePos = capacity

def empty (block : BufferBlock) : Bool := block.readPos = block.writePos

def reset (block : BufferBlock) : BufferBlock := { block with readPos := 0, writePos := 0 }

/-- The `length` bytes from `offset` on. -/
def bytes (block : BufferBlock) (offset length : Nat) : Bytes :=
  (List.range length).map fun index => block.data (offset + index)

/-- `memcpy` into the array, at `offset`. -/
def store (block : BufferBlock) (offset : Nat) (source : Bytes) : BufferBlock :=
  { block with
    data := fun index =>
      if offset ≤ index ∧ index < offset + source.length then source.getD (index - offset) 0
      else block.data index }

/-- Append as much of `source` as there is room for; the number of bytes. -/
def write (capacity : Nat) (block : BufferBlock) (source : Bytes) : BufferBlock × Nat :=
  let length := min source.length (block.available capacity)
  if 0 < length then
    ({ block.store block.writePos (source.take length) with
        writePos := wrapAdd block.writePos length }, length)
  else (block, length)

/-- Take up to `length` bytes; a block that becomes empty is reset. -/
def read (block : BufferBlock) (length : Nat) : BufferBlock × Nat :=
  let length := min length block.size
  let block := { block with readPos := wrapAdd block.readPos length }
  (if block.empty then block.reset else block, length)

/-- The bytes that can be read. -/
def readView (block : BufferBlock) : Bytes :=
  if block.empty then [] else block.bytes block.readPos block.size

/-- Where the next byte goes, and how much room there is. -/
def writeView (capacity : Nat) (block : BufferBlock) : Nat × Nat :=
  if block.full capacity then (0, 0) else (block.writePos, wrapSub capacity block.writePos)

/-- The bytes written and not read yet. -/
def unread (block : BufferBlock) : Bytes := block.bytes block.readPos block.size

/-- The positions are in order and within the capacity, which an `int` can hold. -/
structure Sound (capacity : Nat) (block : BufferBlock) : Prop where
  inOrder : block.readPos ≤ block.writePos
  within : block.writePos ≤ capacity
  small : capacity < 2 ^ 31

/-! ## What the operations do to the unread bytes -/

variable {capacity : Nat} {block : BufferBlock}

@[simp] theorem length_bytes (block : BufferBlock) (offset length : Nat) :
    (block.bytes offset length).length = length := by
  simp [bytes]

@[simp] theorem length_unread (block : BufferBlock) : block.unread.length = block.size := by
  simp [unread]

theorem Sound.size_eq (sound : block.Sound capacity) :
    block.size = block.writePos - block.readPos :=
  wrapSub_of_le sound.inOrder (by have := sound.within; have := sound.small; omega)

theorem Sound.available_eq (sound : block.Sound capacity) :
    block.available capacity = capacity - block.writePos :=
  wrapSub_of_le sound.within (by have := sound.small; omega)

theorem Sound.empty_iff (sound : block.Sound capacity) : block.empty = true ↔ block.size = 0 := by
  have inOrder := sound.inOrder
  simp only [empty, decide_eq_true_eq, sound.size_eq]
  omega

/-- A block without bytes. -/
theorem unread_of_blank (readPos : block.readPos = 0) (writePos : block.writePos = 0) :
    block.unread = [] := by
  simp [unread, size, bytes, wrapSub, wrapAdd, readPos, writePos]

theorem full_iff : block.full capacity = true ↔ block.writePos = capacity := by
  simp [full]

theorem bytes_add (block : BufferBlock) (offset first second : Nat) :
    block.bytes offset (first + second) =
      block.bytes offset first ++ block.bytes (offset + first) second := by
  simp only [bytes, List.range_add, List.map_append, List.map_map, Function.comp_def,
    Nat.add_assoc]

theorem bytes_congr {other : BufferBlock} {offset length : Nat}
    (same : ∀ index, offset ≤ index → index < offset + length →
      other.data index = block.data index) :
    other.bytes offset length = block.bytes offset length := by
  refine List.map_congr_left fun index member => ?_
  have small := List.mem_range.mp member
  exact same _ (by omega) (by omega)

/-- What was stored is read back. -/
theorem bytes_store (block : BufferBlock) (offset : Nat) (source : Bytes) :
    (block.store offset source).bytes offset source.length = source := by
  refine List.ext_getElem (by simp) fun index small _ => ?_
  simp only [length_bytes] at small
  simp [bytes, store, small]

/-- A store behind the bytes leaves them alone. -/
theorem bytes_store_of_le (block : BufferBlock) {offset length start : Nat} (source : Bytes)
    (behind : offset + length ≤ start) :
    (block.store start source).bytes offset length = block.bytes offset length := by
  refine bytes_congr fun index _ small => ?_
  have before : ¬ start ≤ index := by omega
  simp only [store, before, false_and, ↓reduceIte]

/-- Storing behind the write position and moving it over the stored bytes appends
them. -/
theorem unread_store (sound : block.Sound capacity) {source : Bytes}
    (room : block.writePos + source.length ≤ capacity) :
    ({ block.store block.writePos source with
        writePos := block.writePos + source.length } : BufferBlock).unread =
      block.unread ++ source := by
  have inOrder := sound.inOrder
  have small := sound.small
  have size : wrapSub (block.writePos + source.length) block.readPos =
      block.size + source.length := by
    rw [wrapSub_of_le (by omega) (by omega), sound.size_eq]
    omega
  have position : block.readPos + block.size = block.writePos := by
    rw [sound.size_eq]
    omega
  change (block.store block.writePos source).bytes block.readPos
    (wrapSub (block.writePos + source.length) block.readPos) = _
  rw [size, bytes_add, bytes_store_of_le block source (by omega), position, bytes_store]
  rfl

/-- `write` appends what there is room for. -/
theorem write_spec (sound : block.Sound capacity) (source : Bytes) :
    (block.write capacity source).1.Sound capacity ∧
      (block.write capacity source).2 = min source.length (capacity - block.writePos) ∧
      (block.write capacity source).1.unread =
        block.unread ++ source.take (block.write capacity source).2 := by
  have inOrder := sound.inOrder
  have within := sound.within
  have small := sound.small
  unfold write
  rw [sound.available_eq]
  by_cases room : 0 < min source.length (capacity - block.writePos)
  · have position : wrapAdd block.writePos (min source.length (capacity - block.writePos) : Nat) =
        block.writePos + min source.length (capacity - block.writePos) :=
      wrapAdd_natCast (by omega)
    simp only [room, ↓reduceIte, position]
    refine ⟨⟨?_, ?_, small⟩, trivial, ?_⟩
    · change block.readPos ≤ block.writePos + _
      omega
    · change block.writePos + _ ≤ capacity
      omega
    · have length : (source.take (min source.length (capacity - block.writePos))).length =
          min source.length (capacity - block.writePos) := by
        simp
      have fits : block.writePos +
          (source.take (min source.length (capacity - block.writePos))).length ≤ capacity := by
        omega
      have stored := unread_store sound fits
      rwa [length] at stored
  · simp only [room, ↓reduceIte]
    have none : min source.length (capacity - block.writePos) = 0 := by omega
    exact ⟨sound, trivial, by simp [none]⟩

/-- A full block takes nothing. -/
theorem write_of_full (full : block.writePos = capacity) (source : Bytes) :
    block.write capacity source = (block, 0) := by
  have none : block.available capacity = 0 := by
    simp only [available, wrapSub, wrapAdd, full]
    omega
  simp only [write, none, Nat.min_zero, Nat.lt_irrefl, ↓reduceIte]

/-- Moving the read position drops bytes from the front. -/
theorem unread_advance (sound : block.Sound capacity) {count : Nat} (enough : count ≤ block.size) :
    ({ block with readPos := block.readPos + count } : BufferBlock).Sound capacity ∧
      ({ block with readPos := block.readPos + count } : BufferBlock).unread =
        block.unread.drop count := by
  have inOrder := sound.inOrder
  have within := sound.within
  have small := sound.small
  rw [sound.size_eq] at enough
  refine ⟨⟨?_, within, small⟩, ?_⟩
  · change block.readPos + count ≤ block.writePos
    omega
  · have split : block.size = count + (block.size - count) := by
      rw [sound.size_eq]
      omega
    have rest : wrapSub block.writePos (block.readPos + count) = block.size - count := by
      rw [wrapSub_of_le (by omega) (by omega), sound.size_eq]
      omega
    change block.bytes (block.readPos + count)
      (wrapSub block.writePos (block.readPos + count)) = _
    rw [rest, unread, split, bytes_add, List.drop_left' (by simp)]
    simp

/-- Moving the write position back drops bytes from the end. -/
theorem unread_retreat (sound : block.Sound capacity) {count : Nat} (enough : count ≤ block.size) :
    ({ block with writePos := block.writePos - count } : BufferBlock).Sound capacity ∧
      ({ block with writePos := block.writePos - count } : BufferBlock).unread =
        block.unread.take (block.size - count) := by
  have inOrder := sound.inOrder
  have within := sound.within
  have small := sound.small
  rw [sound.size_eq] at enough
  refine ⟨⟨?_, ?_, small⟩, ?_⟩
  · change block.readPos ≤ block.writePos - count
    omega
  · change block.writePos - count ≤ capacity
    omega
  · have split : block.size = (block.size - count) + count := by
      rw [sound.size_eq]
      omega
    have rest : wrapSub (block.writePos - count) block.readPos = block.size - count := by
      rw [wrapSub_of_le (by omega) (by omega), sound.size_eq]
      omega
    change block.bytes block.readPos (wrapSub (block.writePos - count) block.readPos) = _
    rw [rest, unread]
    conv_rhs => rw [split, bytes_add]
    rw [List.take_left' (by simp)]

end BufferBlock

end Drpc.Util
