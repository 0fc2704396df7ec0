import Drpc.Util.ReceiveQueue

/-! # Giving bytes back

A parser that took a region with `input_next` gives the end of it back with
`input_back_up`, which moves the read position of the block at the head. That is the
block of the region, unless `input_next` emptied it with another block behind it and has
recycled it already (`back_up`).
-/

namespace Drpc.Util

open Transition ChainedBuffer

/-- An operation of the receive path, or one of a parser that gives bytes back. -/
inductive ParseOp where
  | receive (op : ReceiveOp)
  | backUp (n : Int)
  deriving DecidableEq, Repr

def ParseOp.run (blockSize : Nat) (b : ChainedBuffer) : ParseOp → Option ChainedBuffer
  | .receive op => op.run blockSize b
  | .backUp n => b.inputBackUp n

/-- A commit fits in the view, a limit is not negative, and neither is the number of bytes
given back, which `limit_` can count. -/
def ParseOp.Fits (blockSize : Nat) (b : ChainedBuffer) : ParseOp → Prop
  | .receive (.commit bytes) => ∀ view ∈ b.writeView blockSize, bytes.length ≤ view.2.2
  | .receive (.pushLimit limit) => 0 ≤ limit ∧ limit ≤ noLimit
  | .receive (.read _) | .receive .popLimit | .receive .inputNext => True
  | .backUp n => 0 ≤ n ∧ (b.limit = noLimit ∨ b.limit + n ≤ noLimit)

instance ParseOp.decidableFits (blockSize : Nat) (b : ChainedBuffer) (op : ParseOp) :
    Decidable (op.Fits blockSize b) :=
  match op with
  | .receive (.commit bytes) => inferInstanceAs
      (Decidable (∀ view ∈ b.writeView blockSize, bytes.length ≤ view.2.2))
  | .receive (.pushLimit limit) => inferInstanceAs (Decidable (0 ≤ limit ∧ limit ≤ noLimit))
  | .receive (.read _) | .receive .popLimit | .receive .inputNext => .isTrue trivial
  | .backUp n => inferInstanceAs (Decidable (0 ≤ n ∧ (b.limit = noLimit ∨ b.limit + n ≤ noLimit)))

/-- What `input_next` and then `input_back_up` leave is what an `input_next` would have left
that gave the region without its last `n` bytes. -/
structure Undone (b next after : ChainedBuffer) (region : Bytes) (n : Nat) : Prop where
  /-- The last bytes of the region come next. -/
  delivered : ∃ rest, after.read n = some (rest, region.drop (region.length - n))
  /-- And then what `input_next` had left. -/
  remaining : after.contents = region.drop (region.length - n) ++ next.contents
  size : after.totalSize + (region.length - n) = b.totalSize
  byteCount : after.consumedBytes = b.consumedBytes + (region.length - n)
  limit : after.limit = limitBehind b.limit (region.length - n)

/-- `input_next` recycles the head: another block follows, and the limit does not end
inside the head. -/
def Recycles (b : ChainedBuffer) : Prop :=
  ∃ head ∈ b.head, b.next head ≠ none ∧ ((b.block head).size : Int) ≤ b.limit

instance decidableRecycles (b : ChainedBuffer) : Decidable (Recycles b) :=
  inferInstanceAs
    (Decidable (∃ head ∈ b.head, b.next head ≠ none ∧ ((b.block head).size : Int) ≤ b.limit))

namespace ChainedBuffer

variable {blockSize : Nat} {b : ChainedBuffer} {block : BufferBlock}
  {blocks rest : List BufferBlock} {contents : Bytes}

/-- **`input_back_up`** moves the read position of the head back, at most to its start. -/
theorem Queued.backUp (queued : b.Queued blockSize (block :: rest) contents) {n : Int}
    (positive : 0 ≤ n) :
    ∃ after, ∃ count : Nat, (count : Int) = min n block.readPos ∧ b.inputBackUp n = some after ∧
      after.Queued blockSize ({ block with readPos := block.readPos - count } :: rest)
        (block.bytes (block.readPos - count) count ++ contents) ∧
      after.consumedBytes = sizeAdd b.consumedBytes (-count) ∧
      after.limit = if b.limit = noLimit then b.limit else b.limit + count := by
  obtain ⟨size, within, small⟩ := queued.positions
  obtain ⟨head, front, same, -, update⟩ := queued.holds.head
  have toInt : Int.bmod (block.readPos : Int) (2 ^ 32) = block.readPos :=
    Int.bmod_eq_of_le (by omega) (by omega)
  obtain ⟨count, counted⟩ : ∃ count : Nat, (count : Int) = min n block.readPos :=
    ⟨(min n block.readPos).toNat, by omega⟩
  have enough : count ≤ block.readPos := by omega
  have position : wrapAdd block.readPos (-count) = block.readPos - count :=
    wrapSub_of_le enough (by omega)
  set before : BufferBlock := { block with readPos := block.readPos - count } with isBefore
  have unread : before.unread = block.bytes (block.readPos - count) count ++ block.unread := by
    have longer : wrapSub block.writePos (block.readPos - count) = count + block.size := by
      rw [wrapSub_of_le (by omega) (by omega)]
      omega
    change block.bytes (block.readPos - count) (wrapSub block.writePos (block.readPos - count)) = _
    rw [longer, BufferBlock.bytes_add, Nat.sub_add_cancel enough, BufferBlock.unread]
  have run : b.inputBackUp n = some { b.setBlock head before with
      totalSize := b.totalSize + count
      limit := if b.limit = noLimit then b.limit else b.limit + count
      consumedBytes := sizeAdd b.consumedBytes (-count) } := by
    simp only [inputBackUp, front, same, toInt, ← counted, position, sizeAdd_natCast]
    rfl
  refine ⟨_, count, counted, run, ⟨(update before).congr rfl rfl rfl rfl rfl, ?_,
    queued.untouched, ?_, ?_, small⟩, rfl, rfl⟩
  · by_cases more : rest = []
    · subst more
      have room := packed_singleton.mp queued.packed
      have ordered : block.readPos - count ≤ block.writePos := by omega
      exact packed_singleton.mpr ⟨ordered, room.2⟩
    · obtain ⟨filled, others⟩ := (packed_cons more).mp queued.packed
      have unread := filled.1
      have less : block.readPos - count < blockSize := by omega
      exact (packed_cons more).mpr ⟨⟨less, filled.2⟩, others⟩
  · rw [List.flatMap_cons, unread, ← queued.stored, List.flatMap_cons, List.append_assoc]
  · rw [List.length_append, BufferBlock.length_bytes, ← queued.totalSize, Nat.add_comm]

/-- The first bytes of the head are the first bytes of the buffer. -/
theorem Queued.bytes_head (queued : b.Queued blockSize (block :: rest) contents) {count : Nat}
    (within : count ≤ block.size) : block.bytes block.readPos count = contents.take count := by
  rw [← queued.stored, List.flatMap_cons,
    List.take_append_of_le_length (by rw [BufferBlock.length_unread]; exact within)]
  exact BufferBlock.bytes_eq_take within

/-- The last `n` of them. -/
theorem Queued.bytes_end (queued : b.Queued blockSize (block :: rest) contents) {count n : Nat}
    (within : count ≤ block.size) (enough : n ≤ count) :
    block.bytes (block.readPos + count - n) n = (contents.take count).drop (count - n) := by
  have split : count = count - n + n := by omega
  have start : block.readPos + count - n = block.readPos + (count - n) := by omega
  rw [← queued.bytes_head within, start]
  conv_rhs => rw [split, BufferBlock.bytes_add, Nat.add_sub_cancel]
  rw [List.drop_left' (BufferBlock.length_bytes ..)]

/-- A commit of nothing changes nothing. -/
theorem fill_nil (b : ChainedBuffer) (node : Ptr) (offset : Nat) : b.fill node offset [] = b := by
  have unchanged : (b.block node).store offset [] = b.block node := by
    have outside : ∀ index, ¬ (offset ≤ index ∧ index < offset + ([] : Bytes).length) := by
      intro index
      simp
    simp only [BufferBlock.store, outside, ↓reduceIte]
  rw [fill, unchanged, setBlock, ChainedBuffer.block, Function.update_eq_self]

end ChainedBuffer

/-- A step of the receive path, with the bytes that go in and out. -/
theorem ReceiveOp.run_eq_receive (blockSize : Nat) (s : Receiving) (op : ReceiveOp) :
    op.run blockSize s.buffer = (op.receive blockSize s).map Receiving.buffer := by
  cases op with
  | commit bytes => simp [ReceiveOp.receive, Function.comp_def]
  | read length => simp [ReceiveOp.run, ReceiveOp.receive, Function.comp_def]
  | pushLimit limit => rfl
  | popLimit => rfl
  | inputNext =>
      simp only [ReceiveOp.run, ReceiveOp.receive, Option.map_map]
      congr 1
      funext result
      obtain ⟨buffer, _ | region⟩ := result <;> rfl

/-- The invariant of a parser. -/
structure Parsing (blockSize : Nat) (b : ChainedBuffer) : Prop where
  queued : ∃ blocks contents, b.Queued blockSize blocks contents
  limit : 0 ≤ b.limit ∧ b.limit ≤ noLimit

theorem parsing_init {blockSize : Nat} (memory : Ptr → Nat → UInt8) (positive : 0 < blockSize)
    (small : blockSize < 2 ^ 31) : Parsing blockSize (init memory) where
  queued := ⟨_, [], queued_init memory positive small⟩
  limit := ⟨noLimit_nonneg, le_rfl⟩

/-- The invariant of the receive path holds with some bytes that went in before. -/
theorem Parsing.receive {blockSize : Nat} {b next : ChainedBuffer} (parsing : Parsing blockSize b)
    (op : ReceiveOp) (fits : op.Fits blockSize b) (taken : op.run blockSize b = some next) :
    Parsing blockSize next := by
  obtain ⟨⟨blocks, contents, queued⟩, limit⟩ := parsing
  let gone : Bytes := List.replicate b.consumedBytes 0
  have inv : Receiving.Inv blockSize ⟨b, gone ++ contents, gone⟩ :=
    ⟨⟨blocks, contents, queued, rfl⟩, by simp [gone], limit⟩
  have step := op.run_eq_receive blockSize ⟨b, gone ++ contents, gone⟩
  rw [taken] at step
  obtain ⟨after, received, rfl⟩ := Option.map_eq_some_iff.mp step.symm
  obtain ⟨⟨blocks, contents, queued, -⟩, -, limit⟩ := inv.step fits received
  exact ⟨⟨blocks, contents, queued⟩, limit⟩

/-- **One operation** keeps the invariant. -/
theorem Parsing.step {blockSize : Nat} {b next : ChainedBuffer} (parsing : Parsing blockSize b)
    {op : ParseOp} (fits : op.Fits blockSize b) (taken : op.run blockSize b = some next) :
    Parsing blockSize next := by
  cases op with
  | receive op =>
      cases op with
      | commit bytes =>
          by_cases nothing : bytes = []
          · subst nothing
            have none_ : ¬ (0 : Int) < (([] : Bytes).length : Nat) := by decide
            simp only [ParseOp.run, ReceiveOp.run, fill_nil, commitResv, none_,
              ↓reduceIte] at taken
            obtain ⟨-, -, same⟩ := Option.bind_eq_some_iff.mp taken
            cases same
            exact parsing
          · have some_ := List.length_pos_iff.mpr nothing
            exact parsing.receive (.commit bytes)
              (fun view member => ⟨some_, fits view member⟩) taken
      | pushLimit limit =>
          cases taken
          obtain ⟨⟨blocks, contents, queued⟩, -⟩ := parsing
          exact ⟨⟨blocks, contents, queued.congr rfl rfl rfl rfl rfl rfl⟩, fits⟩
      | read length => exact parsing.receive (.read length) trivial taken
      | popLimit => exact parsing.receive (.popLimit) trivial taken
      | inputNext => exact parsing.receive (.inputNext) trivial taken
  | backUp n =>
      obtain ⟨⟨blocks, contents, queued⟩, least, most⟩ := parsing
      cases blocks with
      | nil =>
          simp only [ParseOp.run, inputBackUp, queued.holds.pointers_of_nil.1,
            reduceCtorEq] at taken
      | cons block rest =>
          obtain ⟨positive, counts⟩ := fits
          obtain ⟨after, count, counted, run, gives, -, limit⟩ := queued.backUp positive
          obtain rfl : after = next := Option.some.inj (run.symm.trans taken)
          refine ⟨⟨_, _, gives⟩, ?_⟩
          rw [limit]
          split
          · exact ⟨least, most⟩
          · omega

/-- What is left when `n` bytes have been consumed. -/
structure Consumed (b after : ChainedBuffer) (n : Nat) : Prop where
  remaining : after.contents = b.contents.drop n
  size : after.totalSize + n = b.totalSize
  byteCount : after.consumedBytes = b.consumedBytes + n
  limit : after.limit = limitBehind b.limit n

theorem drop_take_append_drop (contents : Bytes) {count n : Nat} (enough : n ≤ count) :
    (contents.take count).drop (count - n) ++ contents.drop count = contents.drop (count - n) := by
  have split : contents.drop count = (contents.drop (count - n)).drop n := by
    rw [List.drop_drop, Nat.sub_add_cancel enough]
  rw [List.drop_take, split, Nat.sub_sub_self enough, List.take_append_drop]

/-- `input_next` took `count` bytes, and `back` of them were given back. -/
theorem consumed_of_queued {blockSize : Nat} {b shown next : ChainedBuffer}
    {blocks given : List BufferBlock} {contents : Bytes} {count back : Nat}
    (queued : b.Queued blockSize blocks contents) (most : b.limit ≤ noLimit)
    (within : count ≤ contents.length) (enough : back ≤ count)
    (consumed : shown.consumedBytes = b.consumedBytes + count)
    (behind : shown.limit = limitBehind b.limit count)
    (gives : next.Queued blockSize given (contents.drop (count - back)))
    (returned : next.consumedBytes = sizeAdd shown.consumedBytes (-back))
    (limit : next.limit = if shown.limit = noLimit then shown.limit else shown.limit + back) :
    Consumed b next (count - back) where
  remaining := by rw [gives.contents_eq, queued.contents_eq]
  size := by
    rw [gives.totalSize, queued.totalSize, List.length_drop]
    omega
  byteCount := by
    have some_ : back ≤ shown.consumedBytes := by omega
    rw [returned]
    apply (sizeSub_of_le some_).trans
    omega
  limit := by
    rw [limit, behind]
    simp only [limitBehind]
    split_ifs <;> omega

/-- `input_next` recycles the head when it empties the block and another one follows. -/
theorem ChainedBuffer.Queued.recycles_iff {blockSize : Nat} {b : ChainedBuffer}
    {block : BufferBlock}
    {rest : List BufferBlock} {contents : Bytes}
    (queued : b.Queued blockSize (block :: rest) contents) {count : Nat}
    (counted : (count : Int) = min (block.size : Int) b.limit) :
    Recycles b ↔ block.readPos + count = blockSize ∧ rest ≠ [] := by
  obtain ⟨size, -, -⟩ := queued.positions
  obtain ⟨head, front, same, single, -⟩ := queued.holds.head
  simp only [Recycles, front, Option.mem_some_iff, exists_eq_left', same, Ne, single]
  constructor
  · intro all
    obtain ⟨more, unlimited⟩ := all
    have full := ((packed_cons more).mp queued.packed).1.2
    exact ⟨by omega, more⟩
  · intro all
    obtain ⟨all, more⟩ := all
    have full := ((packed_cons more).mp queued.packed).1.2
    exact ⟨more, by omega⟩

/-- `input_next` takes `count` bytes, and `input_back_up` gives those back that it is asked
for, or none when the block of the region was recycled. -/
theorem Parsing.inputNext_backUp {blockSize : Nat} {b next : ChainedBuffer}
    (parsing : Parsing blockSize b) {node : Ptr} {offset : Nat} {size : Int}
    (shown : b.inputNext blockSize = some (next, some (node, offset, size)))
    {n : Nat} (enough : (n : Int) ≤ size) :
    ∃ after, ∃ count : Nat, size = count ∧ n ≤ count ∧ count ≤ b.contents.length ∧
      (next.block node).bytes offset count = b.contents.take count ∧
      next.contents = b.contents.drop count ∧ next.inputBackUp n = some after ∧
      Parsing blockSize after ∧ Consumed b after (count - if Recycles b then 0 else n) := by
  obtain ⟨⟨blocks, contents, queued⟩, least, most⟩ := parsing
  cases blocks with
  | nil =>
      simp only [inputNext, queued.holds.pointers_of_nil.1, reduceCtorEq] at shown
  | cons block rest =>
      have goesOn : ¬ (contents = [] ∨ b.limit = 0) := by
        intro nothing
        rw [queued.inputNext_none nothing] at shown
        cases shown
      rw [not_or] at goesOn
      obtain ⟨head, next, blocks, count, front, run, counted, -, within, gone, region,
        consumed, limit, shape⟩ := queued.inputNext goesOn.1 (by omega)
      rw [run, Option.some.injEq, Prod.mk.injEq, Option.some.injEq, Prod.mk.injEq,
        Prod.mk.injEq] at shown
      obtain ⟨rfl, rfl, rfl, rfl⟩ := shown
      have fewer : n ≤ count := by omega
      have long := within.trans queued.size_le
      have recycles := queued.recycles_iff counted
      rw [queued.contents_eq, gone.contents_eq]
      have finish : ∀ {after given back}, back ≤ n → next.inputBackUp n = some after →
          after.Queued blockSize given (contents.drop (count - back)) →
          after.consumedBytes = sizeAdd next.consumedBytes (-(back : Nat)) →
          (after.limit = if next.limit = noLimit then next.limit else next.limit + (back : Nat)) →
          Parsing blockSize after ∧ Consumed b after (count - back) := by
        intro after given back some_ backed gives returned restored
        refine ⟨⟨⟨given, _, gives⟩, ?_⟩, consumed_of_queued queued most long (some_.trans fewer)
          consumed limit gives returned restored⟩
        rw [restored, limit]
        simp only [limitBehind]
        split_ifs <;> omega
      rcases shape with ⟨rfl, -, kept⟩ | ⟨rfl, recycled⟩
      · obtain ⟨after, back, moved, backed, gives, returned, restored⟩ :=
          gone.backUp (Int.natCast_nonneg n)
        obtain rfl : back = n := by
          simp only at moved
          omega
        replace gives : after.Queued blockSize
            ({ block with readPos := block.readPos + count - back } :: rest)
            (block.bytes (block.readPos + count - back) back ++ contents.drop count) := gives
        rw [queued.bytes_end within fewer, drop_take_append_drop contents fewer] at gives
        rw [if_neg fun is => kept (recycles.mp is)]
        exact ⟨after, count, rfl, fewer, long, region, rfl, backed,
          finish le_rfl backed gives returned restored⟩
      · obtain ⟨first, others, rfl⟩ := List.exists_cons_of_ne_nil recycled.2
        have start : first.readPos = 0 := queued.untouched first (List.mem_cons_self ..)
        obtain ⟨after, back, moved, backed, gives, returned, restored⟩ :=
          gone.backUp (Int.natCast_nonneg n)
        obtain rfl : back = 0 := by
          rw [start] at moved
          omega
        rw [if_pos (recycles.mpr recycled)]
        exact ⟨after, count, rfl, fewer, long, region, rfl, backed,
          finish (Nat.zero_le n) backed gives returned restored⟩

/-- What `input_next` gave and `input_back_up` takes back. -/
theorem Parsing.undone_iff {blockSize : Nat} {b next : ChainedBuffer}
    (parsing : Parsing blockSize b) {node : Ptr} {offset : Nat} {size : Int}
    (shown : b.inputNext blockSize = some (next, some (node, offset, size)))
    {n : Nat} (enough : (n : Int) ≤ size) :
    (∃ after, next.inputBackUp n = some after ∧
      Undone b next after ((next.block node).bytes offset size.toNat) n) ↔
        n = 0 ∨ ¬ Recycles b := by
  obtain ⟨after, count, rfl, fewer, long, region, gone, backed, kept, consumed⟩ :=
    parsing.inputNext_backUp shown enough
  have length : (b.contents.take count).length = count := by
    rw [List.length_take, min_eq_left long]
  rw [Int.toNat_natCast, region]
  constructor
  · intro undone
    obtain ⟨other, same, undone⟩ := undone
    obtain rfl : after = other := Option.some.inj (backed.symm.trans same)
    have size := undone.size
    rw [length, ← consumed.size] at size
    by_cases recycles : Recycles b
    · rw [if_pos recycles] at size
      exact .inl (by omega)
    · exact .inr recycles
  · intro allBack
    have whole : (if Recycles b then 0 else n) = n := by
      rcases allBack with rfl | kept
      · exact ite_self 0
      · exact if_neg kept
    rw [whole] at consumed
    refine ⟨after, backed, ?_, ?_, ?_, ?_, ?_⟩
    · obtain ⟨⟨blocks, contents, queued⟩, -⟩ := kept
      obtain ⟨rest, left, read, -⟩ := queued.read n
      refine ⟨rest, ?_⟩
      rw [read, length, ← queued.contents_eq, consumed.remaining, List.drop_take,
        Nat.sub_sub_self fewer]
    · rw [length, gone, drop_take_append_drop b.contents fewer]
      exact consumed.remaining
    · rw [length]
      exact consumed.size
    · rw [length]
      exact consumed.byteCount
    · rw [length]
      exact consumed.limit

/-- **A run** of operations that keep the invariant, from an empty buffer. -/
theorem parsing_of_run {Op : Type} {step : ChainedBuffer → Op → Option ChainedBuffer}
    {allowed : ChainedBuffer → Op → Prop} {memory : Ptr → Nat → UInt8} {ops : List Op}
    {b : ChainedBuffer}
    (keeps : ∀ b op next, Parsing 4096 b → allowed b op → step b op = some next →
      Parsing 4096 next)
    (run : exec step (init memory) ops = some b) (along : Along step allowed (init memory) ops) :
    Parsing 4096 b :=
  exec_invariant keeps (parsing_init memory (by decide) (by decide)) run along

/-- **`input_back_up` undoes the end of `input_next`** exactly when `input_next` has not
recycled the block of the region, or nothing is given back. -/
theorem back_up (memory : Ptr → Nat → UInt8) (ops : List ParseOp) (b : ChainedBuffer)
    (run : exec (ParseOp.run 4096) (init memory) ops = some b)
    (fits : Along (ParseOp.run 4096) (fun b op => op.Fits 4096 b) (init memory) ops)
    (next : ChainedBuffer) (node : Ptr) (offset : Nat) (size : Int)
    (shown : b.inputNext 4096 = some (next, some (node, offset, size)))
    (n : Nat) (enough : (n : Int) ≤ size) :
    (∃ after, next.inputBackUp n = some after ∧
      Undone b next after ((next.block node).bytes offset size.toNat) n) ↔
        n = 0 ∨ ¬ Recycles b :=
  (parsing_of_run (fun _ _ _ kept => kept.step) run fits).undone_iff shown enough

/-- Three bytes, of which the last is given back. -/
theorem back_up_of_three :
    ∃ b next after,
      exec (ParseOp.run 4096) (init fun _ _ => 0) [.receive (.commit [7, 8, 9])] = some b ∧
      b.inputNext 4096 = some (next, some (0, 0, 3)) ∧ next.inputBackUp 1 = some after ∧
      Undone b next after ((next.block 0).bytes 0 3) 1 := by
  have shows : ((exec (ParseOp.run 4096) (init fun _ _ => 0)
      [.receive (.commit [7, 8, 9])]).bind fun b => (b.inputNext 4096).bind Prod.snd) =
        some (0, 0, 3) := by
    decide +kernel
  obtain ⟨b, run, result⟩ := Option.bind_eq_some_iff.mp shows
  obtain ⟨⟨next, region⟩, shown, is⟩ := Option.bind_eq_some_iff.mp result
  obtain rfl : region = some (0, 0, 3) := is
  have kept : ∀ b ∈ exec (ParseOp.run 4096) (init fun _ _ => 0) [.receive (.commit [7, 8, 9])],
      ¬ Recycles b := by
    decide +kernel
  obtain ⟨after, backed, undone⟩ := (back_up (fun _ _ => 0) _ b run (by decide +kernel) next 0 0 3
    shown 1 (by decide)).mpr (.inr (kept b run))
  exact ⟨b, next, after, run, shown, backed, undone⟩

/-- A block is filled and taken whole: its last byte does not come back. -/
theorem recycled_at_boundary :
    ¬ ∀ (memory : Ptr → Nat → UInt8) (ops : List ParseOp) (b : ChainedBuffer),
      exec (ParseOp.run 4096) (init memory) ops = some b →
      Along (ParseOp.run 4096) (fun b op => op.Fits 4096 b) (init memory) ops →
      ∀ next node offset size, b.inputNext 4096 = some (next, some (node, offset, size)) →
      ∀ n : Nat, (n : Int) ≤ size →
        ∃ after, next.inputBackUp n = some after ∧
          Undone b next after ((next.block node).bytes offset size.toNat) n := by
  intro always
  have shows : ((exec (ParseOp.run 4096) (init fun _ _ => 0)
      [.receive (.commit (List.replicate 4096 7))]).bind fun b =>
        (b.inputNext 4096).bind Prod.snd) = some (0, 0, 4096) := by
    decide +kernel
  obtain ⟨b, run, result⟩ := Option.bind_eq_some_iff.mp shows
  obtain ⟨⟨next, region⟩, shown, is⟩ := Option.bind_eq_some_iff.mp result
  obtain rfl : region = some (0, 0, 4096) := is
  have recycles : ∀ b ∈ exec (ParseOp.run 4096) (init fun _ _ => 0)
      [.receive (.commit (List.replicate 4096 7))], Recycles b := by
    decide +kernel
  have fits : Along (ParseOp.run 4096) (fun b op => op.Fits 4096 b) (init fun _ _ => 0)
      [.receive (.commit (List.replicate 4096 7))] := by
    decide +kernel
  have undone := always _ _ b run fits next 0 0 4096 shown 1 (by decide)
  have parsing := parsing_of_run (fun _ _ _ kept => kept.step) run fits
  have holds := (parsing.undone_iff shown (by decide)).mp undone
  exact holds.elim nofun fun kept => kept (recycles b run)

end Drpc.Util
