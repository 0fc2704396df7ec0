import Mathlib.Algebra.GroupWithZero.Nat
import Drpc.Library.Transition
import Drpc.Util.Nodes

/-! # The receive buffer

What the receive path does with its buffer: it commits the bytes a read has
placed behind the tail, reads length words, and lets a parser take regions under
a limit. `read` removes a block that it empties even when it is the last one, so
the buffer keeps a block exactly as long as no `read` takes the last byte out of
the tail (`keeps_block`).
-/

namespace Drpc.Util

open Transition ChainedBuffer

/-- An operation of the receive path. -/
inductive ReceiveOp where
  /-- `write_view`, the bytes placed there, and `commit_resv` of their number. -/
  | commit (bytes : Bytes)
  | read (length : Nat)
  | pushLimit (limit : Int)
  | popLimit
  | inputNext
  deriving DecidableEq, Repr

/-- One operation; it is `none` where the source dereferences a null pointer. -/
def ReceiveOp.run (blockSize : Nat) (b : ChainedBuffer) : ReceiveOp → Option ChainedBuffer
  | .commit bytes =>
      (b.writeView blockSize).bind fun (node, offset, _) =>
        (b.fill node offset bytes).commitResv blockSize bytes.length
  | .read length => (b.read length).map Prod.fst
  | .pushLimit limit => some (b.pushLimit limit)
  | .popLimit => some b.popLimit
  | .inputNext => (b.inputNext blockSize).map Prod.fst

/-- How the receive path calls the operations: it commits no more than the view has
room for, and reads no more than `size()`. -/
def ReceiveOp.Allowed (blockSize : Nat) (b : ChainedBuffer) : ReceiveOp → Prop
  | .commit bytes => ∀ view ∈ b.writeView blockSize, 0 < bytes.length ∧ bytes.length ≤ view.2.2
  | .read length => 0 < length ∧ length ≤ b.totalSize
  | .pushLimit _ | .popLimit | .inputNext => True

/-- A `read` does not take the last byte out of the tail: it takes fewer bytes than
the blocks hold, or all of them when the tail holds none. -/
def ReceiveOp.KeepsTail (b : ChainedBuffer) : ReceiveOp → Prop
  | .read length => length < b.contents.length ∨
      (length = b.contents.length ∧ ∀ tail ∈ b.tail, (b.block tail).empty = true)
  | .commit _ | .pushLimit _ | .popLimit | .inputNext => True

instance ReceiveOp.decidableAllowed (blockSize : Nat) (b : ChainedBuffer) (op : ReceiveOp) :
    Decidable (op.Allowed blockSize b) := by
  cases op <;> unfold ReceiveOp.Allowed <;> infer_instance

instance ReceiveOp.decidableKeepsTail (b : ChainedBuffer) (op : ReceiveOp) :
    Decidable (op.KeepsTail b) := by
  cases op <;> unfold ReceiveOp.KeepsTail <;> infer_instance

/-- The positions of a block are `size_t`. -/
def BufferBlock.InRange (block : BufferBlock) : Prop :=
  block.readPos < 2 ^ 64 ∧ block.writePos < 2 ^ 64

theorem wrapAdd_lt (value : Nat) (amount : Int) : wrapAdd value amount < 2 ^ 64 := by
  simp only [wrapAdd]
  omega

theorem BufferBlock.InRange.moveReadPos {block : BufferBlock} (inRange : block.InRange)
    (value : Nat) (amount : Int) :
    ({ block with readPos := wrapAdd value amount } : BufferBlock).InRange :=
  ⟨wrapAdd_lt value amount, inRange.2⟩

/-- `read` empties a block when it takes all its bytes. -/
theorem BufferBlock.read_spec {block : BufferBlock} (inRange : block.InRange) {count : Nat}
    (enough : count ≤ block.size) :
    (block.read count).1.InRange ∧ ((block.read count).1.empty = true ↔ count = block.size) := by
  obtain ⟨low, high⟩ := inRange
  have taken : min count block.size = count := min_eq_left enough
  simp only [BufferBlock.size, wrapSub, wrapAdd] at enough
  have ends : wrapAdd block.readPos count = block.writePos ↔ count = block.size := by
    simp only [wrapAdd, BufferBlock.size, wrapSub]
    omega
  unfold BufferBlock.read
  simp only [taken, BufferBlock.empty, decide_eq_true_eq]
  by_cases all : wrapAdd block.readPos count = block.writePos
  · simp only [all, ↓reduceIte, BufferBlock.reset, true_iff]
    exact ⟨⟨by simp, by simp⟩, ends.mp all⟩
  · simp only [all, ↓reduceIte, false_iff]
    exact ⟨⟨wrapAdd_lt block.readPos count, high⟩, fun same => all (ends.mpr same)⟩

/-- A block that `read` does not empty keeps its write position. -/
theorem BufferBlock.writePos_read {block : BufferBlock} {count : Nat}
    (some_ : ¬ (block.read count).1.empty = true) :
    (block.read count).1.writePos = block.writePos := by
  unfold BufferBlock.read at some_ ⊢
  dsimp only at some_ ⊢
  split
  next emptied =>
    rw [if_pos emptied] at some_
    exact absurd rfl some_
  next => rfl

theorem BufferBlock.size_of_empty {block : BufferBlock} (empty : block.empty = true) :
    block.size = 0 := by
  simp only [BufferBlock.empty, decide_eq_true_eq] at empty
  simp only [BufferBlock.size, wrapSub, wrapAdd, empty]
  omega

theorem BufferBlock.length_readView (block : BufferBlock) :
    block.readView.length = block.size := by
  unfold BufferBlock.readView
  by_cases empty : block.empty = true
  · simp only [empty, ↓reduceIte, List.length_nil, BufferBlock.size_of_empty empty]
  · simp only [empty, Bool.false_eq_true, ↓reduceIte, BufferBlock.length_bytes]

/-! ## The invariant -/

/-- The buffer holds a block. -/
def KeepsBlock (b : ChainedBuffer) : Prop :=
  ∃ blocks, b.Holds blocks ∧ blocks ≠ [] ∧ ∀ block ∈ blocks, block.InRange

theorem keepsBlock_init (memory : Ptr → Nat → UInt8) : KeepsBlock (init memory) :=
  ⟨_, holds_init memory, by simp, by simp [BufferBlock.InRange]⟩

theorem Holds.length_contents {b : ChainedBuffer} {blocks : List BufferBlock}
    (holds : b.Holds blocks) : b.contents.length = (blocks.map BufferBlock.size).sum := by
  rw [holds.contents_eq, List.length_flatMap]
  simp

/-- One turn of the loop of `read`: the first block is taken from, and it is removed
when no byte of it is left. -/
theorem readLoop_turn {b : ChainedBuffer} {block : BufferBlock} {rest : List BufferBlock}
    (holds : b.Holds (block :: rest)) (inRange : block.InRange) (fuel length : Nat)
    (taken : Bytes) :
    ∃ next result, readLoop (fuel + 1) b (length + 1) taken =
        readLoop fuel next (length + 1 - min (length + 1) block.size) result ∧
      ((block.size ≤ length + 1 ∧ next.Holds rest) ∨
        (length + 1 < block.size ∧ ∃ after, after.InRange ∧ after.writePos = block.writePos ∧
          next.Holds (after :: rest))) := by
  obtain ⟨head, front, same, -, update⟩ := holds.head
  have counted : min (length + 1) block.size ≤ block.size := min_le_right ..
  obtain ⟨afterRange, emptied⟩ := BufferBlock.read_spec inRange counted
  have kept : ¬ (block.read (min (length + 1) block.size)).1.empty = true →
      (block.read (min (length + 1) block.size)).1.writePos = block.writePos :=
    BufferBlock.writePos_read
  set after := (block.read (min (length + 1) block.size)).1
  have held : ({ b.setBlock head after with
      consumedBytes := b.consumedBytes + min (length + 1) block.size
      totalSize := sizeSub b.totalSize (min (length + 1) block.size) } :
        ChainedBuffer).Holds (after :: rest) := (update after).congr rfl rfl rfl rfl rfl
  conv in readLoop (fuel + 1) _ _ _ => unfold readLoop
  simp only [front, same, BufferBlock.length_readView]
  refine ⟨_, _, rfl, ?_⟩
  by_cases gone : after.empty = true
  · have whole := emptied.mp gone
    rw [if_pos gone]
    exact .inl ⟨by omega, held.removeHead⟩
  · have part : min (length + 1) block.size ≠ block.size := fun whole => gone (emptied.mpr whole)
    rw [if_neg gone]
    exact .inr ⟨by omega, after, afterRange, kept gone, held⟩

/-- The loop of `read` stops before it removes the tail. -/
theorem readLoop_keeps {blocks : List BufferBlock} (some_ : blocks ≠ [])
    (inRange : ∀ block ∈ blocks, block.InRange) {b : ChainedBuffer} {fuel length : Nat}
    {taken : Bytes} (holds : b.Holds blocks) (enough : blocks.length ≤ fuel)
    (keeps : length < (blocks.map BufferBlock.size).sum ∨
      length = (blocks.map BufferBlock.size).sum ∧ (blocks.getLast some_).empty = true) :
    ∃ next result, readLoop fuel b length taken = some (next, result) ∧ KeepsBlock next := by
  induction blocks generalizing b fuel length taken with
  | nil => exact absurd rfl some_
  | cons block rest ih =>
      have restRange : ∀ block ∈ rest, block.InRange := fun other member =>
        inRange other (List.mem_cons_of_mem _ member)
      cases length with
      | zero =>
          refine ⟨b, taken, ?_, ⟨_, holds, some_, inRange⟩⟩
          unfold readLoop
          rfl
      | succ length =>
          obtain ⟨fuel, rfl⟩ : ∃ less, fuel = less + 1 := ⟨fuel - 1, by simp at enough; omega⟩
          simp only [List.length_cons, Nat.add_le_add_iff_right] at enough
          simp only [List.map_cons, List.sum_cons] at keeps
          obtain ⟨next, result, turn, after⟩ := readLoop_turn holds
            (inRange block (List.mem_cons_self ..)) fuel length taken
          rw [turn]
          rcases after with ⟨whole, held⟩ | ⟨part, after, afterRange, -, held⟩
          · have more : rest ≠ [] := by
              intro equal
              subst equal
              rcases keeps with less | ⟨all, last⟩
              · simp at less
                omega
              · have empty : block.empty = true := last
                simp [BufferBlock.size_of_empty empty] at all
            apply ih more restRange held enough
            rcases keeps with less | ⟨all, last⟩
            · left
              omega
            · right
              refine ⟨by omega, ?_⟩
              rwa [List.getLast_cons more] at last
          · have done : length + 1 - min (length + 1) block.size = 0 := by omega
            rw [done]
            refine ⟨next, result, by unfold readLoop; rfl, after :: rest, held, by simp, ?_⟩
            simpa using ⟨afterRange, restRange⟩

/-- **`read`** keeps a block when it does not take the last byte out of the tail. -/
theorem read_keeps {b : ChainedBuffer} {length : Nat} (kept : KeepsBlock b)
    (keeps : (ReceiveOp.read length).KeepsTail b) :
    ∃ next result, b.read length = some (next, result) ∧ KeepsBlock next := by
  obtain ⟨blocks, holds, some_, inRange⟩ := kept
  apply readLoop_keeps some_ inRange holds (Nat.le_succ_of_le holds.length_le)
  rw [← Holds.length_contents holds]
  refine Or.imp_right (And.imp_right fun last => ?_) keeps
  rw [← List.dropLast_append_getLast some_] at holds
  obtain ⟨tail, back, same, -⟩ := holds.tail
  rw [← same]
  exact last tail back

/-- `commit_resv` adds to the tail, and a block behind it when it is full. -/
theorem commitResv_keeps {b : ChainedBuffer} (kept : KeepsBlock b) (blockSize : Nat)
    (resv : Int) : ∃ next, b.commitResv blockSize resv = some next ∧ KeepsBlock next := by
  obtain ⟨blocks, holds, some_, inRange⟩ := kept
  unfold commitResv
  by_cases positive : 0 < resv
  · obtain ⟨before, last, rfl⟩ := (List.eq_nil_or_concat' blocks).resolve_left some_
    obtain ⟨tail, back, same, update⟩ := holds.tail
    simp only [positive, ↓reduceIte, back, same]
    refine ⟨_, rfl, ?_⟩
    set block : BufferBlock := { last with writePos := wrapAdd last.writePos resv }
    have held : ({ b.setBlock tail block with
        totalSize := sizeAdd b.totalSize resv } : ChainedBuffer).Holds (before ++ [block]) :=
      (update block).congr rfl rfl rfl rfl rfl
    have lastRange := inRange last (by simp)
    have ranges : ∀ other ∈ before ++ [block], other.InRange := by
      intro other member
      rw [List.mem_append, List.mem_singleton] at member
      rcases member with old | rfl
      · exact inRange other (List.mem_append_left _ old)
      · exact ⟨lastRange.1, wrapAdd_lt last.writePos resv⟩
    split
    · obtain ⟨new, readPos, writePos, appended, -⟩ := held.appendNode
      refine ⟨_, appended, by simp, fun other member => ?_⟩
      rw [List.mem_append, List.mem_singleton] at member
      rcases member with old | rfl
      · exact ranges other old
      · simp [BufferBlock.InRange, readPos, writePos]
    · exact ⟨_, held, by simp, ranges⟩
  · simp only [positive, ↓reduceIte]
    exact ⟨b, rfl, blocks, holds, some_, inRange⟩

/-- A caller that fills a region changes no position. -/
theorem fill_keeps {b : ChainedBuffer} (kept : KeepsBlock b) {tail : Ptr}
    (back : b.tail = some tail)
    (offset : Nat) (source : Bytes) : KeepsBlock (b.fill tail offset source) := by
  obtain ⟨blocks, holds, some_, inRange⟩ := kept
  obtain ⟨before, last, rfl⟩ := (List.eq_nil_or_concat' blocks).resolve_left some_
  obtain ⟨node, found, same, update⟩ := holds.tail
  cases back.symm.trans found
  refine ⟨before ++ [last.store offset source], ?_, by simp, fun other member => ?_⟩
  · rw [fill, same]
    exact update _
  · rw [List.mem_append, List.mem_singleton] at member
    rcases member with old | rfl
    · exact inRange other (List.mem_append_left _ old)
    · exact inRange last (by simp)

/-- `input_next` moves the read position of the head, or removes it when another block
follows. -/
theorem inputNext_holds {b : ChainedBuffer} {block : BufferBlock} {rest : List BufferBlock}
    (holds : b.Holds (block :: rest)) (inRange : block.InRange) (blockSize : Nat) :
    ∃ next region, b.inputNext blockSize = some (next, region) ∧
      ((rest ≠ [] ∧ next.Holds rest) ∨
        ∃ after, after.InRange ∧ after.writePos = block.writePos ∧ next.Holds (after :: rest)) := by
  obtain ⟨head, front, same, single, update⟩ := holds.head
  unfold inputNext
  simp only [front, same]
  split
  · exact ⟨b, none, rfl, .inr ⟨block, inRange, rfl, holds⟩⟩
  · refine ⟨_, _, rfl, ?_⟩
    set size := min (Int.bmod block.size (2 ^ 32)) b.limit
    set after : BufferBlock := { block with readPos := wrapAdd block.readPos size }
    set base : ChainedBuffer := { b.setBlock head after with
      limit := if b.limit = noLimit then b.limit else b.limit - size
      consumedBytes := sizeAdd b.consumedBytes size }
    have held : base.Holds (after :: rest) := (update after).congr rfl rfl rfl rfl rfl
    have link : base.next head = b.next head := by
      change (b.setBlock head after).next head = _
      rw [next_setBlock]
    split
    · rename_i removes
      refine .inl ⟨?_, held.removeHead.congr rfl rfl rfl rfl rfl⟩
      intro equal
      subst equal
      exact removes.2 (link.trans (single.mpr rfl))
    · exact .inr ⟨after, inRange.moveReadPos block.readPos size, rfl,
        held.congr rfl rfl rfl rfl rfl⟩

/-- `input_next` keeps a block. -/
theorem inputNext_keeps {b : ChainedBuffer} (kept : KeepsBlock b) (blockSize : Nat) :
    ∃ next region, b.inputNext blockSize = some (next, region) ∧ KeepsBlock next := by
  obtain ⟨blocks, holds, some_, inRange⟩ := kept
  obtain ⟨block, rest, rfl⟩ := List.exists_cons_of_ne_nil some_
  obtain ⟨blockRange, restRange⟩ := List.forall_mem_cons.mp inRange
  obtain ⟨next, region, taken, ⟨more, held⟩ | ⟨after, afterRange, -, held⟩⟩ :=
    inputNext_holds holds blockRange blockSize
  · exact ⟨next, region, taken, rest, held, more, restRange⟩
  · exact ⟨next, region, taken, after :: rest, held, List.cons_ne_nil _ _,
      List.forall_mem_cons.mpr ⟨afterRange, restRange⟩⟩

/-- The loop of `read` ends, also where it removes the tail. -/
theorem readLoop_defined {blocks : List BufferBlock} (inRange : ∀ block ∈ blocks, block.InRange)
    {b : ChainedBuffer} {fuel length : Nat} {taken : Bytes} (holds : b.Holds blocks)
    (enough : blocks.length < fuel) : (readLoop fuel b length taken).isSome = true := by
  induction blocks generalizing b fuel length taken with
  | nil =>
      cases length with
      | zero =>
          unfold readLoop
          rfl
      | succ length =>
          obtain ⟨nodes, free, chained, none_⟩ := holds
          rw [List.map_eq_nil_iff] at none_
          subst none_
          unfold readLoop
          rw [show b.head = none from chained.chain]
          rfl
  | cons block rest ih =>
      cases length with
      | zero =>
          unfold readLoop
          rfl
      | succ length =>
          obtain ⟨fuel, rfl⟩ : ∃ less, fuel = less + 1 := ⟨fuel - 1, by omega⟩
          simp only [List.length_cons, Nat.add_lt_add_iff_right] at enough
          obtain ⟨next, result, turn, after⟩ := readLoop_turn holds
            (inRange block (List.mem_cons_self ..)) fuel length taken
          rw [turn]
          rcases after with ⟨-, held⟩ | ⟨part, after, -, -, held⟩
          · exact ih (fun other member => inRange other (List.mem_cons_of_mem _ member)) held enough
          · have done : length + 1 - min (length + 1) block.size = 0 := by omega
            rw [done]
            unfold readLoop
            rfl

/-- **One operation** of the receive path is defined and keeps a block. -/
theorem run_keeps {blockSize : Nat} {b : ChainedBuffer} {op : ReceiveOp} (kept : KeepsBlock b)
    (keeps : op.KeepsTail b) : ∃ next, op.run blockSize b = some next ∧ KeepsBlock next := by
  cases op with
  | commit bytes =>
      obtain ⟨blocks, holds, some_, inRange⟩ := kept
      obtain ⟨tail, back⟩ := Option.ne_none_iff_exists'.mp (holds.pointers some_).2
      have filled := fill_keeps ⟨blocks, holds, some_, inRange⟩ back
        ((b.block tail).writeView blockSize).1 bytes
      simpa only [ReceiveOp.run, writeView, back, Option.bind_some] using
        commitResv_keeps filled blockSize bytes.length
  | read length =>
      obtain ⟨next, result, taken, kept⟩ := read_keeps kept keeps
      exact ⟨next, by simp only [ReceiveOp.run, taken, Option.map_some], kept⟩
  | pushLimit limit =>
      obtain ⟨blocks, holds, facts⟩ := kept
      exact ⟨_, rfl, blocks, holds.congr rfl rfl rfl rfl rfl, facts⟩
  | popLimit =>
      obtain ⟨blocks, holds, facts⟩ := kept
      exact ⟨_, rfl, blocks, holds.congr rfl rfl rfl rfl rfl, facts⟩
  | inputNext =>
      obtain ⟨next, region, taken, kept⟩ := inputNext_keeps kept blockSize
      exact ⟨next, by simp only [ReceiveOp.run, taken, Option.map_some], kept⟩

/-- **The receive buffer keeps a block** in every run of the receive path in which no
`read` takes the last byte out of the tail: every operation is defined, and
`head_` and `tail_` are not null in any state. -/
theorem keeps_block (memory : Ptr → Nat → UInt8) (ops : List ReceiveOp)
    (keeps : Along (ReceiveOp.run 4096) (fun b op => op.KeepsTail b) (init memory) ops) :
    ∃ b, exec (ReceiveOp.run 4096) (init memory) ops = some b ∧ b.head ≠ none ∧ b.tail ≠ none ∧
      (b.writeView 4096).isSome = true ∧ (∀ resv, (b.commitResv 4096 resv).isSome = true) ∧
      (b.inputNext 4096).isSome = true ∧ ∀ length, (b.read length).isSome = true := by
  obtain ⟨b, run, kept⟩ := exec_total (fun b op kept keeps => run_keeps kept keeps)
    (keepsBlock_init memory) keeps
  have ⟨blocks, holds, some_, inRange⟩ := kept
  obtain ⟨front, back⟩ := holds.pointers some_
  refine ⟨b, run, front, back, ?_, fun resv => ?_, ?_, fun length => ?_⟩
  · obtain ⟨tail, back⟩ := Option.ne_none_iff_exists'.mp back
    simp only [writeView, back, Option.isSome_some]
  · obtain ⟨next, taken, -⟩ := commitResv_keeps kept 4096 resv
    rw [taken, Option.isSome_some]
  · obtain ⟨next, region, taken, -⟩ := inputNext_keeps kept 4096
    rw [taken, Option.isSome_some]
  · exact readLoop_defined inRange holds (Nat.lt_succ_of_le holds.length_le)

/-- A word and the first byte behind it, and the word read: the buffer keeps its
block. -/
theorem keeps_block_of_more :
    ∃ b, exec (ReceiveOp.run 4096) (init fun _ _ => 0) [.commit [4, 0, 0, 0, 8], .read 4] =
        some b ∧ b.head ≠ none ∧ b.tail ≠ none := by
  obtain ⟨b, run, front, back, -⟩ := keeps_block (fun _ _ => 0)
    [.commit [4, 0, 0, 0, 8], .read 4] (by decide +kernel)
  exact ⟨b, run, front, back⟩

/-- The four bytes of a length word arrive alone and are read: the buffer has no
block left. -/
theorem loses_block :
    ¬ ∀ (memory : Ptr → Nat → UInt8) (ops : List ReceiveOp),
      Along (ReceiveOp.run 4096) (fun b op => op.Allowed 4096 b) (init memory) ops →
        ∃ b, exec (ReceiveOp.run 4096) (init memory) ops = some b ∧
          b.head ≠ none ∧ b.tail ≠ none := by
  intro always
  obtain ⟨b, run, front, -⟩ := always (fun _ _ => 0) [.commit [4, 0, 0, 0], .read 4]
    (by decide +kernel)
  have lost : ∀ b ∈ exec (ReceiveOp.run 4096) (init fun _ _ => 0)
      [.commit [4, 0, 0, 0], .read 4], b.head = none := by
    decide +kernel
  exact front (lost b run)

end Drpc.Util
