import Mathlib.Data.List.Range
import Mathlib.Data.List.Perm.Subperm
import Drpc.Util.ChainedBuffer

/-! # The nodes of a chained buffer

Every operation of the buffer is made of writes to the block of one node and of
`append_node` and `remove_head`. `Chained` says how the two lists of nodes lie in
the heap, and `Holds` which blocks the chain holds, from `head_` to `tail_`; the
lemmas say what the three primitives do to either. The proofs about the buffer
use these and do not look into the heap.
-/

namespace Drpc.Util

namespace ChainedBuffer

/-! ## Cells -/

variable {b : ChainedBuffer}

/-- A block reads as it was written. -/
@[simp] theorem block_setBlock_self (b : ChainedBuffer) (node : Ptr) (block : BufferBlock) :
    (b.setBlock node block).block node = block := by
  simp [ChainedBuffer.block, setBlock]

/-- The other blocks stay. -/
theorem block_setBlock_of_ne {node other : Ptr} (different : other ≠ node)
    (block : BufferBlock) : (b.setBlock node block).block other = b.block other := by
  simp [ChainedBuffer.block, setBlock, different]

/-- Writing a block leaves the links. -/
@[simp] theorem next_setBlock (b : ChainedBuffer) (node : Ptr) (block : BufferBlock) :
    (b.setBlock node block).next = b.next := by
  funext other
  by_cases same : other = node
  · subst same
    simp [ChainedBuffer.next, setBlock]
  · simp [ChainedBuffer.next, setBlock, same]

/-- Storing a link leaves the blocks. -/
@[simp] theorem block_setNext (b : ChainedBuffer) (node : Ptr) (link : Option Ptr) :
    (b.setNext node link).block = b.block := by
  funext other
  by_cases same : other = node
  · subst same
    simp [ChainedBuffer.block, setNext]
  · simp [ChainedBuffer.block, setNext, same]

/-- A link reads as it was stored. -/
@[simp] theorem next_setNext_self (b : ChainedBuffer) (node : Ptr) (link : Option Ptr) :
    (b.setNext node link).next node = link := by
  simp [ChainedBuffer.next, setNext]

/-- The other links stay. -/
theorem next_setNext_of_ne {node other : Ptr} (different : other ≠ node) (link : Option Ptr) :
    (b.setNext node link).next other = b.next other := by
  simp [ChainedBuffer.next, setNext, different]

/-- Writing back the block of a node changes nothing. -/
theorem setBlock_block (b : ChainedBuffer) (node : Ptr) : b.setBlock node (b.block node) = b := by
  simp [setBlock, ChainedBuffer.block]

theorem setBlock_setBlock (b : ChainedBuffer) (node : Ptr) (first second : BufferBlock) :
    (b.setBlock node first).setBlock node second = b.setBlock node second := by
  simp [setBlock]

/-! ## The two lists of nodes -/

open Chain

/-- The chain from `head_` runs through `nodes` and ends at `tail_`, the free list
runs through `free`, and every allocated node is on exactly one of the two. -/
structure Chained (b : ChainedBuffer) (nodes free : List Ptr) : Prop where
  chain : Linked b.next b.head nodes
  tail : b.tail = nodes.getLast?
  freeList : Linked b.next b.freeList free
  nodup : (nodes ++ free).Nodup
  allocated : ∀ node, node ∈ nodes ++ free ↔ node < b.fresh
  reset : ∀ node ∈ free, (b.block node).readPos = 0 ∧ (b.block node).writePos = 0

/-- A new buffer has one node. -/
theorem chained_init (memory : Ptr → Nat → UInt8) : (init memory).Chained [0] [] where
  chain := ⟨rfl, rfl⟩
  tail := rfl
  freeList := rfl
  nodup := by simp
  allocated := by simp [init]
  reset := by simp

variable {nodes free : List Ptr}

/-- The counters play no role. -/
theorem Chained.congr {other : ChainedBuffer} (chained : b.Chained nodes free)
    (heap : other.heap = b.heap) (fresh : other.fresh = b.fresh) (head : other.head = b.head)
    (tail : other.tail = b.tail) (freeList : other.freeList = b.freeList) :
    other.Chained nodes free := by
  have next : other.next = b.next := by
    funext node
    rw [ChainedBuffer.next, heap]
    rfl
  have block : other.block = b.block := by
    funext node
    rw [ChainedBuffer.block, heap]
    rfl
  obtain ⟨chain, last, freeChain, nodup, allocated, reset⟩ := chained
  exact ⟨by rwa [next, head], by rwa [tail], by rwa [next, freeList], nodup, by rwa [fresh],
    by rwa [block]⟩

/-- Nor do the blocks of the chain. -/
theorem Chained.setBlock (chained : b.Chained nodes free) {node : Ptr} (member : node ∈ nodes)
    (block : BufferBlock) : (b.setBlock node block).Chained nodes free := by
  obtain ⟨chain, last, freeChain, nodup, allocated, reset⟩ := chained
  refine ⟨?_, last, ?_, nodup, allocated, ?_⟩
  · rw [next_setBlock]
    exact chain
  · rw [next_setBlock]
    exact freeChain
  intro other free
  have different : other ≠ node := by
    intro equal
    subst equal
    exact (List.nodup_append.mp nodup).2.2 _ member _ free rfl
  rw [block_setBlock_of_ne different]
  exact reset other free

theorem next_renew_of_ne {node other : Ptr} (different : other ≠ node) :
    (b.renew node).next other = b.next other := by
  rw [renew, next_setBlock, next_setNext_of_ne different]

theorem block_renew_of_ne {node other : Ptr} (different : other ≠ node) :
    (b.renew node).block other = b.block other := by
  rw [renew, block_setBlock_of_ne different, block_setNext]

/-- A chain that does not run through a node is not changed when it is renewed. -/
theorem linked_renew {node : Ptr} {start : Option Ptr} (linked : Linked b.next start nodes)
    (absent : node ∉ nodes) : Linked (b.renew node).next start nodes := by
  refine linked_congr (fun other member => next_renew_of_ne ?_) linked
  intro equal
  subst equal
  exact absent member

/-- What `allocate_node` gives: a node outside both lists, empty and without a link. -/
structure Allocated (b other : ChainedBuffer) (new : Ptr) (nodes rest : List Ptr) : Prop where
  chain : Linked other.next b.head nodes
  freeList : Linked other.next other.freeList rest
  nodup : (new :: (nodes ++ rest)).Nodup
  allocated : ∀ node, node ∈ new :: (nodes ++ rest) ↔ node < other.fresh
  reset : ∀ node ∈ rest, (other.block node).readPos = 0 ∧ (other.block node).writePos = 0
  next : other.next new = none
  empty : other.block new = (b.block new).reset
  blocks : ∀ node ≠ new, other.block node = b.block node
  head : other.head = b.head
  tail : other.tail = b.tail

/-- A node comes from the free list, or is new. -/
theorem Chained.allocateNode (chained : b.Chained nodes free) :
    ∃ rest, b.Allocated b.allocateNode.1 b.allocateNode.2 nodes rest := by
  obtain ⟨chain, last, freeChain, nodup, allocated, reset⟩ := chained
  unfold ChainedBuffer.allocateNode
  cases list : b.freeList with
  | some node =>
      cases free with
      | nil =>
          rw [list] at freeChain
          exact absurd freeChain (by simp [Linked])
      | cons first rest =>
          rw [list] at freeChain
          obtain ⟨same, freeChain⟩ := freeChain
          cases same
          have apart : (node :: (nodes ++ rest)).Nodup :=
            (List.perm_middle.nodup_iff).mp nodup
          obtain ⟨outside, -⟩ := List.nodup_cons.mp apart
          rw [List.mem_append, not_or] at outside
          have members : ∀ other, other ∈ node :: (nodes ++ rest) ↔ other < b.fresh := by
            intro other
            rw [← allocated other, List.perm_middle.mem_iff]
          refine ⟨rest, linked_renew chain outside.1, linked_renew freeChain outside.2, apart,
            members, ?_, by simp [ChainedBuffer.next, renew, ChainedBuffer.setBlock, setNext],
            by simp [ChainedBuffer.block, renew, ChainedBuffer.setBlock], ?_, rfl, rfl⟩
          · intro other member
            have different : other ≠ node := by
              intro equal
              subst equal
              exact outside.2 member
            change ((b.renew node).block other).readPos = 0 ∧
              ((b.renew node).block other).writePos = 0
            rw [block_renew_of_ne different]
            exact reset other (List.mem_cons_of_mem _ member)
          · exact fun other different => block_renew_of_ne different
  | none =>
      cases free with
      | cons first rest =>
          rw [list] at freeChain
          exact absurd freeChain.1 (by simp)
      | nil =>
          have outside : b.fresh ∉ nodes := by
            intro member
            exact absurd ((allocated b.fresh).mp (by simpa using member)) (Nat.lt_irrefl _)
          refine ⟨[], linked_renew chain outside, list, ?_, ?_, by simp, by
            simp [ChainedBuffer.next, renew, ChainedBuffer.setBlock, setNext], by
            simp [ChainedBuffer.block, renew, ChainedBuffer.setBlock],
            fun other different => block_renew_of_ne different, rfl, rfl⟩
          · rw [List.append_nil] at nodup ⊢
            exact List.nodup_cons.mpr ⟨outside, nodup⟩
          · intro other
            have old := allocated other
            rw [List.append_nil] at old ⊢
            rw [List.mem_cons, old]
            exact or_comm.trans Nat.lt_succ_iff_lt_or_eq.symm

/-- **`append_node`** links an empty block behind the tail. -/
theorem Chained.appendNode (chained : b.Chained nodes free) :
    ∃ new rest, b.appendNode.Chained (nodes ++ [new]) rest ∧ new ∉ nodes ∧
      (b.appendNode.block new).readPos = 0 ∧ (b.appendNode.block new).writePos = 0 ∧
      ∀ node ∈ nodes, b.appendNode.block node = b.block node := by
  obtain ⟨rest, allocated⟩ := chained.allocateNode
  unfold ChainedBuffer.appendNode
  generalize b.allocateNode = pair at allocated
  obtain ⟨a, new⟩ := pair
  obtain ⟨chain, freeChain, nodup, members, reset, link, empty, blocks, head, tail⟩ := allocated
  simp only at chain freeChain nodup members reset link empty blocks head tail ⊢
  have apart := List.nodup_cons.mp nodup
  have outside := apart.1
  rw [List.mem_append, not_or] at outside
  have middle : (nodes ++ [new] ++ rest).Perm (new :: (nodes ++ rest)) := by
    rw [List.append_assoc]
    exact List.perm_middle
  rcases List.eq_nil_or_concat' nodes with rfl | ⟨before, last, rfl⟩
  · have none_ : a.tail = none := by rw [tail, chained.tail, List.getLast?_nil]
    rw [none_]
    refine ⟨new, rest, ⟨⟨rfl, link⟩, rfl, freeChain, middle.nodup_iff.mpr nodup, ?_, reset⟩,
      by simp, ?_, ?_, by simp⟩
    · intro node
      rw [middle.mem_iff, members]
    · change (a.block new).readPos = 0
      rw [empty]
      rfl
    · change (a.block new).writePos = 0
      rw [empty]
      rfl
  · have some_ : a.tail = some last := by rw [tail, chained.tail, List.getLast?_concat]
    rw [some_]
    have lastNew : last ≠ new := by
      intro equal
      subst equal
      exact outside.1 (by simp)
    have others : ∀ node ≠ last, (a.setNext last (some new)).next node = a.next node :=
      fun node different => next_setNext_of_ne different _
    have distinct := (List.nodup_append.mp apart.2)
    refine ⟨new, rest, ⟨?_, ?_, ?_, middle.nodup_iff.mpr nodup, ?_, ?_⟩, outside.1, ?_, ?_, ?_⟩
    · change Linked (a.setNext last (some new)).next a.head _
      rw [List.append_assoc, head]
      refine linked_concat chain (fun node member => others node ?_) (next_setNext_self ..) ?_
      · intro equal
        subst equal
        exact (List.nodup_append.mp distinct.1).2.2 _ member _ (List.mem_singleton_self _) rfl
      · rw [others new lastNew.symm, link]
    · rw [List.getLast?_concat]
    · change Linked (a.setNext last (some new)).next a.freeList _
      refine linked_congr (fun node member => others node ?_) freeChain
      intro equal
      subst equal
      exact distinct.2.2 _ (by simp) _ member rfl
    · intro node
      rw [middle.mem_iff, members]
      rfl
    · intro node member
      change ((a.setNext last (some new)).block node).readPos = 0 ∧
        ((a.setNext last (some new)).block node).writePos = 0
      rw [block_setNext]
      exact reset node member
    · change ((a.setNext last (some new)).block new).readPos = 0
      rw [block_setNext, empty]
      rfl
    · change ((a.setNext last (some new)).block new).writePos = 0
      rw [block_setNext, empty]
      rfl
    · intro node member
      change (a.setNext last (some new)).block node = b.block node
      rw [block_setNext]
      apply blocks node
      intro equal
      subst equal
      exact outside.1 member

/-- **`remove_head`** puts the first node on the free list. -/
theorem Chained.removeHead {node : Ptr} (chained : b.Chained (node :: nodes) free) :
    b.removeHead.Chained nodes (node :: free) ∧
      ∀ other ∈ nodes, b.removeHead.block other = b.block other := by
  obtain ⟨⟨head, chain⟩, last, freeChain, nodup, allocated, reset⟩ := chained
  rw [List.cons_append] at nodup
  have outside := (List.nodup_cons.mp nodup).1
  rw [List.mem_append, not_or] at outside
  have middle : (nodes ++ node :: free).Perm (node :: (nodes ++ free)) := List.perm_middle
  have result : b.removeHead =
      { ((b.setBlock node (b.block node).reset).setNext node b.freeList) with
        head := b.next node
        tail := if b.tail = some node then none else b.tail
        freeList := some node } := by
    simp only [ChainedBuffer.removeHead, head]
    rfl
  have next : ∀ other ≠ node, b.removeHead.next other = b.next other := by
    intro other different
    rw [result]
    change ((b.setBlock node _).setNext node b.freeList).next other = _
    rw [next_setNext_of_ne different, next_setBlock]
  have block : ∀ other ≠ node, b.removeHead.block other = b.block other := by
    intro other different
    rw [result]
    change ((b.setBlock node _).setNext node b.freeList).block other = _
    rw [block_setNext, block_setBlock_of_ne different]
  have absent : ∀ other ∈ nodes, other ≠ node := by
    rintro _ member rfl
    exact outside.1 member
  have freeAbsent : ∀ other ∈ free, other ≠ node := by
    rintro _ member rfl
    exact outside.2 member
  refine ⟨⟨?_, ?_, ?_, middle.nodup_iff.mpr nodup, ?_, ?_⟩,
    fun other member => block other (absent other member)⟩
  · have front : b.removeHead.head = b.next node := by rw [result]
    rw [front]
    exact linked_congr (fun other member => next other (absent other member)) chain
  · have tail : b.removeHead.tail = if b.tail = some node then none else b.tail := by rw [result]
    rw [tail, last]
    rcases List.eq_nil_or_concat' nodes with rfl | ⟨before, final, rfl⟩
    · simp
    · have different : final ≠ node := absent final (by simp)
      rw [← List.cons_append, List.getLast?_concat, List.getLast?_concat]
      simp [different]
  · have front : b.removeHead.freeList = some node := by rw [result]
    have link : b.removeHead.next node = b.freeList := by
      rw [result]
      exact next_setNext_self ..
    rw [front]
    refine ⟨rfl, ?_⟩
    rw [link]
    exact linked_congr (fun other member => next other (freeAbsent other member)) freeChain
  · intro other
    have fresh : b.removeHead.fresh = b.fresh := by
      rw [result]
      rfl
    rw [middle.mem_iff, fresh]
    exact allocated other
  · intro other member
    rcases List.mem_cons.mp member with rfl | member
    · have empty : b.removeHead.block other = (b.block other).reset := by
        rw [result]
        change ((b.setBlock other _).setNext other b.freeList).block other = _
        rw [block_setNext, block_setBlock_self]
      rw [empty]
      exact ⟨rfl, rfl⟩
    · rw [block other (freeAbsent other member)]
      exact reset other member

/-- The removed node keeps its array. -/
theorem block_removeHead {head : Ptr} (front : b.head = some head) :
    b.removeHead.block head = (b.block head).reset := by
  simp only [ChainedBuffer.removeHead, front]
  change ((b.setBlock head (b.block head).reset).setNext head b.freeList).block head = _
  rw [block_setNext, block_setBlock_self]

/-! ## The blocks of the chain -/

/-- The chain holds `blocks`, from `head_` to `tail_`. -/
def Holds (b : ChainedBuffer) (blocks : List BufferBlock) : Prop :=
  ∃ nodes free, b.Chained nodes free ∧ nodes.map b.block = blocks

variable {blocks : List BufferBlock} {block : BufferBlock}

/-- Its block is empty. -/
theorem holds_init (memory : Ptr → Nat → UInt8) : (init memory).Holds [⟨memory 0, 0, 0⟩] :=
  ⟨[0], [], chained_init memory, rfl⟩

/-- The counters play no role. -/
theorem Holds.congr {other : ChainedBuffer} (holds : b.Holds blocks)
    (heap : other.heap = b.heap) (fresh : other.fresh = b.fresh) (head : other.head = b.head)
    (tail : other.tail = b.tail) (freeList : other.freeList = b.freeList) : other.Holds blocks := by
  obtain ⟨nodes, free, chained, rfl⟩ := holds
  refine ⟨nodes, free, chained.congr heap fresh head tail freeList, ?_⟩
  refine List.map_congr_left fun node _ => ?_
  rw [ChainedBuffer.block, heap]
  rfl

/-- The chain has no more nodes than were allocated. -/
theorem Chained.length_le (chained : b.Chained nodes free) : nodes.length ≤ b.fresh := by
  have nodup := (List.nodup_append.mp chained.nodup).1
  have below : nodes ⊆ List.range b.fresh := fun node member =>
    List.mem_range.mpr ((chained.allocated node).mp (List.mem_append_left _ member))
  simpa using (List.subperm_of_subset nodup below).length_le

/-- So has the list of the blocks. -/
theorem Holds.length_le (holds : b.Holds blocks) : blocks.length ≤ b.fresh := by
  obtain ⟨nodes, free, chained, rfl⟩ := holds
  simpa using chained.length_le

/-- The contents are the unread bytes of the blocks. -/
theorem Holds.contents_eq (holds : b.Holds blocks) :
    b.contents = blocks.flatMap BufferBlock.unread := by
  obtain ⟨nodes, free, chained, rfl⟩ := holds
  rw [contents, ChainedBuffer.nodes, walk_eq_take chained.chain,
    List.take_of_length_le chained.length_le, List.flatMap_map]

/-- The nodes of the chain are those of its blocks. -/
theorem Holds.map_nodes (holds : b.Holds blocks) :
    b.nodes.map b.block = blocks := by
  obtain ⟨nodes, free, chained, rfl⟩ := holds
  rw [ChainedBuffer.nodes, walk_eq_take chained.chain, List.take_of_length_le chained.length_le]

/-- `get_iovecs` lists the blocks from the head on. -/
theorem Holds.getIovecs_eq (holds : b.Holds blocks) :
    b.getIovecs = (blocks.take iovMax).map BufferBlock.unread := by
  obtain ⟨nodes, free, chained, rfl⟩ := holds
  rw [getIovecs, walk_eq_take chained.chain, ← List.map_take, List.map_map]
  rfl

/-- A buffer without blocks has no head and no tail. -/
theorem Holds.pointers_of_nil (holds : b.Holds []) : b.head = none ∧ b.tail = none := by
  obtain ⟨nodes, free, chained, nil⟩ := holds
  rw [List.map_eq_nil_iff.mp nil] at chained
  exact ⟨chained.chain, chained.tail⟩

/-- The first block, and what a write to it does. -/
theorem Holds.head (holds : b.Holds (block :: blocks)) :
    ∃ head, b.head = some head ∧ b.block head = block ∧ (b.next head = none ↔ blocks = []) ∧
      ∀ other, (b.setBlock head other).Holds (other :: blocks) := by
  obtain ⟨nodes, free, chained, same⟩ := holds
  cases nodes with
  | nil => simp at same
  | cons head rest =>
      rw [List.map_cons, List.cons.injEq] at same
      obtain ⟨rfl, rfl⟩ := same
      have outside := (List.nodup_cons.mp (List.nodup_append.mp chained.nodup).1).1
      refine ⟨head, chained.chain.1, rfl, ?_, fun other => ?_⟩
      · have tail := chained.chain.2
        cases rest with
        | nil => exact iff_of_true tail rfl
        | cons second rest => simp [tail.1]
      · refine ⟨head :: rest, free, chained.setBlock (List.mem_cons_self ..) other, ?_⟩
        rw [List.map_cons, block_setBlock_self, List.cons.injEq]
        refine ⟨rfl, List.map_congr_left fun node member => block_setBlock_of_ne ?_ other⟩
        intro equal
        subst equal
        exact outside member

/-- The last block, and what a write to it does. -/
theorem Holds.tail (holds : b.Holds (blocks ++ [block])) :
    ∃ tail, b.tail = some tail ∧ b.block tail = block ∧
      ∀ other, (b.setBlock tail other).Holds (blocks ++ [other]) := by
  obtain ⟨nodes, free, chained, same⟩ := holds
  rcases List.eq_nil_or_concat' nodes with rfl | ⟨before, tail, rfl⟩
  · simp at same
  · rw [List.map_append, List.map_singleton] at same
    obtain ⟨rfl, final⟩ := List.append_inj' same rfl
    obtain rfl : b.block tail = block := by simpa using final
    have distinct := List.nodup_append.mp (List.nodup_append.mp chained.nodup).1
    refine ⟨tail, by rw [chained.tail, List.getLast?_concat], rfl, fun other => ?_⟩
    refine ⟨before ++ [tail], free, chained.setBlock (by simp) other, ?_⟩
    rw [List.map_append, List.map_singleton, block_setBlock_self]
    congr 1
    refine List.map_congr_left fun node member => block_setBlock_of_ne ?_ other
    intro equal
    subst equal
    exact distinct.2.2 _ member _ (List.mem_singleton_self _) rfl

/-- `append_node` adds an empty block; the block of the old tail stays where it is. -/
theorem Holds.appendNode (holds : b.Holds blocks) :
    ∃ new : BufferBlock, new.readPos = 0 ∧ new.writePos = 0 ∧ b.appendNode.Holds (blocks ++ [new]) ∧
      ∀ tail, b.tail = some tail → b.appendNode.block tail = b.block tail := by
  obtain ⟨nodes, free, chained, rfl⟩ := holds
  obtain ⟨new, rest, appended, -, readPos, writePos, same⟩ := chained.appendNode
  refine ⟨b.appendNode.block new, readPos, writePos, ⟨nodes ++ [new], rest, appended, ?_⟩, ?_⟩
  · rw [List.map_append, List.map_singleton]
    congr 1
    exact List.map_congr_left same
  · intro tail last
    rw [chained.tail] at last
    exact same tail (List.mem_of_getLast? last)

/-- `remove_head` drops the first block. -/
theorem Holds.removeHead (holds : b.Holds (block :: blocks)) : b.removeHead.Holds blocks := by
  obtain ⟨nodes, free, chained, same⟩ := holds
  cases nodes with
  | nil => simp at same
  | cons node rest =>
      rw [List.map_cons, List.cons.injEq] at same
      obtain ⟨-, rfl⟩ := same
      obtain ⟨removed, kept⟩ := chained.removeHead
      exact ⟨rest, node :: free, removed, List.map_congr_left kept⟩

/-- A buffer that holds a block has a head and a tail. -/
theorem Holds.pointers (holds : b.Holds blocks) (some_ : blocks ≠ []) :
    b.head ≠ none ∧ b.tail ≠ none := by
  obtain ⟨first, rest, rfl⟩ := List.exists_cons_of_ne_nil some_
  obtain ⟨head, front, -⟩ := holds.head
  rcases List.eq_nil_or_concat' (first :: rest) with empty | ⟨before, last, same⟩
  · simp at empty
  · rw [same] at holds
    obtain ⟨tail, back, -⟩ := holds.tail
    simp [front, back]

/-! ## The counters -/

@[simp] theorem totalSize_appendNode (b : ChainedBuffer) :
    b.appendNode.totalSize = b.totalSize := by
  unfold ChainedBuffer.appendNode ChainedBuffer.allocateNode
  cases b.freeList <;> dsimp only <;> split <;> rfl

@[simp] theorem totalSize_removeHead (b : ChainedBuffer) :
    b.removeHead.totalSize = b.totalSize := by
  unfold ChainedBuffer.removeHead
  split <;> rfl

@[simp] theorem consumedBytes_appendNode (b : ChainedBuffer) :
    b.appendNode.consumedBytes = b.consumedBytes := by
  unfold ChainedBuffer.appendNode ChainedBuffer.allocateNode
  cases b.freeList <;> dsimp only <;> split <;> rfl

@[simp] theorem limit_appendNode (b : ChainedBuffer) : b.appendNode.limit = b.limit := by
  unfold ChainedBuffer.appendNode ChainedBuffer.allocateNode
  cases b.freeList <;> dsimp only <;> split <;> rfl

@[simp] theorem consumedBytes_removeHead (b : ChainedBuffer) :
    b.removeHead.consumedBytes = b.consumedBytes := by
  unfold ChainedBuffer.removeHead
  split <;> rfl

@[simp] theorem limit_removeHead (b : ChainedBuffer) : b.removeHead.limit = b.limit := by
  unfold ChainedBuffer.removeHead
  split <;> rfl

end ChainedBuffer

end Drpc.Util
