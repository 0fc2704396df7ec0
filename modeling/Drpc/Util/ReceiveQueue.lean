import Drpc.Util.ReceiveBuffer

/-! # The receive buffer as a byte queue

What the receive path commits, it gets back in the same order, whether `read` copies
it out or `input_next` shows it. The blocks are packed: every block but the last is
full and has bytes to give, and the last has room.
-/

namespace Drpc.Util

/-- A block that was filled and still has bytes to give. -/
def BufferBlock.Filled (blockSize : Nat) (block : BufferBlock) : Prop :=
  block.readPos < blockSize ∧ block.writePos = blockSize

/-- A block with room. -/
def BufferBlock.Open (blockSize : Nat) (block : BufferBlock) : Prop :=
  block.readPos ≤ block.writePos ∧ block.writePos < blockSize

/-- Every block but the last is filled, and the last is open. -/
def Packed (blockSize : Nat) (blocks : List BufferBlock) : Prop :=
  (∀ block ∈ blocks.dropLast, block.Filled blockSize) ∧
    ∀ last ∈ blocks.getLast?, last.Open blockSize

variable {blockSize : Nat} {block last : BufferBlock} {blocks before rest : List BufferBlock}

theorem packed_concat :
    Packed blockSize (before ++ [last]) ↔
      (∀ block ∈ before, block.Filled blockSize) ∧ last.Open blockSize := by
  simp [Packed]

theorem packed_singleton : Packed blockSize [block] ↔ block.Open blockSize := by
  simp [Packed]

theorem packed_cons (more : rest ≠ []) :
    Packed blockSize (block :: rest) ↔ block.Filled blockSize ∧ Packed blockSize rest := by
  simp only [Packed, List.dropLast_cons_of_ne_nil more, List.mem_cons, forall_eq_or_imp,
    List.getLast?_cons_of_ne_nil more, and_assoc]

theorem Packed.sound (packed : Packed blockSize blocks) (small : blockSize < 2 ^ 31) :
    ∀ block ∈ blocks, block.Sound blockSize := by
  intro block member
  obtain ⟨before, last, rfl⟩ := (List.eq_nil_or_concat' blocks).resolve_left
    (List.ne_nil_of_mem member)
  obtain ⟨filled, room⟩ := packed_concat.mp packed
  rw [List.mem_append, List.mem_singleton] at member
  rcases member with old | rfl
  · obtain ⟨less, full⟩ := filled block old
    exact ⟨by omega, full.le, small⟩
  · exact ⟨room.1, room.2.le, small⟩

theorem Packed.tail (packed : Packed blockSize (block :: rest)) : Packed blockSize rest := by
  by_cases more : rest = []
  · subst more
    exact ⟨by simp, by simp⟩
  · exact ((packed_cons more).mp packed).2

namespace BufferBlock

theorem Sound.readView_eq {capacity : Nat} (sound : block.Sound capacity) :
    block.readView = block.unread := by
  unfold readView
  split
  next empty =>
    symm
    apply List.length_eq_zero_iff.mp
    rw [length_unread, sound.empty_iff.mp empty]
  next => rfl

/-- `read` of a part of the block. -/
theorem read_of_lt {capacity count : Nat} (sound : block.Sound capacity)
    (part : count < block.size) :
    (block.read count).1 = { block with readPos := block.readPos + count } := by
  have size := sound.size_eq
  have within := sound.within
  have small := sound.small
  have position : wrapAdd block.readPos count = block.readPos + count :=
    wrapAdd_natCast (by omega)
  have some_ : block.readPos + count ≠ block.writePos := by omega
  simp only [read, min_eq_left part.le, position, empty, decide_eq_true_eq, some_, ↓reduceIte]

/-- `read` of the whole block resets it. -/
theorem read_of_eq {capacity : Nat} (sound : block.Sound capacity) :
    (block.read block.size).1.empty = true := by
  have size := sound.size_eq
  have inOrder := sound.inOrder
  have within := sound.within
  have small := sound.small
  have position : wrapAdd block.readPos block.size = block.writePos := by
    rw [wrapAdd_natCast (by omega)]
    omega
  simp [read, position, empty, reset]

/-- A region at the read position shows the first unread bytes. -/
theorem bytes_eq_take {count : Nat} (enough : count ≤ block.size) :
    block.bytes block.readPos count = block.unread.take count := by
  obtain ⟨more, size⟩ := Nat.exists_eq_add_of_le enough
  rw [unread, size, bytes_add, List.take_left' (length_bytes ..)]

/-- Only the array counts for the bytes of a region. -/
theorem bytes_of_data {other : BufferBlock} (data : other.data = block.data)
    (offset length : Nat) : other.bytes offset length = block.bytes offset length := by
  rw [bytes, data, bytes]

/-- The block with `bytes` placed in its view and committed. -/
def commit (block : BufferBlock) (bytes : Bytes) : BufferBlock :=
  { block.store block.writePos bytes with writePos := wrapAdd block.writePos bytes.length }

theorem commit_spec {capacity : Nat} (sound : block.Sound capacity) {bytes : Bytes}
    (room : block.writePos + bytes.length ≤ capacity) :
    (block.commit bytes).readPos = block.readPos ∧
      (block.commit bytes).writePos = block.writePos + bytes.length ∧
      (block.commit bytes).unread = block.unread ++ bytes := by
  have small := sound.small
  have position : wrapAdd block.writePos bytes.length = block.writePos + bytes.length :=
    wrapAdd_natCast (by omega)
  refine ⟨rfl, position, ?_⟩
  rw [commit, position]
  exact unread_store sound room

end BufferBlock

namespace ChainedBuffer

/-- The buffer keeps `contents` in the packed `blocks`. -/
structure Queued (blockSize : Nat) (b : ChainedBuffer) (blocks : List BufferBlock)
    (contents : Bytes) : Prop where
  holds : b.Holds blocks
  packed : Packed blockSize blocks
  /-- Nothing was taken out of the blocks behind the head. -/
  untouched : ∀ block ∈ blocks.tail, block.readPos = 0
  stored : blocks.flatMap BufferBlock.unread = contents
  totalSize : b.totalSize = contents.length
  small : blockSize < 2 ^ 31

variable {b : ChainedBuffer} {contents : Bytes}

theorem queued_init (memory : Ptr → Nat → UInt8) (positive : 0 < blockSize)
    (small : blockSize < 2 ^ 31) :
    (init memory).Queued blockSize [⟨memory 0, 0, 0⟩] [] where
  holds := holds_init memory
  packed := packed_singleton.mpr ⟨le_rfl, positive⟩
  untouched := nofun
  stored := rfl
  totalSize := rfl
  small := small

theorem Queued.sound (queued : b.Queued blockSize blocks contents) :
    ∀ block ∈ blocks, block.Sound blockSize :=
  queued.packed.sound queued.small

theorem Queued.contents_eq (queued : b.Queued blockSize blocks contents) :
    b.contents = contents := by
  rw [queued.holds.contents_eq, queued.stored]

theorem Queued.size_le (queued : b.Queued blockSize (block :: rest) contents) :
    block.size ≤ contents.length := by
  rw [← queued.stored, List.flatMap_cons, List.length_append, BufferBlock.length_unread]
  exact Nat.le_add_right ..

/-- The positions of the head. -/
theorem Queued.positions (queued : b.Queued blockSize (block :: rest) contents) :
    block.readPos + block.size = block.writePos ∧ block.writePos ≤ blockSize ∧
      blockSize < 2 ^ 31 := by
  have sound := queued.sound block (List.mem_cons_self ..)
  refine ⟨?_, sound.within, queued.small⟩
  rw [sound.size_eq]
  exact Nat.add_sub_of_le sound.inOrder

/-- Its size is an `int`. -/
theorem Queued.bmod_size (queued : b.Queued blockSize (block :: rest) contents) :
    Int.bmod (block.size : Int) (2 ^ 32) = block.size := by
  have positions := queued.positions
  exact Int.bmod_eq_of_le (by omega) (by omega)

theorem Queued.block_head (queued : b.Queued blockSize (block :: rest) contents) {head : Ptr}
    (front : b.head = some head) : b.block head = block := by
  obtain ⟨_, found, same, -⟩ := queued.holds.head
  obtain rfl := Option.some.inj (front.symm.trans found)
  exact same

/-- The counters play no role but `size()`. -/
theorem Queued.congr {other : ChainedBuffer} (queued : b.Queued blockSize blocks contents)
    (heap : other.heap = b.heap) (fresh : other.fresh = b.fresh) (head : other.head = b.head)
    (tail : other.tail = b.tail) (freeList : other.freeList = b.freeList)
    (totalSize : other.totalSize = b.totalSize) : other.Queued blockSize blocks contents where
  holds := queued.holds.congr heap fresh head tail freeList
  packed := queued.packed
  untouched := queued.untouched
  stored := queued.stored
  totalSize := totalSize.trans queued.totalSize
  small := queued.small

/-! ## `read` -/

/-- What one turn of the loop of `read` does with the first block. -/
theorem Queued.readLoop_turn (queued : b.Queued blockSize (block :: rest) contents)
    (fuel length : Nat) (taken : Bytes) :
    ∃ next blocks, readLoop (fuel + 1) b (length + 1) taken =
        readLoop fuel next (length + 1 - min (length + 1) block.size)
          (taken ++ block.unread.take (length + 1)) ∧
      next.Queued blockSize blocks (contents.drop (min (length + 1) block.size)) ∧
      next.consumedBytes = b.consumedBytes + min (length + 1) block.size ∧
      next.limit = b.limit ∧
      (length + 1 < block.size ∨ (block.size ≤ length + 1 ∧ blocks = rest)) := by
  have sound := queued.sound block (List.mem_cons_self ..)
  obtain ⟨head, front, same, -, update⟩ := queued.holds.head
  have stored := queued.stored
  rw [List.flatMap_cons] at stored
  set count := min (length + 1) block.size with counted
  have enough : count ≤ contents.length := (min_le_right ..).trans queued.size_le
  have total : sizeSub b.totalSize count = (contents.drop count).length := by
    rw [queued.totalSize, sizeSub_of_le enough, List.length_drop]
  have view : min (length + 1) block.unread.length = count := by
    rw [BufferBlock.length_unread, counted]
  have shown : block.unread.take count = block.unread.take (length + 1) := by
    apply List.take_eq_take_iff.mpr
    rw [BufferBlock.length_unread]
    omega
  have held : ∀ after : BufferBlock, ({ b.setBlock head after with
      consumedBytes := b.consumedBytes + count
      totalSize := (contents.drop count).length } : ChainedBuffer).Holds (after :: rest) :=
    fun after => (update after).congr rfl rfl rfl rfl rfl
  conv in readLoop (fuel + 1) _ _ _ => unfold readLoop
  simp only [front, same, sound.readView_eq, view, shown, total]
  by_cases whole : block.size ≤ length + 1
  · have all : count = block.size := by omega
    have emptied := BufferBlock.read_of_eq sound
    have dropped : contents.drop count = rest.flatMap BufferBlock.unread := by
      rw [← stored, all, List.drop_left' (BufferBlock.length_unread block)]
    rw [all] at dropped ⊢
    rw [if_pos emptied]
    refine ⟨_, rest, rfl, ?_, ?_, ?_, .inr ⟨whole, rfl⟩⟩
    · exact {
        holds := (all ▸ held _).removeHead
        packed := queued.packed.tail
        untouched := fun block member => queued.untouched block (List.mem_of_mem_tail member)
        stored := dropped.symm
        totalSize := totalSize_removeHead _
        small := queued.small }
    · rw [consumedBytes_removeHead]
    · rw [limit_removeHead]
      rfl
  · have part : length + 1 < block.size := Nat.lt_of_not_le whole
    have least : count = length + 1 := by omega
    have after := BufferBlock.read_of_lt sound part
    have size := sound.size_eq
    obtain ⟨-, advanced⟩ := BufferBlock.unread_advance sound part.le
    have still : ({ block with readPos := block.readPos + (length + 1) } : BufferBlock).empty =
        false := by
      simp only [BufferBlock.empty, decide_eq_false_iff_not]
      omega
    rw [least, after, if_neg (by simp [still])]
    refine ⟨_, { block with readPos := block.readPos + (length + 1) } :: rest, rfl, ?_, rfl, rfl,
      .inl part⟩
    refine {
      holds := least ▸ held _
      packed := ?_, untouched := queued.untouched, stored := ?_
      totalSize := by rw [← least]
      small := queued.small }
    · by_cases more : rest = []
      · subst more
        have room := packed_singleton.mp queued.packed
        have inOrder : block.readPos + (length + 1) ≤ block.writePos := by omega
        exact packed_singleton.mpr ⟨inOrder, room.2⟩
      · obtain ⟨filled, others⟩ := (packed_cons more).mp queued.packed
        have full := filled.2
        have less : block.readPos + (length + 1) < blockSize := by omega
        exact (packed_cons more).mpr ⟨⟨less, full⟩, others⟩
    · rw [List.flatMap_cons, advanced, ← stored,
        List.drop_append_of_le_length (by rw [BufferBlock.length_unread]; omega)]

/-- The loop of `read` takes bytes from the front until it has enough or there are none. -/
theorem Queued.readLoop (queued : b.Queued blockSize blocks contents) {fuel : Nat}
    (enough : blocks.length ≤ fuel) (length : Nat) (taken : Bytes) :
    ∃ next left, ChainedBuffer.readLoop fuel b length taken =
        some (next, taken ++ contents.take length) ∧
      next.Queued blockSize left (contents.drop length) ∧
      next.consumedBytes = b.consumedBytes + min length contents.length ∧
      next.limit = b.limit := by
  induction blocks generalizing b contents fuel length taken with
  | nil =>
      have none_ : contents = [] := by rw [← queued.stored, List.flatMap_nil]
      have front : b.head = none := queued.holds.pointers_of_nil.1
      subst none_
      refine ⟨b, [], ?_, by simpa using queued, by simp, rfl⟩
      cases length with
      | zero =>
          unfold ChainedBuffer.readLoop
          simp
      | succ length =>
          unfold ChainedBuffer.readLoop
          simp [front]
  | cons block rest ih =>
      cases length with
      | zero =>
          refine ⟨b, block :: rest, ?_, by simpa using queued, by simp, rfl⟩
          unfold ChainedBuffer.readLoop
          simp
      | succ length =>
          obtain ⟨fuel, rfl⟩ : ∃ less, fuel = less + 1 := ⟨fuel - 1, by simp at enough; omega⟩
          obtain ⟨next, blocks, turn, after, consumed, limit, progress⟩ :=
            queued.readLoop_turn fuel length taken
          have stored := queued.stored
          rw [List.flatMap_cons] at stored
          have long : contents.length = block.size + (rest.flatMap BufferBlock.unread).length := by
            rw [← stored, List.length_append, BufferBlock.length_unread]
          rw [turn]
          rcases progress with part | ⟨whole, rfl⟩
          · have done : length + 1 - min (length + 1) block.size = 0 := by omega
            have all : min (length + 1) block.size = length + 1 := by omega
            have front : block.unread.take (length + 1) = contents.take (length + 1) := by
              rw [← stored,
                List.take_append_of_le_length (by rw [BufferBlock.length_unread]; omega)]
            rw [all] at after consumed
            rw [done, front]
            refine ⟨next, blocks, ?_, after, by omega, limit⟩
            unfold ChainedBuffer.readLoop
            rfl
          · have least : min (length + 1) block.size = block.size := by omega
            simp only [List.length_cons, Nat.add_le_add_iff_right] at enough
            obtain ⟨final, left, run, queue, counted, same⟩ := ih after enough
              (length + 1 - block.size) (taken ++ block.unread.take (length + 1))
            have rest : contents.drop block.size = blocks.flatMap BufferBlock.unread := by
              rw [← stored, List.drop_left' (BufferBlock.length_unread block)]
            rw [least, rest] at run counted queue
            rw [least]
            refine ⟨final, left, ?_, ?_, ?_, same.trans limit⟩
            · rw [run, List.append_assoc, ← stored, List.take_append, BufferBlock.length_unread]
            · rwa [← stored, List.drop_append, BufferBlock.length_unread,
                List.drop_eq_nil_of_le (by rw [BufferBlock.length_unread]; omega), List.nil_append]
            · omega

/-- **`read`** takes the first `length` bytes, or all of them. -/
theorem Queued.read (queued : b.Queued blockSize blocks contents) (length : Nat) :
    ∃ next left, b.read length = some (next, contents.take length) ∧
      next.Queued blockSize left (contents.drop length) ∧
      next.consumedBytes = b.consumedBytes + min length contents.length ∧
      next.limit = b.limit := by
  simpa [ChainedBuffer.read] using
    queued.readLoop (Nat.le_succ_of_le queued.holds.length_le) length []

/-! ## `commit_resv` -/

/-- The view of the tail. -/
theorem Queued.writeView (queued : b.Queued blockSize (before ++ [last]) contents) :
    ∃ tail, b.tail = some tail ∧ b.block tail = last ∧
      b.writeView blockSize = some (tail, last.writePos, blockSize - last.writePos) := by
  obtain ⟨tail, back, same, -⟩ := queued.holds.tail
  have sound := queued.sound last (by simp)
  have room := (packed_concat.mp queued.packed).2.2
  have notFull : last.full blockSize = false := by
    simp only [BufferBlock.full, decide_eq_false_iff_not]
    omega
  have space := sound.available_eq
  rw [BufferBlock.available] at space
  refine ⟨tail, back, same, ?_⟩
  simp only [ChainedBuffer.writeView, back, same, BufferBlock.writeView, notFull,
    Bool.false_eq_true, ↓reduceIte, space]

/-- The tail behind `commit_resv` of the bytes placed in its view, without the node that
may be appended. -/
def commitTail (b : ChainedBuffer) (tail : Ptr) (bytes : Bytes) : ChainedBuffer :=
  { b.setBlock tail ((b.block tail).commit bytes) with totalSize := b.totalSize + bytes.length }

/-- `commit_resv` of the bytes that were placed in the view. -/
theorem commitResv_fill {tail : Ptr} (back : b.tail = some tail) {bytes : Bytes}
    (some_ : bytes ≠ []) :
    (b.fill tail (b.block tail).writePos bytes).commitResv blockSize bytes.length =
      some (if ((b.block tail).commit bytes).full blockSize then
        (b.commitTail tail bytes).appendNode else b.commitTail tail bytes) := by
  have positive : (0 : Int) < bytes.length :=
    Int.natCast_pos.mpr (List.length_pos_iff.mpr some_)
  have back' : (b.fill tail (b.block tail).writePos bytes).tail = some tail := back
  simp only [commitResv, positive, ↓reduceIte, back', sizeAdd_natCast]
  simp only [fill, block_setBlock_self, setBlock_setBlock]
  rfl

/-- **`commit_resv`** appends the bytes that were placed in the view. -/
theorem Queued.commit (queued : b.Queued blockSize (before ++ [last]) contents) {tail : Ptr}
    (back : b.tail = some tail) {bytes : Bytes} (some_ : bytes ≠ [])
    (fits : bytes.length ≤ blockSize - last.writePos) :
    ∃ next blocks, (b.fill tail last.writePos bytes).commitResv blockSize bytes.length =
        some next ∧
      next.Queued blockSize blocks (contents ++ bytes) ∧ blocks ≠ [] ∧
      next.consumedBytes = b.consumedBytes ∧ next.limit = b.limit := by
  obtain ⟨node, found, rfl, update⟩ := queued.holds.tail
  obtain rfl : tail = node := Option.some.inj (back.symm.trans found)
  obtain ⟨filled, inOrder, room⟩ := packed_concat.mp queued.packed
  have small := queued.small
  have reaches : (b.block tail).writePos + bytes.length ≤ blockSize := by omega
  obtain ⟨start, stop, appended⟩ :=
    BufferBlock.commit_spec (queued.sound (b.block tail) (by simp)) reaches
  have held : (b.commitTail tail bytes).Holds (before ++ [(b.block tail).commit bytes]) :=
    (update _).congr rfl rfl rfl rfl rfl
  have content : (before ++ [(b.block tail).commit bytes]).flatMap BufferBlock.unread =
      contents ++ bytes := by
    rw [← queued.stored]
    simp [appended]
  have total : (b.commitTail tail bytes).totalSize = (contents ++ bytes).length := by
    rw [List.length_append, ← queued.totalSize]
    rfl
  have untouched : ∀ block ∈ (before ++ [(b.block tail).commit bytes]).tail, block.readPos = 0 := by
    have before_ := queued.untouched
    cases before with
    | nil => nofun
    | cons first others =>
        simp only [List.cons_append, List.tail_cons, List.mem_append,
          List.mem_singleton] at before_ ⊢
        rintro block (old | rfl)
        · exact before_ block (.inl old)
        · rw [start]
          exact before_ _ (.inr rfl)
  have positive : 0 < bytes.length := List.length_pos_iff.mpr some_
  rw [commitResv_fill back some_]
  split
  next full =>
    obtain ⟨new, readPos, writePos, longer, -⟩ := held.appendNode
    refine ⟨_, _, rfl, ⟨longer, packed_concat.mpr ⟨?_, by omega, by omega⟩, ?_, ?_, by simp [total],
      small⟩, by simp, by simp; rfl, by simp; rfl⟩
    · intro block member
      rw [List.mem_append, List.mem_singleton] at member
      rcases member with old | rfl
      · exact filled block old
      · exact ⟨by rw [start]; omega, BufferBlock.full_iff.mp full⟩
    · intro block member
      rw [List.tail_append_of_ne_nil (by simp), List.mem_append, List.mem_singleton] at member
      rcases member with old | rfl
      · exact untouched block old
      · exact readPos
    · rw [List.flatMap_append, content]
      simp [BufferBlock.unread_of_blank readPos writePos]
  next notFull =>
    have less : ((b.block tail).commit bytes).writePos ≠ blockSize := fun is =>
      notFull (BufferBlock.full_iff.mpr is)
    exact ⟨_, _, rfl, ⟨held, packed_concat.mpr ⟨filled, by omega, by omega⟩, untouched, content,
      total, small⟩, by simp, rfl, rfl⟩

/-! ## `input_next` -/

/-- A head without bytes hides nothing. -/
theorem Queued.empty_iff (queued : b.Queued blockSize (block :: rest) contents) :
    block.empty = true ↔ contents = [] := by
  have sound := queued.sound block (List.mem_cons_self ..)
  have stored := queued.stored
  rw [List.flatMap_cons] at stored
  rw [sound.empty_iff]
  constructor
  · intro empty
    have last : rest = [] := by
      by_contra more
      obtain ⟨less, full⟩ := ((packed_cons more).mp queued.packed).1
      have size := sound.size_eq
      omega
    subst last
    rw [← stored, List.flatMap_nil, List.append_nil]
    apply List.length_eq_zero_iff.mp
    rw [BufferBlock.length_unread, empty]
  · intro equal
    subst equal
    rw [← BufferBlock.length_unread, (List.append_eq_nil_iff.mp stored).1, List.length_nil]

/-- `input_next` gives nothing when there is nothing, or the limit is reached. -/
theorem Queued.inputNext_none (queued : b.Queued blockSize (block :: rest) contents)
    (nothing : contents = [] ∨ b.limit = 0) : b.inputNext blockSize = some (b, none) := by
  obtain ⟨head, front, same, -⟩ := queued.holds.head
  have stops : (b.block head).empty = true ∨ b.limit = 0 := by
    rw [same, queued.empty_iff]
    exact nothing
  simp only [ChainedBuffer.inputNext, front, stops, ↓reduceIte]

/-- What `input_next` leaves of the limit. -/
def limitBehind (limit : Int) (size : Nat) : Int :=
  if limit = noLimit then limit else limit - size

/-- The head with its read position moved over `count` bytes; it is removed when that
empties it and a block follows. -/
theorem Queued.takeHead (queued : b.Queued blockSize (block :: rest) contents) {head : Ptr}
    (front : b.head = some head) {count : Nat} (enough : count ≤ block.size)
    {base : ChainedBuffer}
    (same : base = { b.setBlock head { block with readPos := block.readPos + count } with
      totalSize := base.totalSize, consumedBytes := base.consumedBytes, limit := base.limit })
    {behind : ChainedBuffer}
    (moved : behind = if block.readPos + count = blockSize ∧ base.next head ≠ none then
      base.removeHead else base) :
    ∃ blocks, (∀ total, total = (contents.drop count).length →
        ({ behind with totalSize := total } : ChainedBuffer).Queued blockSize blocks
          (contents.drop count)) ∧
      (behind.block head).bytes block.readPos count = contents.take count ∧
      ((blocks = { block with readPos := block.readPos + count } :: rest ∧
          behind.head = some head ∧ ¬ (block.readPos + count = blockSize ∧ rest ≠ [])) ∨
        (blocks = rest ∧ block.readPos + count = blockSize ∧ rest ≠ [])) := by
  have sound := queued.sound block (List.mem_cons_self ..)
  have size := sound.size_eq
  have inOrder := sound.inOrder
  have small := queued.small
  obtain ⟨_, found, unchanged, single, update⟩ := queued.holds.head
  obtain rfl := Option.some.inj (front.symm.trans found)
  obtain ⟨-, advanced⟩ := BufferBlock.unread_advance sound enough
  have stored := queued.stored
  rw [List.flatMap_cons] at stored
  have shown : block.bytes block.readPos count = contents.take count := by
    rw [← stored, List.take_append_of_le_length (by rw [BufferBlock.length_unread]; exact enough)]
    exact BufferBlock.bytes_eq_take enough
  set after : BufferBlock := { block with readPos := block.readPos + count } with isAfter
  have held : base.Holds (after :: rest) := by
    rw [same]
    exact (update after).congr rfl rfl rfl rfl rfl
  have baseHead : base.head = some head := by
    rw [same]
    exact front
  have link : base.next head = none ↔ rest = [] := by
    rw [← single, same]
    exact iff_of_eq (congrArg (· = none) (congrFun (next_setBlock b head after) head))
  have baseShown : (base.block head).bytes block.readPos count = contents.take count := by
    have atHead : base.block head = after := by
      rw [same]
      exact block_setBlock_self b head after
    rw [atHead, ← shown]
    exact BufferBlock.bytes_of_data rfl _ _
  by_cases removes : block.readPos + count = blockSize ∧ rest ≠ []
  · rw [if_pos ⟨removes.1, fun none_ => removes.2 (link.mp none_)⟩] at moved
    subst moved
    have filled := ((packed_cons removes.2).mp queued.packed).1.2
    have dropped : contents.drop count = rest.flatMap BufferBlock.unread := by
      rw [← stored, List.drop_left' (by rw [BufferBlock.length_unread]; omega)]
    refine ⟨rest, fun total counted => ?_, ?_, .inr ⟨rfl, removes⟩⟩
    · exact ⟨held.removeHead.congr rfl rfl rfl rfl rfl, queued.packed.tail,
        fun block member => queued.untouched block (List.mem_of_mem_tail member), dropped.symm,
        counted, small⟩
    · rw [block_removeHead baseHead]
      exact baseShown
  · rw [if_neg fun both => removes ⟨both.1, fun last => both.2 (link.mpr last)⟩] at moved
    subst moved
    refine ⟨after :: rest, fun total counted => ?_, baseShown, .inl ⟨rfl, baseHead, removes⟩⟩
    refine ⟨held.congr rfl rfl rfl rfl rfl, ?_, queued.untouched, ?_, counted, small⟩
    · by_cases more : rest = []
      · subst more
        have room := (packed_singleton.mp queued.packed).2
        have ordered : block.readPos + count ≤ block.writePos := by omega
        exact packed_singleton.mpr ⟨ordered, room⟩
      · obtain ⟨filled, others⟩ := (packed_cons more).mp queued.packed
        have full := filled.2
        have less : block.readPos + count < blockSize := by
          have differs : block.readPos + count ≠ blockSize := fun is => removes ⟨is, more⟩
          omega
        exact (packed_cons more).mpr ⟨⟨less, full⟩, others⟩
    · rw [List.flatMap_cons, advanced, ← stored,
        List.drop_append_of_le_length (by rw [BufferBlock.length_unread]; exact enough)]

/-- **`input_next`** shows the first bytes, as many as the head holds and the limit
leaves. It removes a head that it empties, when a block follows. -/
theorem Queued.inputNext (queued : b.Queued blockSize (block :: rest) contents)
    (some_ : contents ≠ []) (left : 0 < b.limit) :
    ∃ head next blocks, ∃ size : Nat, b.head = some head ∧
      b.inputNext blockSize = some (next, some (head, block.readPos, (size : Int))) ∧
      (size : Int) = min (block.size : Int) b.limit ∧ 0 < size ∧ size ≤ block.size ∧
      next.Queued blockSize blocks (contents.drop size) ∧
      (next.block head).bytes block.readPos size = contents.take size ∧
      next.consumedBytes = b.consumedBytes + size ∧ next.limit = limitBehind b.limit size ∧
      ((blocks = { block with readPos := block.readPos + size } :: rest ∧ next.head = some head ∧
          ¬ (block.readPos + size = blockSize ∧ rest ≠ [])) ∨
        (blocks = rest ∧ block.readPos + size = blockSize ∧ rest ≠ [])) := by
  have sound := queued.sound block (List.mem_cons_self ..)
  obtain ⟨size, within, small⟩ := queued.positions
  obtain ⟨head, front, same, -⟩ := queued.holds.head
  have notEmpty : block.empty = false := by
    rw [← Bool.not_eq_true, queued.empty_iff]
    exact some_
  have positive : 0 < block.size := by
    apply Nat.pos_of_ne_zero
    rw [Ne, ← sound.empty_iff, notEmpty]
    exact Bool.false_ne_true
  have toInt := queued.bmod_size
  obtain ⟨count, counted⟩ : ∃ count : Nat, (count : Int) = min (block.size : Int) b.limit :=
    ⟨(min (block.size : Int) b.limit).toNat, by omega⟩
  have enough : count ≤ block.size := by omega
  have position : wrapAdd block.readPos count = block.readPos + count := wrapAdd_natCast (by omega)
  have long : count ≤ contents.length := enough.trans queued.size_le
  have goesOn : ¬ (block.empty = true ∨ b.limit = 0) := by
    intro either
    rcases either with empty | zero
    · rw [notEmpty] at empty
      cases empty
    · omega
  set base : ChainedBuffer := { b.setBlock head { block with readPos := block.readPos + count } with
    limit := limitBehind b.limit count, consumedBytes := b.consumedBytes + count } with isBase
  set behind : ChainedBuffer :=
    if block.readPos + count = blockSize ∧ base.next head ≠ none then base.removeHead else base
    with isBehind
  have counters : behind.totalSize = b.totalSize ∧
      behind.consumedBytes = b.consumedBytes + count ∧
      behind.limit = limitBehind b.limit count := by
    rw [isBehind]
    split
    · exact ⟨totalSize_removeHead base, consumedBytes_removeHead base, limit_removeHead base⟩
    · exact ⟨rfl, rfl, rfl⟩
  have total : sizeAdd behind.totalSize (-(count : Int)) = (contents.drop count).length := by
    rw [counters.1, List.length_drop, ← queued.totalSize]
    exact sizeSub_of_le (by rw [queued.totalSize]; exact long)
  obtain ⟨blocks, taken, shown, shape⟩ := queued.takeHead front enough isBase isBehind
  refine ⟨head, _, blocks, count, front, ?_, counted, by omega, enough, taken _ total, shown,
    counters.2.1, counters.2.2, shape⟩
  unfold ChainedBuffer.inputNext
  simp only [front, same, goesOn, ↓reduceIte, toInt, ← counted, position, sizeAdd_natCast]
  rfl

/-! ## A parser that takes everything -/

/-- Call `input_next` until it returns false; `none` when `fuel` runs out before. -/
def takeViews (blockSize : Nat) : Nat → ChainedBuffer → Option (ChainedBuffer × List Bytes)
  | 0, _ => none
  | fuel + 1, b =>
      (b.inputNext blockSize).bind fun (next, region) =>
        match region with
        | none => some (next, [])
        | some (node, offset, size) =>
            (takeViews blockSize fuel next).map fun (final, views) =>
              (final, (next.block node).bytes offset size.toNat :: views)

/-- Under a limit the views are the bytes up to it. -/
theorem Queued.takeViews (queued : b.Queued blockSize blocks contents) (some_ : blocks ≠ [])
    {left fuel : Nat} (limit : b.limit = left) (less : (left : Int) < noLimit)
    (enough : left < fuel) :
    ∃ final views, ChainedBuffer.takeViews blockSize fuel b = some (final, views) ∧
      views.flatten = contents.take left ∧
      ∃ blocks, blocks ≠ [] ∧ final.Queued blockSize blocks (contents.drop left) := by
  induction left using Nat.strong_induction_on generalizing b blocks contents fuel with
  | _ left ih =>
      obtain ⟨fuel, rfl⟩ : ∃ before, fuel = before + 1 := ⟨fuel - 1, by omega⟩
      obtain ⟨block, rest, rfl⟩ := List.exists_cons_of_ne_nil some_
      by_cases nothing : contents = [] ∨ left = 0
      · have stops : contents = [] ∨ b.limit = 0 := nothing.imp_right fun zero => by
          rw [limit, zero]
          rfl
        refine ⟨b, [], ?_, ?_, block :: rest, some_, ?_⟩
        · simp only [ChainedBuffer.takeViews, queued.inputNext_none stops, Option.bind_some]
        · rcases nothing with rfl | rfl <;> simp
        · rcases nothing with rfl | rfl <;> simpa using queued
      · rw [not_or] at nothing
        obtain ⟨head, next, blocks, size, front, run, counted, positive, within, after, shown,
          -, behind, shape⟩ := queued.inputNext nothing.1 (by omega)
        have more : blocks ≠ [] := by
          rcases shape with ⟨rfl, -⟩ | ⟨rfl, -, more⟩
          · exact List.cons_ne_nil _ _
          · exact more
        have limited : next.limit = (left - size : Nat) := by
          rw [behind, limitBehind, limit, if_neg less.ne]
          omega
        obtain ⟨final, views, runs, seen, facts⟩ := ih (left - size) (by omega) after more limited
          (by omega) (by omega : left - size < fuel)
        refine ⟨final, contents.take size :: views, ?_, ?_, ?_⟩
        · simp only [ChainedBuffer.takeViews, run, Option.bind_some, runs, Option.map_some,
            Int.toNat_natCast, shown]
        · have split : left = size + (left - size) := by omega
          rw [List.flatten_cons, seen]
          conv_rhs => rw [split, List.take_add]
        · rw [List.drop_drop] at facts
          rwa [show size + (left - size) = left by omega] at facts

end ChainedBuffer

/-! ## Runs -/

open ChainedBuffer Transition

/-- The buffer, with what was committed to it and what was taken out of it. -/
structure Receiving where
  buffer : ChainedBuffer
  committed : Bytes
  /-- What `read` has returned and `input_next` has shown. -/
  taken : Bytes

def Receiving.init (memory : Ptr → Nat → UInt8) : Receiving := ⟨.init memory, [], []⟩

/-- One operation; it is `none` where the source dereferences a null pointer. -/
def ReceiveOp.receive (blockSize : Nat) (s : Receiving) : ReceiveOp → Option Receiving
  | .commit bytes =>
      ((ReceiveOp.commit bytes).run blockSize s.buffer).map fun buffer =>
        { s with buffer, committed := s.committed ++ bytes }
  | .read length =>
      (s.buffer.read length).map fun (buffer, bytes) =>
        { s with buffer, taken := s.taken ++ bytes }
  | .pushLimit limit => some { s with buffer := s.buffer.pushLimit limit }
  | .popLimit => some { s with buffer := s.buffer.popLimit }
  | .inputNext =>
      (s.buffer.inputNext blockSize).map fun (buffer, region) =>
        match region with
        | none => { s with buffer }
        | some (node, offset, size) =>
            { s with buffer, taken := s.taken ++ (buffer.block node).bytes offset size.toNat }

/-- A commit fits in the view, and a limit is one. -/
def ReceiveOp.Fits (blockSize : Nat) (b : ChainedBuffer) : ReceiveOp → Prop
  | .commit bytes => ∀ view ∈ b.writeView blockSize, 0 < bytes.length ∧ bytes.length ≤ view.2.2
  | .pushLimit limit => 0 ≤ limit ∧ limit < noLimit
  | .read _ | .popLimit | .inputNext => True

instance ReceiveOp.decidableFits (blockSize : Nat) (b : ChainedBuffer) (op : ReceiveOp) :
    Decidable (op.Fits blockSize b) :=
  match op with
  | .commit bytes => inferInstanceAs
      (Decidable (∀ view ∈ b.writeView blockSize, 0 < bytes.length ∧ bytes.length ≤ view.2.2))
  | .pushLimit limit => inferInstanceAs (Decidable (0 ≤ limit ∧ limit < noLimit))
  | .read _ | .popLimit | .inputNext => .isTrue trivial

theorem noLimit_nonneg : 0 ≤ noLimit := by decide

/-- The invariant. The buffer has no block left once `read` has taken everything. -/
structure Receiving.Inv (blockSize : Nat) (s : Receiving) : Prop where
  queued : ∃ blocks contents, s.buffer.Queued blockSize blocks contents ∧
    s.taken ++ contents = s.committed
  consumed : s.buffer.consumedBytes = s.taken.length
  limit : 0 ≤ s.buffer.limit ∧ s.buffer.limit ≤ noLimit

theorem Receiving.inv_init (memory : Ptr → Nat → UInt8) (positive : 0 < blockSize)
    (small : blockSize < 2 ^ 31) : (Receiving.init memory).Inv blockSize where
  queued := ⟨_, [], queued_init memory positive small, rfl⟩
  consumed := rfl
  limit := ⟨noLimit_nonneg, le_rfl⟩

/-- **One operation** keeps the invariant. -/
theorem Receiving.Inv.step {s next : Receiving} (inv : s.Inv blockSize) {op : ReceiveOp}
    (fits : op.Fits blockSize s.buffer) (taken : op.receive blockSize s = some next) :
    next.Inv blockSize := by
  obtain ⟨⟨blocks, contents, queued, whole⟩, consumed, limit⟩ := inv
  cases op with
  | commit bytes =>
      rcases List.eq_nil_or_concat' blocks with rfl | ⟨before, last, rfl⟩
      · simp only [ReceiveOp.receive, ReceiveOp.run, ChainedBuffer.writeView,
          queued.holds.pointers_of_nil.2, Option.bind_none, Option.map_none, reduceCtorEq] at taken
      · obtain ⟨tail, back, same, view⟩ := queued.writeView
        obtain ⟨positive, room⟩ := fits _ view
        obtain ⟨buffer, blocks, run, after, -, counted, unlimited⟩ :=
          queued.commit back (List.length_pos_iff.mp positive) room
        simp only [ReceiveOp.receive, ReceiveOp.run, view, Option.bind_some, run, Option.map_some,
          Option.some.injEq] at taken
        subst taken
        refine ⟨⟨blocks, contents ++ bytes, after, ?_⟩, counted.trans consumed,
          by rwa [← unlimited] at limit⟩
        rw [← whole, List.append_assoc]
  | read length =>
      obtain ⟨buffer, left, run, after, counted, same⟩ := queued.read length
      simp only [ReceiveOp.receive, run, Option.map_some, Option.some.injEq] at taken
      subst taken
      refine ⟨⟨left, contents.drop length, after, ?_⟩, ?_, by rwa [← same] at limit⟩
      · rw [← whole, List.append_assoc, List.take_append_drop]
      · rw [counted, consumed, List.length_append, List.length_take]
  | pushLimit limit =>
      cases taken
      exact ⟨⟨blocks, contents, queued.congr rfl rfl rfl rfl rfl rfl, whole⟩, consumed,
        fits.1, fits.2.le⟩
  | popLimit =>
      cases taken
      exact ⟨⟨blocks, contents, queued.congr rfl rfl rfl rfl rfl rfl, whole⟩, consumed,
        noLimit_nonneg, le_rfl⟩
  | inputNext =>
      cases blocks with
      | nil =>
          simp only [ReceiveOp.receive, ChainedBuffer.inputNext, queued.holds.pointers_of_nil.1,
            Option.map_none, reduceCtorEq] at taken
      | cons block rest =>
          by_cases nothing : contents = [] ∨ s.buffer.limit = 0
          · simp only [ReceiveOp.receive, queued.inputNext_none nothing, Option.map_some,
              Option.some.injEq] at taken
            subst taken
            exact ⟨⟨_, contents, queued, whole⟩, consumed, limit⟩
          · rw [not_or] at nothing
            have positive : 0 < s.buffer.limit := lt_of_le_of_ne limit.1 (Ne.symm nothing.2)
            obtain ⟨head, buffer, blocks, size, -, run, least, -, within, after, shown, counted,
              behind, -⟩ := queued.inputNext nothing.1 positive
            simp only [ReceiveOp.receive, run, Option.map_some, Option.some.injEq,
              Int.toNat_natCast, shown] at taken
            subst taken
            refine ⟨⟨blocks, contents.drop size, after, ?_⟩, ?_, ?_⟩
            · rw [← whole, List.append_assoc, List.take_append_drop]
            · have long := within.trans queued.size_le
              rw [counted, consumed, List.length_append, List.length_take, min_eq_left long]
            · rw [behind, limitBehind]
              split
              · exact limit
              · omega

/-- **The receive buffer is a byte queue.** In every run of the receive path, what `read`
has returned and `input_next` has shown is a front part of what was committed. As long
as the buffer has a head, `consumed_bytes_` counts it as a `size_t` does; `size()` counts
the rest and is the sum of the sizes of its blocks, whose positions are in order; `read`
returns as many bytes as it is asked for or all; `input_next` returns false exactly when
there are no bytes or the limit is reached, and calls of it until then show the bytes up to
a limit. -/
theorem receive_queue (memory : Ptr → Nat → UInt8) (ops : List ReceiveOp) (s : Receiving)
    (run : exec (ReceiveOp.receive 4096) (.init memory) ops = some s)
    (fits : Along (ReceiveOp.receive 4096) (fun s op => op.Fits 4096 s.buffer) (.init memory) ops)
    (front : s.buffer.head ≠ none) :
    s.taken <+: s.committed ∧ s.buffer.consumedBytes = s.taken.length ∧
      sizeT s.buffer.consumedBytes = s.taken.length % 2 ^ 64 ∧
      s.buffer.totalSize + s.taken.length = s.committed.length ∧
      s.buffer.totalSize = (s.buffer.nodes.map fun node => (s.buffer.block node).size).sum ∧
      (∀ node ∈ s.buffer.nodes, (s.buffer.block node).readPos ≤ (s.buffer.block node).writePos ∧
        (s.buffer.block node).writePos ≤ 4096) ∧
      (∀ length, ∃ next bytes, s.buffer.read length = some (next, bytes) ∧
        bytes.length = min length s.buffer.totalSize) ∧
      (∃ next region, s.buffer.inputNext 4096 = some (next, region) ∧
        (region = none ↔ s.buffer.totalSize = 0 ∨ s.buffer.limit = 0)) ∧
      ∀ limit : Nat, (limit : Int) < noLimit →
        ∃ fuel final views,
          takeViews 4096 fuel (s.buffer.pushLimit limit) = some (final, views) ∧
          views.flatten.length = min limit s.buffer.totalSize := by
  obtain ⟨⟨blocks, contents, queued, whole⟩, consumed, limit⟩ :=
    exec_invariant (fun _ _ _ inv fits taken => Receiving.Inv.step inv fits taken)
      (Receiving.inv_init memory (by decide) (by decide)) run fits
  obtain ⟨block, rest, rfl⟩ : ∃ block rest, blocks = block :: rest := by
    cases blocks with
    | nil => exact absurd queued.holds.pointers_of_nil.1 front
    | cons block rest => exact ⟨block, rest, rfl⟩
  have total := queued.totalSize
  refine ⟨⟨contents, whole⟩, consumed, congrArg sizeT consumed, ?_, ?_, fun node member => ?_,
    fun length => ?_, ?_, fun left less => ?_⟩
  · rw [total, ← whole, List.length_append, Nat.add_comm]
  · rw [total, ← queued.contents_eq, Holds.length_contents queued.holds, ← queued.holds.map_nodes,
      List.map_map]
    rfl
  · have sound := queued.sound (s.buffer.block node)
      (queued.holds.map_nodes ▸ List.mem_map_of_mem member)
    exact ⟨sound.inOrder, sound.within⟩
  · obtain ⟨next, blocks, taken, -⟩ := queued.read length
    exact ⟨next, _, taken, by rw [List.length_take, total]⟩
  · rw [total, List.length_eq_zero_iff]
    by_cases nothing : contents = [] ∨ s.buffer.limit = 0
    · exact ⟨_, none, queued.inputNext_none nothing, iff_of_true rfl nothing⟩
    · have unlimited : 0 < s.buffer.limit :=
        lt_of_le_of_ne limit.1 (Ne.symm (not_or.mp nothing).2)
      obtain ⟨head, next, blocks, size, -, taken, -⟩ :=
        queued.inputNext (not_or.mp nothing).1 unlimited
      exact ⟨next, _, taken, iff_of_false (Option.some_ne_none _) nothing⟩
  · have limited : (s.buffer.pushLimit left).Queued 4096 (block :: rest) contents :=
      queued.congr rfl rfl rfl rfl rfl rfl
    obtain ⟨final, views, taken, shown, -⟩ :=
      limited.takeViews (List.cons_ne_nil _ _) rfl less (Nat.lt_succ_self left)
    exact ⟨left + 1, final, views, taken, by rw [shown, List.length_take, total]⟩

/-- A length word and three bytes behind it: the word is read, and the others are shown. -/
theorem receive_queue_of_word :
    ∃ s, exec (ReceiveOp.receive 4096) (.init fun _ _ => 0)
        [.commit [3, 0, 0, 0, 7, 8, 9], .read 4, .pushLimit 2, .inputNext] = some s ∧
      s.taken <+: s.committed ∧ s.buffer.totalSize + s.taken.length = s.committed.length := by
  obtain ⟨s, run⟩ : ∃ s, exec (ReceiveOp.receive 4096) (.init fun _ _ => 0)
      [.commit [3, 0, 0, 0, 7, 8, 9], .read 4, .pushLimit 2, .inputNext] = some s :=
    Option.isSome_iff_exists.mp (by decide +kernel)
  have front : ∀ s ∈ exec (ReceiveOp.receive 4096) (.init fun _ _ => 0)
      [.commit [3, 0, 0, 0, 7, 8, 9], .read 4, .pushLimit 2, .inputNext],
      s.buffer.head ≠ none := by
    decide +kernel
  obtain ⟨taken, -, -, counted, -⟩ :=
    receive_queue (fun _ _ => 0) _ s run (by decide +kernel) (front s run)
  exact ⟨s, run, taken, counted⟩

end Drpc.Util
