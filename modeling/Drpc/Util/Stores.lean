import Drpc.Util.Nodes

/-! # A buffer and the bytes it stores

`Stores` is the invariant of a buffer that is written at its end and sent from its
front: every block has its positions in order, and `size()` counts the contents.
Each operation of the output side has one lemma here, which says what it does to
the contents.
-/

namespace Drpc.Util

namespace ChainedBuffer

variable {blockSize : Nat} {b : ChainedBuffer} {before : List BufferBlock} {last : BufferBlock}

/-- The buffer stores `contents` in the blocks `before` and, at the tail, `last`. -/
structure Stores (blockSize : Nat) (b : ChainedBuffer) (before : List BufferBlock)
    (last : BufferBlock) (contents : Bytes) : Prop where
  holds : b.Holds (before ++ [last])
  sound : ∀ block ∈ before ++ [last], block.Sound blockSize
  stored : (before ++ [last]).flatMap BufferBlock.unread = contents
  totalSize : b.totalSize = contents.length

variable {contents : Bytes}

theorem stores_init (memory : Ptr → Nat → UInt8) (small : blockSize < 2 ^ 31) :
    (init memory).Stores blockSize [] ⟨memory 0, 0, 0⟩ [] where
  holds := holds_init memory
  sound := by
    intro block member
    rw [List.nil_append, List.mem_singleton] at member
    subst member
    exact ⟨le_rfl, Nat.zero_le _, small⟩
  stored := rfl
  totalSize := rfl

theorem Stores.contents_eq (stores : b.Stores blockSize before last contents) :
    b.contents = contents := by
  rw [stores.holds.contents_eq, stores.stored]

theorem Stores.lastSound (stores : b.Stores blockSize before last contents) :
    last.Sound blockSize :=
  stores.sound last (by simp)

/-- The tail, and what a change of its block and of the size does. -/
theorem Stores.tail (stores : b.Stores blockSize before last contents) :
    ∃ tail, b.tail = some tail ∧ b.block tail = last ∧
      ∀ (block : BufferBlock) (total : Nat) (bytes : Bytes), block.Sound blockSize →
        before.flatMap BufferBlock.unread ++ block.unread = bytes → total = bytes.length →
          ({ b.setBlock tail block with totalSize := total } : ChainedBuffer).Stores blockSize
            before block bytes := by
  obtain ⟨tail, back, same, update⟩ := stores.holds.tail
  refine ⟨tail, back, same, fun block total bytes sound stored counted => ?_⟩
  refine ⟨(update block).congr rfl rfl rfl rfl rfl, fun other member => ?_, ?_, counted⟩
  · rw [List.mem_append, List.mem_singleton] at member
    rcases member with old | rfl
    · exact stores.sound other (List.mem_append_left _ old)
    · exact sound
  · rw [← stored]
    simp

/-- The bytes in front of those of the tail. -/
theorem Stores.split (stores : b.Stores blockSize before last contents) :
    contents = before.flatMap BufferBlock.unread ++ last.unread := by
  rw [← stores.stored]
  simp

/-- `append_node` stores nothing new. -/
theorem Stores.appendNode (stores : b.Stores blockSize before last contents) :
    ∃ new : BufferBlock, new.readPos = 0 ∧ new.writePos = 0 ∧
      b.appendNode.Stores blockSize (before ++ [last]) new contents ∧
      ∀ tail, b.tail = some tail → b.appendNode.block tail = b.block tail := by
  obtain ⟨new, readPos, writePos, held, same⟩ := stores.holds.appendNode
  refine ⟨new, readPos, writePos, ⟨held, fun block member => ?_, ?_, ?_⟩, same⟩
  · rw [List.mem_append, List.mem_singleton] at member
    rcases member with old | rfl
    · exact stores.sound block old
    · exact ⟨by omega, by omega, stores.lastSound.small⟩
  · rw [List.flatMap_append, stores.stored]
    simp [BufferBlock.unread_of_blank readPos writePos]
  · rw [totalSize_appendNode, stores.totalSize]

/-! ## `write` -/

/-- One turn of the loop of `write` into a tail with room. -/
theorem Stores.writeLoop_turn (stores : b.Stores blockSize before last contents)
    (room : last.writePos < blockSize) {source : Bytes} (some_ : source ≠ []) (fuel written : Nat) :
    ∃ next after count, 0 < count ∧ count ≤ source.length ∧
      next.Stores blockSize before after (contents ++ source.take count) ∧
      writeLoop blockSize (fuel + 1) b source written =
        writeLoop blockSize fuel next (source.drop count) (written + count) := by
  obtain ⟨tail, back, same, update⟩ := stores.tail
  obtain ⟨sound, counted, appended⟩ := BufferBlock.write_spec stores.lastSound source
  have positive : 0 < source.length := List.length_pos_iff.mpr some_
  have notFull : last.full blockSize = false := by
    simp only [BufferBlock.full, decide_eq_false_iff_not]
    omega
  refine ⟨_, (last.write blockSize source).1, (last.write blockSize source).2, by omega, by omega,
    update _ (b.totalSize + (last.write blockSize source).2) _ sound ?_ ?_, ?_⟩
  · rw [appended, stores.split, List.append_assoc]
  · rw [stores.totalSize, List.length_append, List.length_take]
    omega
  · obtain ⟨byte, rest, rfl⟩ := List.exists_cons_of_ne_nil some_
    conv_lhs => unfold writeLoop
    simp only [back, same, notFull, Bool.false_eq_true, ↓reduceIte]

/-- One turn of the loop of `write` on a full tail: a node is appended, and the
full block takes nothing. -/
theorem Stores.writeLoop_full (stores : b.Stores blockSize before last contents)
    (full : last.writePos = blockSize) {source : Bytes} (some_ : source ≠ []) (fuel written : Nat) :
    ∃ next after, after.writePos = 0 ∧
      next.Stores blockSize (before ++ [last]) after contents ∧
      writeLoop blockSize (fuel + 1) b source written =
        writeLoop blockSize fuel next source written := by
  obtain ⟨tail, back, same, -⟩ := stores.tail
  obtain ⟨new, -, writePos, appended, kept⟩ := stores.appendNode
  refine ⟨b.appendNode, new, writePos, appended, ?_⟩
  obtain ⟨byte, rest, rfl⟩ := List.exists_cons_of_ne_nil some_
  have isFull : last.full blockSize = true := BufferBlock.full_iff.mpr full
  have oldTail : b.appendNode.block tail = last := (kept tail back).trans same
  have unchanged : b.appendNode.setBlock tail last = b.appendNode := by
    rw [← oldTail, setBlock_block]
  conv_lhs => unfold writeLoop
  simp only [back, same, isFull, ↓reduceIte, oldTail, BufferBlock.write_of_full full, unchanged,
    List.drop_zero, Nat.add_zero]

/-- The loop of `write` writes everything: a turn on a full tail is followed by one
that writes a byte at least. -/
theorem Stores.writeLoop (positive : 0 < blockSize)
    (stores : b.Stores blockSize before last contents) (source : Bytes) (fuel written : Nat)
    (enough : 2 * source.length ≤ fuel + if last.writePos < blockSize then 1 else 0) :
    ∃ next front back, writeLoop blockSize fuel b source written =
        some (next, written + source.length) ∧
      next.Stores blockSize front back (contents ++ source) := by
  induction fuel generalizing source b before last contents written with
  | zero =>
      have none_ : source = [] := by
        rw [← List.length_eq_zero_iff]
        split at enough <;> omega
      subst none_
      refine ⟨b, before, last, ?_, by simpa using stores⟩
      unfold ChainedBuffer.writeLoop
      rfl
  | succ fuel ih =>
      by_cases none_ : source = []
      · subst none_
        refine ⟨b, before, last, ?_, by simpa using stores⟩
        unfold ChainedBuffer.writeLoop
        rfl
      · by_cases room : last.writePos < blockSize
        · obtain ⟨next, after, count, some_, within, stored, turn⟩ :=
            stores.writeLoop_turn room none_ fuel written
          simp only [room, ↓reduceIte] at enough
          obtain ⟨final, front, back, rest, held⟩ := ih stored (source.drop count)
            (written + count) (by rw [List.length_drop]; omega)
          refine ⟨final, front, back, ?_, ?_⟩
          · rw [turn, rest, List.length_drop]
            congr 2
            omega
          · rwa [List.append_assoc, List.take_append_drop] at held
        · have full : last.writePos = blockSize :=
            Nat.le_antisymm stores.lastSound.within (Nat.le_of_not_lt room)
          obtain ⟨next, after, writePos, stored, turn⟩ :=
            stores.writeLoop_full full none_ fuel written
          rw [turn]
          apply ih stored source written
          simp only [room, ↓reduceIte] at enough
          simp only [writePos, positive, ↓reduceIte]
          omega

/-- **`write`** returns, takes all of `data` and appends it. -/
theorem Stores.write (positive : 0 < blockSize)
    (stores : b.Stores blockSize before last contents) (data : Bytes) :
    ∃ next front back, b.write blockSize data = some (next, data.length) ∧
      next.Stores blockSize front back (contents ++ data) := by
  simpa [ChainedBuffer.write] using
    stores.writeLoop positive data (2 * data.length) 0 (by omega)

/-! ## `commit_send` -/

/-- One turn of the loop of `commit_send`. -/
theorem commitSendLoop_turn {block : BufferBlock} {rest : List BufferBlock}
    (holds : b.Holds (block :: rest)) (sound : block.Sound blockSize) (fuel send : Nat) :
    ∃ next blocks, commitSendLoop (fuel + 1) b (send + 1) =
        commitSendLoop fuel next (send + 1 - min (send + 1) block.size) ∧
      next.Holds blocks ∧ next.totalSize = b.totalSize ∧
      ((send + 1 < block.size ∧ ∃ after : BufferBlock, after.Sound blockSize ∧
          after.unread = block.unread.drop (send + 1) ∧ blocks = after :: rest) ∨
        (block.size ≤ send + 1 ∧ rest ≠ [] ∧ blocks = rest) ∨
        (block.size ≤ send + 1 ∧ rest = [] ∧ ∃ after : BufferBlock, after.readPos = 0 ∧
          after.writePos = 0 ∧ blocks = [after])) := by
  obtain ⟨head, front, same, single, update⟩ := holds.head
  have size := sound.size_eq
  have inOrder := sound.inOrder
  have within := sound.within
  have small := sound.small
  set count := min (send + 1) block.size with counted
  have toInt : Int.bmod ((count : Nat) : Int) (2 ^ 32) = count :=
    Int.bmod_eq_of_le (by omega) (by omega)
  have position : wrapAdd block.readPos count = block.readPos + count :=
    wrapAdd_natCast (by omega)
  have left : (if (count : Int) < 0 then wrapAdd (send + 1) (-(count : Int))
      else sizeAdd (send + 1) (-(count : Int))) = send + 1 - count := by
    rw [if_neg (by omega)]
    exact sizeSub_of_le (by omega)
  have taken : count ≤ block.size := by omega
  obtain ⟨afterSound, dropped⟩ := BufferBlock.unread_advance sound taken
  set after : BufferBlock := { block with readPos := block.readPos + count }
  have held := update after
  have link : (b.setBlock head after).next head = none ↔ rest = [] := by
    rw [next_setBlock, single]
  have emptied : after.empty = true ↔ count = block.size := by
    simp only [after, BufferBlock.empty, decide_eq_true_eq]
    omega
  conv in commitSendLoop (fuel + 1) _ _ => unfold commitSendLoop
  simp only [front, same, ← counted, toInt, position, left]
  change ∃ next blocks, commitSendLoop fuel
    (if after.empty = true then
      (if (b.setBlock head after).next head = none then (b.setBlock head after).appendNode
        else b.setBlock head after).removeHead
      else b.setBlock head after) (send + 1 - count) = _ ∧ _
  by_cases gone : after.empty = true
  · have whole := emptied.mp gone
    rw [if_pos gone]
    by_cases final : rest = []
    · rw [if_pos (link.mpr final)]
      subst final
      obtain ⟨new, readPos, writePos, appended, -⟩ := held.appendNode
      exact ⟨_, [new], rfl, appended.removeHead, by simp [ChainedBuffer.setBlock],
        .inr (.inr ⟨by omega, rfl, new, readPos, writePos, rfl⟩)⟩
    · rw [if_neg fun none_ => final (link.mp none_)]
      exact ⟨_, rest, rfl, held.removeHead, by simp [ChainedBuffer.setBlock],
        .inr (.inl ⟨by omega, final, rfl⟩)⟩
  · have part : count ≠ block.size := fun whole => gone (emptied.mpr whole)
    have all : count = send + 1 := by omega
    rw [if_neg gone]
    refine ⟨_, after :: rest, rfl, held, rfl, .inl ⟨by omega, after, afterSound, ?_, rfl⟩⟩
    rw [dropped, all]

/-- The loop of `commit_send` drops bytes from the front and keeps a block. -/
theorem commitSendLoop_drops {blocks : List BufferBlock} (some_ : blocks ≠ [])
    (sound : ∀ block ∈ blocks, block.Sound blockSize) (holds : b.Holds blocks) (fuel send : Nat)
    (enough : blocks.length ≤ fuel)
    (within : send ≤ (blocks.flatMap BufferBlock.unread).length) :
    ∃ next front, commitSendLoop fuel b send = some next ∧ next.totalSize = b.totalSize ∧
      next.Holds front ∧ front ≠ [] ∧ (∀ block ∈ front, block.Sound blockSize) ∧
      front.flatMap BufferBlock.unread = (blocks.flatMap BufferBlock.unread).drop send := by
  induction blocks generalizing b fuel send with
  | nil => exact absurd rfl some_
  | cons block rest ih =>
      cases send with
      | zero =>
          refine ⟨b, block :: rest, ?_, rfl, holds, some_, sound, by simp⟩
          unfold commitSendLoop
          rfl
      | succ send =>
          obtain ⟨fuel, rfl⟩ : ∃ less, fuel = less + 1 := ⟨fuel - 1, by simp at enough; omega⟩
          have headSound := sound block (List.mem_cons_self ..)
          have restSound : ∀ block ∈ rest, block.Sound blockSize := fun other member =>
            sound other (List.mem_cons_of_mem _ member)
          simp only [List.length_cons, Nat.add_le_add_iff_right] at enough
          simp only [List.flatMap_cons, List.length_append, BufferBlock.length_unread] at within
          obtain ⟨next, blocks, turn, held, total, ⟨less, after, afterSound, dropped, rfl⟩ |
            ⟨more, others, rfl⟩ | ⟨more, rfl, after, readPos, writePos, rfl⟩⟩ :=
            commitSendLoop_turn holds headSound fuel send
          · have done : send + 1 - min (send + 1) block.size = 0 := by omega
            rw [turn, done]
            refine ⟨next, after :: rest, by unfold commitSendLoop; rfl, total, held, by simp,
              ?_, ?_⟩
            · simpa using ⟨afterSound, restSound⟩
            · rw [List.flatMap_cons, List.flatMap_cons, dropped,
                List.drop_append_of_le_length (by rw [BufferBlock.length_unread]; omega)]
          · have left : send + 1 - min (send + 1) block.size = send + 1 - block.size := by omega
            rw [turn, left]
            obtain ⟨final, front, run, kept, stored, facts⟩ :=
              ih others restSound held fuel (send + 1 - block.size) enough (by omega)
            refine ⟨final, front, run, kept.trans total, stored, facts.1, facts.2.1, ?_⟩
            have whole : block.unread.drop (send + 1) = [] :=
              List.drop_eq_nil_of_le (by rw [BufferBlock.length_unread]; omega)
            rw [facts.2.2, List.flatMap_cons, List.drop_append, BufferBlock.length_unread, whole,
              List.nil_append]
          · have done : send + 1 - min (send + 1) block.size = 0 := by
              simp at within
              omega
            rw [turn, done]
            refine ⟨next, [after], by unfold commitSendLoop; rfl, total, held, by simp, ?_, ?_⟩
            · intro other member
              rw [List.mem_singleton] at member
              subst member
              exact ⟨by omega, by omega, headSound.small⟩
            · rw [List.flatMap_cons, List.flatMap_nil, List.append_nil, List.flatMap_cons,
                List.flatMap_nil, List.append_nil, BufferBlock.unread_of_blank readPos writePos,
                List.drop_eq_nil_of_le (by rw [BufferBlock.length_unread]; omega)]

/-- **`commit_send`** returns, drops the first `send` bytes and keeps a block. -/
theorem Stores.commitSend (stores : b.Stores blockSize before last contents) {send : Nat}
    (within : send ≤ contents.length) :
    ∃ next front back, b.commitSend send = some next ∧
      next.Stores blockSize front back (contents.drop send) := by
  unfold ChainedBuffer.commitSend
  by_cases none_ : send = 0
  · subst none_
    exact ⟨b, before, last, rfl, by simpa using stores⟩
  · rw [if_neg none_]
    have held : ({ b with totalSize := sizeSub b.totalSize send } : ChainedBuffer).Holds
        (before ++ [last]) := stores.holds.congr rfl rfl rfl rfl rfl
    obtain ⟨next, blocks, run, total, stored, some_, sound, dropped⟩ :=
      commitSendLoop_drops (by simp) stores.sound held (b.fresh + 1) send
        (Nat.le_succ_of_le stores.holds.length_le) (by rwa [stores.stored])
    obtain ⟨front, back, rfl⟩ := (List.eq_nil_or_concat' blocks).resolve_left some_
    refine ⟨next, front, back, run, stored, sound, ?_, ?_⟩
    · rw [dropped, stores.stored]
    · rw [total]
      change sizeSub b.totalSize send = _
      rw [stores.totalSize, sizeSub_of_le within, List.length_drop]

/-! ## `output_next` and `output_back_up` -/

/-- **`output_next`** on a tail with room: the region is the rest of the tail, and
what the caller puts there is appended. -/
theorem Stores.outputNext (stores : b.Stores blockSize before last contents)
    (room : last.writePos < blockSize) :
    ∃ (next : ChainedBuffer) (node : Ptr), b.outputNext blockSize =
        some (next, node, last.writePos, ((blockSize - last.writePos : Nat) : Int)) ∧
      ∀ source : Bytes, source.length = blockSize - last.writePos →
        ∃ after : BufferBlock, (next.fill node last.writePos source).Stores blockSize before after
            (contents ++ source) ∧ source.length ≤ after.size := by
  obtain ⟨tail, back, same, update⟩ := stores.tail
  have sound := stores.lastSound
  have inOrder := sound.inOrder
  have small := sound.small
  have notFull : last.full blockSize = false := by
    simp only [BufferBlock.full, decide_eq_false_iff_not]
    omega
  have toInt : Int.bmod ((blockSize - last.writePos : Nat) : Int) (2 ^ 32) =
      (blockSize - last.writePos : Nat) := Int.bmod_eq_of_le (by omega) (by omega)
  have position : wrapAdd last.writePos (blockSize - last.writePos : Nat) = blockSize := by
    rw [wrapAdd_natCast (by omega)]
    omega
  unfold ChainedBuffer.outputNext
  simp only [back, same, notFull, Bool.false_eq_true, ↓reduceIte, sound.available_eq, toInt,
    position, sizeAdd_natCast]
  refine ⟨_, tail, rfl, fun source exact_ => ?_⟩
  have end_ : last.writePos + source.length = blockSize := by omega
  have appended := BufferBlock.unread_store sound end_.le
  rw [end_] at appended
  set after : BufferBlock := { last.store last.writePos source with writePos := blockSize }
  have afterSound : after.Sound blockSize :=
    ⟨by simp [after, BufferBlock.store]; omega, le_rfl, small⟩
  refine ⟨after, ?_, ?_⟩
  · have stored := update after (b.totalSize + (blockSize - last.writePos)) (contents ++ source)
      afterSound (by rw [appended, stores.split, List.append_assoc])
      (by rw [stores.totalSize, List.length_append, exact_])
    have same : (({ b.setBlock tail { last with writePos := blockSize } with
        totalSize := b.totalSize + (blockSize - last.writePos) } : ChainedBuffer).fill tail
          last.writePos source) =
        { b.setBlock tail after with
          totalSize := b.totalSize + (blockSize - last.writePos) } := by
      change ({ (b.setBlock tail { last with writePos := blockSize }).setBlock tail
          (((b.setBlock tail { last with writePos := blockSize }).block tail).store
            last.writePos source) with
        totalSize := b.totalSize + (blockSize - last.writePos) } : ChainedBuffer) = _
      rw [block_setBlock_self, setBlock_setBlock]
      rfl
    rw [same]
    exact stored
  · rw [← BufferBlock.length_unread, appended, List.length_append]
    omega

/-- **`output_back_up`** takes bytes back from the end of the tail. -/
theorem Stores.outputBackUp (stores : b.Stores blockSize before last contents) {count : Nat}
    (enough : count ≤ last.size) :
    ∃ next after, b.outputBackUp count = some next ∧
      next.Stores blockSize before after (contents.take (contents.length - count)) := by
  obtain ⟨tail, back, same, update⟩ := stores.tail
  have sound := stores.lastSound
  have inOrder := sound.inOrder
  have within := sound.within
  have small := sound.small
  have size := sound.size_eq
  have whole := stores.split
  have least : min (count : Int) (Int.bmod last.writePos (2 ^ 32)) = count := by
    rw [Int.bmod_eq_of_le (by omega) (by omega)]
    omega
  have position : wrapAdd last.writePos (-(count : Int)) = last.writePos - count :=
    wrapSub_of_le (by omega) (by omega)
  obtain ⟨afterSound, kept⟩ := BufferBlock.unread_retreat sound enough
  have long : last.size ≤ contents.length := by
    rw [whole, List.length_append, BufferBlock.length_unread]
    omega
  have counted : sizeAdd b.totalSize (-(count : Int)) = b.totalSize - count := by
    apply sizeSub_of_le
    rw [stores.totalSize]
    omega
  unfold ChainedBuffer.outputBackUp
  simp only [back, same, least, position, counted]
  refine ⟨_, _, rfl, update _ _ _ afterSound ?_ ?_⟩
  · rw [kept]
    conv_rhs => rw [whole]
    have front : (before.flatMap BufferBlock.unread ++ last.unread).length - count =
        (before.flatMap BufferBlock.unread).length + (last.size - count) := by
      rw [List.length_append, BufferBlock.length_unread]
      omega
    rw [front, List.take_length_add_append]
  · rw [stores.totalSize, List.length_take]
    omega

end ChainedBuffer

end Drpc.Util
