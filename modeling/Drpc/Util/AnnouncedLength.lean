import Drpc.Util.Skip

/-! # Announced lengths

The peer announces how long a header or a message is, in 32 bits. The receive path waits
until the buffer holds as many bytes, makes the number the limit, and lets a parser call
`input_next` until it returns false. The limit is an `int` whose largest value stands for
none, so that a length from `2 ^ 31` on becomes negative and `2 ^ 31 - 1` no limit at all
(`bounds_parse_iff`).
-/

namespace Drpc.Util

open Transition ChainedBuffer

/-- The `int` that a `uint32_t` is converted to. -/
def toInt (length : UInt32) : Int := Int.bmod length.toNat (2 ^ 32)

/-- A region that `input_next` has shown, with the buffer before and after the call. -/
structure Region where
  before : ChainedBuffer
  after : ChainedBuffer
  node : Ptr
  offset : Nat
  size : Int

/-- The bytes a parser sees there. -/
def Region.bytes (region : Region) : Bytes :=
  (region.after.block region.node).bytes region.offset region.size.toNat

/-- It has a byte, and those that were written to its block reach as far. -/
def Region.Within (region : Region) : Prop :=
  0 < region.size ∧
    (region.offset : Int) + region.size ≤ (region.before.block region.node).writePos

/-- The positions of every block are in order. -/
def InOrder (blockSize : Nat) (b : ChainedBuffer) : Prop :=
  ∀ node < b.fresh, (b.block node).readPos ≤ (b.block node).writePos ∧
    (b.block node).writePos ≤ blockSize

/-- Call `input_next` until it returns false; `none` when it has not after `turns` calls. -/
def inputRegions (blockSize : Nat) : Nat → ChainedBuffer → Option (ChainedBuffer × List Region)
  | 0, _ => none
  | turns + 1, b =>
      (b.inputNext blockSize).bind fun (next, region) =>
        match region with
        | none => some (next, [])
        | some (node, offset, size) =>
            (inputRegions blockSize turns next).map fun (final, regions) =>
              (final, ⟨b, next, node, offset, size⟩ :: regions)

/-- The calls have shown the next `length` bytes and no more. -/
structure Exposes (blockSize : Nat) (b final : ChainedBuffer) (regions : List Region)
    (length : Nat) : Prop where
  shown : regions.flatMap Region.bytes = b.contents.take length
  remaining : final.contents = b.contents.drop length
  within : ∀ region ∈ regions, region.Within
  inOrder : InOrder blockSize final ∧ ∀ region ∈ regions, InOrder blockSize region.before

/-- **The announced length bounds the parse.** -/
def BoundsParse (blockSize : Nat) (b : ChainedBuffer) (length : UInt32) : Prop :=
  ∃ turns final regions,
    inputRegions blockSize turns (b.pushLimit (toInt length)) = some (final, regions) ∧
      Exposes blockSize b final regions length.toNat ∧
      sizeT final.totalSize + length.toNat = sizeT b.totalSize ∧
      sizeT final.consumedBytes = sizeT b.consumedBytes + length.toNat

/-- The length is a limit, or it stands for none and is all there is; and the bytes that
were consumed can still be counted. -/
def Announceable (b : ChainedBuffer) (length : UInt32) : Prop :=
  (length.toNat < 2 ^ 31 - 1 ∨ length.toNat = 2 ^ 31 - 1 ∧ b.totalSize = length.toNat) ∧
    sizeT b.consumedBytes + length.toNat < 2 ^ 64

instance decidableAnnounceable (b : ChainedBuffer) (length : UInt32) :
    Decidable (Announceable b length) :=
  inferInstanceAs (Decidable (_ ∧ _))

section

variable {blockSize : Nat} {b next final : ChainedBuffer} {block : BufferBlock}
  {blocks rest : List BufferBlock} {contents : Bytes} {regions : List Region}

/-- The calls do not depend on how many of them are allowed. -/
theorem inputRegions_unique {turns more : Nat} {first second : ChainedBuffer × List Region}
    (one : inputRegions blockSize turns b = some first)
    (two : inputRegions blockSize more b = some second) : first = second := by
  induction turns generalizing b more first second with
  | zero => cases one
  | succ turns ih =>
      cases more with
      | zero => cases two
      | succ more =>
          unfold inputRegions at one two
          obtain ⟨⟨next, region⟩, taken, one⟩ := Option.bind_eq_some_iff.mp one
          simp only [taken, Option.bind_some] at two
          cases region with
          | none =>
              cases one
              cases two
              rfl
          | some region =>
              obtain ⟨left, leftRun, rfl⟩ := Option.map_eq_some_iff.mp one
              obtain ⟨right, rightRun, rfl⟩ := Option.map_eq_some_iff.mp two
              rw [ih leftRun rightRun]

theorem ChainedBuffer.Queued.inOrder (queued : b.Queued blockSize blocks contents) :
    InOrder blockSize b := by
  have sound := queued.sound
  obtain ⟨nodes, free, chained, same⟩ := queued.holds
  intro node allocated
  rcases List.mem_append.mp ((chained.allocated node).mpr allocated) with member | member
  · have holds := sound (b.block node) (same ▸ List.mem_map_of_mem member)
    exact ⟨holds.inOrder, holds.within⟩
  · obtain ⟨readPos, writePos⟩ := chained.reset node member
    rw [readPos, writePos]
    exact ⟨le_rfl, Nat.zero_le _⟩

theorem Exposes.cons {region : Region} {size length : Nat}
    (exposes : Exposes blockSize region.after final regions length)
    (shown : region.bytes = region.before.contents.take size)
    (remaining : region.after.contents = region.before.contents.drop size)
    (within : region.Within) (inOrder : InOrder blockSize region.before) :
    Exposes blockSize region.before final (region :: regions) (size + length) where
  shown := by rw [List.flatMap_cons, shown, exposes.shown, remaining, List.take_add]
  remaining := by rw [exposes.remaining, remaining, List.drop_drop]
  within := List.forall_mem_cons.mpr ⟨within, exposes.within⟩
  inOrder := ⟨exposes.inOrder.1, List.forall_mem_cons.mpr ⟨inOrder, exposes.inOrder.2⟩⟩

/-- How far calls of `input_next` go. -/
def reach (b : ChainedBuffer) : Nat :=
  if b.limit = noLimit then b.totalSize else min b.limit.toNat b.totalSize

/-- Calls that all take what the limit leaves show the bytes up to there. -/
theorem ChainedBuffer.Queued.inputRegions (queued : b.Queued blockSize blocks contents)
    (some_ : blocks ≠ []) (least : 0 ≤ b.limit) (most : b.limit ≤ noLimit) :
    ∃ turns final regions, Util.inputRegions blockSize turns b = some (final, regions) ∧
      Exposes blockSize b final regions (reach b) ∧ final.totalSize + reach b = b.totalSize ∧
      final.consumedBytes = b.consumedBytes + reach b := by
  induction long : contents.length using Nat.strong_induction_on
    generalizing b blocks contents with
  | _ length ih =>
      obtain ⟨block, rest, rfl⟩ := List.exists_cons_of_ne_nil some_
      have total := queued.totalSize
      by_cases nothing : contents = [] ∨ b.limit = 0
      · have none_ : reach b = 0 := by
          unfold reach
          rcases nothing with rfl | zero
          · rw [total, List.length_nil, Nat.min_zero, ite_self]
          · rw [zero, if_neg (by decide), Int.toNat_zero, Nat.zero_min]
        refine ⟨1, b, [], ?_, ⟨?_, ?_, List.forall_mem_nil _, queued.inOrder,
          List.forall_mem_nil _⟩, ?_, ?_⟩
        · simp only [Util.inputRegions, queued.inputNext_none nothing, Option.bind_some]
        · rw [none_, List.flatMap_nil, List.take_zero]
        · rw [none_, List.drop_zero]
        · rw [none_, Nat.add_zero]
        · rw [none_, Nat.add_zero]
      · rw [not_or] at nothing
        obtain ⟨head, next, left, size, front, run, counted, positive, within, after, shown,
          consumed, behind, shape⟩ := queued.inputNext nothing.1 (by omega)
        have more : left ≠ [] := by
          rcases shape with ⟨rfl, -⟩ | ⟨rfl, -, more⟩
          · exact List.cons_ne_nil _ _
          · exact more
        have shorter := within.trans queued.size_le
        have size_ := after.totalSize
        rw [List.length_drop] at size_
        have further : reach b = size + reach next := by
          unfold reach
          rw [behind, limitBehind]
          split_ifs <;> omega
        obtain ⟨turns, final, regions, runs, exposes, totals, counts⟩ :=
          ih _ (by rw [List.length_drop]; omega) after more (by
            rw [behind, limitBehind]
            split <;> omega) (by
            rw [behind, limitBehind]
            split <;> omega) rfl
        have reaches : block.readPos + size ≤ block.writePos := by
          obtain ⟨whole, -, -⟩ := queued.positions
          omega
        have region : Region.Within ⟨b, next, head, block.readPos, size⟩ := by
          refine ⟨Int.natCast_pos.mpr positive, ?_⟩
          rw [queued.block_head front]
          exact Int.ofNat_le.mpr reaches
        refine ⟨turns + 1, final, ⟨b, next, head, block.readPos, size⟩ :: regions, ?_, ?_, ?_, ?_⟩
        · simp only [Util.inputRegions, run, Option.bind_some, runs, Option.map_some]
        · rw [further]
          apply Exposes.cons exposes _ _ region queued.inOrder
          · rw [queued.contents_eq]
            exact shown
          · rw [after.contents_eq, queued.contents_eq]
        · omega
        · omega

/-- How far they go under a limit. -/
def limitedReach (b : ChainedBuffer) (limit : Int) : Nat :=
  if limit = noLimit then b.totalSize else min limit.toNat b.totalSize

theorem ChainedBuffer.Queued.inputRegions_pushLimit (queued : b.Queued blockSize blocks contents)
    (some_ : blocks ≠ []) {limit : Int} (least : 0 ≤ limit) (most : limit ≤ noLimit) :
    ∃ turns final regions,
      Util.inputRegions blockSize turns (b.pushLimit limit) = some (final, regions) ∧
        Exposes blockSize b final regions (limitedReach b limit) ∧
        final.totalSize + limitedReach b limit = b.totalSize ∧
        final.consumedBytes = b.consumedBytes + limitedReach b limit := by
  have limited : (b.pushLimit limit).Queued blockSize blocks contents :=
    queued.congr rfl rfl rfl rfl rfl rfl
  obtain ⟨turns, final, regions, run, exposes, totals, counts⟩ :=
    limited.inputRegions some_ least most
  exact ⟨turns, final, regions, run, ⟨exposes.shown, exposes.remaining, exposes.within,
    exposes.inOrder⟩, totals, counts⟩

/-- A negative limit is the size of the first region. -/
theorem ChainedBuffer.Queued.inputNext_of_negative
    (queued : b.Queued blockSize (block :: rest) contents) (some_ : contents ≠ []) {limit : Int}
    (negative : limit < 0) : ∃ next node offset,
      (b.pushLimit limit).inputNext blockSize = some (next, some (node, offset, limit)) := by
  obtain ⟨head, front, same, -⟩ := queued.holds.head
  have goesOn : ¬ (block.empty = true ∨ limit = 0) := by
    rw [queued.empty_iff]
    exact not_or.mpr ⟨some_, negative.ne⟩
  have least : min (Int.bmod (block.size : Int) (2 ^ 32)) limit = limit := by
    rw [queued.bmod_size]
    omega
  have front : (b.pushLimit limit).head = some head := front
  have same : (b.pushLimit limit).block head = block := same
  have limited : (b.pushLimit limit).limit = limit := rfl
  unfold ChainedBuffer.inputNext
  simp only [front, same, limited, goesOn, ↓reduceIte, least]
  exact ⟨_, _, _, rfl⟩

/-- Its size is not positive. -/
theorem ChainedBuffer.Queued.not_exposes_of_negative
    (queued : b.Queued blockSize blocks contents) (some_ : blocks ≠ []) (bytes : contents ≠ [])
    {limit : Int} (negative : limit < 0) {turns length : Nat}
    (run : Util.inputRegions blockSize turns (b.pushLimit limit) = some (final, regions)) :
    ¬ Exposes blockSize b final regions length := by
  intro exposes
  obtain ⟨block, rest, rfl⟩ := List.exists_cons_of_ne_nil some_
  obtain ⟨next, node, offset, taken⟩ := queued.inputNext_of_negative bytes negative
  cases turns with
  | zero => cases run
  | succ turns =>
      simp only [Util.inputRegions, taken, Option.bind_some] at run
      obtain ⟨_, -, same⟩ := Option.map_eq_some_iff.mp run
      cases same
      have positive : 0 < limit := (exposes.within _ (List.mem_cons_self ..)).1
      exact positive.asymm negative

/-- What was exposed is as long as the calls go. -/
theorem ChainedBuffer.Queued.limitedReach_of_exposes
    (queued : b.Queued blockSize blocks contents) (some_ : blocks ≠ []) {limit : Int}
    (least : 0 ≤ limit) (most : limit ≤ noLimit) {turns length : Nat}
    (run : Util.inputRegions blockSize turns (b.pushLimit limit) = some (final, regions))
    (exposes : Exposes blockSize b final regions length) (enough : length ≤ b.totalSize) :
    limitedReach b limit = length := by
  obtain ⟨_, _, _, other, shown, totals, -⟩ := queued.inputRegions_pushLimit some_ least most
  cases inputRegions_unique run other
  have left := exposes.remaining.symm.trans shown.remaining
  rw [queued.contents_eq] at left
  have lengths := congrArg List.length left
  rw [List.length_drop, List.length_drop, ← queued.totalSize] at lengths
  omega

theorem toInt_of_lt {length : UInt32} (small : length.toNat < 2 ^ 31) :
    toInt length = length.toNat :=
  Int.bmod_eq_of_le (by omega) (by omega)

theorem toInt_of_le {length : UInt32} (large : 2 ^ 31 ≤ length.toNat) : toInt length < 0 := by
  have bound := length.toNat_lt
  unfold toInt
  rw [Int.bmod_def]
  omega

/-- **When an announced length bounds the parse.** -/
theorem Parsing.boundsParse_iff (parsing : Parsing blockSize b) (front : b.head ≠ none)
    {length : UInt32} (enough : length.toNat ≤ sizeT b.totalSize) :
    BoundsParse blockSize b length ↔ Announceable b length := by
  obtain ⟨⟨blocks, contents, queued⟩, -⟩ := parsing
  have some_ : blocks ≠ [] := by
    intro equal
    subst equal
    exact front queued.holds.pointers_of_nil.1
  have total := queued.totalSize
  have whole : length.toNat ≤ b.totalSize := by
    simp only [sizeT] at enough
    omega
  have small := @toInt_of_lt length
  have large := @toInt_of_le length
  unfold BoundsParse
  generalize toInt length = limit at small large ⊢
  constructor
  · intro bounds
    obtain ⟨turns, final, regions, run, exposes, -, counts⟩ := bounds
    have countable : sizeT b.consumedBytes + length.toNat < 2 ^ 64 := by
      simp only [sizeT] at counts ⊢
      omega
    refine ⟨?_, countable⟩
    by_cases signed : 2 ^ 31 ≤ length.toNat
    · have bytes : contents ≠ [] := by
        intro equal
        rw [equal, List.length_nil] at total
        omega
      exact absurd exposes (queued.not_exposes_of_negative some_ bytes (large signed) run)
    · have same : limit = length.toNat := small (not_le.mp signed)
      have least : 0 ≤ limit := same ▸ Int.natCast_nonneg _
      have most : limit ≤ noLimit := by
        rw [same, noLimit]
        omega
      have reached := queued.limitedReach_of_exposes some_ least most run exposes whole
      rw [limitedReach, same, noLimit] at reached
      split at reached <;> omega
  · intro announceable
    obtain ⟨bound, countable⟩ := announceable
    have same : limit = length.toNat := small (by omega)
    have atMost : limit ≤ noLimit := by
      rw [same, noLimit]
      omega
    have least : 0 ≤ limit := same ▸ Int.natCast_nonneg _
    have exact_ : limitedReach b limit = length.toNat := by
      rw [limitedReach]
      rw [noLimit] at atMost ⊢
      split <;> omega
    obtain ⟨turns, final, regions, run, exposes, totals, counts⟩ :=
      queued.inputRegions_pushLimit some_ least atMost
    rw [exact_] at exposes totals counts
    refine ⟨turns, final, regions, run, exposes, ?_, ?_⟩
    · simp only [sizeT] at enough ⊢
      omega
    · simp only [sizeT] at countable ⊢
      omega

end

/-- **An announced length bounds the parse exactly** when it is below `2 ^ 31 - 1`, or is
this number and all that the buffer holds; and the bytes consumed can still be counted. -/
theorem bounds_parse_iff (memory : Ptr → Nat → UInt8) (ops : List InputOp) (b : ChainedBuffer)
    (run : exec (InputOp.run 4096) (init memory) ops = some b)
    (fits : Along (InputOp.run 4096) (fun b op => op.Fits 4096 b) (init memory) ops)
    (front : b.head ≠ none) (length : UInt32) (enough : length.toNat ≤ sizeT b.totalSize) :
    BoundsParse 4096 b length ↔ Announceable b length :=
  (parsing_of_run (fun _ _ _ kept => kept.inputStep) run fits).boundsParse_iff front enough

/-- Two of three bytes. -/
theorem bounds_parse_iff_of_two : ∃ b, exec (InputOp.run 4096) (init fun _ _ => 0)
      [.parse (.receive (.commit [7, 8, 9]))] = some b ∧ BoundsParse 4096 b 2 := by
  have runs : ∃ b ∈ exec (InputOp.run 4096) (init fun _ _ => 0)
      [.parse (.receive (.commit [7, 8, 9]))],
      b.head ≠ none ∧ (2 : UInt32).toNat ≤ sizeT b.totalSize ∧ Announceable b 2 := by
    decide +kernel
  obtain ⟨b, run, front, enough, announceable⟩ := runs
  exact ⟨b, run, (bounds_parse_iff (fun _ _ => 0) _ b run (by decide +kernel) front 2 enough).mpr
    announceable⟩

/-! ## A length of `2 ^ 31` -/

/-- Bytes that come one by one. -/
def arrivals (count : Nat) : List InputOp :=
  List.replicate count (.parse (.receive (.commit [0])))

theorem ChainedBuffer.Queued.arrivals {blockSize : Nat} {b : ChainedBuffer}
    {blocks : List BufferBlock} {contents : Bytes} (queued : b.Queued blockSize blocks contents)
    (some_ : blocks ≠ []) (count : Nat) :
    ∃ final left, exec (InputOp.run blockSize) b (Util.arrivals count) = some final ∧
      Along (InputOp.run blockSize) (fun b op => op.Fits blockSize b) b (Util.arrivals count) ∧
      final.Queued blockSize left (contents ++ List.replicate count 0) ∧ left ≠ [] := by
  induction count generalizing b blocks contents with
  | zero => exact ⟨b, blocks, rfl, trivial, by simpa using queued, some_⟩
  | succ count ih =>
      obtain ⟨before, last, rfl⟩ := (List.eq_nil_or_concat' blocks).resolve_left some_
      obtain ⟨tail, back, -, view⟩ := queued.writeView
      have room := (packed_concat.mp queued.packed).2.2
      have fits : [(0 : UInt8)].length ≤ blockSize - last.writePos := by
        rw [List.length_singleton]
        omega
      obtain ⟨next, blocks, committed, after, more, -⟩ :=
        queued.commit back (List.cons_ne_nil 0 []) fits
      have taken : (InputOp.parse (.receive (.commit [0]))).run blockSize b = some next := by
        simp only [InputOp.run, ParseOp.run, ReceiveOp.run, view, Option.bind_some, committed]
      obtain ⟨final, left, run, along, queue, still⟩ := ih after more
      refine ⟨final, left, exec_cons_eq_some.mpr ⟨next, taken, run⟩, ⟨?_, ?_⟩, ?_, still⟩
      · intro region member
        obtain rfl := Option.some.inj (view.symm.trans member)
        exact fits
      · intro other same
        obtain rfl := Option.some.inj (taken.symm.trans same)
        exact along
      · rwa [List.append_assoc, List.singleton_append] at queue

/-- `2 ^ 31` bytes have come, and the peer has announced as many. -/
theorem unbounded_parse :
    ¬ ∀ (memory : Ptr → Nat → UInt8) (ops : List InputOp) (b : ChainedBuffer),
      exec (InputOp.run 4096) (init memory) ops = some b →
      Along (InputOp.run 4096) (fun b op => op.Fits 4096 b) (init memory) ops →
      b.head ≠ none → ∀ length : UInt32, length.toNat ≤ sizeT b.totalSize →
        BoundsParse 4096 b length := by
  intro always
  have start := @queued_init 4096 (fun _ _ => 0) (by decide) (by decide)
  obtain ⟨b, left, run, fits, queued, some_⟩ := start.arrivals (List.cons_ne_nil _ _) (2 ^ 31)
  have total : b.totalSize = 2 ^ 31 := by
    rw [queued.totalSize, List.nil_append, List.length_replicate]
  have length : (0x80000000 : UInt32).toNat = 2 ^ 31 := by decide
  have counted : sizeT b.totalSize = 2 ^ 31 := by
    rw [total]
    exact Nat.mod_eq_of_lt (by decide)
  have enough : (0x80000000 : UInt32).toNat ≤ sizeT b.totalSize := (length.trans counted.symm).le
  have front := (queued.holds.pointers some_).1
  have bounds := always _ _ b run fits front 0x80000000 enough
  have parsing := parsing_of_run (fun _ _ _ kept => kept.inputStep) run fits
  have announceable := (parsing.boundsParse_iff front enough).mp bounds
  have small := announceable.1
  rw [length] at small
  omega

end Drpc.Util
