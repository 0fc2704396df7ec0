import Drpc.Util.BackUp

/-! # Skipping

`input_skip` compares its argument with the bytes that were taken before instead of
those that are left, works on the block that was the head when it began, and leaves the
limit alone. It does what `input_next` and `input_back_up` do when it stays in the head
and there is no limit; it returns false rightly when it is asked for more than was taken
before and more than there is (`skip_agrees_iff`).
-/

namespace Drpc.Util

open Transition ChainedBuffer

/-- An operation of the receive path or of a parser, or a skip. -/
inductive InputOp where
  | parse (op : ParseOp)
  | skip (n : Int)
  deriving DecidableEq, Repr

/-- One operation. A turn of `input_skip` that skips nothing is repeated for ever, so it
returns in `n` turns if it does. -/
def InputOp.run (blockSize : Nat) (b : ChainedBuffer) : InputOp → Option ChainedBuffer
  | .parse op => op.run blockSize b
  | .skip n => (b.inputSkip blockSize n.toNat n).map Prod.fst

def InputOp.Fits (blockSize : Nat) (b : ChainedBuffer) : InputOp → Prop
  | .parse op => op.Fits blockSize b
  | .skip _ => True

instance InputOp.decidableFits (blockSize : Nat) (b : ChainedBuffer) (op : InputOp) :
    Decidable (op.Fits blockSize b) :=
  match op with
  | .parse op => inferInstanceAs (Decidable (op.Fits blockSize b))
  | .skip _ => .isTrue trivial

/-- The number of bytes that a parser can read. -/
def readable (b : ChainedBuffer) : Int := min (b.totalSize : Int) b.limit

/-- `input_skip` returns: true with `n` bytes consumed if they can be read, and false if
they cannot. -/
def SkipAgrees (blockSize : Nat) (b : ChainedBuffer) (n : Nat) : Prop :=
  ∃ turns after result, b.inputSkip blockSize turns n = some (after, result) ∧
    ((n : Int) ≤ readable b → result = true ∧ Consumed b after n) ∧
    (readable b < n → result = false)

/-- No more than was taken before, and nothing or, without a limit, bytes of the head;
or more than was taken before, and more than can be read. -/
def Skippable (b : ChainedBuffer) (n : Nat) : Prop :=
  ((n : Int) ≤ b.inputByteCount ∧
      (n = 0 ∨ b.limit = noLimit ∧ ∀ head ∈ b.head, n ≤ (b.block head).size)) ∨
    (b.inputByteCount < n ∧ readable b < n)

instance decidableSkippable (b : ChainedBuffer) (n : Nat) : Decidable (Skippable b n) :=
  inferInstanceAs (Decidable (_ ∨ _))

namespace ChainedBuffer

variable {blockSize : Nat} {b : ChainedBuffer} {block : BufferBlock} {rest : List BufferBlock}
  {contents : Bytes} {head : Ptr}

/-! ## The loop -/

/-- On a block without bytes that does not end at its last position, a turn changes
nothing: the loop does not end. -/
theorem skipLoop_stuck {n : Int} (positive : 0 < n)
    (empty : (b.block head).readPos = (b.block head).writePos)
    (range : (b.block head).readPos < 2 ^ 64) (short : (b.block head).readPos ≠ blockSize)
    (turns : Nat) : skipLoop blockSize head turns b n = none := by
  induction turns with
  | zero =>
      unfold skipLoop
      simp only [positive, ↓reduceIte]
  | succ turns ih =>
      have size : (b.block head).size = 0 := by
        apply BufferBlock.size_of_empty
        simp only [BufferBlock.empty, empty, decide_true]
      have none_ : min n (Int.bmod (((b.block head).size : Nat) : Int) (2 ^ 32)) = 0 := by
        rw [size]
        exact min_eq_right positive.le
      have stays : wrapAdd (b.block head).readPos 0 = (b.block head).readPos := by
        simp only [wrapAdd]
        omega
      have consumed : sizeAdd b.consumedBytes 0 = b.consumedBytes := sizeAdd_natCast _ 0
      have total : sizeAdd b.totalSize (-0) = b.totalSize := sizeAdd_natCast _ 0
      have unchanged :
          b.setBlock head { b.block head with readPos := (b.block head).readPos } = b :=
        setBlock_block b head
      unfold skipLoop
      simp only [positive, ↓reduceIte, none_, stays, short, false_and, Int.sub_zero, consumed,
        total, unchanged]
      exact ih

/-- Within the head, one turn is enough. -/
theorem Queued.skipLoop_within (queued : b.Queued blockSize (block :: rest) contents)
    (front : b.head = some head) {n : Nat} (positive : 0 < n) (enough : n ≤ block.size) :
    ∃ next blocks, (∀ turns, skipLoop blockSize head (turns + 1) b n = some next) ∧
      next.Queued blockSize blocks (contents.drop n) ∧
      next.consumedBytes = b.consumedBytes + n ∧ next.limit = b.limit := by
  obtain ⟨size, within, small⟩ := queued.positions
  have same := queued.block_head front
  have least : min (n : Int) (Int.bmod (block.size : Int) (2 ^ 32)) = n := by
    rw [queued.bmod_size]
    exact min_eq_left (Int.ofNat_le.mpr enough)
  have position : wrapAdd block.readPos n = block.readPos + n := wrapAdd_natCast (by omega)
  have total : sizeAdd b.totalSize (-(n : Int)) = (contents.drop n).length := by
    rw [List.length_drop, ← queued.totalSize]
    apply sizeSub_of_le
    rw [queued.totalSize]
    exact enough.trans queued.size_le
  set base : ChainedBuffer := { b.setBlock head { block with readPos := block.readPos + n } with
    consumedBytes := b.consumedBytes + n, totalSize := (contents.drop n).length } with isBase
  have link : base.head.bind base.next = base.next head := by
    have atHead : base.head = some head := front
    rw [atHead, Option.bind_some]
  set behind : ChainedBuffer :=
    if block.readPos + n = blockSize ∧ base.next head ≠ none then base.removeHead else base
    with isBehind
  have counters : behind.totalSize = (contents.drop n).length ∧
      behind.consumedBytes = b.consumedBytes + n ∧ behind.limit = b.limit := by
    rw [isBehind]
    split
    · exact ⟨totalSize_removeHead base, consumedBytes_removeHead base, limit_removeHead base⟩
    · exact ⟨rfl, rfl, rfl⟩
  obtain ⟨blocks, taken, -⟩ := queued.takeHead front enough isBase isBehind
  refine ⟨behind, blocks, fun turns => ?_, taken _ counters.1, counters.2⟩
  unfold skipLoop
  have some_ : (0 : Int) < n := Int.natCast_pos.mpr positive
  simp only [some_, ↓reduceIte, same, least, position, total, sizeAdd_natCast]
  rw [← isBase, link, ← isBehind]
  unfold skipLoop
  simp only [Int.sub_self, lt_irrefl, ↓reduceIte]

/-- Beyond the head, the loop does not end: the block that it works on has nothing left,
whether or not it is the head still. -/
theorem Queued.skipLoop_beyond (queued : b.Queued blockSize (block :: rest) contents)
    (front : b.head = some head) {n : Nat} (more : block.size < n) (turns : Nat) :
    skipLoop blockSize head turns b n = none := by
  obtain ⟨size, within, small⟩ := queued.positions
  obtain ⟨_, found, same, single, -⟩ := queued.holds.head
  obtain rfl := Option.some.inj (front.symm.trans found)
  have some_ : (0 : Int) < n := by omega
  cases turns with
  | zero =>
      unfold skipLoop
      simp only [some_, ↓reduceIte]
  | succ turns =>
      have least : min (n : Int) (Int.bmod (block.size : Int) (2 ^ 32)) = block.size := by
        rw [queued.bmod_size]
        exact min_eq_right (Int.ofNat_le.mpr more.le)
      have position : wrapAdd block.readPos block.size = block.writePos := by
        rw [wrapAdd_natCast (by omega)]
        omega
      have left : (0 : Int) < n - block.size := by omega
      set base : ChainedBuffer := { b.setBlock head { block with readPos := block.writePos } with
        consumedBytes := b.consumedBytes + block.size
        totalSize := sizeAdd b.totalSize (-(block.size : Int)) } with isBase
      have atHead : base.head = some head := front
      have link : base.next head = none ↔ rest = [] := by
        rw [← single]
        exact iff_of_eq (congrArg (· = none) (congrFun (next_setBlock b head _) head))
      have emptied : base.block head = { block with readPos := block.writePos } :=
        block_setBlock_self b head _
      unfold skipLoop
      simp only [some_, ↓reduceIte, same, least, position, sizeAdd_natCast]
      rw [← isBase, atHead, Option.bind_some]
      by_cases last : rest = []
      · subst last
        have room := (packed_singleton.mp queued.packed).2
        rw [if_neg fun both => both.2 (link.mpr rfl)]
        apply skipLoop_stuck left
        · rw [emptied]
        · rw [emptied]
          change block.writePos < 2 ^ 64
          omega
        · rw [emptied]
          exact room.ne
      · obtain ⟨less, full⟩ := ((packed_cons last).mp queued.packed).1
        rw [if_pos ⟨full, fun none_ => last (link.mp none_)⟩]
        have reset := block_removeHead atHead
        apply skipLoop_stuck left
        · rw [reset]
          rfl
        · rw [reset]
          exact Nat.two_pow_pos 64
        · rw [reset]
          change 0 ≠ blockSize
          omega

/-! ## `input_skip` -/

theorem inputSkip_of_lt (front : b.head = some head) {n : Int} (less : b.inputByteCount < n)
    (turns : Nat) : b.inputSkip blockSize turns n = some (b, false) := by
  simp only [inputSkip, front, less, ↓reduceIte]

theorem inputSkip_of_le (front : b.head = some head) {n : Int} (enough : n ≤ b.inputByteCount)
    (turns : Nat) : b.inputSkip blockSize turns n =
      (skipLoop blockSize head turns b n).map fun next => (next, true) := by
  simp only [inputSkip, front, not_lt.mpr enough, ↓reduceIte]

theorem skipLoop_zero (turns : Nat) : skipLoop blockSize head turns b 0 = some b := by
  unfold skipLoop
  simp only [lt_irrefl, ↓reduceIte]

end ChainedBuffer

variable {blockSize : Nat} {b next : ChainedBuffer}

theorem consumed_zero (b : ChainedBuffer) : Consumed b b 0 where
  remaining := rfl
  size := rfl
  byteCount := rfl
  limit := by
    simp only [limitBehind]
    split
    · rfl
    · exact (Int.sub_zero b.limit).symm

/-! ## What reading leaves -/

/-- A call of `input_next`, and one of `input_back_up` that gives `n` bytes of the region
back. -/
def nextBackUp (blockSize : Nat) (b : ChainedBuffer) (n : Nat) : Option ChainedBuffer :=
  (b.inputNext blockSize).bind fun (next, region) =>
    region.bind fun (_, _, size) => if (n : Int) ≤ size then next.inputBackUp n else none

theorem Consumed.trans {after : ChainedBuffer} {first second : Nat} (most : b.limit ≤ noLimit)
    (one : Consumed b next first) (two : Consumed next after second) :
    Consumed b after (first + second) where
  remaining := by rw [two.remaining, one.remaining, List.drop_drop]
  size := by
    have := one.size
    have := two.size
    omega
  byteCount := by rw [two.byteCount, one.byteCount, Nat.add_assoc]
  limit := by
    rw [two.limit, one.limit]
    simp only [limitBehind]
    split_ifs <;> omega

/-- The two calls together consume what is not given back. -/
theorem Parsing.nextBackUp (parsing : Parsing blockSize b) {n : Nat}
    (taken : nextBackUp blockSize b n = some next) :
    Parsing blockSize next ∧ ∃ count, Consumed b next count := by
  obtain ⟨⟨shown, _⟩, first, taken⟩ := Option.bind_eq_some_iff.mp taken
  obtain ⟨⟨node, offset, size⟩, rfl, chosen⟩ := Option.bind_eq_some_iff.mp taken
  obtain ⟨enough, given⟩ : (n : Int) ≤ size ∧ shown.inputBackUp n = some next := by
    simpa only [Option.ite_none_right_eq_some] using chosen
  obtain ⟨after, count, -, -, -, -, -, backed, kept, consumed⟩ :=
    parsing.inputNext_backUp first enough
  obtain rfl := Option.some.inj (backed.symm.trans given)
  exact ⟨kept, _, consumed⟩

/-- **Consuming through `input_next` and `input_back_up`** leaves what `Consumed` says,
however the calls divide the bytes. -/
theorem consumed_of_calls (parsing : Parsing blockSize b) {calls : List Nat}
    (run : exec (nextBackUp blockSize) b calls = some next) : ∃ n, Consumed b next n := by
  induction calls generalizing b with
  | nil =>
      cases run
      exact ⟨0, consumed_zero _⟩
  | cons call rest ih =>
      obtain ⟨between, taken, run⟩ := exec_cons_eq_some.mp run
      obtain ⟨kept, first, one⟩ := parsing.nextBackUp taken
      obtain ⟨second, two⟩ := ih kept run
      exact ⟨first + second, one.trans parsing.limit.2 two⟩

/-! ## When `input_skip` is right -/

section

variable {block : BufferBlock} {rest : List BufferBlock} {contents : Bytes} {head : Ptr} {n : Nat}

/-- More than was taken before is refused, which is right when there is not so much. -/
theorem skipAgrees_of_lt (front : b.head = some head) (less : b.inputByteCount < n) :
    SkipAgrees blockSize b n ↔ readable b < n := by
  have refused : ∀ turns, b.inputSkip blockSize turns n = some (b, false) :=
    inputSkip_of_lt front less
  constructor
  · intro agrees
    obtain ⟨turns, after, result, returned, can, -⟩ := agrees
    rw [refused] at returned
    cases returned
    apply not_le.mp
    intro enough
    exact absurd (can enough).1 Bool.false_ne_true
  · intro none_
    exact ⟨0, b, false, refused 0, fun enough => absurd enough (not_le.mpr none_), fun _ => rfl⟩

theorem skipAgrees_zero (front : b.head = some head) (enough : 0 ≤ b.inputByteCount)
    (least : 0 ≤ b.limit) : SkipAgrees blockSize b 0 := by
  refine ⟨0, b, true, ?_, fun _ => ⟨rfl, consumed_zero b⟩, fun none_ => ?_⟩
  · rw [Int.natCast_zero, inputSkip_of_le front enough, skipLoop_zero, Option.map_some]
  · simp only [readable] at none_
    omega

/-- A skip within the head is right when there is no limit that it would have to reduce. -/
theorem ChainedBuffer.Queued.skipAgrees_within
    (queued : b.Queued blockSize (block :: rest) contents) (front : b.head = some head)
    (enough : (n : Int) ≤ b.inputByteCount) (positive : 0 < n) (inside : n ≤ block.size) :
    SkipAgrees blockSize b n ↔ b.limit = noLimit := by
  have long := queued.size_le
  have total := queued.totalSize
  obtain ⟨size, within, small⟩ := queued.positions
  have goes : ∀ turns, b.inputSkip blockSize turns n =
      (skipLoop blockSize head turns b n).map fun next => (next, true) :=
    inputSkip_of_le front enough
  obtain ⟨next, blocks, run, queue, consumed, limit⟩ :=
    queued.skipLoop_within front positive inside
  have some_ : (0 : Int) < n := Int.natCast_pos.mpr positive
  constructor
  · intro agrees
    obtain ⟨turns, after, result, returned, can, cannot⟩ := agrees
    rw [goes] at returned
    cases turns with
    | zero =>
        unfold skipLoop at returned
        simp only [some_, ↓reduceIte, Option.map_none, reduceCtorEq] at returned
    | succ turns =>
        rw [run turns] at returned
        cases returned
        have there : (n : Int) ≤ readable b := by
          by_contra more
          cases cannot (not_le.mp more)
        have reduced := (can there).2.limit
        rw [limit, limitBehind] at reduced
        by_contra limited
        rw [if_neg limited] at reduced
        omega
  · intro unlimited
    refine ⟨1, next, true, ?_, fun _ => ⟨rfl, ?_, ?_, consumed, ?_⟩, fun none_ => ?_⟩
    · rw [goes, run 0, Option.map_some]
    · rw [queue.contents_eq, queued.contents_eq]
    · rw [queue.totalSize, total, List.length_drop]
      omega
    · rw [limit, limitBehind, if_pos unlimited]
    · simp only [readable, unlimited, noLimit] at none_
      omega

/-- A skip beyond the head does not return. -/
theorem ChainedBuffer.Queued.not_skipAgrees_beyond
    (queued : b.Queued blockSize (block :: rest) contents) (front : b.head = some head)
    (enough : (n : Int) ≤ b.inputByteCount) (more : block.size < n) :
    ¬ SkipAgrees blockSize b n := by
  intro agrees
  obtain ⟨turns, after, result, returned, -⟩ := agrees
  rw [inputSkip_of_le front enough, queued.skipLoop_beyond front more] at returned
  cases returned

/-- **When `input_skip` is right.** -/
theorem Parsing.skipAgrees_iff (parsing : Parsing blockSize b) (front : b.head ≠ none) (n : Nat) :
    SkipAgrees blockSize b n ↔ Skippable b n := by
  obtain ⟨⟨blocks, contents, queued⟩, least, -⟩ := parsing
  cases blocks with
  | nil => exact absurd queued.holds.pointers_of_nil.1 front
  | cons block rest =>
      obtain ⟨head, front, same, -⟩ := queued.holds.head
      simp only [Skippable, front, Option.mem_some_iff, forall_eq', same]
      by_cases less : b.inputByteCount < n
      · rw [skipAgrees_of_lt front less]
        simp only [less, not_le.mpr less, true_and, false_and, false_or]
      · have enough : (n : Int) ≤ b.inputByteCount := not_lt.mp less
        simp only [enough, less, true_and, false_and, or_false]
        rcases Nat.eq_zero_or_pos n with rfl | positive
        · exact iff_of_true (skipAgrees_zero front enough least) (.inl rfl)
        · rw [or_iff_right positive.ne']
          by_cases inside : n ≤ block.size
          · rw [queued.skipAgrees_within front enough positive inside, and_iff_left inside]
          · have beyond := queued.not_skipAgrees_beyond front enough (not_le.mp inside)
            exact iff_of_false beyond fun skippable => inside skippable.2

end

/-! ## Runs -/

/-- A skip that returns keeps the invariant, and `n` turns were enough for it. -/
theorem Parsing.inputSkip (parsing : Parsing blockSize b) {turns : Nat} {n : Int} {result : Bool}
    (returned : b.inputSkip blockSize turns n = some (next, result)) :
    Parsing blockSize next ∧ b.inputSkip blockSize n.toNat n = some (next, result) := by
  have ⟨⟨blocks, contents, queued⟩, limits⟩ := parsing
  cases blocks with
  | nil =>
      simp only [ChainedBuffer.inputSkip, queued.holds.pointers_of_nil.1, reduceCtorEq] at returned
  | cons block rest =>
      obtain ⟨head, front, -⟩ := queued.holds.head
      by_cases less : b.inputByteCount < n
      · rw [inputSkip_of_lt front less] at returned ⊢
        cases returned
        exact ⟨parsing, rfl⟩
      · have goes : ∀ turns, b.inputSkip blockSize turns n =
            (skipLoop blockSize head turns b n).map fun next => (next, true) :=
          inputSkip_of_le front (not_lt.mp less)
        rw [goes] at returned ⊢
        obtain ⟨_, looped, same⟩ := Option.map_eq_some_iff.mp returned
        cases same
        by_cases positive : 0 < n
        · obtain ⟨count, rfl⟩ := Int.eq_ofNat_of_zero_le positive.le
          have some_ : 0 < count := Int.natCast_pos.mp positive
          have inside : count ≤ block.size := by
            by_contra beyond
            rw [queued.skipLoop_beyond front (not_le.mp beyond)] at looped
            cases looped
          obtain ⟨final, blocks, run, queue, -, limit⟩ := queued.skipLoop_within front some_ inside
          obtain ⟨fewer, rfl⟩ : ∃ fewer, count = fewer + 1 := ⟨count - 1, by omega⟩
          cases turns with
          | zero =>
              unfold skipLoop at looped
              simp only [positive, ↓reduceIte, reduceCtorEq] at looped
          | succ turns =>
              obtain rfl : final = next := Option.some.inj ((run turns).symm.trans looped)
              refine ⟨⟨⟨blocks, _, queue⟩, limit ▸ limits⟩, ?_⟩
              rw [Int.toNat_natCast, run fewer, Option.map_some]
        · unfold skipLoop at looped ⊢
          simp only [positive, ↓reduceIte, Option.some.injEq] at looped ⊢
          subst looped
          exact ⟨parsing, rfl⟩

/-- **One operation** keeps the invariant. -/
theorem Parsing.inputStep (parsing : Parsing blockSize b) {op : InputOp}
    (fits : op.Fits blockSize b) (taken : op.run blockSize b = some next) :
    Parsing blockSize next := by
  cases op with
  | parse op => exact parsing.step fits taken
  | skip n =>
      obtain ⟨⟨_, result⟩, returned, rfl⟩ := Option.map_eq_some_iff.mp taken
      exact (parsing.inputSkip returned).1

/-- **`input_skip` agrees with reading** exactly when it stays in the head and there is no
limit, or when it refuses what cannot be read. -/
theorem skip_agrees_iff (memory : Ptr → Nat → UInt8) (ops : List InputOp) (b : ChainedBuffer)
    (run : exec (InputOp.run 4096) (init memory) ops = some b)
    (fits : Along (InputOp.run 4096) (fun b op => op.Fits 4096 b) (init memory) ops)
    (front : b.head ≠ none) (n : Nat) : SkipAgrees 4096 b n ↔ Skippable b n :=
  (parsing_of_run (fun _ _ _ kept => kept.inputStep) run fits).skipAgrees_iff front n

/-- Four bytes are read, and two of the three behind them are skipped. -/
theorem skip_agrees_iff_of_two : ∃ b, exec (InputOp.run 4096) (init fun _ _ => 0)
      [.parse (.receive (.commit [3, 0, 0, 0, 7, 8, 9])), .parse (.receive (.read 4))] = some b ∧
    SkipAgrees 4096 b 2 := by
  have runs : ∃ b ∈ exec (InputOp.run 4096) (init fun _ _ => 0)
      [.parse (.receive (.commit [3, 0, 0, 0, 7, 8, 9])), .parse (.receive (.read 4))],
      b.head ≠ none ∧ Skippable b 2 := by
    decide +kernel
  obtain ⟨b, run, front, skippable⟩ := runs
  exact ⟨b, run, (skip_agrees_iff (fun _ _ => 0) _ b run (by decide +kernel) front 2).mpr skippable⟩

/-- Three bytes have come and none was taken: to skip one is refused. -/
theorem skip_refused :
    ¬ ∀ (memory : Ptr → Nat → UInt8) (ops : List InputOp) (b : ChainedBuffer),
      exec (InputOp.run 4096) (init memory) ops = some b →
      Along (InputOp.run 4096) (fun b op => op.Fits 4096 b) (init memory) ops →
      b.head ≠ none → ∀ n, SkipAgrees 4096 b n := by
  intro always
  have runs : ∃ b ∈ exec (InputOp.run 4096) (init fun _ _ => 0)
      [.parse (.receive (.commit [7, 8, 9]))], b.head ≠ none ∧ ¬ Skippable b 1 := by
    decide +kernel
  obtain ⟨b, run, front, refused⟩ := runs
  have fits : Along (InputOp.run 4096) (fun b op => op.Fits 4096 b) (init fun _ _ => 0)
      [.parse (.receive (.commit [7, 8, 9]))] := by
    decide +kernel
  have agrees := always _ _ b run fits front 1
  have parsing := parsing_of_run (fun _ _ _ kept => kept.inputStep) run fits
  exact refused ((parsing.skipAgrees_iff front 1).mp agrees)

end Drpc.Util
