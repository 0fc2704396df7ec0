import Drpc.Net.ReadBuffer

/-! # The read buffer is the ideal byte queue

The receiving coroutines are modelled on an ideal queue with a limit. Here what they
use of the read buffer is shown to do to the chain of blocks what the ideal operation
does to the queue: `read`, `push_limit` and `pop_limit`, `async_read`, and a parse
through `input_next`. A parse that fails has asked for some regions only. How many
bytes these are depends on the position in the stream and on nothing else of the
chain, since the blocks lie at the multiples of their size (`Represents.aligned`).
-/

namespace Drpc.Util

theorem BufferBlock.Sound.inRange {block : BufferBlock} {capacity : Nat}
    (sound : block.Sound capacity) :
    block.InRange := by
  obtain ⟨inOrder, within, small⟩ := sound
  exact ⟨by omega, by omega⟩

namespace ChainedBuffer

variable {β : Type*}

/-- At most `asks` calls of `input_next`, up to the first that returns false. -/
def takeRegions (blockSize : Nat) : Nat → ChainedBuffer → Option (ChainedBuffer × List Bytes)
  | 0, b => some (b, [])
  | asks + 1, b =>
      (b.inputNext blockSize).bind fun (next, region) =>
        match region with
        | none => some (next, [])
        | some (node, offset, size) =>
            (takeRegions blockSize asks next).map fun (final, views) =>
              (final, (next.block node).bytes offset size.toNat :: views)

/-- `ParseFromZeroCopyStream`. A parse that succeeds has taken the regions until
`input_next` returned false; one that fails has asked for some of them, which `asks`
gives for the position in the stream and the bytes. -/
def parse (blockSize : Nat) (b : ChainedBuffer) (parser : Bytes → Option β)
    (asks : Nat → Bytes → Nat) : Option (Option β × ChainedBuffer) :=
  (takeViews blockSize (b.totalSize + 1) b).bind fun (final, views) =>
    match parser views.flatten with
    | some value => some (some value, final)
    | none =>
        (takeRegions blockSize (asks b.consumedBytes views.flatten) b).map fun (stopped, _) =>
          (none, stopped)

/-- The bytes in the regions a failed parse has asked for: the first region ends with its
block, and every other is a whole block, as far as the limit lets them. -/
def regionBytes (blockSize : Nat) (asks : Nat → Bytes → Nat) (position : Nat) (window : Bytes) :
    Nat :=
  min window.length (asks position window * blockSize - position % blockSize)

/-- The limit of the buffer for a limit of the queue. -/
def limitOf : Option Nat → Int
  | none => noLimit
  | some limit => limit

/-- The stream up to the head fills whole blocks. -/
def Aligned (blockSize : Nat) (blocks : List BufferBlock) (consumed : Nat) : Prop :=
  ∀ head ∈ blocks.head?, ∃ removed, consumed = removed * blockSize + head.readPos

/-- The buffer, with the blocks it holds, is this queue. -/
structure Represents (blockSize : Nat) (b : ChainedBuffer) (blocks : List BufferBlock)
    (queue : LimitedQueue UInt8) : Prop where
  queued : b.Queued blockSize blocks queue.content
  consumed : b.consumedBytes = queue.consumed
  limit : b.limit = limitOf queue.limit
  isLimit : ∀ limit ∈ queue.limit, (limit : Int) < noLimit
  aligned : Aligned blockSize blocks queue.consumed

variable {blockSize : Nat} {b next : ChainedBuffer} {block : BufferBlock}
  {blocks rest left : List BufferBlock} {contents : Bytes} {queue : LimitedQueue UInt8}

theorem represents_init (memory : Ptr → Nat → UInt8) (positive : 0 < blockSize)
    (small : blockSize < 2 ^ 31) :
    (init memory).Represents blockSize [⟨memory 0, 0, 0⟩] .empty where
  queued := queued_init memory positive small
  consumed := rfl
  limit := rfl
  isLimit := by simp [LimitedQueue.empty]
  aligned := by simpa [Aligned] using ⟨0, by simp [LimitedQueue.empty]⟩

/-- `size()` is the size of the queue. -/
theorem Represents.size_eq (represents : b.Represents blockSize blocks queue) :
    b.totalSize = queue.size :=
  represents.queued.totalSize

/-- The blocks are those of the chain. -/
theorem Holds.unique {other : List BufferBlock} (holds : b.Holds blocks) (also : b.Holds other) :
    blocks = other :=
  holds.map_nodes.symm.trans also.map_nodes

/-! ## `read` -/

/-- A head that is taken whole, with blocks behind it, ends a block of the stream. -/
theorem aligned_rest (queued : b.Queued blockSize (block :: rest) contents) {consumed : Nat}
    (aligned : Aligned blockSize (block :: rest) consumed) :
    Aligned blockSize rest (consumed + block.size) := by
  intro head member
  have more : rest ≠ [] := by
    intro equal
    subst equal
    simp at member
  obtain ⟨removed, position⟩ := aligned block rfl
  obtain ⟨whole, -, -⟩ := queued.positions
  have filled := ((packed_cons more).mp queued.packed).1.2
  have fresh : head.readPos = 0 := queued.untouched head (List.mem_of_mem_head? member)
  refine ⟨removed + 1, ?_⟩
  rw [Nat.succ_mul]
  omega

/-- The loop of `read` leaves the blocks where they lie in the stream. -/
theorem readLoop_aligned {fuel length : Nat} {taken bytes : Bytes}
    (queued : b.Queued blockSize blocks contents)
    (aligned : Aligned blockSize blocks b.consumedBytes)
    (run : ChainedBuffer.readLoop fuel b length taken = some (next, bytes))
    (held : next.Holds left) : Aligned blockSize left next.consumedBytes := by
  induction blocks generalizing b contents fuel length taken with
  | nil =>
      have none_ := queued.holds.pointers_of_nil.1
      have same : next = b := by
        cases length with
        | zero =>
            unfold ChainedBuffer.readLoop at run
            cases run
            rfl
        | succ length =>
            unfold ChainedBuffer.readLoop at run
            rw [none_] at run
            cases run
            rfl
      subst same
      rwa [held.unique queued.holds]
  | cons block rest ih =>
      cases length with
      | zero =>
          unfold ChainedBuffer.readLoop at run
          cases run
          rwa [held.unique queued.holds]
      | succ length =>
          cases fuel with
          | zero =>
              obtain ⟨head, front, -⟩ := queued.holds.head
              unfold ChainedBuffer.readLoop at run
              rw [front] at run
              cases run
          | succ fuel =>
              obtain ⟨middle, between, turn, after, counted, -, progress⟩ :=
                queued.readLoop_turn fuel length taken
              rw [turn] at run
              rcases progress with part | ⟨whole, rfl⟩
              · have done : length + 1 - min (length + 1) block.size = 0 := by omega
                rw [done] at turn run
                unfold ChainedBuffer.readLoop at run
                cases run
                -- what is left of the head begins where the read ended
                have sound := queued.sound block (List.mem_cons_self ..)
                obtain ⟨other, result, also, kept⟩ :=
                  Util.readLoop_turn queued.holds sound.inRange fuel length taken
                rw [done] at also
                have same := turn.symm.trans also
                unfold ChainedBuffer.readLoop at same
                cases same
                obtain ⟨more, -⟩ | ⟨-, shrunk, -, writePos, shrunkHolds⟩ := kept
                · omega
                rw [held.unique shrunkHolds]
                obtain rfl := after.holds.unique shrunkHolds
                obtain ⟨removed, position⟩ := aligned block rfl
                obtain ⟨wholeBefore, -, -⟩ := queued.positions
                obtain ⟨wholeAfter, -, -⟩ := after.positions
                have before := congrArg List.length queued.stored
                have behind := congrArg List.length after.stored
                simp only [List.flatMap_cons, List.length_append, BufferBlock.length_unread,
                  List.length_drop] at before behind
                intro head member
                obtain rfl : shrunk = head := by simpa using member
                exact ⟨removed, by omega⟩
              · have least : min (length + 1) block.size = block.size := by omega
                rw [least] at after counted
                refine ih after ?_ run
                rw [counted]
                exact aligned_rest queued aligned

/-- **`read`** takes from the buffer what it takes from the queue. -/
theorem Represents.read (represents : b.Represents blockSize blocks queue) (length : Nat) :
    ∃ next left, b.read length = some (next, (queue.read length).1) ∧
      next.Represents blockSize left (queue.read length).2 := by
  obtain ⟨next, left, run, after, counted, limit⟩ := represents.queued.read length
  have consumed : next.consumedBytes = (queue.read length).2.consumed := by
    rw [counted, represents.consumed]
    rfl
  refine ⟨next, left, run, after, consumed, limit.trans represents.limit, represents.isLimit, ?_⟩
  rw [← consumed]
  exact readLoop_aligned represents.queued (represents.consumed ▸ represents.aligned) run
    after.holds

/-! ## The limit -/

theorem Represents.pushLimit (represents : b.Represents blockSize blocks queue) {limit : Nat}
    (less : (limit : Int) < noLimit) :
    (b.pushLimit limit).Represents blockSize blocks (queue.pushLimit limit) where
  queued := represents.queued.congr rfl rfl rfl rfl rfl rfl
  consumed := represents.consumed
  limit := rfl
  isLimit := by simpa [LimitedQueue.pushLimit] using less
  aligned := represents.aligned

theorem Represents.popLimit (represents : b.Represents blockSize blocks queue) :
    b.popLimit.Represents blockSize blocks queue.popLimit where
  queued := represents.queued.congr rfl rfl rfl rfl rfl rfl
  consumed := represents.consumed
  limit := rfl
  isLimit := by simp [LimitedQueue.popLimit]
  aligned := represents.aligned

/-! ## A parse -/

/-- Regions that all lie under the limit. -/
theorem Represents.takeRegions (represents : b.Represents blockSize blocks queue)
    (some_ : blocks ≠ []) {limit : Nat} (limited : queue.limit = some limit) (asks : Nat) :
    ∃ final views left, ChainedBuffer.takeRegions blockSize asks b = some (final, views) ∧
      left ≠ [] ∧
      views.flatten = queue.content.take (min (min limit queue.size)
        (asks * blockSize - queue.consumed % blockSize)) ∧
      final.Represents blockSize left (queue.advance (min (min limit queue.size)
        (asks * blockSize - queue.consumed % blockSize))) := by
  induction asks generalizing b blocks queue limit with
  | zero =>
      refine ⟨b, [], blocks, rfl, some_, by simp, ?_⟩
      have same : queue.advance (min (min limit queue.size)
          (0 * blockSize - queue.consumed % blockSize)) = queue := by
        obtain ⟨content, consumed, _⟩ := queue
        cases limited
        simp [LimitedQueue.advance]
      rwa [same]
  | succ asks ih =>
      obtain ⟨block, rest, rfl⟩ := List.exists_cons_of_ne_nil some_
      have queued := represents.queued
      have limitIs : b.limit = limit := by rw [represents.limit, limited]; rfl
      have less := represents.isLimit limit limited
      obtain ⟨removed, position⟩ := represents.aligned block rfl
      obtain ⟨whole, within, -⟩ := queued.positions
      have inside : block.readPos < blockSize := by
        by_cases more : rest = []
        · subst more
          have room := packed_singleton.mp queued.packed
          exact room.1.trans_lt room.2
        · exact ((packed_cons more).mp queued.packed).1.1
      have offset : queue.consumed % blockSize = block.readPos := by
        rw [position, Nat.mul_comm, Nat.mul_add_mod, Nat.mod_eq_of_lt inside]
      have blocksAsked : (asks + 1) * blockSize = asks * blockSize + blockSize := Nat.succ_mul ..
      by_cases nothing : queue.content = [] ∨ limit = 0
      · have none_ : min (min limit queue.size)
            ((asks + 1) * blockSize - queue.consumed % blockSize) = 0 := by
          rcases nothing with nil | zero
          · simp [LimitedQueue.size, nil]
          · simp [zero]
        have stops : queue.content = [] ∨ b.limit = 0 := nothing.imp_right fun zero => by
          rw [limitIs, zero]
          rfl
        rw [none_]
        refine ⟨b, [], block :: rest, ?_, some_, by simp, ?_⟩
        · simp only [ChainedBuffer.takeRegions, queued.inputNext_none stops, Option.bind_some]
        · have same : queue.advance 0 = queue := by simp [LimitedQueue.advance]
          rwa [same]
      · rw [not_or] at nothing
        obtain ⟨head, next, between, size, front, run, counted, positive, fits, after, shown,
          consumed, behind, shape⟩ := queued.inputNext nothing.1 (by omega)
        have most : size ≤ limit := by omega
        have long : size ≤ queue.size := fits.trans queued.size_le
        have represents' : next.Represents blockSize between (queue.advance size) := by
          refine ⟨after, consumed.trans (by rw [represents.consumed]; rfl), ?_, ?_, ?_⟩
          · rw [behind, limitBehind, limitIs, if_neg less.ne]
            simp only [LimitedQueue.advance, limited, Option.map_some, limitOf]
            omega
          · simp only [LimitedQueue.advance, limited, Option.map_some, Option.mem_some_iff]
            rintro _ rfl
            omega
          · rcases shape with ⟨rfl, -⟩ | ⟨rfl, ends, more⟩
            · intro moved member
              obtain rfl : _ = moved := by simpa using member
              exact ⟨removed, by simp only [LimitedQueue.advance]; omega⟩
            · have taken : block.size = size := by
                have filled := ((packed_cons more).mp queued.packed).1.2
                omega
              have along := aligned_rest queued represents.aligned
              rwa [taken] at along
        have some' : between ≠ [] := by
          rcases shape with ⟨rfl, -⟩ | ⟨rfl, -, more⟩
          · exact List.cons_ne_nil _ _
          · exact more
        have limited' : (queue.advance size).limit = some (limit - size) := by
          simp [LimitedQueue.advance, limited]
        obtain ⟨final, views, left, runs, kept, seen, ends⟩ := ih represents' some' limited'
        have sizeLeft : (queue.advance size).size = queue.size - size := by
          simp [LimitedQueue.advance, LimitedQueue.size]
        have total : min (min limit queue.size)
            ((asks + 1) * blockSize - queue.consumed % blockSize) =
            size + min (min (limit - size) (queue.advance size).size)
              (asks * blockSize - (queue.advance size).consumed % blockSize) := by
          rw [offset, sizeLeft]
          rcases shape with ⟨rfl, -, last⟩ | ⟨rfl, full, more⟩
          · -- the region ends the bytes or the limit
            have nothingLeft : min (limit - size) (queue.size - size) = 0 := by
              by_cases all : size = block.size
              · have none_ : rest = [] := by
                  by_contra more
                  have filled := ((packed_cons more).mp queued.packed).1.2
                  exact last ⟨by omega, more⟩
                subst none_
                have stored := congrArg List.length queued.stored
                simp only [List.flatMap_cons, List.flatMap_nil, List.append_nil,
                  BufferBlock.length_unread] at stored
                simp only [LimitedQueue.size]
                omega
              · omega
            rw [nothingLeft]
            omega
          · have start : (queue.advance size).consumed % blockSize = 0 := by
              have whole_ : (queue.advance size).consumed = (removed + 1) * blockSize := by
                rw [Nat.succ_mul]
                simp only [LimitedQueue.advance]
                omega
              rw [whole_, Nat.mul_mod_left]
            rw [start]
            omega
        rw [total]
        refine ⟨final, queue.content.take size :: views, left, ?_, kept, ?_, ?_⟩
        · simp only [ChainedBuffer.takeRegions, run, Option.bind_some, runs, Option.map_some,
            Int.toNat_natCast, shown]
        · rw [List.flatten_cons, seen, List.take_add]
          rfl
        · have both : (queue.advance size).advance (min (min (limit - size)
              (queue.advance size).size)
              (asks * blockSize - (queue.advance size).consumed % blockSize)) =
              queue.advance (size + min (min (limit - size) (queue.advance size).size)
                (asks * blockSize - (queue.advance size).consumed % blockSize)) := by
            generalize min (min (limit - size) (queue.advance size).size)
                (asks * blockSize - (queue.advance size).consumed % blockSize) = more
            simp only [LimitedQueue.advance, limited, List.drop_drop, Nat.add_assoc,
              Option.map_some, Nat.sub_sub]
          rwa [both] at ends

/-- A parser that takes everything has asked often enough. -/
theorem takeRegions_of_takeViews {fuel : Nat} {result : ChainedBuffer × List Bytes}
    (run : takeViews blockSize fuel b = some result) :
    ChainedBuffer.takeRegions blockSize fuel b = some result := by
  induction fuel generalizing b result with
  | zero => cases run
  | succ fuel ih =>
      simp only [ChainedBuffer.takeViews, Option.bind_eq_some_iff] at run
      obtain ⟨⟨next, region⟩, taken, run⟩ := run
      simp only [ChainedBuffer.takeRegions, taken, Option.bind_some]
      cases region with
      | none => exact run
      | some region =>
          obtain ⟨⟨final, views⟩, runs, rfl⟩ := Option.map_eq_some_iff.mp run
          simp only [ih runs, Option.map_some]

/-- A buffer without blocks has no region to ask for. -/
theorem parse_of_nil (represents : b.Represents blockSize [] queue) (parser : Bytes → Option β)
    (asks : Nat → Bytes → Nat) : b.parse blockSize parser asks = none := by
  simp only [parse, takeViews, inputNext, represents.queued.holds.pointers_of_nil.1,
    Option.bind_none]

/-- **A parse** under a covered limit does to the buffer what it does to the queue. -/
theorem Represents.parse (represents : b.Represents blockSize blocks queue) (some_ : blocks ≠ [])
    {limit : Nat} (limited : queue.limit = some limit) (covered : limit ≤ queue.size)
    (parser : Bytes → Option β) (asks : Nat → Bytes → Nat) :
    ∃ next left, b.parse blockSize parser asks =
        some ((queue.parse parser (regionBytes blockSize asks)).1, next) ∧ left ≠ [] ∧
      next.Represents blockSize left (queue.parse parser (regionBytes blockSize asks)).2 := by
  have limitIs : b.limit = limit := by rw [represents.limit, limited]; rfl
  have less := represents.isLimit limit limited
  have enough : limit < b.totalSize + 1 := by
    rw [represents.size_eq]
    omega
  obtain ⟨final, views, run, seen, -⟩ :=
    represents.queued.takeViews some_ limitIs less enough
  have window : queue.window = queue.content.take limit := by
    simp only [LimitedQueue.window, limited]
  have long : queue.window.length = min limit queue.size := by
    rw [window, List.length_take]
    rfl
  rw [← window] at seen
  simp only [ChainedBuffer.parse, run, Option.bind_some, seen, LimitedQueue.parse]
  cases parsed : parser queue.window with
  | some value =>
      obtain ⟨same, regions, left, taken, kept, shown, ends⟩ :=
        represents.takeRegions some_ limited (b.totalSize + 1)
      cases (takeRegions_of_takeViews run).symm.trans taken
      have all : min (min limit queue.size)
          ((b.totalSize + 1) * blockSize - queue.consumed % blockSize) = queue.window.length := by
        have lengths := congrArg List.length (seen.symm.trans shown)
        rw [List.length_take] at lengths
        simp only [LimitedQueue.size] at long lengths ⊢
        omega
      rw [all] at ends
      exact ⟨final, left, rfl, kept, ends⟩
  | none =>
      obtain ⟨stopped, regions, left, taken, kept, -, ends⟩ :=
        represents.takeRegions some_ limited (asks queue.consumed queue.window)
      have part : min (min limit queue.size)
          (asks queue.consumed queue.window * blockSize - queue.consumed % blockSize) =
          min (regionBytes blockSize asks queue.consumed queue.window) queue.window.length := by
        simp only [regionBytes, long]
        omega
      rw [part] at ends
      refine ⟨stopped, left, ?_, kept, ends⟩
      simp only [represents.consumed, taken, Option.map_some]

/-! ## `async_read` -/

/-- Both models of the loop find the same bytes and the same end. -/
theorem readLoop_eq {tail : Ptr} {maxsize buffer count total : Nat} {closes : Bool}
    {results : List Net.ReadResult} (answers : Net.Answers maxsize results)
    (run : Net.asyncReadLoop tail b buffer maxsize count results = some (next, total, closes)) :
    Net.readLoop maxsize results = ⟨Net.bytesOf results, closes⟩ := by
  induction results generalizing maxsize b buffer count with
  | nil =>
      cases maxsize with
      | zero =>
          cases run
          rfl
      | succ maxsize => exact answers.elim
  | cons result rest ih =>
      cases maxsize with
      | zero => cases answers
      | succ maxsize =>
          cases result with
          | data bytes =>
              have after := ih answers.2.2 run
              simp only [Net.readLoop, after, Net.bytesOf, List.flatMap_cons]
          | interrupted =>
              have after := ih answers run
              simpa only [Net.readLoop, Net.bytesOf, List.flatMap_cons, List.nil_append] using after
          | eof | again | failed =>
              obtain rfl : rest = [] := answers
              cases run
              rfl

/-- What a call gives are the bytes of its results. -/
theorem bytes_readLoop {maxsize : Nat} {results : List Net.ReadResult}
    (answers : Net.Answers maxsize results) :
    (Net.readLoop maxsize results).bytes = Net.bytesOf results := by
  obtain ⟨closes, run, -⟩ := Net.asyncReadLoop_eq answers 0 (init fun _ _ => 0) 0 0
  rw [readLoop_eq answers run]

/-- A call that finds neither the end of the stream nor an error leaves the connection
open. -/
theorem closes_readLoop {maxsize : Nat} {results : List Net.ReadResult}
    (quiet : ∀ result ∈ results, result ≠ .eof ∧ result ≠ .failed) :
    (Net.readLoop maxsize results).closes = false := by
  induction results generalizing maxsize with
  | nil => cases maxsize <;> rfl
  | cons result rest ih =>
      obtain ⟨first, others⟩ := List.forall_mem_cons.mp quiet
      cases maxsize with
      | zero => rfl
      | succ maxsize =>
          cases result with
          | data bytes | interrupted => exact ih others
          | again => rfl
          | eof => exact absurd rfl first.1
          | failed => exact absurd rfl first.2

/-- Bytes behind the tail leave the head where it is. -/
theorem aligned_of_appended {bytes : Bytes} {consumed : Nat} (holds : b.Holds blocks)
    (some_ : blocks ≠ []) (held : next.Holds left) (appended : Net.Appended b next bytes)
    (aligned : Aligned blockSize blocks consumed) : Aligned blockSize left consumed := by
  obtain ⟨block, rest, rfl⟩ := List.exists_cons_of_ne_nil some_
  have positions := appended.readPos
  rw [Net.readPos_eq holds, Net.readPos_eq held] at positions
  intro head member
  obtain ⟨others, rfl⟩ : ∃ others, left = head :: others := by
    cases left with
    | nil => simp at member
    | cons first others =>
        obtain rfl : first = head := by simpa using member
        exact ⟨others, rfl⟩
  simp only [List.map_cons, List.cons_prefix_cons] at positions
  rw [← positions.1]
  exact aligned block rfl

/-- **`async_read`** appends to the queue what the ideal loop finds in the view. -/
theorem Represents.asyncRead (represents : b.Represents blockSize blocks queue) (closed : Bool)
    {tail : Ptr} {offset maxsize : Nat} {results : List Net.ReadResult}
    (view : b.writeView blockSize = some (tail, offset, maxsize))
    (answers : Net.Answers maxsize results) :
    ∃ next left suspends, Net.asyncRead blockSize b closed results =
        some (next, closed || (Net.readLoop maxsize results).closes, suspends) ∧ left ≠ [] ∧
      next.Represents blockSize left (queue.append (Net.readLoop maxsize results).bytes) := by
  have queued := represents.queued
  rcases List.eq_nil_or_concat' blocks with rfl | ⟨before, last, rfl⟩
  · simp only [ChainedBuffer.writeView, queued.holds.pointers_of_nil.2, reduceCtorEq] at view
  obtain ⟨node, back, same, shows⟩ := queued.writeView
  cases shows.symm.trans view
  obtain ⟨closes, run, fits, -⟩ := Net.asyncReadLoop_eq answers tail b last.writePos 0
  rw [Nat.zero_add] at run
  have found := readLoop_eq answers run
  rw [found]
  have room : Net.TailOpen blockSize (before ++ [last]) :=
    Net.tailOpen_concat.mpr (packed_concat.mp queued.packed).2.2
  have hasRoom : Net.HasRoom blockSize b :=
    ⟨_, queued.holds, fun block member => (queued.sound block member).inRange, room⟩
  have commits := (hasRoom.commit queued.small back).2 (Net.bytesOf results) (by rwa [same])
  rw [same] at commits
  obtain ⟨next, committed, -, appended⟩ := commits
  have ran : ∃ suspends, Net.asyncRead blockSize b closed results =
      some (next, closed || closes, suspends) := by
    simp only [Net.asyncRead, view, Option.bind_some, run, committed, Option.map_some]
    exact ⟨_, rfl⟩
  obtain ⟨suspends, ran⟩ := ran
  by_cases nothing : Net.bytesOf results = []
  · have unchanged : next = b := by
      rw [nothing, fill_nil] at committed
      exact (Option.some.inj committed).symm
    subst unchanged
    refine ⟨next, before ++ [last], suspends, ran, by simp, ?_⟩
    rwa [nothing, LimitedQueue.append_nil]
  · obtain ⟨other, left, also, after, some_, consumed, limit⟩ := queued.commit back nothing fits
    cases committed.symm.trans also
    refine ⟨next, left, suspends, ran, some_, after, consumed.trans represents.consumed,
      limit.trans represents.limit, represents.isLimit, ?_⟩
    exact aligned_of_appended queued.holds (by simp) after.holds appended represents.aligned

/-! ## What the coroutines read -/

/-- `input_stream.read` of a `uint32_t`. -/
def readWord (b : ChainedBuffer) : Option (Option Nat × ChainedBuffer) :=
  (b.read 4).map fun (b, bytes) =>
    (if bytes.length = 0 then none else some (LittleEndian.decode bytes), b)

/-- `input_stream.push_limit` of a `uint32_t`, which an `int` takes. -/
def pushLength (b : ChainedBuffer) (length : Nat) : ChainedBuffer :=
  b.pushLimit (Int.bmod length (2 ^ 32))

theorem Represents.readWord (represents : b.Represents blockSize blocks queue) :
    ∃ next left, b.readWord = some ((Drpc.readWord queue).1, next) ∧
      next.Represents blockSize left (Drpc.readWord queue).2 := by
  obtain ⟨next, left, run, after⟩ := represents.read 4
  refine ⟨next, left, ?_, after⟩
  simp only [ChainedBuffer.readWord, run, Option.map_some, Drpc.readWord]

/-- Code that goes on from a word goes on from the word of the queue. -/
theorem Represents.readWord_map {State : Type} {goOn : Option Nat × ChainedBuffer → State}
    {next : State} (represents : b.Represents blockSize blocks queue)
    (taken : b.readWord.map goOn = some next) :
    ∃ after left, goOn ((Drpc.readWord queue).1, after) = next ∧
      after.Represents blockSize left (Drpc.readWord queue).2 := by
  obtain ⟨after, left, read, represented⟩ := represents.readWord
  rw [read, Option.map_some, Option.some.injEq] at taken
  exact ⟨after, left, taken, represented⟩

theorem Represents.pushLength (represents : b.Represents blockSize blocks queue) {length : Nat}
    (bounded : length < 2 ^ 31 - 1) :
    (b.pushLength length).Represents blockSize blocks (queue.pushLimit length) := by
  have same : Int.bmod (length : Int) (2 ^ 32) = length :=
    Int.bmod_eq_of_le (by omega) (by omega)
  have less : (length : Int) < noLimit := by
    simp only [noLimit]
    omega
  unfold ChainedBuffer.pushLength
  rw [same]
  exact represents.pushLimit less

/-- **A message under its length**: a parse that returns has done to the buffer what it
does to the queue. -/
theorem Represents.parse_length (represents : b.Represents blockSize blocks queue) {length : Nat}
    (bounded : length < 2 ^ 31 - 1) (enough : length ≤ queue.size) {parser : Bytes → Option β}
    {asks : Nat → Bytes → Nat} {result : Option β × ChainedBuffer}
    (run : (b.pushLength length).parse blockSize parser asks = some result) :
    ∃ left, result.1 = ((queue.pushLimit length).parse parser (regionBytes blockSize asks)).1 ∧
      result.2.Represents blockSize left
        ((queue.pushLimit length).parse parser (regionBytes blockSize asks)).2 := by
  have limited := represents.pushLength bounded
  have some_ : blocks ≠ [] := by
    rintro rfl
    rw [parse_of_nil limited] at run
    cases run
  obtain ⟨after, left, also, -, represented⟩ := limited.parse some_ rfl enough parser asks
  cases also.symm.trans run
  exact ⟨left, rfl, represented⟩

end ChainedBuffer

end Drpc.Util
