import Mathlib.Data.List.GetD
import Drpc.Net.AsyncRead
import Drpc.Util.BackUp

/-! # Reading until the socket is drained

The socket is watched edge-triggered, so a coroutine that suspends with bytes left in
the socket is not woken for them. `async_read` suspends by the number of bytes it has
read alone, also where its view had no room and it did not call `::read` at all. The
tail of the read buffer has room whenever `async_read` starts, since `commit_resv`
appends a node as soon as the tail is full, so each call hears of the socket
(`reads_drain`).
-/

namespace Drpc.Net

open Transition Util
open ChainedBuffer hiding read

/-- The loop of `Connection::async_read` on the view of `tail`, which goes on at `buffer`;
`none` where the results end before the loop does. -/
def asyncReadLoop (tail : Ptr) :
    ChainedBuffer → Nat → Nat → Nat → List ReadResult → Option (ChainedBuffer × Nat × Bool)
  | b, _, 0, read, _ => some (b, read, false)
  | _, _, _ + 1, _, [] => none
  | b, buffer, maxsize + 1, read, .data bytes :: rest =>
      asyncReadLoop tail (b.fill tail buffer bytes) (buffer + bytes.length)
        (maxsize + 1 - bytes.length) (read + bytes.length) rest
  | b, _, _ + 1, read, .eof :: _ => some (b, read, true)
  | b, _, _ + 1, read, .again :: _ => some (b, read, false)
  | b, buffer, maxsize + 1, read, .interrupted :: rest =>
      asyncReadLoop tail b buffer (maxsize + 1) read rest
  | b, _, _ + 1, read, .failed :: _ => some (b, read, true)

/-- `Connection::async_read`, and whether `ReadAwaiter` suspends the coroutine; with it,
whether the connection is closed. -/
def asyncRead (blockSize : Nat) (b : ChainedBuffer) (closed : Bool) (results : List ReadResult) :
    Option (ChainedBuffer × Bool × Bool) :=
  (b.writeView blockSize).bind fun (tail, buffer, maxsize) =>
    (asyncReadLoop tail b buffer maxsize 0 results).bind fun (b, read, closes) =>
      (b.commitResv blockSize read).map fun b =>
        let closed := closed || closes
        let shouldSuspend := !closed && decide (read ≤ 0)
        (b, closed, !closed && shouldSuspend)

/-- What the calls of `::read` in one `async_read` may give: some bytes, no more than there
is room for, until the view is full or a call ends the loop. -/
def Answers : Nat → List ReadResult → Prop
  | 0, results => results = []
  | _ + 1, [] => False
  | maxsize + 1, .data bytes :: rest =>
      0 < bytes.length ∧ bytes.length ≤ maxsize + 1 ∧ Answers (maxsize + 1 - bytes.length) rest
  | maxsize + 1, .interrupted :: rest => Answers (maxsize + 1) rest
  | _ + 1, .eof :: rest | _ + 1, .again :: rest | _ + 1, .failed :: rest => rest = []

/-- The bytes the calls gave, in order. -/
def bytesOf (results : List ReadResult) : Bytes :=
  results.flatMap fun
    | .data bytes => bytes
    | .eof | .again | .interrupted | .failed => []

/-- The bytes in the blocks of the chain, taken out or not. -/
def written (b : ChainedBuffer) : Bytes :=
  b.nodes.flatMap fun node => (b.block node).bytes 0 (b.block node).writePos

/-- `bytes` were appended, and nothing else was changed. -/
structure Appended (b next : ChainedBuffer) (bytes : Bytes) : Prop where
  written : written next = written b ++ bytes
  readPos : b.nodes.map (fun node => (b.block node).readPos) <+:
    next.nodes.map fun node => (next.block node).readPos
  size : next.totalSize = b.totalSize + bytes.length
  /-- They come behind the unread bytes, where the positions of the blocks are in order. -/
  contents : (∀ node ∈ b.nodes, (b.block node).readPos ≤ (b.block node).writePos) →
    next.contents = b.contents ++ bytes

/-! ## A tail with room -/

/-- The last block has room. -/
def TailOpen (blockSize : Nat) (blocks : List BufferBlock) : Prop :=
  ∀ last ∈ blocks.getLast?, last.writePos < blockSize

variable {blockSize : Nat} {b next : ChainedBuffer} {block last : BufferBlock}
  {blocks before rest : List BufferBlock}

theorem tailOpen_concat : TailOpen blockSize (before ++ [last]) ↔ last.writePos < blockSize := by
  simp [TailOpen]

theorem TailOpen.tail (opened : TailOpen blockSize (block :: rest)) : TailOpen blockSize rest := by
  intro last member
  apply opened last
  have more : rest ≠ [] := by
    intro equal
    subst equal
    simp at member
  rwa [List.getLast?_cons_of_ne_nil more]

theorem TailOpen.head (opened : TailOpen blockSize (block :: rest)) {other : BufferBlock}
    (same : other.writePos = block.writePos) : TailOpen blockSize (other :: rest) := by
  cases rest with
  | nil =>
      rw [← List.nil_append [_], tailOpen_concat] at opened ⊢
      rwa [same]
  | cons second others =>
      intro last member
      rw [List.getLast?_cons_cons] at member
      exact opened last (by rwa [List.getLast?_cons_cons])

/-- The invariant of the read buffer: the tail, when there is one, has room. -/
def HasRoom (blockSize : Nat) (b : ChainedBuffer) : Prop :=
  ∃ blocks, b.Holds blocks ∧ (∀ block ∈ blocks, block.InRange) ∧ TailOpen blockSize blocks

theorem hasRoom_init (memory : Ptr → Nat → UInt8) (positive : 0 < blockSize) :
    HasRoom blockSize (init memory) :=
  ⟨_, holds_init memory, by simp [BufferBlock.InRange], by simpa [TailOpen] using positive⟩

/-- The loop of `read` leaves the room of the tail. -/
theorem readLoop_hasRoom (inRange : ∀ block ∈ blocks, block.InRange)
    (opened : TailOpen blockSize blocks) {fuel length : Nat} {taken bytes : Bytes}
    (holds : b.Holds blocks)
    (run : ChainedBuffer.readLoop fuel b length taken = some (next, bytes)) :
    HasRoom blockSize next := by
  induction blocks generalizing b fuel length taken with
  | nil =>
      have none_ := holds.pointers_of_nil.1
      cases length with
      | zero =>
          unfold ChainedBuffer.readLoop at run
          cases run
          exact ⟨[], holds, inRange, opened⟩
      | succ length =>
          unfold ChainedBuffer.readLoop at run
          rw [none_] at run
          cases run
          exact ⟨[], holds, inRange, opened⟩
  | cons block rest ih =>
      have restRange : ∀ block ∈ rest, block.InRange := fun other member =>
        inRange other (List.mem_cons_of_mem _ member)
      cases length with
      | zero =>
          unfold ChainedBuffer.readLoop at run
          cases run
          exact ⟨_, holds, inRange, opened⟩
      | succ length =>
          cases fuel with
          | zero =>
              obtain ⟨head, front, -⟩ := holds.head
              unfold ChainedBuffer.readLoop at run
              rw [front] at run
              cases run
          | succ fuel =>
              obtain ⟨middle, result, turn, after⟩ := readLoop_turn holds
                (inRange block (List.mem_cons_self ..)) fuel length taken
              rw [turn] at run
              rcases after with ⟨-, held⟩ | ⟨part, after, afterRange, same, held⟩
              · exact ih restRange opened.tail held run
              · have done : length + 1 - min (length + 1) block.size = 0 := by omega
                rw [done] at run
                unfold ChainedBuffer.readLoop at run
                cases run
                exact ⟨after :: rest, held, by simpa using ⟨afterRange, restRange⟩,
                  opened.head same⟩

/-- **Each operation** between two reads leaves the room of the tail. -/
theorem HasRoom.consume (hasRoom : HasRoom blockSize b) {op : ParseOp}
    (consumes : ∀ bytes, op ≠ .receive (.commit bytes))
    (run : op.run blockSize b = some next) : HasRoom blockSize next := by
  obtain ⟨blocks, holds, inRange, opened⟩ := hasRoom
  cases op with
  | receive op =>
      cases op with
      | commit bytes => exact absurd rfl (consumes bytes)
      | read length =>
          obtain ⟨⟨after, bytes⟩, taken, rfl⟩ := Option.map_eq_some_iff.mp run
          exact readLoop_hasRoom inRange opened holds taken
      | pushLimit limit =>
          cases run
          exact ⟨blocks, holds.congr rfl rfl rfl rfl rfl, inRange, opened⟩
      | popLimit =>
          cases run
          exact ⟨blocks, holds.congr rfl rfl rfl rfl rfl, inRange, opened⟩
      | inputNext =>
          cases blocks with
          | nil =>
              simp only [ParseOp.run, ReceiveOp.run, inputNext, holds.pointers_of_nil.1,
                Option.map_none, reduceCtorEq] at run
          | cons block rest =>
              obtain ⟨blockRange, restRange⟩ := List.forall_mem_cons.mp inRange
              obtain ⟨⟨after, region⟩, taken, rfl⟩ := Option.map_eq_some_iff.mp run
              obtain ⟨shown, region, given, moved⟩ := inputNext_holds holds blockRange blockSize
              cases given.symm.trans taken
              rcases moved with ⟨-, held⟩ | ⟨moved, movedRange, same, held⟩
              · exact ⟨rest, held, restRange, opened.tail⟩
              · exact ⟨moved :: rest, held, List.forall_mem_cons.mpr ⟨movedRange, restRange⟩,
                  opened.head same⟩
  | backUp n =>
      cases blocks with
      | nil =>
          simp only [ParseOp.run, inputBackUp, holds.pointers_of_nil.1, reduceCtorEq] at run
      | cons block rest =>
          obtain ⟨head, front, same, -, update⟩ := holds.head
          obtain ⟨blockRange, restRange⟩ := List.forall_mem_cons.mp inRange
          set count := min n (Int.bmod block.readPos (2 ^ 32)) with counted
          set given : BufferBlock := { block with readPos := wrapAdd block.readPos (-count) }
          have givenRange : given.InRange := blockRange.moveReadPos block.readPos (-count)
          have gives : b.inputBackUp n = some { b.setBlock head given with
              totalSize := sizeAdd b.totalSize count
              limit := if b.limit = noLimit then b.limit else b.limit + count
              consumedBytes := sizeAdd b.consumedBytes (-count) } := by
            simp only [inputBackUp, front, same, ← counted]
            rfl
          cases gives.symm.trans run
          exact ⟨given :: rest, (update given).congr rfl rfl rfl rfl rfl,
            List.forall_mem_cons.mpr ⟨givenRange, restRange⟩, opened.head rfl⟩

/-! ## One call of `async_read` -/

/-- Bytes placed behind each other. -/
theorem fill_fill (b : ChainedBuffer) (node : Ptr) (offset : Nat) (first second : Bytes) :
    (b.fill node offset first).fill node (offset + first.length) second =
      b.fill node offset (first ++ second) := by
  have stores : ((b.block node).store offset first).store (offset + first.length) second =
      (b.block node).store offset (first ++ second) := by
    simp only [BufferBlock.store, BufferBlock.mk.injEq, and_true]
    funext index
    rw [List.length_append]
    by_cases second_ : offset + first.length ≤ index ∧
        index < offset + first.length + second.length
    · have behind : first.length ≤ index - offset := by omega
      have both : offset ≤ index ∧ index < offset + (first.length + second.length) := by omega
      have shift : index - (offset + first.length) = index - offset - first.length := by omega
      rw [if_pos second_, if_pos both, List.getD_append_right _ _ _ _ behind, shift]
    · rw [if_neg second_]
      by_cases first_ : offset ≤ index ∧ index < offset + first.length
      · have before : index - offset < first.length := by omega
        have both : offset ≤ index ∧ index < offset + (first.length + second.length) := by omega
        rw [if_pos first_, if_pos both, List.getD_append _ _ _ _ before]
      · have neither : ¬ (offset ≤ index ∧ index < offset + (first.length + second.length)) := by
          omega
        rw [if_neg first_, if_neg neither]
  simp only [fill, block_setBlock_self, setBlock_setBlock, stores]

/-- The loop places the bytes it was given in the view, and it ends as its last call says. -/
theorem asyncReadLoop_eq {maxsize : Nat} {results : List ReadResult}
    (answers : Answers maxsize results) (tail : Ptr) (b : ChainedBuffer) (buffer count : Nat) :
    ∃ closes, asyncReadLoop tail b buffer maxsize count results =
        some (b.fill tail buffer (bytesOf results), count + (bytesOf results).length, closes) ∧
      (bytesOf results).length ≤ maxsize ∧
      (0 < maxsize → closes = false → bytesOf results = [] → results.getLast? = some .again) := by
  induction results generalizing maxsize b buffer count with
  | nil =>
      cases maxsize with
      | zero =>
          exact ⟨false, by simp [asyncReadLoop, bytesOf, fill_nil], by simp [bytesOf], by simp⟩
      | succ maxsize => exact answers.elim
  | cons result rest ih =>
      cases maxsize with
      | zero => cases answers
      | succ maxsize =>
          cases result with
          | data bytes =>
              obtain ⟨some_, fits, others⟩ := answers
              obtain ⟨closes, run, short, -⟩ :=
                ih others (b.fill tail buffer bytes) (buffer + bytes.length) (count + bytes.length)
              have whole : bytesOf (.data bytes :: rest) = bytes ++ bytesOf rest := rfl
              refine ⟨closes, ?_, ?_, ?_⟩
              · rw [asyncReadLoop, run, fill_fill, whole, List.length_append, Nat.add_assoc]
              · rw [whole, List.length_append]
                omega
              · intro _ _ nothing
                rw [whole, List.append_eq_nil_iff] at nothing
                rw [nothing.1] at some_
                exact absurd some_ (Nat.lt_irrefl 0)
          | interrupted =>
              have some_ : rest ≠ [] := by
                intro equal
                subst equal
                exact answers.elim
              obtain ⟨closes, run, short, last⟩ := ih answers b buffer count
              refine ⟨closes, run, short, ?_⟩
              rwa [List.getLast?_cons_of_ne_nil some_]
          | eof =>
              obtain rfl : rest = [] := answers
              exact ⟨true, by simp [asyncReadLoop, bytesOf, fill_nil], by simp [bytesOf], by simp⟩
          | again =>
              obtain rfl : rest = [] := answers
              exact ⟨false, by simp [asyncReadLoop, bytesOf, fill_nil], by simp [bytesOf], by simp⟩
          | failed =>
              obtain rfl : rest = [] := answers
              exact ⟨true, by simp [asyncReadLoop, bytesOf, fill_nil], by simp [bytesOf], by simp⟩

theorem written_eq (holds : b.Holds blocks) :
    written b = blocks.flatMap fun block => block.bytes 0 block.writePos := by
  rw [← holds.map_nodes, List.flatMap_map]
  rfl

theorem readPos_eq (holds : b.Holds blocks) :
    (b.nodes.map fun node => (b.block node).readPos) = blocks.map BufferBlock.readPos := by
  rw [← holds.map_nodes, List.map_map]
  rfl

/-- Bytes are appended when the block of the tail takes them, whether or not an empty block
is put behind it. -/
theorem appended_of_holds (small : blockSize < 2 ^ 31) (holds : b.Holds (before ++ [last]))
    {bytes : Bytes} {blanks : List BufferBlock} (fits : last.writePos + bytes.length ≤ blockSize)
    (held : next.Holds (before ++ [last.commit bytes] ++ blanks))
    (blank : ∀ block ∈ blanks, block.readPos = 0 ∧ block.writePos = 0)
    (size : next.totalSize = b.totalSize + bytes.length) : Appended b next bytes := by
  have position : wrapAdd last.writePos bytes.length = last.writePos + bytes.length :=
    wrapAdd_natCast (by omega)
  have empty : blanks.flatMap (fun block => block.bytes 0 block.writePos) = [] := by
    refine List.flatMap_eq_nil_iff.mpr fun block member => ?_
    rw [(blank block member).2]
    rfl
  have unread : blanks.flatMap BufferBlock.unread = [] :=
    List.flatMap_eq_nil_iff.mpr fun block member =>
      BufferBlock.unread_of_blank (blank block member).1 (blank block member).2
  refine ⟨?_, ?_, size, fun ordered => ?_⟩
  · have committed : (last.commit bytes).bytes 0 (last.commit bytes).writePos =
        last.bytes 0 last.writePos ++ bytes := by
      change (last.store last.writePos bytes).bytes 0 (wrapAdd last.writePos bytes.length) = _
      rw [position, BufferBlock.bytes_add, BufferBlock.bytes_store_of_le last bytes (by omega),
        Nat.zero_add, BufferBlock.bytes_store]
    rw [written_eq held, written_eq holds, List.flatMap_append, empty, List.append_nil,
      List.flatMap_append, List.flatMap_append, List.flatMap_singleton, committed,
      List.flatMap_singleton, List.append_assoc]
  · rw [readPos_eq held, readPos_eq holds, List.map_append, List.map_append, List.map_append]
    exact List.prefix_append ..
  · have inOrder : last.readPos ≤ last.writePos := by
      have all : ∀ block ∈ b.nodes.map b.block, block.readPos ≤ block.writePos := by
        simpa using ordered
      rw [holds.map_nodes] at all
      exact all last (by simp)
    have sound : last.Sound blockSize := ⟨inOrder, by omega, small⟩
    obtain ⟨-, -, appended⟩ := BufferBlock.commit_spec sound fits
    rw [held.contents_eq, holds.contents_eq, List.flatMap_append, unread, List.append_nil,
      List.flatMap_append, List.flatMap_append, List.flatMap_singleton, appended,
      List.flatMap_singleton, List.append_assoc]

/-- The tail has room, and what is placed there is appended. -/
theorem HasRoom.commit (hasRoom : HasRoom blockSize b) (small : blockSize < 2 ^ 31) {tail : Ptr}
    (back : b.tail = some tail) :
    (b.block tail).writePos < blockSize ∧
      ∀ bytes : Bytes, bytes.length ≤ blockSize - (b.block tail).writePos →
        ∃ next, (b.fill tail (b.block tail).writePos bytes).commitResv blockSize bytes.length =
          some next ∧ HasRoom blockSize next ∧ Appended b next bytes := by
  obtain ⟨blocks, holds, inRange, opened⟩ := hasRoom
  rcases List.eq_nil_or_concat' blocks with rfl | ⟨before, last, rfl⟩
  · rw [holds.pointers_of_nil.2] at back
    cases back
  obtain ⟨node, found, rfl, update⟩ := holds.tail
  obtain rfl : tail = node := Option.some.inj (back.symm.trans found)
  have room := tailOpen_concat.mp opened
  refine ⟨room, fun bytes fits => ?_⟩
  have reaches : (b.block tail).writePos + bytes.length ≤ blockSize := by omega
  have position : wrapAdd (b.block tail).writePos bytes.length =
      (b.block tail).writePos + bytes.length := wrapAdd_natCast (by omega)
  have held : (b.commitTail tail bytes).Holds (before ++ [(b.block tail).commit bytes]) :=
    (update _).congr rfl rfl rfl rfl rfl
  by_cases some_ : bytes = []
  · subst some_
    refine ⟨b, ?_, ⟨_, holds, inRange, opened⟩, ⟨by simp, List.prefix_rfl, rfl, by simp⟩⟩
    rw [fill_nil]
    rfl
  · have lastRange := inRange (b.block tail) (by simp)
    have tailRange : ((b.block tail).commit bytes).InRange := by
      apply And.intro lastRange.1
      change wrapAdd (b.block tail).writePos bytes.length < 2 ^ 64
      exact wrapAdd_lt ..
    have ranges : ∀ block ∈ before ++ [(b.block tail).commit bytes], block.InRange := by
      refine List.forall_mem_append.mpr ⟨fun block member => ?_, by simpa using tailRange⟩
      exact inRange block (List.mem_append_left _ member)
    rw [commitResv_fill back some_]
    split
    next full =>
      obtain ⟨new, readPos, writePos, longer, -⟩ := held.appendNode
      refine ⟨_, rfl, ⟨_, longer, ?_, tailOpen_concat.mpr (by omega)⟩,
        appended_of_holds small holds reaches longer ?_ ?_⟩
      · refine List.forall_mem_append.mpr ⟨ranges, ?_⟩
        simp [BufferBlock.InRange, readPos, writePos]
      · simpa using ⟨readPos, writePos⟩
      · rw [totalSize_appendNode]
        rfl
    next notFull =>
      have less : ((b.block tail).commit bytes).writePos ≠ blockSize := fun is =>
        notFull (BufferBlock.full_iff.mpr is)
      have moved : ((b.block tail).commit bytes).writePos =
          (b.block tail).writePos + bytes.length := position
      refine ⟨_, rfl, ⟨_, held, ranges, tailOpen_concat.mpr (by omega)⟩, ?_⟩
      exact appended_of_holds small holds reaches (by rwa [List.append_nil]) (by simp) rfl

/-- The view of the tail offers the room it has. -/
theorem HasRoom.writeView (hasRoom : HasRoom blockSize b) (small : blockSize < 2 ^ 31) {tail : Ptr}
    (back : b.tail = some tail) : (b.block tail).full blockSize = false ∧
      b.writeView blockSize =
        some (tail, (b.block tail).writePos, blockSize - (b.block tail).writePos) := by
  obtain ⟨room, -⟩ := hasRoom.commit small back
  have notFull : (b.block tail).full blockSize = false := by
    simp only [BufferBlock.full, decide_eq_false_iff_not]
    omega
  have space : wrapSub blockSize (b.block tail).writePos = blockSize - (b.block tail).writePos :=
    wrapSub_of_le room.le (by omega)
  refine ⟨notFull, ?_⟩
  simp only [ChainedBuffer.writeView, back, BufferBlock.writeView, notFull, Bool.false_eq_true,
    ↓reduceIte, space]

theorem HasRoom.answers (hasRoom : HasRoom blockSize b) (small : blockSize < 2 ^ 31) {tail : Ptr}
    {offset maxsize : Nat} {results : List ReadResult}
    (view : b.writeView blockSize = some (tail, offset, maxsize))
    (answers : Answers maxsize results) :
    b.tail = some tail ∧ Answers (blockSize - (b.block tail).writePos) results := by
  cases back : b.tail with
  | none =>
      simp only [ChainedBuffer.writeView, back, reduceCtorEq] at view
  | some node =>
      cases (hasRoom.writeView small back).2.symm.trans view
      exact ⟨rfl, answers⟩

/-- **`async_read`** appends what `::read` gave, and suspends only an open connection for
which `::read` had nothing. -/
theorem HasRoom.asyncRead (hasRoom : HasRoom blockSize b) (small : blockSize < 2 ^ 31) {tail : Ptr}
    (back : b.tail = some tail) (closed : Bool) {results : List ReadResult}
    (answers : Answers (blockSize - (b.block tail).writePos) results) :
    ∃ next closes suspends, asyncRead blockSize b closed results =
        some (next, closed || closes, suspends) ∧
      HasRoom blockSize next ∧ Appended b next (bytesOf results) ∧
      (suspends = true → closed = false ∧ closes = false ∧ bytesOf results = [] ∧
        results.getLast? = some .again) := by
  obtain ⟨room, commits⟩ := hasRoom.commit small back
  obtain ⟨closes, run, fits, last⟩ :=
    asyncReadLoop_eq answers tail b (b.block tail).writePos 0
  obtain ⟨next, committed, kept, appended⟩ := commits _ fits
  obtain ⟨-, view⟩ := hasRoom.writeView small back
  rw [Nat.zero_add] at run
  refine ⟨next, closes, !(closed || closes) && (!(closed || closes) &&
    decide ((bytesOf results).length ≤ 0)), ?_, kept, appended, ?_⟩
  · simp only [Net.asyncRead, view, Option.bind_some, run, committed, Option.map_some]
  · intro suspends
    simp only [Bool.not_or, Bool.and_eq_true, Bool.not_eq_true', decide_eq_true_eq,
      Nat.le_zero, List.length_eq_zero_iff] at suspends
    obtain ⟨⟨open_, stays⟩, -, nothing⟩ := suspends
    exact ⟨open_, stays, nothing, last (by omega) stays nothing⟩

/-! ## Runs of the coroutine on a socket -/

/-- The receiving coroutine and its socket. -/
structure Reading where
  buffer : ChainedBuffer
  closed : Bool
  /-- The coroutine is suspended in `ReadAwaiter`. -/
  suspended : Bool
  /-- What has arrived and was not read. -/
  socket : Bytes
  /-- What the last call of `::read` left in the socket. -/
  left : Bytes

def Reading.init (memory : Ptr → Nat → UInt8) : Reading := ⟨.init memory, false, false, [], []⟩

inductive ReadStep where
  | arrive (bytes : Bytes)
  /-- The coroutine takes something out of the buffer between two of its waits. -/
  | consume (op : ParseOp)
  /-- One `async_read`: what arrives before each call of `::read`, and what that gives. -/
  | asyncRead (calls : List (Bytes × ReadResult))
  /-- The event loop or the user closes the connection. -/
  | close
  /-- The event loop resumes the coroutine. -/
  | resume

/-- The socket through the calls: `::read` gives bytes from the front, and `EAGAIN` or the
end of the stream when there are none. -/
def drain : Bytes → List (Bytes × ReadResult) → Option Bytes
  | socket, [] => some socket
  | socket, (arrived, .data bytes) :: rest =>
      if bytes <+: socket ++ arrived then drain ((socket ++ arrived).drop bytes.length) rest
      else none
  | socket, (arrived, .again) :: rest | socket, (arrived, .eof) :: rest =>
      if socket ++ arrived = [] then drain [] rest else none
  | socket, (arrived, .interrupted) :: rest | socket, (arrived, .failed) :: rest =>
      drain (socket ++ arrived) rest

instance decidableAnswers : ∀ maxsize results, Decidable (Answers maxsize results)
  | 0, results => decidable_of_iff (results = []) (by cases results <;> simp [Answers])
  | _ + 1, [] => .isFalse id
  | maxsize + 1, .data bytes :: rest =>
      have := decidableAnswers (maxsize + 1 - bytes.length) rest
      inferInstanceAs (Decidable (0 < bytes.length ∧ bytes.length ≤ maxsize + 1 ∧
        Answers (maxsize + 1 - bytes.length) rest))
  | maxsize + 1, .interrupted :: rest => decidableAnswers (maxsize + 1) rest
  | _ + 1, .eof :: rest | _ + 1, .again :: rest | _ + 1, .failed :: rest =>
      inferInstanceAs (Decidable (rest = []))

/-- Only `async_read` commits. -/
def commits : ParseOp → Bool
  | .receive (.commit _) => true
  | _ => false

/-- One step; it is `none` where it is not enabled, or the source dereferences a null
pointer. -/
def Reading.step (blockSize : Nat) (s : Reading) : ReadStep → Option Reading
  | .arrive bytes => some { s with socket := s.socket ++ bytes }
  | .consume op =>
      if s.suspended ∨ commits op then none
      else (op.run blockSize s.buffer).map fun buffer => { s with buffer }
  | .asyncRead calls =>
      (s.buffer.writeView blockSize).bind fun (_, _, maxsize) =>
        if s.suspended ∨ ¬ Answers maxsize (calls.map Prod.snd) then none
        else
          (drain s.socket calls).bind fun socket =>
            (asyncRead blockSize s.buffer s.closed (calls.map Prod.snd)).map
              fun (buffer, closed, suspended) =>
                { buffer, closed, suspended, socket
                  left := if calls = [] then s.left else socket }
  | .close => some { s with closed := true }
  | .resume => some { s with suspended := false }

/-- The socket is empty behind calls of which the last finds nothing. -/
theorem drain_of_again {socket left : Bytes} {calls : List (Bytes × ReadResult)}
    (drains : drain socket calls = some left)
    (last : (calls.map Prod.snd).getLast? = some .again) : left = [] := by
  induction calls generalizing socket with
  | nil => cases last
  | cons call rest ih =>
      obtain ⟨arrived, result⟩ := call
      by_cases final : rest = []
      · subst final
        obtain rfl : result = .again := Option.some.inj last
        simp only [drain] at drains
        split at drains
        · cases drains
          rfl
        · cases drains
      · have later : (rest.map Prod.snd).getLast? = some .again := by
          rwa [List.map_cons, List.getLast?_cons_of_ne_nil (by simpa using final)] at last
        cases result with
        | data bytes =>
            simp only [drain] at drains
            split at drains
            · exact ih drains later
            · cases drains
        | again | eof =>
            simp only [drain] at drains
            split at drains
            · exact ih drains later
            · cases drains
        | interrupted | failed => exact ih drains later

structure Reading.Inv (blockSize : Nat) (s : Reading) : Prop where
  hasRoom : HasRoom blockSize s.buffer
  drained : s.suspended = true → s.left = []

theorem Reading.inv_init (memory : Ptr → Nat → UInt8) (positive : 0 < blockSize) :
    (Reading.init memory).Inv blockSize where
  hasRoom := hasRoom_init memory positive
  drained := nofun

/-- **One step** keeps the invariant. -/
theorem Reading.Inv.step {s next : Reading} (inv : s.Inv blockSize) (small : blockSize < 2 ^ 31)
    {label : ReadStep} (taken : s.step blockSize label = some next) : next.Inv blockSize := by
  obtain ⟨hasRoom, drained⟩ := inv
  cases label with
  | arrive bytes =>
      cases taken
      exact ⟨hasRoom, drained⟩
  | consume op =>
      simp only [Reading.step] at taken
      split at taken
      next => cases taken
      next runs =>
        rw [not_or] at runs
        obtain ⟨buffer, ran, rfl⟩ := Option.map_eq_some_iff.mp taken
        have consumes : ∀ bytes, op ≠ .receive (.commit bytes) := by
          intro bytes equal
          subst equal
          exact runs.2 rfl
        exact ⟨hasRoom.consume consumes ran, fun suspended => absurd suspended runs.1⟩
  | asyncRead calls =>
      obtain ⟨⟨tail, offset, maxsize⟩, view, taken⟩ := Option.bind_eq_some_iff.mp taken
      dsimp only at taken
      split at taken
      next => cases taken
      next runs =>
        obtain ⟨socket, drains, taken⟩ := Option.bind_eq_some_iff.mp taken
        obtain ⟨⟨buffer, closed, suspends⟩, read, rfl⟩ := Option.map_eq_some_iff.mp taken
        rw [not_or, not_not] at runs
        obtain ⟨back, answers⟩ := hasRoom.answers small view runs.2
        obtain ⟨after, closes, waits, run, kept, appended, last⟩ :=
          hasRoom.asyncRead small back s.closed answers
        cases run.symm.trans read
        refine ⟨kept, fun suspended => ?_⟩
        obtain ⟨-, -, -, again⟩ := last suspended
        have called : calls ≠ [] := by
          intro equal
          subst equal
          cases again
        simp only [called, ↓reduceIte]
        exact drain_of_again drains again
  | close =>
      cases taken
      exact ⟨hasRoom, drained⟩
  | resume =>
      cases taken
      exact ⟨hasRoom, nofun⟩

/-- **Reading never suspends with unread data.** In every run of the receiving coroutine
on its socket, whatever arrives when: while the coroutine is suspended, the last call of
`::read` had left nothing in the socket. The tail of the buffer is not full, and
`async_read` appends what `::read` gives; it suspends only an open connection, when it
has read nothing and the last call of `::read` gave `EAGAIN`. -/
theorem reads_drain (memory : Ptr → Nat → UInt8) (labels : List ReadStep) (s : Reading)
    (run : exec (Reading.step 4096) (.init memory) labels = some s) :
    (s.suspended = true → s.left = []) ∧
      ∀ tail, s.buffer.tail = some tail → (s.buffer.block tail).full 4096 = false ∧
        ∀ offset maxsize, s.buffer.writeView 4096 = some (tail, offset, maxsize) →
          ∀ results, Answers maxsize results →
            ∃ next closed suspends,
              asyncRead 4096 s.buffer s.closed results = some (next, closed, suspends) ∧
              Appended s.buffer next (bytesOf results) ∧
              (suspends = true → closed = false ∧ bytesOf results = [] ∧
                results.getLast? = some .again) := by
  obtain ⟨hasRoom, drained⟩ := exec_invariant
    (fun _ _ _ inv _ taken => Reading.Inv.step inv (by decide) taken)
    (Reading.inv_init memory (by decide)) run
    (along_of_forall_mem (fun _ _ => trivial) _)
  refine ⟨drained, fun tail back => ⟨(hasRoom.writeView (by decide) back).1, ?_⟩⟩
  intro offset maxsize view results answers
  obtain ⟨-, answers⟩ := hasRoom.answers (by decide) view answers
  obtain ⟨next, closes, suspends, read, -, appended, last⟩ :=
    hasRoom.asyncRead (by decide) back s.closed answers
  refine ⟨next, s.closed || closes, suspends, read, appended, fun suspended => ?_⟩
  obtain ⟨open_, stays, nothing, again⟩ := last suspended
  rw [open_, stays]
  exact ⟨rfl, nothing, again⟩

/-- Three bytes are read in two calls; the next `async_read` finds nothing and suspends. -/
theorem reads_drain_of_three :
    ∃ s, exec (Reading.step 4096) (.init fun _ _ => 0)
        [.arrive [7, 8], .asyncRead [([], .data [7]), ([9], .data [8, 9]), ([], .again)],
          .asyncRead [([], .interrupted), ([], .again)]] = some s ∧
      s.suspended = true ∧ s.left = [] := by
  obtain ⟨s, run⟩ : ∃ s, exec (Reading.step 4096) (.init fun _ _ => 0)
      [.arrive [7, 8], .asyncRead [([], .data [7]), ([9], .data [8, 9]), ([], .again)],
        .asyncRead [([], .interrupted), ([], .again)]] = some s :=
    Option.isSome_iff_exists.mp (by decide +kernel)
  have suspends : ∀ s ∈ exec (Reading.step 4096) (.init fun _ _ => 0)
      [.arrive [7, 8], .asyncRead [([], .data [7]), ([9], .data [8, 9]), ([], .again)],
        .asyncRead [([], .interrupted), ([], .again)]], s.suspended = true := by
    decide +kernel
  exact ⟨s, run, suspends s run, (reads_drain (fun _ _ => 0) _ s run).1 (suspends s run)⟩

end Drpc.Net
