import Mathlib.Tactic.Common
import Mathlib.Order.MinMax
import Mathlib.Order.Nat
import Mathlib.Data.Nat.Init
import Mathlib.Data.List.Basic

/-! # A FIFO queue with a settable limit

The ideal buffer of a stream parser: elements are appended at the back and taken
from the front, and a limit may hide everything past the next `n` elements from
the parser. The plain `read` does not look at the limit.
-/

/-- A FIFO queue that counts what was taken and may carry a limit; `none` is the
absence of a limit. -/
structure LimitedQueue (α : Type*) where
  content : List α
  consumed : Nat
  limit : Option Nat
  deriving DecidableEq, Repr

namespace LimitedQueue

variable {α β : Type*}

def empty : LimitedQueue α := ⟨[], 0, none⟩

def size (queue : LimitedQueue α) : Nat := queue.content.length

/-- Append at the back. -/
def append (queue : LimitedQueue α) (elements : List α) : LimitedQueue α :=
  { queue with content := queue.content ++ elements }

/-- Take up to `count` elements from the front, whatever the limit. -/
def read (queue : LimitedQueue α) (count : Nat) : List α × LimitedQueue α :=
  (queue.content.take count,
    { queue with
      content := queue.content.drop count
      consumed := queue.consumed + min count queue.content.length })

def pushLimit (queue : LimitedQueue α) (limit : Nat) : LimitedQueue α :=
  { queue with limit := some limit }

def popLimit (queue : LimitedQueue α) : LimitedQueue α := { queue with limit := none }

/-- What a parser can see: the content up to the limit. -/
def window (queue : LimitedQueue α) : List α :=
  match queue.limit with
  | none => queue.content
  | some limit => queue.content.take limit

/-- Take `count` elements the way a parser does, against the limit. -/
def advance (queue : LimitedQueue α) (count : Nat) : LimitedQueue α where
  content := queue.content.drop count
  consumed := queue.consumed + count
  limit := queue.limit.map (· - count)

/-- Run a parser on the window. A parser that succeeds has taken the whole
window; one that fails has taken some front part of it, which `partway` gives
for the position in the stream and the window. -/
def parse (queue : LimitedQueue α) (parser : List α → Option β)
    (partway : Nat → List α → Nat) : Option β × LimitedQueue α :=
  match parser queue.window with
  | some value => (some value, queue.advance queue.window.length)
  | none => (none, queue.advance (min (partway queue.consumed queue.window) queue.window.length))

@[simp] theorem append_content (queue : LimitedQueue α) (elements : List α) :
    (queue.append elements).content = queue.content ++ elements := rfl

@[simp] theorem append_consumed (queue : LimitedQueue α) (elements : List α) :
    (queue.append elements).consumed = queue.consumed := rfl

@[simp] theorem append_limit (queue : LimitedQueue α) (elements : List α) :
    (queue.append elements).limit = queue.limit := rfl

@[simp] theorem size_append (queue : LimitedQueue α) (elements : List α) :
    (queue.append elements).size = queue.size + elements.length := by
  simp [size]

@[simp] theorem append_nil (queue : LimitedQueue α) : queue.append [] = queue := by
  simp [append]

@[simp] theorem append_append (queue : LimitedQueue α) (first second : List α) :
    (queue.append first).append second = queue.append (first ++ second) := by
  simp [append]

/-- Reading what is already there does not depend on what comes after. -/
theorem read_append {queue : LimitedQueue α} {count : Nat} (enough : count ≤ queue.size)
    (more : List α) :
    (queue.append more).read count = ((queue.read count).1, (queue.read count).2.append more) := by
  simp only [size] at enough
  simp only [read, append, List.take_append_of_le_length enough,
    List.drop_append_of_le_length enough, List.length_append, Prod.mk.injEq, mk.injEq, and_true,
    true_and]
  omega

/-- Elements past a limit that is already covered are out of the parser's sight. -/
theorem window_append (queue : LimitedQueue α) {limit : Nat} (limited : queue.limit = some limit)
    (enough : limit ≤ queue.size) (more : List α) :
    (queue.append more).window = queue.window := by
  simp only [window, append, limited]
  exact List.take_append_of_le_length enough

/-- The window of a covered limit is as long as the limit. -/
theorem length_window (queue : LimitedQueue α) {limit : Nat} (limited : queue.limit = some limit)
    (enough : limit ≤ queue.size) : queue.window.length = limit := by
  simp only [window, limited, List.length_take]
  exact min_eq_left enough

/-- Parsing under a covered limit does not depend on what comes after. -/
theorem parse_append (queue : LimitedQueue α) {limit : Nat} (limited : queue.limit = some limit)
    (enough : limit ≤ queue.size) (parser : List α → Option β) (partway : Nat → List α → Nat)
    (more : List α) :
    (queue.append more).parse parser partway =
      ((queue.parse parser partway).1, (queue.parse parser partway).2.append more) := by
  have covered : ∀ count ≤ queue.window.length,
      (queue.append more).advance count = (queue.advance count).append more := by
    intro count small
    rw [length_window queue limited enough] at small
    simp only [advance, append, List.drop_append_of_le_length (small.trans enough)]
  unfold parse
  rw [window_append queue limited enough]
  cases parser queue.window with
  | some value => simp only [covered _ le_rfl]
  | none => simp only [append_consumed, covered _ (min_le_right ..)]

/-- The parser has seen the window. -/
theorem parse_fst (queue : LimitedQueue α) (parser : List α → Option β)
    (partway : Nat → List α → Nat) : (queue.parse parser partway).1 = parser queue.window := by
  unfold parse
  cases parser queue.window <;> rfl

/-- A parser only takes elements away. -/
theorem size_parse_le (queue : LimitedQueue α) (parser : List α → Option β)
    (partway : Nat → List α → Nat) : (queue.parse parser partway).2.size ≤ queue.size := by
  unfold parse
  cases parser queue.window <;> simp [advance, size]

/-- A successful parse under a covered limit takes exactly the limited elements. -/
theorem parse_some (queue : LimitedQueue α) {limit : Nat} {value : β}
    {parser : List α → Option β} (enough : limit ≤ queue.size)
    (parsed : parser (queue.content.take limit) = some value) (partway : Nat → List α → Nat) :
    (queue.pushLimit limit).parse parser partway =
      (some value, ⟨queue.content.drop limit, queue.consumed + limit, some 0⟩) := by
  have same : (queue.pushLimit limit).window = queue.content.take limit := rfl
  have long : (queue.pushLimit limit).window.length = limit :=
    length_window (queue.pushLimit limit) rfl enough
  unfold parse
  rw [long, same, parsed]
  simp only [advance, pushLimit, Option.map_some, Nat.sub_self]

/-- A parser that accepts the elements at the front takes exactly these. -/
theorem parse_front (queue : LimitedQueue α) {front rest : List α} {value : β}
    {parser : List α → Option β} (content : queue.content = front ++ rest)
    (parsed : parser front = some value) (partway : Nat → List α → Nat) :
    (queue.pushLimit front.length).parse parser partway =
      (some value, ⟨rest, queue.consumed + front.length, some 0⟩) := by
  have seen : queue.content.take front.length = front := by rw [content, List.take_left]
  have left : queue.content.drop front.length = rest := by rw [content, List.drop_left]
  rw [parse_some queue (by simp [size, content]) (by rw [seen]; exact parsed), left]

/-- A failed parse leaves a limit behind. -/
theorem parse_none (queue : LimitedQueue α) {limit : Nat} {parser : List α → Option β}
    (failed : parser (queue.content.take limit) = none) (partway : Nat → List α → Nat) :
    ∃ taken left, (queue.pushLimit limit).parse parser partway =
      (none, ⟨queue.content.drop taken, queue.consumed + taken, some left⟩) := by
  have same : (queue.pushLimit limit).window = queue.content.take limit := rfl
  refine ⟨min (partway queue.consumed (queue.pushLimit limit).window)
    (queue.pushLimit limit).window.length, limit - min (partway queue.consumed
      (queue.pushLimit limit).window) (queue.pushLimit limit).window.length, ?_⟩
  unfold parse
  rw [same, failed]
  rfl

end LimitedQueue
