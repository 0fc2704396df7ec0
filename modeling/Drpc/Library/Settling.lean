import Mathlib.Tactic.Common
import Mathlib.Order.MinMax
import Mathlib.Order.Nat
import Mathlib.Data.Nat.Init

/-! # Consumers that run until they wait

A consumer is a partial function `advance`: the next state, or `none` when it
waits for its environment. When a rank falls with every advance, `settle` runs
the consumer until it waits. An outside change that commutes with `advance`
(more input, for instance) may be made before or after settling
(`settle_comm`), so cutting the input into pieces does not matter.
-/

namespace Settling

variable {State : Type*}

/-- At most `fuel` advances. -/
def iterate (advance : State → Option State) : Nat → State → State
  | 0, state => state
  | fuel + 1, state =>
      match advance state with
      | none => state
      | some next => iterate advance fuel next

/-- The rank bounds the number of advances a consumer can make. -/
def Ranked (advance : State → Option State) (rank : State → Nat) : Prop :=
  ∀ state next, advance state = some next → rank next < rank state

/-- Advance until the consumer waits. -/
def settle (advance : State → Option State) (rank : State → Nat) (state : State) : State :=
  iterate advance (rank state) state

variable {advance : State → Option State} {rank : State → Nat}

theorem iterate_of_none {state : State} (waiting : advance state = none) (fuel : Nat) :
    iterate advance fuel state = state := by
  cases fuel with
  | zero => rfl
  | succ fuel => simp only [iterate, waiting]

theorem settle_of_none {state : State} (waiting : advance state = none) :
    settle advance rank state = state :=
  iterate_of_none waiting _

/-- Fuel beyond the rank is not used. -/
private theorem iterate_enough (ranked : Ranked advance rank) {state : State} {fuel : Nat}
    (enough : rank state ≤ fuel) :
    iterate advance fuel state = settle advance rank state := by
  have agree : ∀ (bound : Nat) (state : State) (first second : Nat), rank state ≤ bound →
      rank state ≤ first → rank state ≤ second →
        iterate advance first state = iterate advance second state := by
    intro bound
    induction bound with
    | zero =>
        intro state first second bounded _ _
        have waiting : advance state = none := by
          cases taken : advance state with
          | none => rfl
          | some next =>
              have falls := ranked state next taken
              omega
        rw [iterate_of_none waiting, iterate_of_none waiting]
    | succ bound ih =>
        intro state first second bounded firstEnough secondEnough
        cases taken : advance state with
        | none => rw [iterate_of_none taken, iterate_of_none taken]
        | some next =>
            have falls := ranked state next taken
            obtain ⟨first, rfl⟩ : ∃ fuel, first = fuel + 1 := ⟨first - 1, by omega⟩
            obtain ⟨second, rfl⟩ : ∃ fuel, second = fuel + 1 := ⟨second - 1, by omega⟩
            simp only [iterate, taken]
            exact ih next first second (by omega) (by omega) (by omega)
  exact agree (rank state) state fuel (rank state) le_rfl enough le_rfl

/-- Settling after one advance is settling. -/
theorem settle_of_some (ranked : Ranked advance rank) {state next : State}
    (taken : advance state = some next) :
    settle advance rank state = settle advance rank next := by
  have falls := ranked state next taken
  obtain ⟨fuel, fuelEq⟩ : ∃ fuel, rank state = fuel + 1 := ⟨rank state - 1, by omega⟩
  rw [settle, fuelEq]
  simp only [iterate, taken]
  exact iterate_enough ranked (by omega)

/-- **Induction along a settling consumer**: over the advances it makes, ending
where it waits. -/
theorem settle_induction (ranked : Ranked advance rank) {motive : State → Prop}
    (waits : ∀ state, advance state = none → motive state)
    (advances : ∀ state next, advance state = some next → motive next → motive state)
    (state : State) : motive state := by
  induction bound : rank state using Nat.strong_induction_on generalizing state with
  | _ bound ih =>
      cases taken : advance state with
      | none => exact waits state taken
      | some next =>
          exact advances state next taken
            (ih (rank next) (bound ▸ ranked state next taken) next rfl)

/-- A settled consumer waits. -/
theorem advance_settle (ranked : Ranked advance rank) (state : State) :
    advance (settle advance rank state) = none := by
  induction state using settle_induction ranked with
  | waits state waiting => rwa [settle_of_none waiting]
  | advances state next taken ih => rwa [settle_of_some ranked taken]

/-- What every advance preserves, settling preserves. -/
theorem settle_invariant (ranked : Ranked advance rank) {Inv : State → Prop}
    (preserved : ∀ state next, Inv state → advance state = some next → Inv next)
    (state : State) (start : Inv state) : Inv (settle advance rank state) := by
  induction state using settle_induction ranked with
  | waits state waiting => rwa [settle_of_none waiting]
  | advances state next taken ih =>
      rw [settle_of_some ranked taken]
      exact ih (preserved state next start taken)

/-- **Settling first makes no difference** to a change that commutes with every
advance from a state of the kind `Inv`. -/
theorem settle_comm (ranked : Ranked advance rank) {Inv : State → Prop}
    (preserved : ∀ state next, Inv state → advance state = some next → Inv next)
    (change : State → State)
    (commutes : ∀ state next, Inv state → advance state = some next →
      advance (change state) = some (change next))
    (state : State) (start : Inv state) :
    settle advance rank (change (settle advance rank state)) =
      settle advance rank (change state) := by
  induction state using settle_induction ranked with
  | waits state waiting => rw [settle_of_none waiting]
  | advances state next taken ih =>
      rw [settle_of_some ranked taken, ih (preserved state next start taken),
        settle_of_some ranked (commutes state next start taken)]

/-! ## Feeding a consumer piece by piece -/

variable {Piece View : Type*}

/-- Each piece of input that closes the input is followed by silent pieces only. -/
def Ends (closing silent : Piece → Prop) : List Piece → Prop
  | [] => True
  | piece :: rest =>
      (closing piece → ∀ later ∈ rest, silent later) ∧ Ends closing silent rest

theorem ends_iff_pairwise {closing silent : Piece → Prop} {pieces : List Piece} :
    Ends closing silent pieces ↔
      pieces.Pairwise fun first later => closing first → silent later := by
  induction pieces with
  | nil => exact iff_of_true trivial List.Pairwise.nil
  | cons piece rest ih =>
      rw [Ends, ih, List.pairwise_cons]
      exact and_congr_left fun _ =>
        ⟨fun silent later member closes => silent closes later member,
          fun silent closes later member => silent later member closes⟩

/-- What follows a closing piece is silent. -/
theorem Ends.silent {closing silent : Piece → Prop} {first second : List Piece}
    (ends : Ends closing silent (first ++ second)) (closed : ∃ piece ∈ first, closing piece) :
    ∀ later ∈ second, silent later := by
  obtain ⟨piece, member, closes⟩ := closed
  obtain ⟨-, -, between⟩ := List.pairwise_append.mp (ends_iff_pairwise.mp ends)
  exact fun later memberLater => between piece member later memberLater closes

/-- A piece of input, and what the consumer does with it until it waits again. A
consumer that has ended takes no more input. -/
def feed (advance : State → Option State) (rank : State → Nat) (Ended : State → Prop)
    [DecidablePred Ended] (change : State → Piece → State) (state : State) (piece : Piece) :
    State :=
  if Ended state then state else settle advance rank (change state piece)

/-- How input reaches a consumer: it commutes with the advances of an open one,
and once it was closed, silent input changes nothing. `view` is what is observed
of the consumer. -/
structure Feeding (advance : State → Option State) (Ended Open Closed : State → Prop)
    (closing silent : Piece → Prop) (change : State → Piece → State) (view : State → View) :
    Prop where
  ended_waits : ∀ state, Ended state → advance state = none
  ended_change : ∀ state piece, Ended state →
    Ended (change state piece) ∧ view (change state piece) = view state
  open_advance : ∀ state next, Open state → advance state = some next → Open next
  change_comm : ∀ state next piece, Open state → advance state = some next →
    advance (change state piece) = some (change next piece)
  open_change : ∀ state piece, Open state → ¬ Ended state → ¬ closing piece →
    Open (change state piece)
  closing_change : ∀ state piece, closing piece → Closed (change state piece)
  closed_advance : ∀ state next, Closed state → advance state = some next → Closed next
  closed_change : ∀ state piece, Closed state → silent piece → change state piece = state

section Feeding

variable {Ended Open Closed : State → Prop} {closing silent : Piece → Prop}
  {change : State → Piece → State} {view : State → View}

namespace Feeding

/-- An ended consumer takes nothing of what follows. -/
theorem foldl_feed_of_ended [DecidablePred Ended] {state : State} (ended : Ended state)
    (pieces : List Piece) :
    pieces.foldl (feed advance rank Ended change) state = state := by
  induction pieces with
  | nil => rfl
  | cons piece rest ih => simpa only [List.foldl_cons, feed, ended, ↓reduceIte] using ih

variable (fed : Feeding advance Ended Open Closed closing silent change view)
include fed

/-- What an ended consumer is given is not seen. -/
theorem view_foldl_change {state : State} (ended : Ended state) (pieces : List Piece) :
    view (settle advance rank (pieces.foldl change state)) = view state := by
  induction pieces generalizing state with
  | nil => rw [List.foldl_nil, settle_of_none (fed.ended_waits state ended)]
  | cons piece rest ih =>
      obtain ⟨stillEnded, same⟩ := fed.ended_change state piece ended
      rw [List.foldl_cons, ih stillEnded, same]

/-- Silent pieces do nothing to a closed consumer that waits. -/
theorem foldl_feed_of_closed [DecidablePred Ended] {state : State} (closed : Closed state)
    (waiting : advance state = none) {pieces : List Piece}
    (quiet : ∀ piece ∈ pieces, silent piece) :
    pieces.foldl (feed advance rank Ended change) state = state := by
  induction pieces with
  | nil => rfl
  | cons piece rest ih =>
      have unchanged : feed advance rank Ended change state piece = state := by
        rw [feed, fed.closed_change state piece closed (quiet piece (List.mem_cons_self ..)),
          settle_of_none waiting, ite_self]
      rw [List.foldl_cons, unchanged]
      exact ih fun later member => quiet later (List.mem_cons_of_mem _ member)

/-- Nor do they change what it was given. -/
theorem foldl_change_of_closed {state : State} (closed : Closed state) {pieces : List Piece}
    (quiet : ∀ piece ∈ pieces, silent piece) : pieces.foldl change state = state := by
  induction pieces with
  | nil => rfl
  | cons piece rest ih =>
      rw [List.foldl_cons,
        fed.closed_change state piece closed (quiet piece (List.mem_cons_self ..))]
      exact ih fun later member => quiet later (List.mem_cons_of_mem _ member)

/-- Input of a stream that ends when it is closed commutes with the advances of
an open consumer. -/
theorem advance_foldl_change {state next : State} (open_ : Open state)
    (taken : advance state = some next) {pieces : List Piece} (ends : Ends closing silent pieces) :
    advance (pieces.foldl change state) = some (pieces.foldl change next) := by
  induction pieces generalizing state next with
  | nil => exact taken
  | cons piece rest ih =>
      have moved := fed.change_comm state next piece open_ taken
      rw [List.foldl_cons, List.foldl_cons]
      by_cases closes : closing piece
      · rw [fed.foldl_change_of_closed (fed.closing_change state piece closes) (ends.1 closes),
          fed.foldl_change_of_closed (fed.closing_change next piece closes) (ends.1 closes), moved]
      · have running : ¬ Ended state := by
          intro ended
          rw [fed.ended_waits state ended] at taken
          exact absurd taken (by simp)
        exact ih (fed.open_change state piece open_ running closes) moved ends.2

/-- **Cutting the input makes no difference.** A consumer fed piece by piece shows
what it shows when it is given all pieces before it starts. -/
theorem view_foldl_feed [DecidablePred Ended] (ranked : Ranked advance rank) (state : State)
    (open_ : Open state) (waiting : advance state = none) {pieces : List Piece}
    (ends : Ends closing silent pieces) :
    view (pieces.foldl (feed advance rank Ended change) state) =
      view (settle advance rank (pieces.foldl change state)) := by
  induction pieces generalizing state with
  | nil => rw [List.foldl_nil, List.foldl_nil, settle_of_none waiting]
  | cons piece rest ih =>
      by_cases ended : Ended state
      · rw [foldl_feed_of_ended ended, fed.view_foldl_change ended]
      · rw [List.foldl_cons, List.foldl_cons, feed, if_neg ended]
        by_cases closes : closing piece
        · have closed := fed.closing_change state piece closes
          rw [fed.foldl_change_of_closed closed (ends.1 closes),
            fed.foldl_feed_of_closed
              (settle_invariant ranked (fun state next => fed.closed_advance state next) _ closed)
              (advance_settle ranked _) (ends.1 closes)]
        · have stillOpen := fed.open_change state piece open_ ended closes
          rw [ih _
            (settle_invariant ranked (fun state next => fed.open_advance state next) _ stillOpen)
            (advance_settle ranked _) ends.2]
          rw [settle_comm ranked (fun state next => fed.open_advance state next)
            (fun state => rest.foldl change state)
            (fun state next open_ taken => fed.advance_foldl_change open_ taken ends.2) _ stillOpen]

end Feeding

end Feeding

end Settling
