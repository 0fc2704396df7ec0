import Mathlib.Tactic.Common
import Mathlib.Data.List.Basic

/-! # Reading a list item by item

A reader takes one item from the front of a list of symbols and works it into a
state; `readAll` repeats it until nothing is left. Where an item does not depend on
what follows it (`Lawful`), a list behind another one is read on top of the first
(`readAll_append`), so that what an encoder writes can be read back piece by piece.
Items are made of values, which say where they end (`Delimited`).
-/

namespace Items

variable {Symbol State Other Value : Type*}

/-! ## Values -/

/-- A value takes symbols, and does not depend on what follows it. -/
structure Delimited (read : List Symbol → Option (Value × List Symbol)) : Prop where
  append : ∀ {value : Value} {symbols rest : List Symbol}, read symbols = some (value, rest) →
    ∀ more, read (symbols ++ more) = some (value, rest ++ more)
  shorter : ∀ {value : Value} {symbols rest : List Symbol}, read symbols = some (value, rest) →
    rest.length < symbols.length

/-- A value with a function applied to it. -/
theorem Delimited.map {read : List Symbol → Option (Value × List Symbol)}
    (delimited : Delimited read) (change : Value → Other) :
    Delimited fun symbols => (read symbols).map (Prod.map change id) where
  append := by
    intro value symbols rest found more
    obtain ⟨⟨value, behind⟩, taken, same⟩ := Option.map_eq_some_iff.mp found
    cases same
    rw [delimited.append taken]
    rfl
  shorter := by
    intro value symbols rest found
    obtain ⟨⟨value, behind⟩, taken, same⟩ := Option.map_eq_some_iff.mp found
    cases same
    exact delimited.shorter taken

/-- The values that pass a test. -/
theorem Delimited.filter {read : List Symbol → Option (Value × List Symbol)}
    (delimited : Delimited read) (test : Value → Bool) :
    Delimited fun symbols => (read symbols).filter fun pair => test pair.1 where
  append := by
    intro value symbols rest found more
    obtain ⟨taken, passes⟩ := Option.filter_eq_some_iff.mp found
    exact Option.filter_eq_some_iff.mpr ⟨delimited.append taken more, passes⟩
  shorter := by
    intro value symbols rest found
    exact delimited.shorter (Option.filter_eq_some_iff.mp found).1

/-- A value, and behind it another one that depends on it. -/
theorem Delimited.bind {read : List Symbol → Option (Value × List Symbol)}
    {next : Value → List Symbol → Option (Other × List Symbol)} (delimited : Delimited read)
    (append : ∀ value {other : Other} {symbols rest : List Symbol},
      next value symbols = some (other, rest) →
        ∀ more, next value (symbols ++ more) = some (other, rest ++ more))
    (length : ∀ value {other : Other} {symbols rest : List Symbol},
      next value symbols = some (other, rest) → rest.length ≤ symbols.length) :
    Delimited fun symbols => (read symbols).bind fun (value, rest) => next value rest where
  append := by
    intro other symbols rest found more
    obtain ⟨⟨value, behind⟩, taken, follows⟩ := Option.bind_eq_some_iff.mp found
    rw [delimited.append taken]
    exact append value follows more
  shorter := by
    intro other symbols rest found
    obtain ⟨⟨value, behind⟩, taken, follows⟩ := Option.bind_eq_some_iff.mp found
    exact Nat.lt_of_le_of_lt (length value follows) (delimited.shorter taken)

/-! ## Items -/

/-- What a reader makes of the state, and the symbols behind the item. -/
abbrev Reader (Symbol State : Type*) := State → List Symbol → Option (State × List Symbol)

/-- Read items until nothing is left, at most `fuel` of them. -/
def readWithin (reader : Reader Symbol State) : Nat → State → List Symbol → Option State
  | _, state, [] => some state
  | 0, _, _ :: _ => none
  | fuel + 1, state, symbol :: symbols =>
      (reader state (symbol :: symbols)).bind fun (next, rest) => readWithin reader fuel next rest

/-- Read items until nothing is left. -/
def readAll (reader : Reader Symbol State) (state : State) (symbols : List Symbol) :
    Option State :=
  readWithin reader symbols.length state symbols

/-- An item is not empty and does not depend on what follows it. -/
structure Lawful (reader : Reader Symbol State) : Prop where
  append : ∀ {state next : State} {symbols rest : List Symbol},
    reader state symbols = some (next, rest) →
      ∀ more, reader state (symbols ++ more) = some (next, rest ++ more)
  shorter : ∀ {state next : State} {symbols rest : List Symbol},
    reader state symbols = some (next, rest) → rest.length < symbols.length

/-- The runs of a reader, item by item. -/
inductive Reads (reader : Reader Symbol State) : State → List Symbol → State → Prop where
  | nothing (state : State) : Reads reader state [] state
  | item {state next final : State} {symbols rest : List Symbol}
      (taken : reader state symbols = some (next, rest))
      (tail : Reads reader next rest final) : Reads reader state symbols final

variable {reader : Reader Symbol State} {other : Reader Symbol Other}

@[simp] theorem readAll_nil (state : State) : readAll reader state [] = some state := rfl

namespace Lawful

variable (lawful : Lawful reader)

include lawful

/-- There is no item in an empty list. -/
theorem nonempty {state next : State} {symbols rest : List Symbol}
    (taken : reader state symbols = some (next, rest)) : symbols ≠ [] := by
  rintro rfl
  exact absurd (lawful.shorter taken) (by simp)

/-- Fuel beyond the number of symbols is not used. -/
theorem readWithin_eq {fuel : Nat} {symbols : List Symbol} (enough : symbols.length ≤ fuel)
    (state : State) : readWithin reader fuel state symbols = readAll reader state symbols := by
  suffices agree : ∀ (first second : Nat) (symbols : List Symbol) (state : State),
      symbols.length ≤ first → symbols.length ≤ second →
        readWithin reader first state symbols = readWithin reader second state symbols from
    agree _ _ symbols state enough (Nat.le_refl _)
  intro first
  induction first with
  | zero =>
      intro second symbols state small _
      obtain rfl : symbols = [] := by simpa using small
      cases second <;> rfl
  | succ first ih =>
      intro second symbols state firstEnough secondEnough
      cases symbols with
      | nil => cases second <;> rfl
      | cons symbol symbols =>
          obtain ⟨second, rfl⟩ : ∃ fuel, second = fuel + 1 :=
            ⟨second - 1, by simp only [List.length_cons] at secondEnough; omega⟩
          simp only [readWithin]
          cases taken : reader state (symbol :: symbols) with
          | none => rfl
          | some pair =>
              have less := lawful.shorter taken
              simp only [List.length_cons] at firstEnough secondEnough less
              exact ih second pair.2 pair.1 (by omega) (by omega)

/-- The first item, then the others. -/
theorem readAll_eq {symbols : List Symbol} (some_left : symbols ≠ []) (state : State) :
    readAll reader state symbols =
      (reader state symbols).bind fun (next, rest) => readAll reader next rest := by
  obtain ⟨symbol, symbols, rfl⟩ := List.exists_cons_of_ne_nil some_left
  rw [readAll, List.length_cons, readWithin]
  cases taken : reader state (symbol :: symbols) with
  | none => rfl
  | some pair =>
      have less := lawful.shorter taken
      simp only [List.length_cons] at less
      exact lawful.readWithin_eq (by omega) pair.1

/-- `readAll` finds the runs of the reader. -/
theorem readAll_eq_some {state final : State} {symbols : List Symbol} :
    readAll reader state symbols = some final ↔ Reads reader state symbols final := by
  constructor
  · suffices reads : ∀ (bound : Nat) (symbols : List Symbol) (state : State),
        symbols.length ≤ bound → readAll reader state symbols = some final →
          Reads reader state symbols final from
      reads symbols.length symbols state (Nat.le_refl _)
    intro bound
    induction bound with
    | zero =>
        intro symbols state small found
        obtain rfl : symbols = [] := by simpa using small
        cases found
        exact .nothing _
    | succ bound ih =>
        intro symbols state small found
        by_cases empty : symbols = []
        · subst empty
          cases found
          exact .nothing _
        · rw [lawful.readAll_eq empty] at found
          obtain ⟨⟨next, rest⟩, taken, tail⟩ := Option.bind_eq_some_iff.mp found
          have less := lawful.shorter taken
          exact .item taken (ih rest next (by omega) tail)
  · intro reads
    induction reads with
    | nothing state => rfl
    | item taken tail ih =>
        rw [lawful.readAll_eq (lawful.nonempty taken), taken]
        exact ih

/-- One item, and what is read behind it. -/
theorem readAll_item {state next : State} {item : List Symbol}
    (taken : reader state item = some (next, [])) (more : List Symbol) :
    readAll reader state (item ++ more) = readAll reader next more := by
  rw [lawful.readAll_eq (by simp [lawful.nonempty taken]), lawful.append taken]
  rfl

/-- A list behind another one is read on top of it. -/
theorem readAll_append {state next : State} {first : List Symbol}
    (found : readAll reader state first = some next) (second : List Symbol) :
    readAll reader state (first ++ second) = readAll reader next second := by
  have reads := lawful.readAll_eq_some.mp found
  clear found
  induction reads with
  | nothing state => rfl
  | item taken tail ih =>
      rw [lawful.readAll_eq (by simp [lawful.nonempty taken]), lawful.append taken]
      exact ih

/-- What every item keeps, the whole list keeps. -/
theorem readAll_keeps {Keeps : State → Prop}
    (each : ∀ {state next : State} {symbols rest : List Symbol}, Keeps state →
      reader state symbols = some (next, rest) → Keeps next)
    {state final : State} {symbols : List Symbol} (start : Keeps state)
    (found : readAll reader state symbols = some final) : Keeps final := by
  have reads := lawful.readAll_eq_some.mp found
  clear found
  induction reads with
  | nothing state => exact start
  | item taken tail ih => exact ih (each start taken)

/-- A reader that answers every item of another one reads the whole list alike. -/
theorem readAll_answered (answers : Lawful other) (view : State → Other)
    (each : ∀ {state next : State} {symbols rest : List Symbol},
      reader state symbols = some (next, rest) →
        other (view state) symbols = some (view next, rest))
    {state final : State} {symbols : List Symbol}
    (found : readAll reader state symbols = some final) :
    readAll other (view state) symbols = some (view final) := by
  have reads := lawful.readAll_eq_some.mp found
  clear found
  induction reads with
  | nothing state => rfl
  | item taken tail ih =>
      rw [answers.readAll_eq (answers.nonempty (each taken)), each taken]
      exact ih

end Lawful

end Items
