import Drpc.Library.Transition
import Mathlib.Order.WellFounded

/-! # Machines that come to rest

An endless run of a labelled machine. When every step that changes the state
lowers a rank, the run is constant from some point on; a fair run then stands in
a state that no step can leave (`eventually_atRest`), and such a state can be
reached from everywhere (`exists_atRest`).
-/

namespace Transition

variable {State Label Rank : Type*}

/-- An endless run of allowed steps. -/
def Endless (step : State → Label → Option State) (allowed : State → Label → Prop)
    (states : ℕ → State) (labels : ℕ → Label) : Prop :=
  ∀ n, allowed (states n) (labels n) ∧ step (states n) (labels n) = some (states (n + 1))

/-- No allowed step leads to another state. -/
def AtRest (step : State → Label → Option State) (allowed : State → Label → Prop)
    (state : State) : Prop :=
  ∀ label next, allowed state label → step state label = some next → next = state

/-- As long as an allowed step could change the state, it does change later. -/
def Fair (step : State → Label → Option State) (allowed : State → Label → Prop)
    (states : ℕ → State) : Prop :=
  ∀ n, ¬ AtRest step allowed (states n) → ∃ m ≥ n, states (m + 1) ≠ states m

/-- An allowed step changes nothing or lowers the rank. -/
def Falls [LT Rank] (step : State → Label → Option State) (allowed : State → Label → Prop)
    (rank : State → Rank) : Prop :=
  ∀ state label next, allowed state label → step state label = some next →
    next = state ∨ rank next < rank state

variable {step : State → Label → Option State} {allowed inner : State → Label → Prop}
  {states : ℕ → State} {labels : ℕ → Label}

/-- **A falling rank stops.** Take a state of the run with the least rank. -/
theorem Endless.eventually_constant [LT Rank] [WellFoundedLT Rank] {rank : State → Rank}
    (endless : Endless step allowed states labels) (falls : Falls step allowed rank) :
    ∃ n, ∀ m ≥ n, states m = states n := by
  obtain ⟨_, ⟨n, rfl⟩, least⟩ := WellFounded.has_min (wellFounded_lt (α := Rank))
    (Set.range fun n => rank (states n)) ⟨_, 0, rfl⟩
  refine ⟨n, fun m later => ?_⟩
  induction m, later using Nat.le_induction with
  | base => rfl
  | succ m later ih =>
      obtain ⟨allows, taken⟩ := endless m
      rcases falls _ _ _ allows taken with same | less
      · rw [same, ih]
      · rw [ih] at less
        exact absurd less (least _ ⟨m + 1, rfl⟩)

/-- **A fair run comes to rest.** -/
theorem Endless.eventually_atRest [LT Rank] [WellFoundedLT Rank] {rank : State → Rank}
    (endless : Endless step allowed states labels) (falls : Falls step allowed rank)
    (fair : Fair step inner states) :
    ∃ n, AtRest step inner (states n) ∧ ∀ m ≥ n, states m = states n := by
  obtain ⟨n, constant⟩ := endless.eventually_constant falls
  refine ⟨n, ?_, constant⟩
  by_contra moves
  obtain ⟨m, later, changes⟩ := fair n moves
  apply changes
  rw [constant m later, constant (m + 1) (Nat.le_succ_of_le later)]

/-- **Rest can be reached** from every state. -/
theorem exists_atRest [LT Rank] [WellFoundedLT Rank] {rank : State → Rank}
    (falls : Falls step allowed rank) (state : State) :
    ∃ labels final, exec step state labels = some final ∧ Along step allowed state labels ∧
      AtRest step allowed final := by
  induction state using (InvImage.wf rank (wellFounded_lt (α := Rank))).induction with
  | _ state ih =>
      by_cases rests : AtRest step allowed state
      · exact ⟨[], state, rfl, trivial, rests⟩
      · simp only [AtRest, not_forall] at rests
        obtain ⟨label, next, allows, taken, changes⟩ := rests
        have less := (falls state label next allows taken).resolve_left changes
        obtain ⟨labels, final, run, along, rests⟩ := ih next less
        refine ⟨label :: labels, final, exec_cons_eq_some.mpr ⟨next, taken, run⟩, ?_, rests⟩
        refine ⟨allows, fun other same => ?_⟩
        rw [taken, Option.some.injEq] at same
        exact same ▸ along

/-- A run that ends where it can idle goes on for ever. -/
theorem exists_endless {state final : State} {run : List Label} {idle : Label}
    (runs : exec step state run = some final) (along : Along step allowed state run)
    (allows : allowed final idle) (idles : step final idle = some final) :
    ∃ states, Endless step allowed states (fun n => run.getD n idle) ∧ states 0 = state ∧
      ∀ n ≥ run.length, states n = final := by
  induction run generalizing state with
  | nil =>
      cases runs
      exact ⟨fun _ => final, fun _ => ⟨allows, idles⟩, rfl, fun _ _ => rfl⟩
  | cons label rest ih =>
      obtain ⟨next, taken, tail⟩ := exec_cons_eq_some.mp runs
      obtain ⟨states, endless, start, ends⟩ := ih tail (along.2 next taken)
      refine ⟨fun n => n.casesOn state states, fun n => ?_, rfl, fun n later => ?_⟩
      · cases n with
        | zero =>
            change allowed state label ∧ step state label = some (states 0)
            rw [start]
            exact ⟨along.1, taken⟩
        | succ n => exact endless n
      · cases n with
        | zero => simp at later
        | succ n => exact ends n (Nat.le_of_succ_le_succ later)

/-- A run that comes to rest is fair. -/
theorem fair_of_ends {final : State} {n : ℕ} (ends : ∀ m ≥ n, states m = final)
    (rests : AtRest step inner final) : Fair step inner states := by
  intro k moves
  by_contra constant
  push Not at constant
  have same : ∀ m ≥ k, states m = states k := by
    intro m later
    induction m, later using Nat.le_induction with
    | base => rfl
    | succ m later ih => rw [constant m later, ih]
  rw [← same (max k n) (le_max_left ..), ends _ (le_max_right ..)] at moves
  exact moves rests

end Transition
