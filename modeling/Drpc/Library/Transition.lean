import Mathlib.Data.Option.Basic
import Mathlib.Tactic.Common

/-! # Runs of a labelled machine

A machine is a partial step function: `step state label` is the state the label
leads to, or `none` when the label is not enabled there. `exec` follows a list
of labels, and `Along` says that every step taken on the way was allowed in the
state in which it was taken. The induction rule `exec_invariant` is the only one
a safety proof needs: it asks for one allowed step.
-/

namespace Transition

variable {State Label : Type*}

/-- Follow a list of labels from a state; `none` once a label is not enabled. -/
def exec (step : State → Label → Option State) : State → List Label → Option State
  | state, [] => some state
  | state, label :: rest => (step state label).bind fun next => exec step next rest

/-- Every step of the run along `labels` is allowed in the state it leaves. -/
def Along (step : State → Label → Option State) (allowed : State → Label → Prop) :
    State → List Label → Prop
  | _, [] => True
  | state, label :: rest =>
      allowed state label ∧ ∀ next, step state label = some next → Along step allowed next rest

variable {step : State → Label → Option State} {allowed : State → Label → Prop}

@[simp] theorem exec_nil (state : State) : exec step state [] = some state := rfl

theorem exec_cons (state : State) (label : Label) (rest : List Label) :
    exec step state (label :: rest) =
      (step state label).bind fun next => exec step next rest := rfl

/-- A run along a nonempty list takes its first step and runs on from there. -/
theorem exec_cons_eq_some {state final : State} {label : Label} {rest : List Label} :
    exec step state (label :: rest) = some final ↔
      ∃ next, step state label = some next ∧ exec step next rest = some final := by
  rw [exec_cons, Option.bind_eq_some_iff]

/-- **Invariants of allowed runs.** What one allowed step preserves, every run
of allowed steps preserves. -/
theorem exec_invariant {Inv : State → Prop}
    (preserved : ∀ state label next, Inv state → allowed state label →
      step state label = some next → Inv next)
    {state final : State} {labels : List Label} (start : Inv state)
    (run : exec step state labels = some final) (along : Along step allowed state labels) :
    Inv final := by
  induction labels generalizing state with
  | nil =>
      cases run
      exact start
  | cons label rest ih =>
      obtain ⟨next, taken, tail⟩ := exec_cons_eq_some.mp run
      exact ih (preserved state label next start along.1 taken) tail (along.2 next taken)

/-- **Runs that cannot get stuck.** When every allowed step is defined and keeps the
invariant, every run of allowed steps is defined and ends in it. -/
theorem exec_total {Inv : State → Prop}
    (progress : ∀ state label, Inv state → allowed state label →
      ∃ next, step state label = some next ∧ Inv next)
    {state : State} {labels : List Label} (start : Inv state)
    (along : Along step allowed state labels) :
    ∃ final, exec step state labels = some final ∧ Inv final := by
  induction labels generalizing state with
  | nil => exact ⟨state, rfl, start⟩
  | cons label rest ih =>
      obtain ⟨next, taken, kept⟩ := progress state label start along.1
      obtain ⟨final, run, held⟩ := ih kept (along.2 next taken)
      exact ⟨final, exec_cons_eq_some.mpr ⟨next, taken, run⟩, held⟩

/-- **Conditions along runs.** What the invariant of allowed runs makes of the condition on their
steps, holds along them. -/
theorem along_of_invariant {Inv : State → Prop} {other : State → Label → Prop}
    (implied : ∀ state label, Inv state → allowed state label → other state label)
    (preserved : ∀ state label next, Inv state → allowed state label →
      step state label = some next → Inv next)
    {state : State} {labels : List Label} (start : Inv state)
    (along : Along step allowed state labels) : Along step other state labels := by
  induction labels generalizing state with
  | nil => trivial
  | cons label rest ih =>
      refine ⟨implied state label start along.1, fun next taken => ?_⟩
      exact ih (preserved state label next start along.1 taken) (along.2 next taken)

/-- **Runs that come to an end.** Where every allowed step lowers a bound on the state, the bound
is one on the length of the runs. -/
theorem exec_length_le {Bounded : State → Nat → Prop}
    (descends : ∀ state label next bound, Bounded state bound → allowed state label →
      step state label = some next → ∃ less < bound, Bounded next less)
    {state final : State} {labels : List Label} {bound : Nat} (start : Bounded state bound)
    (run : exec step state labels = some final) (along : Along step allowed state labels) :
    labels.length ≤ bound := by
  induction labels generalizing state bound with
  | nil => exact Nat.zero_le _
  | cons label rest ih =>
      obtain ⟨next, taken, tail⟩ := exec_cons_eq_some.mp run
      obtain ⟨less, lower, bounded⟩ := descends state label next bound start along.1 taken
      exact Nat.lt_of_le_of_lt (ih bounded tail (along.2 next taken)) lower

/-- A condition on the labels alone holds along every run of them. -/
theorem along_of_forall_mem {P : Label → Prop} {labels : List Label}
    (always : ∀ label ∈ labels, P label) (state : State) :
    Along step (fun _ label => P label) state labels := by
  induction labels generalizing state with
  | nil => trivial
  | cons label rest ih =>
      refine ⟨always label (List.mem_cons_self ..), fun next _ => ih ?_ next⟩
      exact fun later member => always later (List.mem_cons_of_mem _ member)

/-- Two conditions hold along a run together when each of them does. -/
theorem along_and {other : State → Label → Prop} {state : State} {labels : List Label}
    (first : Along step allowed state labels) (second : Along step other state labels) :
    Along step (fun state label => allowed state label ∧ other state label) state labels := by
  induction labels generalizing state with
  | nil => trivial
  | cons label rest ih =>
      exact ⟨⟨first.1, second.1⟩, fun next taken => ih (first.2 next taken) (second.2 next taken)⟩

/-- Whether the steps of a given run are allowed can be computed. -/
instance decidableAlong [∀ state label, Decidable (allowed state label)] :
    ∀ state labels, Decidable (Along step allowed state labels)
  | _, [] => isTrue trivial
  | state, label :: rest =>
      match taken : step state label with
      | none => decidable_of_iff (allowed state label) (by simp [Along, taken])
      | some next =>
          have := decidableAlong next rest
          decidable_of_iff (allowed state label ∧ Along step allowed next rest)
            (by simp [Along, taken])

end Transition
