import Drpc.Library.Transition

/-! # Simulations

A concrete machine is simulated by an abstract one when every allowed step of it is
answered by admitted steps of the abstract machine, none or several, that lead to a
related state. Whole runs are then answered by whole runs (`Simulates.exec`), so that
what holds of the abstract runs is known of the concrete ones.
-/

namespace Transition

variable {State Label Concrete Abstract Move Order : Type*}

section Runs

variable {step : State → Label → Option State} {allowed : State → Label → Prop}

/-- Runs are joined where the first ends. -/
theorem exec_append {state middle final : State} {first second : List Label}
    (one : exec step state first = some middle) (two : exec step middle second = some final) :
    exec step state (first ++ second) = some final := by
  induction first generalizing state with
  | nil =>
      cases one
      exact two
  | cons label rest ih =>
      obtain ⟨next, taken, tail⟩ := exec_cons_eq_some.mp one
      exact exec_cons_eq_some.mpr ⟨next, taken, ih tail⟩

theorem along_append {state middle : State} {first second : List Label}
    (run : exec step state first = some middle) (one : Along step allowed state first)
    (two : Along step allowed middle second) : Along step allowed state (first ++ second) := by
  induction first generalizing state with
  | nil =>
      cases run
      exact two
  | cons label rest ih =>
      obtain ⟨next, taken, tail⟩ := exec_cons_eq_some.mp run
      refine ⟨one.1, fun other same => ?_⟩
      obtain rfl := Option.some.inj (taken.symm.trans same)
      exact ih tail (one.2 next taken)

/-- A condition that follows from the allowed one. -/
theorem Along.mono {other : State → Label → Prop} {state : State} {labels : List Label}
    (along : Along step allowed state labels)
    (weaker : ∀ state label, allowed state label → other state label) :
    Along step other state labels := by
  induction labels generalizing state with
  | nil => trivial
  | cons label rest ih =>
      exact ⟨weaker state label along.1, fun next taken => ih (along.2 next taken)⟩

/-- What every step adds to a log, the run adds step by step. -/
theorem exec_log {Inv : State → Prop} {Entry : Type*} {log : State → List Entry}
    {entry : Label → List Entry}
    (adds : ∀ state label next, Inv state → allowed state label →
      step state label = some next → Inv next ∧ log next = log state ++ entry label)
    {state final : State} {labels : List Label} (start : Inv state)
    (run : exec step state labels = some final) (along : Along step allowed state labels) :
    log final = log state ++ labels.flatMap entry := by
  induction labels generalizing state with
  | nil =>
      cases run
      simp
  | cons label rest ih =>
      obtain ⟨next, taken, tail⟩ := exec_cons_eq_some.mp run
      obtain ⟨kept, added⟩ := adds state label next start along.1 taken
      rw [ih kept tail (along.2 next taken), added, List.flatMap_cons, List.append_assoc]

theorem exec_singleton (state : State) (label : Label) :
    exec step state [label] = step state label := by
  simp only [exec_cons, exec_nil, Option.bind_fun_some]

theorem along_singleton {state : State} {label : Label} :
    Along step allowed state [label] ↔ allowed state label :=
  ⟨And.left, fun allows => ⟨allows, fun _ _ => trivial⟩⟩

end Runs

/-- Every allowed concrete step is answered by admitted abstract steps. -/
def Simulates (concrete : Concrete → Move → Option Concrete)
    (abstract_ : Abstract → Order → Option Abstract) (related : Concrete → Abstract → Prop)
    (allowed : Concrete → Move → Prop) (admitted : Abstract → Order → Prop) : Prop :=
  ∀ state image move next, related state image → allowed state move →
    concrete state move = some next →
      ∃ orders after, exec abstract_ image orders = some after ∧
        Along abstract_ admitted image orders ∧ related next after

variable {concrete : Concrete → Move → Option Concrete}
  {abstract_ : Abstract → Order → Option Abstract} {related : Concrete → Abstract → Prop}
  {allowed : Concrete → Move → Prop} {admitted : Abstract → Order → Prop}

/-- One abstract step is enough of an answer, or none where the image stays. -/
theorem Simulates.of_stutter
    (answers : ∀ state image move next, related state image → allowed state move →
      concrete state move = some next →
        related next image ∨ ∃ order after, abstract_ image order = some after ∧
          admitted image order ∧ related next after) :
    Simulates concrete abstract_ related allowed admitted := by
  intro state image move next relates allows taken
  rcases answers state image move next relates allows taken with stays | answered
  · exact ⟨[], image, rfl, trivial, stays⟩
  · obtain ⟨order, after, answered, admits, relates⟩ := answered
    exact ⟨[order], after, (exec_singleton image order).trans answered,
      along_singleton.mpr admits, relates⟩

/-- Every step may be answered by one. -/
theorem Simulates.of_step
    (answers : ∀ state image move next, related state image → allowed state move →
      concrete state move = some next →
        ∃ order after, abstract_ image order = some after ∧ admitted image order ∧
          related next after) :
    Simulates concrete abstract_ related allowed admitted :=
  Simulates.of_stutter fun state image move next relates allows taken =>
    .inr (answers state image move next relates allows taken)

/-- **Runs are simulated.** -/
theorem Simulates.exec (simulates : Simulates concrete abstract_ related allowed admitted)
    {state final : Concrete} {image : Abstract} {moves : List Move}
    (relates : related state image) (run : exec concrete state moves = some final)
    (along : Along concrete allowed state moves) :
    ∃ orders after, Transition.exec abstract_ image orders = some after ∧
      Along abstract_ admitted image orders ∧ related final after := by
  induction moves generalizing state image with
  | nil =>
      cases run
      exact ⟨[], image, rfl, trivial, relates⟩
  | cons move rest ih =>
      obtain ⟨next, taken, tail⟩ := exec_cons_eq_some.mp run
      obtain ⟨first, middle, answered, admits, relates⟩ :=
        simulates state image move next relates along.1 taken
      obtain ⟨second, after, runs, follows, relates⟩ := ih relates tail (along.2 next taken)
      exact ⟨first ++ second, after, exec_append answered runs,
        along_append answered admits follows, relates⟩

end Transition
