import Mathlib.Logic.Function.Basic
import Mathlib.Data.List.Nodup

/-! # Chains of pointers

A chain is given by its first pointer and the `next` of every cell. `Linked` says
which pointers it runs through, ending at a null pointer. The lemmas are the ones
a list with a head and a tail pointer needs: what a write to a cell outside the
chain leaves alone, and what becomes of the chain when a cell is linked behind
its last one.
-/

namespace Chain

variable {Ptr : Type*} {next other : Ptr → Option Ptr} {start : Option Ptr} {nodes : List Ptr}

/-- The chain from `start` runs through `nodes`, in this order, and ends there. -/
def Linked (next : Ptr → Option Ptr) : Option Ptr → List Ptr → Prop
  | start, [] => start = none
  | start, node :: rest => start = some node ∧ Linked next (next node) rest

/-- The first `count` pointers of a chain. -/
def walk (next : Ptr → Option Ptr) : Nat → Option Ptr → List Ptr
  | 0, _ => []
  | _ + 1, none => []
  | count + 1, some node => node :: walk next count (next node)

/-- Walking follows the links. -/
theorem walk_eq_take (linked : Linked next start nodes) (count : Nat) :
    walk next count start = nodes.take count := by
  induction count generalizing start nodes with
  | zero => rfl
  | succ count ih =>
      cases nodes with
      | nil =>
          cases linked
          rfl
      | cons node rest =>
          obtain ⟨rfl, tail⟩ := linked
          simp only [walk, List.take_succ_cons, ih tail]

/-- A chain with a first cell goes on from there. -/
theorem linked_some {first : Ptr} (linked : Linked next (some first) nodes) :
    ∃ rest, nodes = first :: rest ∧ Linked next (next first) rest := by
  cases nodes with
  | nil => cases linked
  | cons node rest =>
      cases linked.1
      exact ⟨rest, rfl, linked.2⟩

theorem mem_of_linked {first : Ptr} (linked : Linked next (some first) nodes) :
    first ∈ nodes := by
  obtain ⟨rest, rfl, -⟩ := linked_some linked
  exact List.mem_cons_self ..

/-- The links of a chain are all that matters. -/
theorem linked_congr (same : ∀ node ∈ nodes, other node = next node)
    (linked : Linked next start nodes) : Linked other start nodes := by
  induction nodes generalizing start with
  | nil => exact linked
  | cons node rest ih =>
      obtain ⟨rfl, tail⟩ := linked
      refine ⟨rfl, ?_⟩
      rw [same node (List.mem_cons_self ..)]
      exact ih (fun later member => same later (List.mem_cons_of_mem _ member)) tail

/-- A chain is given by its first pointer and its links. -/
theorem linked_unique {others : List Ptr} (linked : Linked next start nodes)
    (again : Linked next start others) : others = nodes := by
  induction nodes generalizing start others with
  | nil =>
      cases linked
      cases others with
      | nil => rfl
      | cons node rest => cases again.1
  | cons node rest ih =>
      obtain ⟨rfl, tail⟩ := linked
      obtain ⟨rest', rfl, tail'⟩ := linked_some again
      rw [ih tail tail']

/-- What a chain runs through stays in it when links are only added. -/
theorem mem_of_linked_extends {others : List Ptr} (linked : Linked next start nodes)
    (again : Linked other start others)
    (extends_ : ∀ node link, next node = some link → other node = some link) {node : Ptr}
    (member : node ∈ nodes) : node ∈ others := by
  induction nodes generalizing start others with
  | nil => cases member
  | cons first rest ih =>
      obtain ⟨rfl, tail⟩ := linked
      obtain ⟨rest', rfl, tail'⟩ := linked_some again
      rcases List.mem_cons.mp member with rfl | later
      · exact List.mem_cons_self ..
      · apply List.mem_cons_of_mem
        cases rest with
        | nil => cases later
        | cons second more =>
            rw [extends_ first second tail.1, ← tail.1] at tail'
            exact ih tail tail' later

/-- Where a chain runs through a cell, it runs through the next one. -/
theorem mem_next_of_linked {first second : Ptr} (linked : Linked next start nodes)
    (member : first ∈ nodes) (link : next first = some second) : second ∈ nodes := by
  induction nodes generalizing start with
  | nil => cases member
  | cons node rest ih =>
      obtain ⟨rfl, tail⟩ := linked
      rcases List.mem_cons.mp member with rfl | later
      · exact List.mem_cons_of_mem _ (mem_of_linked (link ▸ tail))
      · exact List.mem_cons_of_mem _ (ih tail later)

/-- The last cell of a chain has a null pointer. -/
theorem next_of_last {last : Ptr} (linked : Linked next start (nodes ++ [last])) :
    next last = none := by
  induction nodes generalizing start with
  | nil => exact linked.2
  | cons node rest ih => exact ih linked.2

/-- A cell without a successor, linked behind the last one, ends the chain. -/
theorem linked_concat {last new : Ptr} (linked : Linked next start (nodes ++ [last]))
    (before : ∀ node ∈ nodes, other node = next node) (link : other last = some new)
    (ends : other new = none) : Linked other start (nodes ++ [last, new]) := by
  induction nodes generalizing start with
  | nil => exact ⟨linked.1, link, ends⟩
  | cons node rest ih =>
      obtain ⟨rfl, tail⟩ := linked
      refine ⟨rfl, ?_⟩
      rw [before node (List.mem_cons_self ..)]
      exact ih tail fun later member => before later (List.mem_cons_of_mem _ member)

/-- Only the last cell of a chain has a null pointer. -/
theorem linked_end_unique {first second : Ptr} (linked : Linked next start nodes)
    (firstMember : first ∈ nodes) (firstEnds : next first = none) (secondMember : second ∈ nodes)
    (secondEnds : next second = none) : first = second := by
  induction nodes generalizing start with
  | nil => cases firstMember
  | cons node rest ih =>
      obtain ⟨rfl, tail⟩ := linked
      cases rest with
      | nil =>
          rw [List.mem_singleton] at firstMember secondMember
          rw [firstMember, secondMember]
      | cons later rest =>
          have goesOn : next node ≠ none := by
            rw [tail.1]
            simp
          have inRest : ∀ {other : Ptr}, other ∈ node :: later :: rest → next other = none →
              other ∈ later :: rest := fun member ends =>
            (List.mem_cons.mp member).resolve_left fun same => goesOn (same ▸ ends)
          exact ih tail (inRest firstMember firstEnds) (inRest secondMember secondEnds)

/-- A cell of a chain with a null pointer is its last. -/
theorem concat_of_linked {last : Ptr} (linked : Linked next start nodes) (member : last ∈ nodes)
    (ends : next last = none) : ∃ before, nodes = before ++ [last] := by
  obtain ⟨before, final, rfl⟩ : ∃ before final, nodes = before ++ [final] :=
    (List.eq_nil_or_concat' nodes).resolve_left (List.ne_nil_of_mem member)
  have same : last = final := linked_end_unique linked member ends
    (List.mem_append_right _ (List.mem_singleton_self _)) (next_of_last linked)
  exact ⟨before, by rw [same]⟩

end Chain
