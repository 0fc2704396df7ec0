import Drpc.Util.MpmcThreads

/-! # The slots of the task queue

A thread that has pushed `push_index` on fills the slot it has claimed, and a thread
that has pushed `pop_index` on empties the slot it has claimed. A slot of a chunk in
use is occupied exactly when it was claimed by a pusher that has filled it, and no
popper has emptied it yet (`Slots`). So no push finds its slot occupied, no value is
overwritten, and none is read twice.
-/

namespace Drpc.Util.MPMCQueue

variable {Thread Value : Type}

/-- The thread has claimed the slot and is going to fill it. -/
def Pc.Pushes (pc : Pc Value) (chunk : ChunkPtr) (index : Nat) : Prop :=
  match pc with
  | .checkSlot _ tail claimed | .construct _ tail claimed => tail = chunk ∧ claimed = index
  | _ => False

/-- The thread has claimed the slot and is going to empty it. -/
def Pc.Pops (pc : Pc Value) (chunk : ChunkPtr) (index : Nat) : Prop :=
  match pc with
  | .enter head claimed | .waitSlot head claimed | .takeSlot head claimed =>
      head = chunk ∧ claimed = index
  | _ => False

/-- The thread has claimed no slot. -/
def Pc.unclaimed : Pc Value → Bool
  | .checkSlot .. | .construct .. | .enter .. | .waitSlot .. | .takeSlot .. => false
  | _ => true

theorem Pc.not_pushes {pc : Pc Value} (unclaimed : pc.unclaimed = true) (chunk : ChunkPtr)
    (index : Nat) : ¬ pc.Pushes chunk index := by
  cases pc with
  | checkSlot | construct => cases unclaimed
  | _ => exact id

theorem Pc.not_pops {pc : Pc Value} (unclaimed : pc.unclaimed = true) (chunk : ChunkPtr)
    (index : Nat) : ¬ pc.Pops chunk index := by
  cases pc with
  | enter | waitSlot | takeSlot => cases unclaimed
  | _ => exact id

theorem Pc.unclaimed_of_atSlot {pc : Pc Value} (away : pc.atSlot = false) :
    pc.unclaimed = true := by
  cases pc with
  | checkSlot | construct | enter | waitSlot | takeSlot => cases away
  | _ => rfl

/-- Some thread has claimed the slot, in the way `claims` says. -/
def Claimed (claims : Pc Value → ChunkPtr → Nat → Prop) (pc : Thread → Pc Value)
    (chunk : ChunkPtr) (index : Nat) : Prop :=
  ∃ thread, claims (pc thread) chunk index

/-- No two threads have claimed one slot. -/
def OneClaimer (claims : Pc Value → ChunkPtr → Nat → Prop) (pc : Thread → Pc Value) : Prop :=
  ∀ first second chunk index, claims (pc first) chunk index → claims (pc second) chunk index →
    first = second

/-- Which slots are occupied. -/
structure Slots (m : Memory Value) (role : ChunkPtr → Role Thread) (pc : Thread → Pc Value) :
    Prop where
  order : ∀ chunk, (role chunk).InUse →
    m.popIndex chunk ≤ chunkSize ∧ m.popIndex chunk ≤ m.pushIndex chunk
  occupied : ∀ chunk index, (role chunk).InUse → index < chunkSize →
    ((m.slot chunk index).isSome = true ↔
      index < m.pushIndex chunk ∧ ¬ Claimed Pc.Pushes pc chunk index ∧
      (index < m.popIndex chunk → Claimed Pc.Pops pc chunk index))
  /-- A popper waits for the slot it has claimed until it is filled. -/
  awaited : ∀ chunk index, (role chunk).InUse → index < m.popIndex chunk →
    Claimed Pc.Pushes pc chunk index → Claimed Pc.Pops pc chunk index
  blank : ∀ chunk index, ¬ (role chunk).InUse → index < chunkSize → m.slot chunk index = none
  onePusher : OneClaimer Pc.Pushes pc
  onePopper : OneClaimer Pc.Pops pc
  taking : ∀ {thread chunk index}, pc thread = .takeSlot chunk index →
    (m.slot chunk index).isSome = true

variable {m m' : Memory Value} {role role' : ChunkPtr → Role Thread} {pc : Thread → Pc Value}
  {thread : Thread}

/-- A thread that pushes to a slot works on a chunk in use. -/
theorem Pc.Pushes.claimed {now : Pc Value} {chunk : ChunkPtr} {index : Nat}
    (pushes : now.Pushes chunk index) (loc : now.Local m role thread) :
    (role chunk).InUse ∧ index < chunkSize ∧ index < m.pushIndex chunk ∧ chunk ∈ now.holds := by
  cases now with
  | checkSlot value tail claimed | construct value tail claimed =>
      obtain ⟨rfl, rfl⟩ := pushes
      exact ⟨loc.1.1, loc.2.1, loc.2.2, List.mem_cons_self ..⟩
  | _ => exact pushes.elim

/-- A thread that pops a slot works on a chunk in use. -/
theorem Pc.Pops.claimed {now : Pc Value} {chunk : ChunkPtr} {index : Nat}
    (pops : now.Pops chunk index) (loc : now.Local m role thread) :
    (role chunk).InUse ∧ index < m.popIndex chunk ∧ chunk ∈ now.holds := by
  cases now with
  | enter head claimed | waitSlot head claimed | takeSlot head claimed =>
      obtain ⟨rfl, rfl⟩ := pops
      exact ⟨loc.1, loc.2, List.mem_cons_self ..⟩
  | _ => exact pops.elim

/-- The chunks the other threads work on. -/
def Others (pc : Thread → Pc Value) (thread : Thread) (chunk : ChunkPtr) : Prop :=
  ∃ other ≠ thread, chunk ∈ (pc other).holds

/-- The slot that `push` has claimed is empty. -/
theorem Slots.empty_of_pushes (slots : Slots m role pc)
    (locals : ∀ other, (pc other).Local m role other) {chunk : ChunkPtr} {index : Nat}
    (pushes : (pc thread).Pushes chunk index) : m.slot chunk index = none := by
  obtain ⟨inUse, small, -⟩ := pushes.claimed (locals thread)
  by_contra some_
  exact ((slots.occupied chunk index inUse small).mp (Option.isSome_iff_ne_none.mpr some_)).2.1
    ⟨thread, pushes⟩

/-- A write to a slot leaves the others alone. -/
theorem slot_setSlot_of_ne {chunk written : ChunkPtr} {index claimed : Nat} {value : Option Value}
    (away : ¬ (chunk = written ∧ index = claimed)) :
    (m.setSlot written claimed value).slot chunk index = m.slot chunk index := by
  rw [Memory.slot_setSlot]
  by_cases same : chunk = written
  · subst same
    rw [Function.update_self, Function.update_of_ne fun is => away ⟨rfl, is⟩]
  · rw [Function.update_of_ne same]

theorem slot_setSlot_self {chunk : ChunkPtr} {index : Nat} {value : Option Value} :
    (m.setSlot chunk index value).slot chunk index = value := by
  rw [Memory.slot_setSlot, Function.update_self, Function.update_self]

section

variable [DecidableEq Thread] {next : Pc Value}

theorem claimed_update {claims : Pc Value → ChunkPtr → Nat → Prop} {chunk : ChunkPtr}
    {index : Nat} :
    Claimed claims (Function.update pc thread next) chunk index ↔
      claims next chunk index ∨ ∃ other ≠ thread, claims (pc other) chunk index := by
  constructor
  · intro all
    obtain ⟨other, claimed⟩ := all
    by_cases self : other = thread
    · subst self
      rw [Function.update_self] at claimed
      exact .inl claimed
    · rw [Function.update_of_ne self] at claimed
      exact .inr ⟨other, self, claimed⟩
  · intro either
    rcases either with claimed | ⟨other, differs, claimed⟩
    · exact ⟨thread, by rwa [Function.update_self]⟩
    · exact ⟨other, by rwa [Function.update_of_ne differs]⟩

/-- The claim of the thread stays the same. -/
theorem claimed_update_same {claims : Pc Value → ChunkPtr → Nat → Prop} {chunk : ChunkPtr}
    {index : Nat} (same : claims next chunk index ↔ claims (pc thread) chunk index) :
    Claimed claims (Function.update pc thread next) chunk index ↔
      Claimed claims pc chunk index := by
  rw [claimed_update, same]
  constructor
  · intro either
    rcases either with claimed | ⟨other, -, claimed⟩
    · exact ⟨thread, claimed⟩
    · exact ⟨other, claimed⟩
  · intro all
    obtain ⟨other, claimed⟩ := all
    by_cases self : other = thread
    · exact .inl (self ▸ claimed)
    · exact .inr ⟨other, self, claimed⟩

theorem OneClaimer.update {claims : Pc Value → ChunkPtr → Nat → Prop} (one : OneClaimer claims pc)
    (alone : ∀ other chunk index, other ≠ thread → claims next chunk index →
      ¬ claims (pc other) chunk index) : OneClaimer claims (Function.update pc thread next) := by
  intro first second chunk index claimed again
  by_cases firstSelf : first = thread <;> by_cases secondSelf : second = thread
  · rw [firstSelf, secondSelf]
  · rw [firstSelf, Function.update_self] at claimed
    rw [Function.update_of_ne secondSelf] at again
    exact absurd again (alone second chunk index secondSelf claimed)
  · rw [secondSelf, Function.update_self] at again
    rw [Function.update_of_ne firstSelf] at claimed
    exact absurd claimed (alone first chunk index firstSelf again)
  · rw [Function.update_of_ne firstSelf] at claimed
    rw [Function.update_of_ne secondSelf] at again
    exact one first second chunk index claimed again

/-- The thread claims nothing new. -/
theorem OneClaimer.update_of_imp {claims : Pc Value → ChunkPtr → Nat → Prop}
    (one : OneClaimer claims pc)
    (kept : ∀ chunk index, claims next chunk index → claims (pc thread) chunk index) :
    OneClaimer claims (Function.update pc thread next) :=
  one.update fun other chunk index differs claimed again =>
    differs (one other thread chunk index again (kept chunk index claimed))

/-- The thread has given its claim up, and nobody else has one on the slot. -/
theorem not_claimed_update {claims : Pc Value → ChunkPtr → Nat → Prop}
    (one : OneClaimer claims pc) {chunk : ChunkPtr} {index : Nat}
    (had : claims (pc thread) chunk index) (gone : ¬ claims next chunk index) :
    ¬ Claimed claims (Function.update pc thread next) chunk index := by
  rw [claimed_update]
  intro either
  rcases either with claimed | ⟨other, differs, claimed⟩
  · exact gone claimed
  · exact differs (one other thread chunk index claimed had)

/-- A chunk that comes into use is blank, and one that goes out of use is. -/
theorem Slots.changeRoles (slots : Slots m' role (Function.update pc thread next))
    (kept : Guarantee m role m' role' thread (Others pc thread))
    (here : next.Local m' role' thread) (locals : ∀ other, (pc other).Local m role other) :
    Slots m' role' (Function.update pc thread next) where
  order chunk inUse := by
    by_cases before : (role chunk).InUse
    · exact slots.order chunk before
    · obtain ⟨push, pop⟩ := kept.enters chunk inUse before
      rw [push, pop]
      exact ⟨Nat.zero_le _, le_rfl⟩
  occupied chunk index inUse small := by
    by_cases before : (role chunk).InUse
    · exact slots.occupied chunk index before small
    · obtain ⟨push, -⟩ := kept.enters chunk inUse before
      rw [slots.blank chunk index before small, push]
      simp
  awaited chunk index inUse claimed pushing := by
    by_cases before : (role chunk).InUse
    · exact slots.awaited chunk index before claimed pushing
    · rw [(kept.enters chunk inUse before).2] at claimed
      exact absurd claimed (Nat.not_lt_zero _)
  blank chunk index notInUse small := by
    by_cases before : (role chunk).InUse
    · obtain ⟨popped, alone⟩ := kept.leaves chunk before notInUse
      by_contra occupied
      have some_ : (m'.slot chunk index).isSome = true := Option.isSome_iff_ne_none.mpr occupied
      have claimed :=
        ((slots.occupied chunk index before small).mp some_).2.2 (small.trans_le popped)
      rcases claimed_update.mp claimed with pops | ⟨other, differs, pops⟩
      · exact notInUse (pops.claimed here).1
      · exact alone ⟨other, differs, (pops.claimed (locals other)).2.2⟩
    · exact slots.blank chunk index before small
  onePusher := slots.onePusher
  onePopper := slots.onePopper
  taking := slots.taking

/-! ## The operations that leave the slots alone -/

/-- An operation that leaves the slots and the counters of the chunks in use alone, and
the claims of its thread. -/
theorem Slots.quiet (slots : Slots m role pc) (locals : ∀ other, (pc other).Local m role other)
    (slot : ∀ chunk index, index < chunkSize → m'.slot chunk index = m.slot chunk index)
    (push : ∀ chunk, (role chunk).InUse → m'.pushIndex chunk = m.pushIndex chunk)
    (pop : ∀ chunk, (role chunk).InUse → m'.popIndex chunk = m.popIndex chunk)
    (pushes : ∀ chunk index, next.Pushes chunk index ↔ (pc thread).Pushes chunk index)
    (pops : ∀ chunk index, next.Pops chunk index ↔ (pc thread).Pops chunk index)
    (takes : ∀ chunk index, next = .takeSlot chunk index → (m.slot chunk index).isSome = true) :
    Slots m' role (Function.update pc thread next) where
  order chunk inUse := by
    rw [push chunk inUse, pop chunk inUse]
    exact slots.order chunk inUse
  occupied chunk index inUse small := by
    rw [slot chunk index small, push chunk inUse, pop chunk inUse,
      claimed_update_same (pushes chunk index), claimed_update_same (pops chunk index)]
    exact slots.occupied chunk index inUse small
  awaited chunk index inUse := by
    rw [pop chunk inUse, claimed_update_same (pushes chunk index),
      claimed_update_same (pops chunk index)]
    exact slots.awaited chunk index inUse
  blank chunk index notInUse small := by
    rw [slot chunk index small]
    exact slots.blank chunk index notInUse small
  onePusher := slots.onePusher.update_of_imp fun chunk index => (pushes chunk index).mp
  onePopper := slots.onePopper.update_of_imp fun chunk index => (pops chunk index).mp
  taking := by
    intro other chunk index stands
    have taken : ((pc other).Pops chunk index) ∧ (m.slot chunk index).isSome = true := by
      by_cases self : other = thread
      · subst self
        rw [Function.update_self] at stands
        refine ⟨(pops chunk index).mp ?_, takes chunk index stands⟩
        rw [stands]
        exact ⟨rfl, rfl⟩
      · rw [Function.update_of_ne self] at stands
        refine ⟨?_, slots.taking stands⟩
        rw [stands]
        exact ⟨rfl, rfl⟩
    obtain ⟨inUse, small, -⟩ := taken.1.claimed (locals other)
    rw [slot chunk index (small.trans_le (slots.order chunk inUse).1)]
    exact taken.2

/-- An operation between two places where the thread has claimed no slot. -/
theorem Slots.between (slots : Slots m role pc) (locals : ∀ other, (pc other).Local m role other)
    (before : (pc thread).unclaimed = true) (behind : next.unclaimed = true)
    (slot : ∀ chunk index, index < chunkSize → m'.slot chunk index = m.slot chunk index)
    (push : ∀ chunk, (role chunk).InUse → m'.pushIndex chunk = m.pushIndex chunk)
    (pop : ∀ chunk, (role chunk).InUse → m'.popIndex chunk = m.popIndex chunk) :
    Slots m' role (Function.update pc thread next) := by
  refine slots.quiet locals slot push pop (fun chunk index => ?_) (fun chunk index => ?_) ?_
  · exact iff_of_false (Pc.not_pushes behind chunk index) (Pc.not_pushes before chunk index)
  · exact iff_of_false (Pc.not_pops behind chunk index) (Pc.not_pops before chunk index)
  · rintro chunk index rfl
    cases behind

/-- A load between two such places. -/
theorem Slots.load (slots : Slots m role pc) (locals : ∀ other, (pc other).Local m role other)
    (before : (pc thread).unclaimed = true) (behind : next.unclaimed = true) :
    Slots m role (Function.update pc thread next) :=
  slots.between locals before behind (fun _ _ _ => rfl) (fun _ _ => rfl) fun _ _ => rfl

/-! ## The operations that claim, fill and empty slots -/

/-- `push` claims a slot, or finds the chunk full. -/
theorem Slots.claimPush (slots : Slots m role pc) (locals : ∀ other, (pc other).Local m role other)
    {value : Value} {tail : ChunkPtr} (here : pc thread = .claimPush value tail)
    (behind : next = if m.pushIndex tail < chunkSize then .checkSlot value tail (m.pushIndex tail)
      else .loadFree value tail) :
    Slots (m.setPushIndex tail (m.pushIndex tail + 1)) role (Function.update pc thread next) := by
  have pops : ∀ chunk index, next.Pops chunk index ↔ (pc thread).Pops chunk index := by
    intro chunk index
    rw [here, behind]
    split <;> rfl
  have pushes : ∀ chunk index, next.Pushes chunk index →
      tail = chunk ∧ m.pushIndex tail = index := by
    intro chunk index claimed
    rw [behind] at claimed
    split at claimed
    · exact claimed
    · exact claimed.elim
  have pushesFirst : m.pushIndex tail < chunkSize → next.Pushes tail (m.pushIndex tail) := by
    intro room
    rw [behind, if_pos room]
    exact ⟨rfl, rfl⟩
  have claimed : ∀ chunk index, (tail ≠ chunk ∨ m.pushIndex tail ≠ index) →
      (Claimed Pc.Pushes (Function.update pc thread next) chunk index ↔
        Claimed Pc.Pushes pc chunk index) := by
    intro chunk index away
    refine claimed_update_same (iff_of_false (fun new => ?_) ?_)
    · rcases away with other | later
      · exact other (pushes chunk index new).1
      · exact later (pushes chunk index new).2
    · rw [here]
      exact id
  have old : ∀ other chunk index, (pc other).Pushes chunk index → index < m.pushIndex chunk :=
    fun other chunk index new => (new.claimed (locals other)).2.2.1
  refine {
    order := fun chunk inUse => ?_
    occupied := fun chunk index inUse small => ?_
    awaited := fun chunk index inUse => ?_
    blank := fun chunk index notInUse small => ?_
    onePusher := slots.onePusher.update fun other chunk index _ new again => ?_
    onePopper := slots.onePopper.update_of_imp fun chunk index => (pops chunk index).mp
    taking := fun {other chunk index} stands => ?_ }
  · obtain ⟨small, ordered⟩ := slots.order chunk inUse
    rw [Memory.popIndex_setPushIndex, Memory.pushIndex_setPushIndex]
    refine ⟨small, ordered.trans ?_⟩
    by_cases same : chunk = tail
    · subst same
      simp
    · simp [same]
  · rw [Memory.slot_setPushIndex, Memory.pushIndex_setPushIndex, Memory.popIndex_setPushIndex,
      claimed_update_same (pops chunk index)]
    have before := slots.occupied chunk index inUse small
    by_cases same : tail = chunk
    · subst same
      rw [Function.update_self]
      by_cases first : m.pushIndex tail = index
      · subst first
        have now : Claimed Pc.Pushes (Function.update pc thread next) tail (m.pushIndex tail) :=
          claimed_update.mpr (.inl (pushesFirst small))
        simp [before, now]
      · rw [claimed tail index (.inr first), before]
        have same : index < m.pushIndex tail + 1 ↔ index < m.pushIndex tail := by omega
        rw [same]
    · rw [Function.update_of_ne (Ne.symm same), claimed chunk index (.inl same)]
      exact before
  · rw [Memory.popIndex_setPushIndex, claimed_update_same (pops chunk index)]
    intro popped new
    refine slots.awaited chunk index inUse popped ((claimed chunk index ?_).mp new)
    by_cases same : tail = chunk
    · subst same
      have ordered := (slots.order tail inUse).2
      exact .inr (by omega)
    · exact .inl same
  · rw [Memory.slot_setPushIndex]
    exact slots.blank chunk index notInUse small
  · obtain ⟨rfl, rfl⟩ := pushes chunk index new
    exact absurd (old other _ _ again) (lt_irrefl _)
  · rw [Memory.slot_setPushIndex]
    by_cases self : other = thread
    · subst self
      rw [Function.update_self, behind] at stands
      split at stands <;> cases stands
    · rw [Function.update_of_ne self] at stands
      exact slots.taking stands

/-- `push` fills the slot it has claimed. -/
theorem Slots.construct (slots : Slots m role pc) (locals : ∀ other, (pc other).Local m role other)
    {value : Value} {tail : ChunkPtr} {claimed : Nat}
    (here : pc thread = .construct value tail claimed) :
    Slots (m.setSlot tail claimed (some value)) role (Function.update pc thread .idle) := by
  have had : (pc thread).Pushes tail claimed := by
    rw [here]
    exact ⟨rfl, rfl⟩
  obtain ⟨-, -, filled, -⟩ := had.claimed (locals thread)
  have gone : ¬ Claimed Pc.Pushes (Function.update pc thread .idle) tail claimed :=
    not_claimed_update slots.onePusher had id
  have pops : ∀ chunk index, (Pc.idle : Pc Value).Pops chunk index ↔
      (pc thread).Pops chunk index := by
    intro chunk index
    rw [here]
    rfl
  have others : ∀ chunk index, ¬ (chunk = tail ∧ index = claimed) →
      (Claimed Pc.Pushes (Function.update pc thread .idle) chunk index ↔
        Claimed Pc.Pushes pc chunk index) := by
    intro chunk index away
    refine claimed_update_same (iff_of_false id ?_)
    rw [here]
    intro all
    obtain ⟨rfl, rfl⟩ := all
    exact away ⟨rfl, rfl⟩
  refine {
    order := fun chunk inUse => ?_
    occupied := fun chunk index inUse small => ?_
    awaited := fun chunk index inUse popped => ?_
    blank := fun chunk index notInUse small => ?_
    onePusher := slots.onePusher.update_of_imp fun chunk index => False.elim
    onePopper := slots.onePopper.update_of_imp fun chunk index => (pops chunk index).mp
    taking := fun {other chunk index} stands => ?_ }
  · rw [Memory.popIndex_setSlot, Memory.pushIndex_setSlot]
    exact slots.order chunk inUse
  · rw [Memory.pushIndex_setSlot, Memory.popIndex_setSlot, claimed_update_same (pops chunk index)]
    by_cases same : chunk = tail ∧ index = claimed
    · obtain ⟨rfl, rfl⟩ := same
      rw [slot_setSlot_self]
      exact iff_of_true rfl ⟨filled, gone, fun popped =>
        slots.awaited chunk index inUse popped ⟨thread, had⟩⟩
    · rw [slot_setSlot_of_ne same, others chunk index same]
      exact slots.occupied chunk index inUse small
  · rw [claimed_update_same (pops chunk index)]
    rw [Memory.popIndex_setSlot] at popped
    intro new
    by_cases same : chunk = tail ∧ index = claimed
    · obtain ⟨rfl, rfl⟩ := same
      exact absurd new gone
    · exact slots.awaited chunk index inUse popped ((others chunk index same).mp new)
  · have away : ¬ (chunk = tail ∧ index = claimed) := by
      intro all
      obtain ⟨rfl, rfl⟩ := all
      exact notInUse (had.claimed (locals thread)).1
    rw [slot_setSlot_of_ne away]
    exact slots.blank chunk index notInUse small
  · have notSelf : other ≠ thread := by
      intro equal
      subst equal
      rw [Function.update_self] at stands
      cases stands
    rw [Function.update_of_ne notSelf] at stands
    by_cases same : chunk = tail ∧ index = claimed
    · obtain ⟨rfl, rfl⟩ := same
      rw [slot_setSlot_self]
      rfl
    · rw [slot_setSlot_of_ne same]
      exact slots.taking stands

/-- `pop` claims a slot. -/
theorem Slots.claimPop (slots : Slots m role pc) (locals : ∀ other, (pc other).Local m role other)
    {head : ChunkPtr} {claimed : Nat} (here : pc thread = .claimPop head claimed)
    (first : m.popIndex head = claimed) :
    Slots (m.setPopIndex head (claimed + 1)) role
      (Function.update pc thread (.enter head claimed)) := by
  have loc := locals thread
  rw [here] at loc
  have pushes : ∀ chunk index, (Pc.enter head claimed : Pc Value).Pushes chunk index ↔
      (pc thread).Pushes chunk index := by
    intro chunk index
    rw [here]
    rfl
  have now : Claimed Pc.Pops (Function.update pc thread (.enter head claimed)) head claimed :=
    claimed_update.mpr (.inl ⟨rfl, rfl⟩)
  have others : ∀ chunk index, ¬ (head = chunk ∧ claimed = index) →
      (Claimed Pc.Pops (Function.update pc thread (.enter head claimed)) chunk index ↔
        Claimed Pc.Pops pc chunk index) := by
    intro chunk index away
    refine claimed_update_same (iff_of_false away ?_)
    rw [here]
    exact id
  have popIndex : ∀ chunk, (m.setPopIndex head (claimed + 1)).popIndex chunk =
      if chunk = head then claimed + 1 else m.popIndex chunk := by
    intro chunk
    rw [Memory.popIndex_setPopIndex, Function.update_apply]
  refine {
    order := fun chunk inUse => ?_
    occupied := fun chunk index inUse small => ?_
    awaited := fun chunk index inUse popped => ?_
    blank := fun chunk index notInUse small => ?_
    onePusher := slots.onePusher.update_of_imp fun chunk index => (pushes chunk index).mp
    onePopper := slots.onePopper.update fun other chunk index _ new again => ?_
    taking := fun {other chunk index} stands => ?_ }
  · rw [popIndex, Memory.pushIndex_setPopIndex]
    split
    next same =>
      subst same
      exact ⟨loc.2.1, loc.2.2⟩
    next => exact slots.order chunk inUse
  · rw [Memory.slot_setPopIndex, Memory.pushIndex_setPopIndex, popIndex,
      claimed_update_same (pushes chunk index), slots.occupied chunk index inUse small]
    by_cases same : head = chunk ∧ claimed = index
    · obtain ⟨rfl, rfl⟩ := same
      simp [first, now]
    · rw [others chunk index same]
      split
      next isHead =>
        subst isHead
        have differs : claimed ≠ index := fun is => same ⟨rfl, is⟩
        have less : index < claimed + 1 ↔ index < m.popIndex chunk := by omega
        rw [less]
      next => rfl
  · rw [claimed_update_same (pushes chunk index)]
    intro new
    by_cases same : head = chunk ∧ claimed = index
    · obtain ⟨rfl, rfl⟩ := same
      exact now
    · rw [others chunk index same]
      refine slots.awaited chunk index inUse ?_ new
      rw [popIndex] at popped
      split at popped
      next isHead =>
        subst isHead
        have differs : claimed ≠ index := fun is => same ⟨rfl, is⟩
        omega
      next => exact popped
  · rw [Memory.slot_setPopIndex]
    exact slots.blank chunk index notInUse small
  · obtain ⟨rfl, rfl⟩ := new
    have below := (again.claimed (locals other)).2.1
    omega
  · rw [Memory.slot_setPopIndex]
    by_cases self : other = thread
    · subst self
      rw [Function.update_self] at stands
      cases stands
    · rw [Function.update_of_ne self] at stands
      exact slots.taking stands

/-- `pop` empties the slot it has claimed. -/
theorem Slots.takeSlot (slots : Slots m role pc) (locals : ∀ other, (pc other).Local m role other)
    {head : ChunkPtr} {claimed : Nat} {value : Option Value}
    (here : pc thread = .takeSlot head claimed) :
    Slots (m.setSlot head claimed none) role (Function.update pc thread (.leave head value)) := by
  have had : (pc thread).Pops head claimed := by
    rw [here]
    exact ⟨rfl, rfl⟩
  obtain ⟨headInUse, popped, -⟩ := had.claimed (locals thread)
  have claimedSmall : claimed < chunkSize := popped.trans_le (slots.order head headInUse).1
  have full := slots.taking here
  have gone : ¬ Claimed Pc.Pops (Function.update pc thread (.leave head value)) head claimed :=
    not_claimed_update slots.onePopper had id
  have pushes : ∀ chunk index, (Pc.leave head value : Pc Value).Pushes chunk index ↔
      (pc thread).Pushes chunk index := by
    intro chunk index
    rw [here]
    rfl
  have others : ∀ chunk index, ¬ (chunk = head ∧ index = claimed) →
      (Claimed Pc.Pops (Function.update pc thread (.leave head value)) chunk index ↔
        Claimed Pc.Pops pc chunk index) := by
    intro chunk index away
    refine claimed_update_same (iff_of_false id ?_)
    rw [here]
    intro all
    obtain ⟨rfl, rfl⟩ := all
    exact away ⟨rfl, rfl⟩
  refine {
    order := fun chunk inUse => ?_
    occupied := fun chunk index inUse small => ?_
    awaited := fun chunk index inUse less => ?_
    blank := fun chunk index notInUse small => ?_
    onePusher := slots.onePusher.update_of_imp fun chunk index => (pushes chunk index).mp
    onePopper := slots.onePopper.update_of_imp fun chunk index => False.elim
    taking := fun {other chunk index} stands => ?_ }
  · rw [Memory.popIndex_setSlot, Memory.pushIndex_setSlot]
    exact slots.order chunk inUse
  · rw [Memory.pushIndex_setSlot, Memory.popIndex_setSlot,
      claimed_update_same (pushes chunk index)]
    by_cases same : chunk = head ∧ index = claimed
    · obtain ⟨rfl, rfl⟩ := same
      rw [slot_setSlot_self]
      exact iff_of_false (by simp) fun all => gone (all.2.2 popped)
    · rw [slot_setSlot_of_ne same, others chunk index same]
      exact slots.occupied chunk index inUse small
  · rw [claimed_update_same (pushes chunk index)]
    rw [Memory.popIndex_setSlot] at less
    intro new
    by_cases same : chunk = head ∧ index = claimed
    · obtain ⟨rfl, rfl⟩ := same
      exact absurd new ((slots.occupied chunk index inUse claimedSmall).mp full).2.1
    · exact (others chunk index same).mpr (slots.awaited chunk index inUse less new)
  · have away : ¬ (chunk = head ∧ index = claimed) := by
      intro all
      obtain ⟨rfl, rfl⟩ := all
      exact notInUse headInUse
    rw [slot_setSlot_of_ne away]
    exact slots.blank chunk index notInUse small
  · have notSelf : other ≠ thread := by
      intro equal
      subst equal
      rw [Function.update_self] at stands
      cases stands
    rw [Function.update_of_ne notSelf] at stands
    have away : ¬ (chunk = head ∧ index = claimed) := by
      intro all
      obtain ⟨rfl, rfl⟩ := all
      refine notSelf (slots.onePopper other thread chunk index ?_ had)
      rw [stands]
      exact ⟨rfl, rfl⟩
    rw [slot_setSlot_of_ne away]
    exact slots.taking stands

/-! ## One atomic operation -/

/-- **One atomic operation** of a thread keeps the slots in order. -/
theorem Slots.run (slots : Slots m role pc) (locals : ∀ other, (pc other).Local m role other)
    {chain freeChain : List ChunkPtr} (chunks : Chunks m role chain freeChain)
    {others : ChunkPtr → Prop} (careful : (pc thread).Careful m others) {spurious : Bool}
    {event : Option (Event Value)}
    (taken : (pc thread).run m spurious = some (m', next, event)) :
    Slots m' role (Function.update pc thread next) := by
  have loc := locals thread
  have apart : ∀ {chunk owned : ChunkPtr}, (role chunk).InUse → role owned = .owned thread →
      chunk ≠ owned := by
    rintro chunk owned inUse isOwned rfl
    exact Role.not_inUse_owned (isOwned ▸ inUse)
  cases here : pc thread with
  | idle =>
      rw [here] at taken
      cases taken
  | claimPush value tail =>
      rw [here] at taken careful
      have index : (m.pushIndex tail + 1) % 2 ^ 64 = m.pushIndex tail + 1 :=
        Nat.mod_eq_of_lt careful
      simp only [Pc.run, index, Option.some.injEq, Prod.mk.injEq] at taken
      obtain ⟨rfl, behind, -⟩ := taken
      exact slots.claimPush locals here behind.symm
  | checkSlot value tail index =>
      have pushes : (pc thread).Pushes tail index := by
        rw [here]
        exact ⟨rfl, rfl⟩
      have empty := slots.empty_of_pushes locals pushes
      rw [here] at taken
      simp only [Pc.run, empty, Option.isSome_none, Bool.false_eq_true, ↓reduceIte] at taken
      cases taken
      refine slots.quiet locals (fun _ _ _ => rfl) (fun _ _ => rfl) (fun _ _ => rfl) ?_ ?_ ?_
      · exact fun chunk index => by rw [here]; rfl
      · exact fun chunk index => by rw [here]; rfl
      · intro chunk index takes
        cases takes
  | construct value tail index =>
      rw [here] at taken
      cases taken
      exact slots.construct locals here
  | claimPop head index =>
      rw [here] at taken
      simp only [Pc.run] at taken
      split at taken
      next first =>
        cases taken
        exact slots.claimPop locals here first.2
      next =>
        cases taken
        exact slots.load locals (by rw [here]; rfl) rfl
  | enter head index =>
      rw [here] at taken
      cases taken
      refine slots.quiet locals (by simp) (by simp) (by simp) ?_ ?_ ?_
      · exact fun chunk index => by rw [here]; rfl
      · exact fun chunk index => by rw [here]; rfl
      · intro chunk index takes
        cases takes
  | waitSlot head index =>
      rw [here] at taken
      cases taken
      refine slots.quiet locals (fun _ _ _ => rfl) (fun _ _ => rfl) (fun _ _ => rfl) ?_ ?_ ?_
      · intro chunk index
        rw [here]
        split <;> rfl
      · intro chunk index
        rw [here]
        split <;> rfl
      · intro chunk index stands
        split at stands
        next occupied =>
          cases stands
          exact occupied
        next => cases stands
  | takeSlot head index =>
      rw [here] at taken
      cases taken
      exact slots.takeSlot locals here
  | resetPush value tail chunk =>
      rw [here] at taken loc
      cases taken
      refine slots.between locals (by rw [here]; rfl) rfl (by simp) (fun other inUse => ?_)
        (by simp)
      rw [Memory.pushIndex_setPushIndex, Function.update_of_ne (apart inUse loc.2)]
  | resetPop value tail chunk =>
      rw [here] at taken loc
      cases taken
      refine slots.between locals (by rw [here]; rfl) rfl (by simp) (by simp) fun other inUse => ?_
      rw [Memory.popIndex_setPopIndex, Function.update_of_ne (apart inUse loc.2.1)]
  | resetReaders value tail chunk =>
      rw [here] at taken
      cases taken
      exact slots.between locals (by rw [here]; rfl) rfl (by simp) (by simp) (by simp)
  | leave head value =>
      rw [here] at taken
      cases taken
      exact slots.between locals (by rw [here]; rfl) rfl (by simp) (by simp) (by simp)
  | newChunk value tail =>
      rw [here] at taken
      cases taken
      have blank : ¬ (role m.fresh).InUse := by
        rw [(chunks.fresh m.fresh).mpr le_rfl]
        exact Role.not_inUse_unallocated
      have old : ∀ {chunk : ChunkPtr}, (role chunk).InUse → chunk ≠ m.fresh := by
        rintro chunk inUse rfl
        exact blank inUse
      refine slots.between locals (by rw [here]; rfl) rfl (fun chunk index small => ?_) ?_ ?_
      · by_cases new : chunk = m.fresh
        · subst new
          rw [slots.blank _ index blank small]
          simp [Memory.slot, Memory.setChunk, Chunk.new]
        · exact congrFun (congrArg Chunk.slots (Function.update_of_ne new ..)) index
      · exact fun chunk inUse => congrArg Chunk.pushIndex (Function.update_of_ne (old inUse) ..)
      · exact fun chunk inUse => congrArg Chunk.popIndex (Function.update_of_ne (old inUse) ..)
  | _ =>
      have links := Pc.links_run (by rw [here]; rfl) taken
      apply slots.between locals (by rw [here]; rfl) (Pc.unclaimed_of_atSlot links.away)
      · intro chunk index _
        rw [links.slot]
      · intro chunk _
        rw [links.pushIndex]
      · intro chunk _
        rw [links.popIndex]

end

end Drpc.Util.MPMCQueue
