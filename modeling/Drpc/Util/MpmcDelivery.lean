import Drpc.Util.MpmcDrain
import Drpc.Util.MpmcSlots
import Mathlib.Algebra.BigOperators.Group.Finset.Basic
import Mathlib.Algebra.Order.BigOperators.Group.Finset
import Mathlib.Data.Multiset.Bind
import Mathlib.Order.Interval.Finset.Nat
import Mathlib.Tactic.Abel

/-! # What the task queue delivers

In every run whose steps are careful, the values whose `push` has returned are the
values `pop` has returned, those that poppers carry and those in the slots. When no
operation is in progress, the values in the slots are those that further calls of
`pop` return (`delivered_once`).
-/

namespace Drpc.Util.MPMCQueue

open Transition Chain

variable {Thread Value : Type}

/-! ## Accounts -/

/-- The value of a slot. -/
def inSlot : Option Value → Multiset (Option Value)
  | some value => {some value}
  | none => 0

/-- The values in the slots of all chunks. -/
def Memory.stored (m : Memory Value) : Multiset (Option Value) :=
  ∑ chunk ∈ Finset.range m.fresh, ∑ index ∈ Finset.range chunkSize, inSlot (m.slot chunk index)

/-- The value that `pop` is going to return. -/
def After.carries : After Value → Multiset (Option Value)
  | .popReturn value => {value}
  | .moveTail .. | .popAgain => 0

/-- The value that `pop` has taken out of its slot and is going to return. -/
def Pc.carries : Pc Value → Multiset (Option Value)
  | .leave _ value => {value}
  | .loadReaders _ after | .clearRetired _ after | .loadFreeHead _ after | .storeNext _ _ after
  | .pushFree _ _ after => after.carries
  | _ => 0

/-- What a call has put in, -/
def pushedBy : Option (Event Value) → Multiset (Option Value)
  | some (.pushed value) => {some value}
  | some (.popped _) | some .empty | none => 0

/-- and what it has returned. -/
def poppedBy : Option (Event Value) → Multiset (Option Value)
  | some (.popped value) => {value}
  | some (.pushed _) | some .empty | none => 0

/-- A sum of which one summand changes. -/
theorem sum_exchange {ι M : Type} [DecidableEq ι] [AddCommMonoid M] {s : Finset ι} {f g : ι → M}
    {changed : ι} (member : changed ∈ s) (same : ∀ other ∈ s, other ≠ changed → g other = f other)
    {x y : M} (balance : g changed + x = f changed + y) :
    ∑ i ∈ s, g i + x = ∑ i ∈ s, f i + y := by
  have rest : ∑ i ∈ s.erase changed, g i = ∑ i ∈ s.erase changed, f i :=
    Finset.sum_congr rfl fun other inRest =>
      same other (Finset.mem_of_mem_erase inRest) (Finset.ne_of_mem_erase inRest)
  rw [← Finset.add_sum_erase s g member, ← Finset.add_sum_erase s f member, rest, add_right_comm,
    balance, add_right_comm]

theorem sum_singletons {ι α : Type} (s : Finset ι) (f : ι → α) :
    ∑ i ∈ s, ({f i} : Multiset α) = s.val.map f := by
  rw [Finset.sum_eq_multiset_sum, ← Multiset.sum_map_singleton (s.val.map f), Multiset.map_map]
  rfl

variable {m m' : Memory Value} {role : ChunkPtr → Role Thread} {pc : Thread → Pc Value}
  {thread : Thread}

theorem stored_congr (fresh : m'.fresh = m.fresh)
    (slot : ∀ chunk index, index < chunkSize → m'.slot chunk index = m.slot chunk index) :
    m'.stored = m.stored := by
  unfold Memory.stored
  rw [fresh]
  refine Finset.sum_congr rfl fun chunk _ => Finset.sum_congr rfl fun index small => ?_
  rw [slot chunk index (Finset.mem_range.mp small)]

/-- One slot is written. -/
theorem stored_setSlot {chunk : ChunkPtr} {index : Nat} (allocated : chunk < m.fresh)
    (small : index < chunkSize) (value : Option Value) :
    (m.setSlot chunk index value).stored + inSlot (m.slot chunk index) =
      m.stored + inSlot value := by
  refine sum_exchange (Finset.mem_range.mpr allocated) (fun other _ differs => ?_) ?_
  · refine Finset.sum_congr rfl fun position _ => ?_
    rw [slot_setSlot_of_ne fun is => differs is.1]
  · refine sum_exchange (Finset.mem_range.mpr small) (fun other _ differs => ?_) ?_
    · rw [slot_setSlot_of_ne fun is => differs is.2]
    · rw [slot_setSlot_self, add_comm]

/-- A new chunk stores nothing. -/
theorem stored_newChunk :
    ({ m.setChunk m.fresh .new with
      chunkCount := m.chunkCount + 1, fresh := m.fresh + 1 } : Memory Value).stored =
      m.stored := by
  have old : ∀ chunk ∈ Finset.range m.fresh, chunk ≠ m.fresh := fun chunk member =>
    (Finset.mem_range.mp member).ne
  unfold Memory.stored
  rw [Finset.sum_range_succ]
  have nothing : ∑ index ∈ Finset.range chunkSize, inSlot (({ m.setChunk m.fresh .new with
      chunkCount := m.chunkCount + 1, fresh := m.fresh + 1 } : Memory Value).slot m.fresh index) =
      0 := by
    refine Finset.sum_eq_zero fun index _ => ?_
    simp [Memory.slot, Memory.setChunk, Chunk.new, inSlot]
  rw [nothing, add_zero]
  refine Finset.sum_congr rfl fun chunk member => Finset.sum_congr rfl fun index _ => ?_
  exact congrArg inSlot
    (congrFun (congrArg Chunk.slots (Function.update_of_ne (old chunk member) ..)) index)

/-- Resuming an operation returns what it carries. -/
theorem resume_balance (after : After Value) :
    after.resume.1.carries + poppedBy after.resume.2 = after.carries + pushedBy after.resume.2 := by
  cases after <;> simp [After.resume, Pc.carries, After.carries, poppedBy, pushedBy]

theorem carries_allocateFrom (value : Value) (tail : ChunkPtr) (first : Option ChunkPtr) :
    (allocateFrom value tail first).carries = 0 := by
  cases first <;> rfl

/-- So does the operation that resumes it. -/
theorem returns_balance {after : After Value} {next : Pc Value} {event : Option (Event Value)}
    {behind : Memory Value} (taken : some (behind, after.resume) = some (m', next, event))
    (stored : behind.stored = m.stored) :
    next.carries + poppedBy event + m'.stored = after.carries + pushedBy event + m.stored := by
  have balance := resume_balance after
  simp only [Option.some.injEq, Prod.mk.injEq] at taken
  rw [taken.2] at balance
  rw [← taken.1, stored, balance]

/-- **One atomic operation** neither loses nor makes a value. -/
theorem run_balance (slots : Slots m role pc) (locals : ∀ other, (pc other).Local m role other)
    {chain freeChain : List ChunkPtr} (chunks : Chunks m role chain freeChain) {spurious : Bool}
    {next : Pc Value} {event : Option (Event Value)}
    (taken : (pc thread).run m spurious = some (m', next, event)) :
    next.carries + poppedBy event + m'.stored =
      (pc thread).carries + pushedBy event + m.stored := by
  have allocated : ∀ {chunk : ChunkPtr}, (role chunk).InUse → chunk < m.fresh := by
    intro chunk inUse
    by_contra notLess
    rw [(chunks.fresh chunk).mpr (Nat.le_of_not_lt notLess)] at inUse
    exact Role.not_inUse_unallocated inUse
  have settled : ∀ {m' : Memory Value} {now next : Pc Value} {event : Option (Event Value)},
      m'.stored = m.stored → next.carries + poppedBy event = now.carries + pushedBy event →
      next.carries + poppedBy event + m'.stored = now.carries + pushedBy event + m.stored := by
    intro m' now next event stored balance
    rw [stored, balance]
  cases here : pc thread with
  | construct value tail index =>
      have pushes : (pc thread).Pushes tail index := by
        rw [here]
        exact ⟨rfl, rfl⟩
      obtain ⟨inUse, small, -⟩ := pushes.claimed (locals thread)
      have empty := slots.empty_of_pushes locals pushes
      have stored := stored_setSlot (allocated inUse) small (some value)
      rw [here] at taken
      cases taken
      rw [empty] at stored
      simpa [Pc.carries, poppedBy, pushedBy, inSlot, add_comm] using stored
  | takeSlot head index =>
      have pops : (pc thread).Pops head index := by
        rw [here]
        exact ⟨rfl, rfl⟩
      obtain ⟨inUse, popped, -⟩ := pops.claimed (locals thread)
      obtain ⟨value, full⟩ := Option.isSome_iff_exists.mp (slots.taking here)
      have stored := stored_setSlot (allocated inUse)
        (popped.trans_le (slots.order head inUse).1) none
      rw [here] at taken
      cases taken
      rw [full] at stored ⊢
      simpa [Pc.carries, poppedBy, pushedBy, inSlot, add_comm] using stored
  | newChunk value tail =>
      rw [here] at taken
      cases taken
      rw [stored_newChunk]
      rfl
  | idle =>
      rw [here] at taken
      cases taken
  | loadTail | storeTail | moveTail | loadFreeNext | loadHead | loadPopIndex | loadFreeHead =>
      rw [here] at taken
      cases taken
      exact settled rfl rfl
  | claimPush value tail =>
      rw [here] at taken
      cases taken
      refine settled (stored_congr rfl (by simp)) ?_
      split <;> rfl
  | checkSlot value tail index | waitSlot head index =>
      rw [here] at taken
      cases taken
      apply settled rfl
      split <;> rfl
  | loadPushIndex head index =>
      rw [here] at taken
      cases taken
      apply settled rfl
      split
      · rfl
      · split <;> rfl
  | linkNext value tail new =>
      rw [here] at taken
      simp only [Pc.run] at taken
      split at taken <;> cases taken
      · exact settled (stored_congr rfl (by simp)) rfl
      · exact settled rfl rfl
  | loadFree value tail =>
      rw [here] at taken
      cases taken
      apply settled rfl
      rw [carries_allocateFrom]
      rfl
  | takeFree value tail chunk free =>
      rw [here] at taken
      simp only [Pc.run] at taken
      split at taken <;> cases taken
      · exact settled rfl rfl
      · apply settled rfl
        rw [carries_allocateFrom]
        rfl
  | resetPush | resetPop | resetNext | resetReaders | resetRetired | enter | storeRetired
  | leave | storeNext =>
      rw [here] at taken
      cases taken
      exact settled (stored_congr rfl (by simp)) rfl
  | loadNextConsumed head | loadNextEmpty head | moveHeadConsumed head link
  | moveHeadEmpty head link =>
      rw [here] at taken
      simp only [Pc.run] at taken
      split at taken <;> cases taken <;> exact settled rfl rfl
  | claimPop head index =>
      rw [here] at taken
      simp only [Pc.run] at taken
      split at taken <;> cases taken
      · exact settled (stored_congr rfl (by simp)) rfl
      · exact settled rfl rfl
  | loadReaders chunk after =>
      rw [here] at taken
      simp only [Pc.run] at taken
      split at taken
      · cases taken
        exact settled rfl rfl
      · exact returns_balance taken rfl
  | clearRetired chunk after =>
      rw [here] at taken
      simp only [Pc.run] at taken
      split at taken
      · cases taken
        exact settled (stored_congr rfl (by simp)) rfl
      · exact returns_balance taken rfl
  | pushFree chunk old after =>
      rw [here] at taken
      simp only [Pc.run] at taken
      split at taken
      · exact returns_balance taken rfl
      · cases taken
        exact settled rfl rfl

/-! ## Runs of the threads -/

/-- What a call returns is written down. -/
theorem values_record (s : State Thread Value) (event : Option (Event Value))
    {rest : Multiset (Option Value)}
    (values : ((s.pushed.map some : List (Option Value)) : Multiset (Option Value)) +
      pushedBy event = s.popped + poppedBy event + rest) :
    (((s.record event).pushed.map some : List (Option Value)) : Multiset (Option Value)) =
      (s.record event).popped + rest := by
  unfold State.record
  split
  · simpa [pushedBy, poppedBy, ← Multiset.coe_add, add_assoc] using values
  · simpa [pushedBy, poppedBy, ← Multiset.coe_add, add_assoc] using values
  · simpa [pushedBy, poppedBy] using values
  · simpa [pushedBy, poppedBy] using values

/-- The steps of a run are careful. -/
def Careful (s : State Thread Value) : Label Thread Value → Prop
  | .run thread _ => (s.pc thread).Careful s.memory (Others s.pc thread)
  | .push .. | .pop _ => True

instance [Fintype Thread] [DecidableEq Thread] (s : State Thread Value)
    (label : Label Thread Value) : Decidable (Careful s label) :=
  match label with
  | .run thread _ =>
      have : DecidablePred (Others s.pc thread) := fun chunk =>
        inferInstanceAs (Decidable (∃ other ≠ thread, chunk ∈ (s.pc other).holds))
      inferInstanceAs (Decidable ((s.pc thread).Careful s.memory (Others s.pc thread)))
  | .push .. | .pop _ => .isTrue trivial

variable {s : State Thread Value} {chain freeChain : List ChunkPtr}

theorem State.Quiet.pc_eq (quiet : s.Quiet) (thread : Thread) : s.pc thread = .idle :=
  Pc.eq_idle (quiet thread)

theorem State.Quiet.not_pushes (quiet : s.Quiet) (chunk : ChunkPtr) (index : Nat) :
    ¬ Claimed Pc.Pushes s.pc chunk index := by
  intro all
  obtain ⟨thread, pushes⟩ := all
  rw [quiet.pc_eq thread] at pushes
  exact pushes

theorem State.Quiet.not_pops (quiet : s.Quiet) (chunk : ChunkPtr) (index : Nat) :
    ¬ Claimed Pc.Pops s.pc chunk index := by
  intro all
  obtain ⟨thread, pops⟩ := all
  rw [quiet.pc_eq thread] at pops
  exact pops

section

variable [Fintype Thread]

/-- The invariant of careful runs. -/
structure State.Inv (s : State Thread Value) (role : ChunkPtr → Role Thread)
    (chain freeChain : List ChunkPtr) : Prop where
  chunks : Chunks s.memory role chain freeChain
  locals : ∀ thread, (s.pc thread).Local s.memory role thread
  slots : Slots s.memory role s.pc
  values : ((s.pushed.map some : List (Option Value)) : Multiset (Option Value)) =
    s.popped + ∑ thread, (s.pc thread).carries + s.memory.stored

theorem inv_init : (State.init : State Thread Value).Inv
    (fun chunk => if chunk = 0 then .live else .unallocated) [0] [] where
  chunks := {
    linked := ⟨rfl, rfl⟩
    freeLinked := rfl
    live := fun chunk => by simp
    free := fun chunk => by
      split <;> simp
    chainNodup := List.nodup_singleton _
    freeNodup := List.nodup_nil
    fresh := fun chunk => by
      simp only [State.init, Memory.init, Nat.one_le_iff_ne_zero]
      split <;> simp_all
    tailInUse := .inl rfl
    tail := ⟨0, rfl, rfl, .inl rfl⟩
    left := fun chunk => by
      split <;> simp
    retired := fun _ _ => rfl }
  locals _ := trivial
  slots := {
    order := fun _ _ => ⟨Nat.zero_le _, le_rfl⟩
    occupied := fun chunk index _ _ => by
      simp [State.init, Memory.init, Memory.slot, Memory.pushIndex, Chunk.new]
    awaited := fun chunk index _ less => absurd less (Nat.not_lt_zero _)
    blank := fun _ _ _ _ => rfl
    onePusher := fun _ _ _ _ pushes => pushes.elim
    onePopper := fun _ _ _ _ pops => pops.elim
    taking := nofun }
  values := by
    have empty : (Memory.init : Memory Value).stored = 0 :=
      Finset.sum_eq_zero fun _ _ => Finset.sum_eq_zero fun _ _ => rfl
    simp [State.init, empty, Pc.carries]

variable [DecidableEq Thread]

/-- A call starts. -/
theorem State.Inv.call (inv : s.Inv role chain freeChain) (idle : s.pc thread = .idle)
    (call : Call Value) : (s.setPc thread call.start).Inv role chain freeChain := by
  refine ⟨inv.chunks, fun other => ?_, ?_, ?_⟩
  · by_cases self : other = thread
    · subst self
      rw [State.pc_setPc, Function.update_self]
      cases call <;> trivial
    · rw [State.pc_setPc, Function.update_of_ne self]
      exact inv.locals other
  · apply inv.slots.load inv.locals
    · rw [idle]
      rfl
    · cases call <;> rfl
  · rw [show ∑ other, ((s.setPc thread call.start).pc other).carries =
        ∑ other, (s.pc other).carries from Finset.sum_congr rfl fun other _ => ?_]
    · exact inv.values
    · rw [State.pc_setPc]
      by_cases self : other = thread
      · subst self
        rw [Function.update_self, idle]
        cases call <;> rfl
      · rw [Function.update_of_ne self]

/-- The accounts behind a step: what the threads carry changes by what the thread does. -/
private theorem accounts {M : Type} [AddCancelCommMonoid M]
    {pushed popped carried carried' stored stored' before now into out : M}
    (values : pushed = popped + carried + stored) (sum : carried' + before = carried + now)
    (balance : now + out + stored' = before + into + stored) :
    pushed + into = popped + out + (carried' + stored') := by
  apply add_right_cancel (b := before)
  calc pushed + into + before
      = popped + carried + (before + into + stored) := by
        rw [values]
        abel
    _ = popped + (carried + now) + out + stored' := by
        rw [← balance]
        abel
    _ = popped + out + (carried' + stored') + before := by
        rw [← sum]
        abel

/-- **One atomic operation** of a careful run. `others` may name more chunks than the other
threads work on: what they keep, the operation keeps of these as well. -/
theorem State.Inv.run (inv : s.Inv role chain freeChain) {others : ChunkPtr → Prop}
    (among : ∀ chunk, Others s.pc thread chunk → others chunk)
    (careful : (s.pc thread).Careful s.memory others) {spurious : Bool} {memory : Memory Value}
    {now : Pc Value} {event : Option (Event Value)}
    (ran : (s.pc thread).run s.memory spurious = some (memory, now, event)) :
    ∃ role' chain freeChain,
      (({ s with memory }.setPc thread now).record event).Inv role' chain freeChain ∧
        Guarantee s.memory role memory role' thread others := by
  obtain ⟨role', chain', freeChain', chunks, here, kept⟩ :=
    inv.chunks.run (inv.locals thread) careful ran
  have slots := inv.slots.run inv.locals inv.chunks careful ran
  have balance := run_balance inv.slots inv.locals inv.chunks ran
  have locals : ∀ other, (Function.update s.pc thread now other).Local memory role' other := by
    intro other
    by_cases self : other = thread
    · subst self
      rwa [Function.update_self]
    · rw [Function.update_of_ne self]
      exact (inv.locals other).stable self fun chunk held =>
        kept.keeps chunk (among chunk ⟨other, self, held⟩)
  have sum : ∑ other, (Function.update s.pc thread now other).carries + (s.pc thread).carries =
      ∑ other, (s.pc other).carries + now.carries := by
    refine sum_exchange (Finset.mem_univ thread) (fun other _ differs => ?_) ?_
    · rw [Function.update_of_ne differs]
    · rw [Function.update_self, add_comm]
  refine ⟨role', chain', freeChain', ⟨?_, ?_, ?_, ?_⟩, kept⟩
  · rw [memory_record]
    exact chunks
  · rw [memory_record, pc_record]
    exact locals
  · rw [memory_record, pc_record]
    exact slots.changeRoles (kept.mono among) here inv.locals
  · rw [memory_record, pc_record, add_assoc]
    exact values_record _ event (accounts inv.values sum balance)

/-- **One step** of a careful run. -/
theorem State.Inv.step (inv : s.Inv role chain freeChain) {label : Label Thread Value}
    {next : State Thread Value} (careful : Careful s label)
    (taken : MPMCQueue.step s label = some next) :
    ∃ role chain freeChain, next.Inv role chain freeChain := by
  rcases step_cases taken with ⟨thread, call, idle, rfl⟩ |
    ⟨thread, spurious, memory, now, event, rfl, ran, rfl⟩
  · exact ⟨role, chain, freeChain, inv.call idle call⟩
  · obtain ⟨role', chain', freeChain', behind, -⟩ := inv.run (fun _ => id) careful ran
    exact ⟨role', chain', freeChain', behind⟩

end

/-! ## When no operation is in progress -/

section

variable [Fintype Thread]

/-- The occupied slots of a chunk are those between its two counters. -/
theorem State.Inv.occupied (inv : s.Inv role chain freeChain) (quiet : s.Quiet) {chunk : ChunkPtr}
    (inUse : (role chunk).InUse) {index : Nat} (small : index < chunkSize) :
    (s.memory.slot chunk index).isSome = true ↔
      s.memory.popIndex chunk ≤ index ∧ index < s.memory.pushIndex chunk := by
  rw [inv.slots.occupied chunk index inUse small, and_comm]
  simp only [quiet.not_pushes, quiet.not_pops, not_false_eq_true, true_and, imp_false, not_lt]

/-- The queue is at rest. -/
theorem State.Inv.resting (inv : s.Inv role chain freeChain) (quiet : s.Quiet) :
    Resting s.memory chain where
  linked := inv.chunks.linked
  nodup := inv.chunks.chainNodup
  full chunk member _ popped pushed small :=
    (inv.occupied quiet (.inl ((inv.chunks.live chunk).mpr member)) small).mpr ⟨popped, pushed⟩
  retired chunk member := inv.chunks.retired chunk ((inv.chunks.live chunk).mpr member)

/-- The values in the slots of a chunk in use. -/
theorem State.Inv.sum_slots (inv : s.Inv role chain freeChain) (quiet : s.Quiet)
    {chunk : ChunkPtr} (inUse : (role chunk).InUse) :
    ∑ index ∈ Finset.range chunkSize, inSlot (s.memory.slot chunk index) =
      (s.memory.window chunk : Multiset (Option Value)) := by
  have inside : Finset.Ico (s.memory.popIndex chunk) (min (s.memory.pushIndex chunk) chunkSize) ⊆
      Finset.range chunkSize := fun _ member =>
    Finset.mem_range.mpr ((Finset.mem_Ico.mp member).2.trans_le (min_le_right _ _))
  have outside : ∀ index ∈ Finset.range chunkSize, index ∉ Finset.Ico (s.memory.popIndex chunk)
      (min (s.memory.pushIndex chunk) chunkSize) → inSlot (s.memory.slot chunk index) = 0 := by
    intro index small outside
    rw [Finset.mem_range] at small
    have empty : ¬ (s.memory.slot chunk index).isSome = true := by
      rw [inv.occupied quiet inUse small]
      intro all
      obtain ⟨popped, pushed⟩ := all
      exact outside (Finset.mem_Ico.mpr ⟨popped, lt_min pushed small⟩)
    rw [Option.not_isSome_iff_eq_none.mp empty]
    rfl
  have full : ∀ index ∈ Finset.Ico (s.memory.popIndex chunk)
      (min (s.memory.pushIndex chunk) chunkSize),
      inSlot (s.memory.slot chunk index) = {s.memory.slot chunk index} := by
    intro index member
    obtain ⟨popped, pushed⟩ := Finset.mem_Ico.mp member
    obtain ⟨value, holds⟩ := Option.isSome_iff_exists.mp ((inv.occupied quiet inUse
      (pushed.trans_le (min_le_right _ _))).mpr ⟨popped, pushed.trans_le (min_le_left _ _)⟩)
    rw [holds]
    rfl
  rw [← Finset.sum_subset inside outside, Finset.sum_congr rfl full]
  exact sum_singletons _ _

/-- The values in the slots are those of the chunks of the chain. -/
theorem State.Inv.stored_eq (inv : s.Inv role chain freeChain) (quiet : s.Quiet) :
    s.memory.stored = (chain.flatMap s.memory.window : Multiset (Option Value)) := by
  have allocated : chain.toFinset ⊆ Finset.range s.memory.fresh := by
    intro chunk member
    have live := (inv.chunks.live chunk).mpr (List.mem_toFinset.mp member)
    refine Finset.mem_range.mpr (Nat.lt_of_not_le fun unallocated => ?_)
    rw [(inv.chunks.fresh chunk).mpr unallocated] at live
    cases live
  have values : ∀ chunk ∈ chain.toFinset, ∑ index ∈ Finset.range chunkSize,
      inSlot (s.memory.slot chunk index) = (s.memory.window chunk : Multiset (Option Value)) :=
    fun chunk member =>
      inv.sum_slots quiet (.inl ((inv.chunks.live chunk).mpr (List.mem_toFinset.mp member)))
  have others : ∀ chunk ∈ Finset.range s.memory.fresh, chunk ∉ chain.toFinset →
      ∑ index ∈ Finset.range chunkSize, inSlot (s.memory.slot chunk index) = 0 := by
    intro chunk _ outside
    by_cases left : role chunk = .left
    · have nothing : min (s.memory.pushIndex chunk) chunkSize - s.memory.popIndex chunk = 0 := by
        have consumed := (inv.chunks.left chunk left).1
        omega
      rw [inv.sum_slots quiet (.inr left), Memory.window, nothing]
      rfl
    · have notInUse : ¬ (role chunk).InUse := by
        intro either
        rcases either with live | is
        · exact outside (List.mem_toFinset.mpr ((inv.chunks.live chunk).mp live))
        · exact left is
      refine Finset.sum_eq_zero fun index small => ?_
      rw [inv.slots.blank chunk index notInUse (Finset.mem_range.mp small)]
      rfl
  calc s.memory.stored
      = ∑ chunk ∈ chain.toFinset, (s.memory.window chunk : Multiset (Option Value)) := by
        rw [Memory.stored, ← Finset.sum_subset allocated others, Finset.sum_congr rfl values]
    _ = (chain.map fun chunk => (s.memory.window chunk : Multiset (Option Value))).sum :=
        List.sum_toFinset _ inv.chunks.chainNodup
    _ = (chain.flatMap s.memory.window : Multiset (Option Value)) :=
        Multiset.coe_bind chain s.memory.window

/-- The invariant, when no operation is in progress: what further calls of `pop` return
makes up for what was pushed and not popped. -/
theorem State.Inv.delivered (inv : s.Inv role chain freeChain) (quiet : s.Quiet) :
    ∃ rest, Drains s.memory rest ∧ (s.pushed.map some).Perm (s.popped ++ rest) := by
  refine ⟨chain.flatMap s.memory.window, (inv.resting quiet).drains, ?_⟩
  have nothing : ∑ thread, (s.pc thread).carries = 0 :=
    Finset.sum_eq_zero fun thread _ => by
      rw [quiet.pc_eq thread]
      rfl
  have values := inv.values
  rw [nothing, add_zero, inv.stored_eq quiet] at values
  exact Multiset.coe_eq_coe.mp values

/-- In every state, `pop` has returned what was pushed, and nothing twice. -/
theorem State.Inv.popped_subperm (inv : s.Inv role chain freeChain) :
    s.popped.Subperm (s.pushed.map some) := by
  rw [← Multiset.coe_le, inv.values, add_assoc]
  exact Multiset.le_add_right _ _

variable [DecidableEq Thread]

/-- **Every element is delivered exactly once.** In a run whose steps are careful, `pop`
returns what was pushed and nothing twice; when no operation is in progress, the values
whose `push` has returned are those `pop` has returned and those that further calls of
`pop` would return. -/
theorem delivered_once {labels : List (Label Thread Value)} {s : State Thread Value}
    (run : exec MPMCQueue.step .init labels = some s)
    (careful : Along MPMCQueue.step Careful .init labels) :
    s.popped.Subperm (s.pushed.map some) ∧
      (s.Quiet → ∃ rest, Drains s.memory rest ∧ (s.pushed.map some).Perm (s.popped ++ rest)) := by
  have preserved : ∀ (s : State Thread Value) label (next : State Thread Value),
      (∃ role chain freeChain, s.Inv role chain freeChain) → Careful s label →
      MPMCQueue.step s label = some next →
      ∃ role chain freeChain, next.Inv role chain freeChain := by
    rintro s label next ⟨role, chain, freeChain, inv⟩ allowed taken
    exact inv.step allowed taken
  obtain ⟨role, chain, freeChain, inv⟩ :=
    exec_invariant preserved ⟨_, _, _, inv_init⟩ run careful
  exact ⟨inv.popped_subperm, inv.delivered⟩

end

/-! ## Two threads -/

/-- Two threads push at the same time, and one of them pops. -/
def twoPushers : List (Label Bool Nat) :=
  [.push true 7, .push false 8, .run true false, .run false false, .run false false,
    .run true false, .run true false, .run false false, .run false false, .run true false,
    .pop true] ++ List.replicate 10 (.run true false)

/-- The queue delivers what they push. -/
theorem delivered_once_of_two : ∃ s, exec MPMCQueue.step .init twoPushers = some s ∧
    s.popped.Subperm (s.pushed.map some) ∧
      (s.Quiet → ∃ rest, Drains s.memory rest ∧ (s.pushed.map some).Perm (s.popped ++ rest)) := by
  obtain ⟨s, run⟩ : ∃ s, exec MPMCQueue.step .init twoPushers = some s :=
    Option.isSome_iff_exists.mp (by decide +kernel)
  exact ⟨s, run, delivered_once run (by decide +kernel)⟩

/-- The consumer reads the counters of an empty chunk; then the producer fills it and
links the next one; then the consumer goes on. -/
def lossy : List (Label Bool Nat) :=
  .pop true :: List.replicate 3 (.run true false) ++
    (List.range 64).flatMap
      (fun value => .push false value :: List.replicate 4 (.run false false)) ++
    .push false 64 :: List.replicate 10 (.run false false) ++ List.replicate 18 (.run true false)

/-- `pop` moves `head_chunk` past 64 values that nobody has popped. -/
theorem lost_at_moveHead : ¬ ∀ (labels : List (Label Bool Nat)) (s : State Bool Nat),
    exec MPMCQueue.step .init labels = some s → s.Quiet →
      ∃ rest, Drains s.memory rest ∧ (s.pushed.map some).Perm (s.popped ++ rest) := by
  intro always
  obtain ⟨s, run, quiet, pushed, popped, last, nothing⟩ :
      ∃ s ∈ exec MPMCQueue.step .init lossy,
        s.Quiet ∧ s.pushed.length = 65 ∧ s.popped = [some 64] ∧
          s.memory.next s.memory.headChunk = none ∧
          min (s.memory.pushIndex s.memory.headChunk) chunkSize ≤
            s.memory.popIndex s.memory.headChunk := by
    decide +kernel
  obtain ⟨rest, drains, perm⟩ := always lossy s run quiet
  obtain rfl := drains.unique (.empty (returns_empty last nothing))
  have lengths := perm.length_eq
  rw [List.length_map, pushed, popped] at lengths
  exact absurd lengths (by decide)

end Drpc.Util.MPMCQueue
