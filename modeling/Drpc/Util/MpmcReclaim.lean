import Drpc.Util.MpmcDelivery
import Mathlib.Algebra.BigOperators.Group.Finset.Piecewise

/-! # The free chunks of the task queue

In every run whose steps are careful, a chunk on the free list is there once, is out
of the chain, holds no value, and nobody is going to write to it or has claimed a
slot of it; and `active_readers` counts the poppers between their `fetch_add` and
their `fetch_sub` (`State.Inv.reclaimed`).
-/

namespace Drpc.Util.MPMCQueue

open Transition Chain

variable {Thread Value : Type}

/-- The chunk on which `pop` is between its `fetch_add` and its `fetch_sub`. -/
def Pc.reading : Pc Value → Option ChunkPtr
  | .waitSlot head _ | .takeSlot head _ | .leave head _ => some head
  | _ => none

/-- The chunk to which `pop` is about to announce itself. -/
def Pc.entering : Pc Value → Option ChunkPtr
  | .enter head _ => some head
  | _ => none

/-- The chunk `try_release_chunk` is checking. -/
def Pc.checks : Pc Value → Option ChunkPtr
  | .loadReaders chunk _ | .clearRetired chunk _ => some chunk
  | _ => none

/-- The chunks whose `push_index` or `next` a `push` in progress may still write. -/
def Pc.Updates (pc : Pc Value) (chunk : ChunkPtr) : Prop :=
  match pc with
  | .claimPush _ tail | .loadFree _ tail | .loadFreeNext _ tail _ | .takeFree _ tail _ _
  | .newChunk _ tail => chunk = tail
  | .resetPush _ tail new | .resetPop _ tail new | .resetNext _ tail new
  | .resetReaders _ tail new | .resetRetired _ tail new | .linkNext _ tail new =>
      chunk = tail ∨ chunk = new
  | .loadFreeHead new (.moveTail ..) | .storeNext new _ (.moveTail ..)
  | .pushFree new _ (.moveTail ..) => chunk = new
  | _ => False

/-- The poppers that have announced themselves on a chunk. -/
def readers [Fintype Thread] (pc : Thread → Pc Value) (chunk : ChunkPtr) : Finset Thread :=
  Finset.univ.filter fun thread => (pc thread).reading = some chunk

/-- What the chunks of the chain and those of the free list are. -/
structure State.Reclaimed [Fintype Thread] (s : State Thread Value) (chain free : List ChunkPtr) :
    Prop where
  linked : Linked s.memory.next (some s.memory.headChunk) chain
  freeLinked : Linked s.memory.next s.memory.freeList free
  once : free.Nodup
  notHead : s.memory.headChunk ∉ free
  notTail : s.memory.tailChunk ∉ free
  notLinked : ∀ chunk ∈ free, chunk ∉ chain
  empty : ∀ chunk ∈ free, ∀ index < chunkSize, s.memory.slot chunk index = none
  unclaimed : ∀ chunk ∈ free, ∀ index, ¬ Claimed Pc.Pops s.pc chunk index
  notUpdated : ∀ chunk ∈ free, ∀ thread, ¬ (s.pc thread).Updates chunk
  activeReaders : ∀ chunk, s.memory.activeReaders chunk = (readers s.pc chunk).card

/-- `active_readers` does not wrap around. -/
def Countable (s : State Thread Value) : Label Thread Value → Prop
  | .run thread _ => ∀ head ∈ (s.pc thread).entering, s.memory.activeReaders head + 1 < 2 ^ 64
  | .push .. | .pop _ => True

instance (s : State Thread Value) (label : Label Thread Value) : Decidable (Countable s label) :=
  match label with
  | .run thread _ => inferInstanceAs (Decidable (∀ head ∈ (s.pc thread).entering,
      s.memory.activeReaders head + 1 < 2 ^ 64))
  | .push .. | .pop _ => .isTrue trivial

variable {m m' : Memory Value} {role : ChunkPtr → Role Thread} {pc : Thread → Pc Value}
  {thread : Thread} {chain freeChain : List ChunkPtr} {now next : Pc Value} {chunk : ChunkPtr}

/-- A chunk that `push` may still write to is not on the free list. -/
theorem Pc.Updates.notFree (updates : now.Updates chunk) (loc : now.Local m role thread) :
    role chunk ≠ .free := by
  have used {used : ChunkPtr} (inUse : (role used).InUse) : role used ≠ .free := fun free =>
    Role.not_inUse_free (free ▸ inUse)
  have owned {owned : ChunkPtr} (mine : role owned = .owned thread) : role owned ≠ .free := by
    rw [mine]
    nofun
  cases now with
  | claimPush value tail | loadFree value tail | loadFreeNext value tail candidate
  | newChunk value tail =>
      subst updates
      exact used loc.1
  | takeFree value tail candidate link =>
      subst updates
      exact used loc.1.1
  | resetPush value tail new =>
      rcases updates with rfl | rfl
      · exact used loc.1.1
      · exact owned loc.2
  | resetPop value tail new | resetNext value tail new | resetReaders value tail new
  | resetRetired value tail new | linkNext value tail new =>
      rcases updates with rfl | rfl
      · exact used loc.1.1
      · exact owned loc.2.1
  | loadFreeHead new after =>
      cases after with
      | moveTail value tail expected =>
          subst updates
          rcases loc.1 with mine | ⟨-, pops⟩
          · exact owned mine
          · exact pops.elim
      | popAgain | popReturn => exact updates.elim
  | storeNext new old after | pushFree new old after =>
      cases after with
      | moveTail value tail expected =>
          subst updates
          exact owned loc.1
      | popAgain | popReturn => exact updates.elim
  | _ => exact updates.elim

/-- A chunk that `pop` reads is in use. -/
theorem inUse_of_reading (reads : now.reading = some chunk) (loc : now.Local m role thread) :
    (role chunk).InUse := by
  cases now with
  | waitSlot head index | takeSlot head index =>
      cases reads
      exact loc.1
  | leave head value =>
      cases reads
      exact loc
  | _ => cases reads

/-! ## The readers of a chunk -/

theorem reading_of_atSlot (away : now.atSlot = false) : now.reading = none := by
  cases now with
  | waitSlot | takeSlot | leave => cases away
  | _ => rfl

section

variable [Fintype Thread]

/-- `active_readers` counts the readers. -/
structure Counted (m : Memory Value) (pc : Thread → Pc Value) : Prop where
  counted : ∀ chunk, m.activeReaders chunk = (readers pc chunk).card
  bounded : ∀ chunk, m.activeReaders chunk < 2 ^ 64

/-- Nobody reads a chunk that is not in use. -/
theorem Counted.eq_zero (count : Counted m pc) (locals : ∀ other, (pc other).Local m role other)
    (notInUse : ¬ (role chunk).InUse) : m.activeReaders chunk = 0 := by
  rw [count.counted, Finset.card_eq_zero]
  apply Finset.filter_eq_empty_iff.mpr
  intro other _ reads
  exact notInUse (inUse_of_reading reads (locals other))

variable [DecidableEq Thread]

/-- The readers, when one thread goes on. -/
theorem card_readers_update (chunk : ChunkPtr) :
    (readers (Function.update pc thread next) chunk).card +
        (if (pc thread).reading = some chunk then 1 else 0) =
      (readers pc chunk).card + if next.reading = some chunk then 1 else 0 := by
  simp only [readers, Finset.card_filter]
  refine sum_exchange (Finset.mem_univ thread) (fun other _ differs => ?_) ?_
  · rw [Function.update_of_ne differs]
  · rw [Function.update_self, add_comm]

/-- What a step has to do to `active_readers`. -/
theorem Counted.update (count : Counted m pc)
    (balance : ∀ chunk, m'.activeReaders chunk +
        (if (pc thread).reading = some chunk then 1 else 0) =
      m.activeReaders chunk + if next.reading = some chunk then 1 else 0)
    (bounded : ∀ chunk, m'.activeReaders chunk < 2 ^ 64) :
    Counted m' (Function.update pc thread next) where
  counted chunk := by
    have change : (readers (Function.update pc thread next) chunk).card +
        (if (pc thread).reading = some chunk then 1 else 0) =
      (readers pc chunk).card + if next.reading = some chunk then 1 else 0 :=
      card_readers_update chunk
    have before := count.counted chunk
    have behind := balance chunk
    omega
  bounded := bounded

/-- A step that leaves `active_readers` alone. -/
theorem Counted.same (count : Counted m pc) (memory : m'.activeReaders = m.activeReaders)
    (reading : next.reading = (pc thread).reading) :
    Counted m' (Function.update pc thread next) := by
  apply count.update
  · intro chunk
    rw [memory, reading]
  · rw [memory]
    exact count.bounded

/-- A step between two places where the thread reads no chunk. -/
theorem Counted.between (count : Counted m pc) (before : (pc thread).reading = none)
    (behind : next.reading = none) (memory : m'.activeReaders = m.activeReaders) :
    Counted m' (Function.update pc thread next) :=
  count.same memory (behind.trans before.symm)

/-- `pop` announces itself. -/
theorem Counted.enter (count : Counted m pc) {head : ChunkPtr} {index : Nat}
    (here : pc thread = .enter head index) (room : m.activeReaders head + 1 < 2 ^ 64) :
    Counted (m.setActiveReaders head ((m.activeReaders head + 1) % 2 ^ 64))
      (Function.update pc thread (.waitSlot head index)) := by
  rw [Nat.mod_eq_of_lt room]
  apply count.update
  · intro chunk
    rw [here, Memory.activeReaders_setActiveReaders, Function.update_apply]
    by_cases same : chunk = head
    · simp [Pc.reading, same]
    · simp [Pc.reading, same, Ne.symm same]
  · intro chunk
    rw [Memory.activeReaders_setActiveReaders, Function.update_apply]
    split
    · exact room
    · exact count.bounded chunk

/-- `pop` is done with its slot. -/
theorem Counted.leave (count : Counted m pc) {head : ChunkPtr} {value : Option Value}
    (here : pc thread = .leave head value) (unread : next.reading = none) :
    Counted (m.setActiveReaders head ((m.activeReaders head + (2 ^ 64 - 1)) % 2 ^ 64))
      (Function.update pc thread next) := by
  have atLeastOne : 0 < m.activeReaders head := by
    rw [count.counted, Finset.card_pos]
    refine ⟨thread, Finset.mem_filter.mpr ⟨Finset.mem_univ _, ?_⟩⟩
    rw [here]
    rfl
  have bounded := count.bounded head
  have less : (m.activeReaders head + (2 ^ 64 - 1)) % 2 ^ 64 = m.activeReaders head - 1 := by
    omega
  rw [less]
  apply count.update
  · intro chunk
    rw [here, unread, Memory.activeReaders_setActiveReaders, Function.update_apply]
    by_cases same : chunk = head
    · simp only [Pc.reading, same, if_true, reduceCtorEq, if_false]
      omega
    · simp [Pc.reading, same, Ne.symm same]
  · intro chunk
    rw [Memory.activeReaders_setActiveReaders, Function.update_apply]
    split
    · omega
    · exact count.bounded chunk

/-- **One atomic operation** keeps the count of the readers. -/
theorem Counted.run (count : Counted m pc) (locals : ∀ other, (pc other).Local m role other)
    (chunks : Chunks m role chain freeChain)
    (room : ∀ head ∈ (pc thread).entering, m.activeReaders head + 1 < 2 ^ 64) {spurious : Bool}
    {event : Option (Event Value)}
    (taken : (pc thread).run m spurious = some (m', next, event)) :
    Counted m' (Function.update pc thread next) := by
  have loc := locals thread
  cases here : pc thread with
  | idle =>
      rw [here] at taken
      cases taken
  | enter head index =>
      rw [here] at taken room
      cases taken
      exact count.enter here (room head rfl)
  | leave head value =>
      rw [here] at taken
      cases taken
      exact count.leave here rfl
  | resetReaders value tail chunk =>
      rw [here] at taken loc
      cases taken
      have none_ : m.activeReaders chunk = 0 :=
        count.eq_zero locals (loc.2.1 ▸ Role.not_inUse_owned)
      apply count.between (by rw [here]; rfl) rfl
      rw [Memory.activeReaders_setActiveReaders, ← none_, Function.update_eq_self]
  | newChunk value tail =>
      rw [here] at taken
      cases taken
      have none_ : m.activeReaders m.fresh = 0 :=
        count.eq_zero locals ((chunks.fresh m.fresh).mpr le_rfl ▸ Role.not_inUse_unallocated)
      apply count.between (by rw [here]; rfl) rfl
      funext other
      by_cases new : other = m.fresh
      · subst new
        rw [none_]
        simp [Memory.activeReaders, Memory.setChunk, Chunk.new]
      · exact congrArg Chunk.activeReaders (Function.update_of_ne new ..)
  | waitSlot head index =>
      rw [here] at taken
      cases taken
      exact count.same rfl (by rw [here]; split <;> rfl)
  | takeSlot head index =>
      rw [here] at taken
      cases taken
      exact count.same (by simp) (by rw [here]; rfl)
  | claimPush value tail =>
      rw [here] at taken
      cases taken
      exact count.between (by rw [here]; rfl) (by split <;> rfl) (by simp)
  | checkSlot value tail index =>
      rw [here] at taken
      cases taken
      exact count.between (by rw [here]; rfl) (by split <;> rfl) rfl
  | claimPop head index =>
      rw [here] at taken
      simp only [Pc.run] at taken
      split at taken <;> cases taken
      · exact count.between (by rw [here]; rfl) rfl (by simp)
      · exact count.between (by rw [here]; rfl) rfl rfl
  | construct | resetPush | resetPop =>
      rw [here] at taken
      cases taken
      exact count.between (by rw [here]; rfl) rfl (by simp)
  | _ =>
      have links := Pc.links_run (by rw [here]; rfl) taken
      exact count.between (by rw [here]; rfl) (reading_of_atSlot links.away) links.activeReaders

end

/-! ## Runs -/

section

variable [Fintype Thread] {s : State Thread Value}

theorem counted_init :
    Counted (Memory.init : Memory Value) (fun _ : Thread => (.idle : Pc Value)) where
  counted chunk := by
    apply Eq.symm
    apply Finset.card_eq_zero.mpr
    exact Finset.filter_eq_empty_iff.mpr fun _ _ => nofun
  bounded _ := Nat.two_pow_pos 64

/-- What the invariant says about the chunks on the free list. -/
theorem State.Inv.reclaimed (inv : s.Inv role chain freeChain) (count : Counted s.memory s.pc) :
    s.Reclaimed chain freeChain := by
  have isFree : ∀ chunk ∈ freeChain, role chunk = .free := fun chunk =>
    (inv.chunks.free chunk).mpr
  have notInUse : ∀ chunk ∈ freeChain, ¬ (role chunk).InUse := fun chunk member =>
    isFree chunk member ▸ Role.not_inUse_free
  have notLinked : ∀ chunk ∈ freeChain, chunk ∉ chain := fun chunk member linked =>
    notInUse chunk member (.inl ((inv.chunks.live chunk).mpr linked))
  exact {
    linked := inv.chunks.linked
    freeLinked := inv.chunks.freeLinked
    once := inv.chunks.freeNodup
    notHead := fun member => notLinked _ member (mem_of_linked inv.chunks.linked)
    notTail := fun member => notInUse _ member inv.chunks.tailInUse
    notLinked := notLinked
    empty := fun chunk member index => inv.slots.blank chunk index (notInUse chunk member)
    unclaimed := by
      intro chunk member index claimed
      obtain ⟨thread, pops⟩ := claimed
      exact notInUse chunk member (pops.claimed (inv.locals thread)).1
    notUpdated := fun chunk member thread updates =>
      updates.notFree (inv.locals thread) (isFree chunk member)
    activeReaders := count.counted }

/-- The invariant of careful runs, with the readers of the chunks. -/
def State.Kept (s : State Thread Value) : Prop :=
  (∃ role chain freeChain, s.Inv role chain freeChain) ∧ Counted s.memory s.pc

variable [DecidableEq Thread]

/-- **One step** of a careful run. -/
theorem State.Kept.step (kept : s.Kept) {label : Label Thread Value} {after : State Thread Value}
    (careful : Careful s label) (countable : Countable s label)
    (taken : MPMCQueue.step s label = some after) : after.Kept := by
  obtain ⟨⟨role, chain, freeChain, inv⟩, count⟩ := kept
  refine ⟨inv.step careful taken, ?_⟩
  rcases step_cases taken with ⟨thread, call, idle, rfl⟩ |
    ⟨thread, spurious, memory, now, event, rfl, ran, rfl⟩
  · apply count.between
    · rw [idle]
      rfl
    · cases call <;> rfl
    · rfl
  · rw [memory_record, pc_record]
    exact count.run inv.locals inv.chunks countable ran

end

end Drpc.Util.MPMCQueue
