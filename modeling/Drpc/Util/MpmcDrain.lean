import Drpc.Library.Chain
import Drpc.Util.MpmcQueue

/-! # What is still in the task queue

In a queue at rest the slots between `pop_index` and `push_index` of each chunk of the
chain are occupied. A thread that then calls `pop` again and again, alone, gets their
values in order, and then false (`Resting.drains`).
-/

namespace Drpc.Util.MPMCQueue

open Chain

variable {Value : Type}

/-- The values of a chunk that were pushed and not yet popped. -/
def Memory.window (m : Memory Value) (chunk : ChunkPtr) : List (Option Value) :=
  (List.range' (m.popIndex chunk) (min (m.pushIndex chunk) chunkSize - m.popIndex chunk)).map
    (m.slot chunk)

/-- A queue at rest, with the chunks of its chain. -/
structure Resting (m : Memory Value) (chain : List ChunkPtr) : Prop where
  linked : Linked m.next (some m.headChunk) chain
  nodup : chain.Nodup
  full : ∀ chunk ∈ chain, ∀ index, m.popIndex chunk ≤ index → index < m.pushIndex chunk →
    index < chunkSize → (m.slot chunk index).isSome = true
  retired : ∀ chunk ∈ chain, m.retired chunk = false

variable {m m' : Memory Value} {chain later : List ChunkPtr}

/-- A chunk with nothing left has no values. -/
theorem window_eq_nil {chunk : ChunkPtr}
    (nothing : min (m.pushIndex chunk) chunkSize ≤ m.popIndex chunk) : m.window chunk = [] := by
  rw [Memory.window, Nat.sub_eq_zero_of_le nothing]
  rfl

theorem window_congr {chunk : ChunkPtr} (same : m'.chunks chunk = m.chunks chunk) :
    m'.window chunk = m.window chunk := by
  have slots : m'.slot chunk = m.slot chunk := congrArg Chunk.slots same
  simp only [Memory.window, Memory.popIndex, Memory.pushIndex, slots, same]

/-- The rest of the chain stays as it is when `head_chunk` moves on to it. -/
theorem Resting.moveOn (resting : Resting m (m.headChunk :: later)) {next : ChunkPtr}
    (link : m.next m.headChunk = some next) (head : m'.headChunk = next)
    (same : ∀ chunk ∈ later, m'.chunks chunk = m.chunks chunk) :
    Resting m' later ∧ later.flatMap m'.window = later.flatMap m.window := by
  constructor
  · refine {
      linked := ?_, nodup := (List.nodup_cons.mp resting.nodup).2, full := ?_, retired := ?_ }
    · rw [head, ← link]
      exact linked_congr (fun chunk member => congrArg Chunk.next (same chunk member))
        resting.linked.2
    · intro chunk member index
      have before := resting.full chunk (List.mem_cons_of_mem _ member) index
      simpa only [Memory.popIndex, Memory.pushIndex, Memory.slot, same chunk member] using before
    · intro chunk member
      simpa only [Memory.retired, same chunk member] using
        resting.retired chunk (List.mem_cons_of_mem _ member)
  · exact List.flatMap_congr fun chunk member => window_congr (same chunk member)

/-- `Solo m pc m' pc'`: a thread that runs alone from `pc` comes to `pc'`. -/
def Solo (m : Memory Value) (pc : Pc Value) (m' : Memory Value) (pc' : Pc Value) : Prop :=
  ∀ m'' event, Returns m' pc' m'' event → Returns m pc m'' event

theorem Solo.refl (m : Memory Value) (pc : Pc Value) : Solo m pc m pc := fun _ _ => id

theorem Solo.cons {m₁ m₂ : Memory Value} {pc pc₁ pc₂ : Pc Value}
    (run : pc.run m false = some (m₁, pc₁, none)) (solo : Solo m₁ pc₁ m₂ pc₂) :
    Solo m pc m₂ pc₂ :=
  fun m'' event returns => .later run (solo m'' event returns)

theorem Solo.trans {m₁ m₂ : Memory Value} {pc pc₁ pc₂ : Pc Value} (first : Solo m pc m₁ pc₁)
    (second : Solo m₁ pc₁ m₂ pc₂) : Solo m pc m₂ pc₂ :=
  fun m'' event returns => first m'' event (second m'' event returns)

/-- The memory behind `retire_chunk` of a chunk that nobody reads. -/
def Memory.release (m : Memory Value) (chunk : ChunkPtr) : Memory Value :=
  { ((m.setRetired chunk true).setRetired chunk false).setNext chunk m.freeList with
    freeList := some chunk }

/-- A chunk that nobody reads goes to the free list, and `pop` is back at its loop. -/
theorem solo_release {chunk : ChunkPtr} (alone : m.activeReaders chunk = 0) :
    Solo m (.storeRetired chunk) (m.release chunk) .loadHead := by
  have readers : (Pc.loadReaders chunk .popAgain).run (m.setRetired chunk true) false =
      some (m.setRetired chunk true, .clearRetired chunk .popAgain, none) := by
    simp [Pc.run, alone]
  have retired : (Pc.clearRetired chunk .popAgain).run (m.setRetired chunk true) false =
      some ((m.setRetired chunk true).setRetired chunk false,
        .loadFreeHead chunk .popAgain, none) := by
    simp [Pc.run]
  have pushed : (Pc.pushFree chunk m.freeList .popAgain).run
      (((m.setRetired chunk true).setRetired chunk false).setNext chunk m.freeList) false =
      some (m.release chunk, .loadHead, none) := if_pos ⟨rfl, rfl⟩
  exact .cons rfl (.cons readers (.cons retired (.cons rfl (.cons rfl (.cons pushed (.refl _ _))))))

/-- A chunk that was left behind is retired, and perhaps released; then `pop` is back
at its loop. -/
theorem solo_retire (m : Memory Value) (chunk : ChunkPtr) :
    ∃ m', Solo m (.storeRetired chunk) m' .loadHead ∧ m'.headChunk = m.headChunk ∧
      ∀ other ≠ chunk, m'.chunks other = m.chunks other := by
  by_cases alone : m.activeReaders chunk = 0
  · refine ⟨m.release chunk, solo_release alone, rfl, fun other differs => ?_⟩
    simp only [Memory.release, Memory.setNext, Memory.setRetired, Memory.setChunk,
      Function.update_of_ne differs]
  · have readers : (Pc.loadReaders chunk .popAgain).run (m.setRetired chunk true) false =
        some (m.setRetired chunk true, .loadHead, none) := by
      simp [Pc.run, alone, After.resume]
    exact ⟨m.setRetired chunk true, .cons rfl (.cons readers (.refl _ _)), rfl,
      fun other differs => Function.update_of_ne differs ..⟩

/-- `pop` moves `head_chunk` on when the chunk has nothing left. -/
theorem solo_moveHead {next : ChunkPtr} (link : m.next m.headChunk = some next)
    (nothing : min (m.pushIndex m.headChunk) chunkSize ≤ m.popIndex m.headChunk) :
    Solo m .loadHead { m with headChunk := next } (.storeRetired m.headChunk) := by
  apply Solo.cons rfl
  apply Solo.cons rfl
  by_cases consumed : chunkSize ≤ m.popIndex m.headChunk
  · have index : (Pc.loadPushIndex m.headChunk (m.popIndex m.headChunk)).run m false =
        some (m, .loadNextConsumed m.headChunk, none) := by
      simp [Pc.run, consumed]
    have load : (Pc.loadNextConsumed m.headChunk).run m false =
        some (m, .moveHeadConsumed m.headChunk next, none) := by
      simp [Pc.run, link]
    exact .cons index (.cons load (.cons (if_pos rfl) (.refl _ _)))
  · have index : (Pc.loadPushIndex m.headChunk (m.popIndex m.headChunk)).run m false =
        some (m, .loadNextEmpty m.headChunk, none) := by
      have empty : m.pushIndex m.headChunk ≤ m.popIndex m.headChunk := by omega
      simp [Pc.run, consumed, empty]
    have load : (Pc.loadNextEmpty m.headChunk).run m false =
        some (m, .moveHeadEmpty m.headChunk next, none) := by
      simp [Pc.run, link]
    exact .cons index (.cons load (.cons (if_pos rfl) (.refl _ _)))

/-- `pop` moves on when the chunk at the head has nothing left. -/
theorem solo_moveOn {next : ChunkPtr} (link : m.next m.headChunk = some next)
    (nothing : min (m.pushIndex m.headChunk) chunkSize ≤ m.popIndex m.headChunk) :
    ∃ m', Solo m .loadHead m' .loadHead ∧ m'.headChunk = next ∧
      ∀ other ≠ m.headChunk, m'.chunks other = m.chunks other := by
  obtain ⟨m', solo, head, same⟩ := solo_retire { m with headChunk := next } m.headChunk
  exact ⟨m', (solo_moveHead link nothing).trans solo, head, same⟩

/-- `pop` returns false at the end of the chain. -/
theorem returns_empty (ends : m.next m.headChunk = none)
    (nothing : min (m.pushIndex m.headChunk) chunkSize ≤ m.popIndex m.headChunk) :
    Returns m .loadHead m .empty := by
  refine .later rfl (.later rfl ?_)
  by_cases consumed : chunkSize ≤ m.popIndex m.headChunk
  · have index : (Pc.loadPushIndex m.headChunk (m.popIndex m.headChunk)).run m false =
        some (m, .loadNextConsumed m.headChunk, none) := by
      simp [Pc.run, consumed]
    have load : (Pc.loadNextConsumed m.headChunk : Pc Value).run m false =
        some (m, .idle, some .empty) := by
      simp [Pc.run, ends]
    exact .later index (.now load)
  · have index : (Pc.loadPushIndex m.headChunk (m.popIndex m.headChunk)).run m false =
        some (m, .loadNextEmpty m.headChunk, none) := by
      have empty : m.pushIndex m.headChunk ≤ m.popIndex m.headChunk := by omega
      simp [Pc.run, consumed, empty]
    have load : (Pc.loadNextEmpty m.headChunk : Pc Value).run m false =
        some (m, .idle, some .empty) := by
      simp [Pc.run, ends]
    exact .later index (.now load)

/-- The memory behind a `pop` of the first value of the chunk at the head. -/
def Memory.takeFirst (m : Memory Value) : Memory Value :=
  let claimed := m.setPopIndex m.headChunk (m.popIndex m.headChunk + 1)
  let entered := claimed.setActiveReaders m.headChunk ((m.activeReaders m.headChunk + 1) % 2 ^ 64)
  let taken := entered.setSlot m.headChunk (m.popIndex m.headChunk) none
  taken.setActiveReaders m.headChunk
    (((m.activeReaders m.headChunk + 1) % 2 ^ 64 + (2 ^ 64 - 1)) % 2 ^ 64)

@[simp] theorem next_takeFirst : m.takeFirst.next = m.next := by
  simp [Memory.takeFirst]

@[simp] theorem pushIndex_takeFirst : m.takeFirst.pushIndex = m.pushIndex := by
  simp [Memory.takeFirst]

@[simp] theorem popIndex_takeFirst : m.takeFirst.popIndex =
    Function.update m.popIndex m.headChunk (m.popIndex m.headChunk + 1) := by
  simp [Memory.takeFirst]

@[simp] theorem retired_takeFirst : m.takeFirst.retired = m.retired := by
  simp [Memory.takeFirst]

@[simp] theorem activeReaders_takeFirst : m.takeFirst.activeReaders =
    Function.update m.activeReaders m.headChunk
      (((m.activeReaders m.headChunk + 1) % 2 ^ 64 + (2 ^ 64 - 1)) % 2 ^ 64) := by
  simp [Memory.takeFirst]

@[simp] theorem slot_takeFirst : m.takeFirst.slot = Function.update m.slot m.headChunk
    (Function.update (m.slot m.headChunk) (m.popIndex m.headChunk) none) := by
  simp [Memory.takeFirst]

/-- The first value of the chunk at the head is gone. -/
theorem window_takeFirst
    (something : m.popIndex m.headChunk < min (m.pushIndex m.headChunk) chunkSize) :
    m.window m.headChunk =
      m.slot m.headChunk (m.popIndex m.headChunk) :: m.takeFirst.window m.headChunk := by
  have longer : min (m.pushIndex m.headChunk) chunkSize - m.popIndex m.headChunk =
      (min (m.pushIndex m.headChunk) chunkSize - (m.popIndex m.headChunk + 1)) + 1 := by
    omega
  simp only [Memory.window, longer, List.range'_succ, List.map_cons, popIndex_takeFirst,
    pushIndex_takeFirst, slot_takeFirst, Function.update_self]
  refine congrArg (m.slot m.headChunk (m.popIndex m.headChunk) :: ·)
    (List.map_congr_left fun index member => ?_)
  rw [List.mem_range'_1] at member
  rw [Function.update_of_ne (by omega)]

/-- The other chunks keep their values. -/
theorem flatMap_window_takeFirst (apart : m.headChunk ∉ later) :
    later.flatMap m.takeFirst.window = later.flatMap m.window := by
  refine List.flatMap_congr fun chunk member => ?_
  have away : chunk ≠ m.headChunk := by
    intro equal
    subst equal
    exact apart member
  simp only [Memory.window, popIndex_takeFirst, pushIndex_takeFirst, slot_takeFirst,
    Function.update_of_ne away]

/-- `pop` returns the first value of the chunk at the head. -/
theorem returns_popped
    (something : m.popIndex m.headChunk < min (m.pushIndex m.headChunk) chunkSize)
    (occupied : (m.slot m.headChunk (m.popIndex m.headChunk)).isSome = true)
    (notRetired : m.retired m.headChunk = false) :
    Returns m .loadHead m.takeFirst (.popped (m.slot m.headChunk (m.popIndex m.headChunk))) := by
  set head := m.headChunk with isHead
  set index := m.popIndex head with isIndex
  have inRange : index < m.pushIndex head ∧ index < chunkSize := by omega
  let m₁ := m.setPopIndex head (index + 1)
  let m₂ := m₁.setActiveReaders head ((m.activeReaders head + 1) % 2 ^ 64)
  let m₃ := m₂.setSlot head index none
  have toClaim : (Pc.loadPushIndex head index : Pc Value).run m false =
      some (m, .claimPop head index, none) := by
    simp [Pc.run, Nat.not_le.mpr inRange.1, Nat.not_le.mpr inRange.2]
  have claim : (Pc.claimPop head index : Pc Value).run m false =
      some (m₁, .enter head index, none) := if_pos ⟨rfl, isIndex.symm⟩
  have enter : (Pc.enter head index : Pc Value).run m₁ false =
      some (m₂, .waitSlot head index, none) := by
    simp [Pc.run, m₂, m₁]
  have toTake : (Pc.waitSlot head index : Pc Value).run m₂ false =
      some (m₂, .takeSlot head index, none) := by
    simp [Pc.run, m₂, m₁, occupied]
  have take : (Pc.takeSlot head index : Pc Value).run m₂ false =
      some (m₃, .leave head (m.slot head index), none) := by
    simp [Pc.run, m₃, m₂, m₁]
  have leave : (Pc.leave head (m.slot head index)).run m₃ false =
      some (m.takeFirst, .loadReaders head (.popReturn (m.slot head index)), none) := by
    simp [Pc.run, Memory.takeFirst, m₃, m₂, m₁, ← isHead, ← isIndex]
  have returned : Returns m.takeFirst (.loadReaders head (.popReturn (m.slot head index)))
      m.takeFirst (.popped (m.slot head index)) := by
    by_cases alone : m.takeFirst.activeReaders head = 0
    · have toRetired : (Pc.loadReaders head (.popReturn (m.slot head index))).run m.takeFirst
          false = some (m.takeFirst, .clearRetired head (.popReturn (m.slot head index)), none) :=
        if_pos alone
      have returns : (Pc.clearRetired head (.popReturn (m.slot head index))).run m.takeFirst
          false = some (m.takeFirst, .idle, some (.popped (m.slot head index))) := by
        apply if_neg
        simp [Memory.takeFirst, notRetired]
      exact .later toRetired (.now returns)
    · have returns : (Pc.loadReaders head (.popReturn (m.slot head index))).run m.takeFirst
          false = some (m.takeFirst, .idle, some (.popped (m.slot head index))) := if_neg alone
      exact .now returns
  exact .later rfl (.later rfl (.later toClaim (.later claim (.later enter (.later toTake
    (.later take (.later leave returned)))))))

/-- A queue at rest stays at rest behind a `pop`, which returns its first value. -/
theorem Resting.pop (resting : Resting m (m.headChunk :: later))
    (something : m.popIndex m.headChunk < min (m.pushIndex m.headChunk) chunkSize) :
    ∃ m', Returns m .loadHead m' (.popped (m.slot m.headChunk (m.popIndex m.headChunk))) ∧
      Resting m' (m'.headChunk :: later) ∧ later.flatMap m'.window = later.flatMap m.window ∧
      m.window m.headChunk =
        m.slot m.headChunk (m.popIndex m.headChunk) :: m'.window m'.headChunk := by
  have member : m.headChunk ∈ m.headChunk :: later := List.mem_cons_self ..
  have returns := returns_popped something
    (resting.full _ member _ le_rfl (by omega) (by omega)) (resting.retired _ member)
  refine ⟨m.takeFirst, returns, ?_, flatMap_window_takeFirst (List.nodup_cons.mp resting.nodup).1,
    window_takeFirst something⟩
  refine {
    linked := by
      rw [next_takeFirst]
      exact resting.linked
    nodup := resting.nodup
    retired := by
      rw [retired_takeFirst]
      exact resting.retired
    full := ?_ }
  intro chunk inChain index popped pushed small
  rw [popIndex_takeFirst] at popped
  rw [pushIndex_takeFirst] at pushed
  rw [slot_takeFirst]
  by_cases same : chunk = m.headChunk
  · subst same
    rw [Function.update_self] at popped
    have differs : index ≠ m.popIndex m.headChunk := by omega
    rw [Function.update_self, Function.update_of_ne differs]
    exact resting.full m.headChunk inChain index (by omega) pushed small
  · rw [Function.update_of_ne same] at popped
    rw [Function.update_of_ne same]
    exact resting.full chunk inChain index popped pushed small

/-- A way of calls of `pop` that leads back to the loop goes on from there. -/
theorem Solo.drains {values : List (Option Value)} (solo : Solo m .loadHead m' .loadHead)
    (drains : Drains m' values) : Drains m values := by
  cases drains with
  | empty pop => exact .empty (solo _ _ pop)
  | pop pop drains => exact .pop (solo _ _ pop) drains

/-- `Resting.drains`, by the chunks of the chain and the values of the first of them. -/
private theorem drains_from {left : Nat} (resting : Resting m (m.headChunk :: later))
    (size : (m.window m.headChunk).length = left)
    (behind : ∀ {m' : Memory Value}, Resting m' later → Drains m' (later.flatMap m'.window)) :
    Drains m ((m.headChunk :: later).flatMap m.window) := by
  induction left generalizing m with
  | zero =>
      have nothing : min (m.pushIndex m.headChunk) chunkSize ≤ m.popIndex m.headChunk := by
        simp only [Memory.window, List.length_map, List.length_range'] at size
        omega
      rw [List.flatMap_cons, List.length_eq_zero_iff.mp size, List.nil_append]
      have linked := resting.linked.2
      cases link : m.next m.headChunk with
      | none =>
          cases later with
          | nil => exact .empty (returns_empty link nothing)
          | cons =>
              rw [link] at linked
              cases linked.1
      | some next =>
          obtain ⟨m', solo, head, same⟩ := solo_moveOn link nothing
          obtain ⟨rests, windows⟩ := resting.moveOn link head fun chunk member => same chunk (by
            intro equal
            subst equal
            exact (List.nodup_cons.mp resting.nodup).1 member)
          rw [← windows]
          exact solo.drains (behind rests)
  | succ left more =>
      have something : m.popIndex m.headChunk < min (m.pushIndex m.headChunk) chunkSize := by
        simp only [Memory.window, List.length_map, List.length_range'] at size
        omega
      obtain ⟨m', returns, rests, windows, first⟩ := resting.pop something
      rw [first, List.length_cons, Nat.add_right_cancel_iff] at size
      rw [List.flatMap_cons, first, List.cons_append, ← windows]
      exact .pop returns (more rests size)

/-- **What is still in a queue at rest**: the values of the chunks of its chain. -/
theorem Resting.drains (resting : Resting m chain) : Drains m (chain.flatMap m.window) := by
  induction chain generalizing m with
  | nil => cases resting.linked
  | cons node later ih =>
      obtain rfl : m.headChunk = node := Option.some.inj resting.linked.1
      exact drains_from resting rfl ih

end Drpc.Util.MPMCQueue
