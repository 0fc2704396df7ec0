import Drpc.Util.MpmcLinear

/-! # The task queue within its first chunk

As long as `push` was called no more often than a chunk has slots, the queue has one chunk,
and every step of every run is careful (`careful_of_few`): what holds of careful runs then
holds of all. One call more is enough to lose values.
-/

namespace Drpc.Util.MPMCQueue

open Transition AtomicQueue

variable {Thread Value : Type}

/-- The queue has its first chunk only. -/
structure Memory.First (m : Memory Value) : Prop where
  headChunk : m.headChunk = 0
  tailChunk : m.tailChunk = 0
  next : m.next 0 = none
  retired : m.retired 0 = false

/-- The thread works on the first chunk, and neither allocates nor releases one. -/
def Pc.OnFirst : Pc Value → Prop
  | .idle | .loadTail _ | .loadHead => True
  | .claimPush _ chunk | .checkSlot _ chunk _ | .construct _ chunk _ | .loadPopIndex chunk
  | .loadPushIndex chunk _ | .loadNextConsumed chunk | .loadNextEmpty chunk | .claimPop chunk _
  | .enter chunk _ | .waitSlot chunk _ | .takeSlot chunk _ | .leave chunk _
  | .loadReaders chunk (.popReturn _) | .clearRetired chunk (.popReturn _) => chunk = 0
  | _ => False

/-- How often the call is still going to claim a slot. -/
def Pc.toClaim : Pc Value → Nat
  | .loadTail _ | .claimPush .. => 1
  | _ => 0

/-- The call of `push`. -/
def Label.isPush : Label Thread Value → Bool
  | .push .. => true
  | .pop _ | .run .. => false

variable {m m' : Memory Value} {now next : Pc Value} {thread : Thread}

/-- **One atomic operation** stays on the first chunk while it has slots. -/
theorem Pc.OnFirst.run {spurious : Bool} {event : Option (Event Value)} (on : now.OnFirst)
    (first : m.First)
    (empty : ∀ chunk index, now.Pushes chunk index → m.slot chunk index = none)
    (room : now.toClaim = 1 → m.pushIndex 0 < chunkSize)
    (taken : now.run m spurious = some (m', next, event)) :
    m'.First ∧ next.OnFirst ∧ m'.pushIndex 0 + next.toClaim = m.pushIndex 0 + now.toClaim := by
  obtain ⟨headChunk, tailChunk, next_, retired⟩ := first
  cases now with
  | idle => cases taken
  | loadTail value =>
      cases taken
      exact ⟨⟨headChunk, tailChunk, next_, retired⟩, tailChunk, rfl⟩
  | claimPush value tail =>
      obtain rfl := on
      have small := room rfl
      have size : chunkSize = 64 := rfl
      have fits : (m.pushIndex 0 + 1) % 2 ^ 64 = m.pushIndex 0 + 1 := Nat.mod_eq_of_lt (by omega)
      simp only [Pc.run, fits] at taken
      cases taken
      rw [if_pos small]
      refine ⟨⟨headChunk, tailChunk, by simpa using next_, by simpa using retired⟩, rfl, ?_⟩
      simp [Pc.toClaim]
  | checkSlot value tail index =>
      obtain rfl := on
      cases taken
      rw [empty 0 index ⟨rfl, rfl⟩]
      exact ⟨⟨headChunk, tailChunk, next_, retired⟩, rfl, rfl⟩
  | construct value tail index =>
      cases taken
      refine ⟨⟨headChunk, tailChunk, by simpa using next_, by simpa using retired⟩, trivial, ?_⟩
      simp [Pc.toClaim]
  | loadHead =>
      cases taken
      exact ⟨⟨headChunk, tailChunk, next_, retired⟩, headChunk, rfl⟩
  | loadPopIndex head =>
      cases taken
      exact ⟨⟨headChunk, tailChunk, next_, retired⟩, on, rfl⟩
  | loadPushIndex head index =>
      cases taken
      refine ⟨⟨headChunk, tailChunk, next_, retired⟩, ?_⟩
      split
      · exact ⟨on, rfl⟩
      · split <;> exact ⟨on, rfl⟩
  | loadNextConsumed head | loadNextEmpty head =>
      obtain rfl := on
      simp only [Pc.run, next_] at taken
      cases taken
      exact ⟨⟨headChunk, tailChunk, next_, retired⟩, trivial, rfl⟩
  | claimPop head index =>
      simp only [Pc.run] at taken
      split at taken <;> cases taken
      · refine ⟨⟨headChunk, tailChunk, by simpa using next_, by simpa using retired⟩, on, ?_⟩
        simp [Pc.toClaim]
      · exact ⟨⟨headChunk, tailChunk, next_, retired⟩, trivial, rfl⟩
  | enter head index | takeSlot head index | leave head value =>
      cases taken
      refine ⟨⟨headChunk, tailChunk, by simpa using next_, by simpa using retired⟩, on, ?_⟩
      simp [Pc.toClaim]
  | waitSlot head index =>
      cases taken
      refine ⟨⟨headChunk, tailChunk, next_, retired⟩, ?_⟩
      split <;> exact ⟨on, rfl⟩
  | loadReaders chunk after =>
      cases after with
      | popReturn value =>
          simp only [Pc.run] at taken
          split at taken <;> cases taken
          · exact ⟨⟨headChunk, tailChunk, next_, retired⟩, on, rfl⟩
          · exact ⟨⟨headChunk, tailChunk, next_, retired⟩, trivial, rfl⟩
      | moveTail | popAgain => exact on.elim
  | clearRetired chunk after =>
      cases after with
      | popReturn value =>
          obtain rfl := on
          simp only [Pc.run, retired] at taken
          cases taken
          exact ⟨⟨headChunk, tailChunk, next_, retired⟩, trivial, rfl⟩
      | moveTail | popAgain => exact on.elim
  | _ => exact on.elim

section

variable [Fintype Thread] {s after : State Thread Value} {calls : Nat}
  {label : Label Thread Value} {role : ChunkPtr → Role Thread} {chain freeChain : List ChunkPtr}

/-- The queue within its first chunk, behind so many calls of `push`. -/
structure State.First (s : State Thread Value) (calls : Nat) : Prop where
  memory : s.memory.First
  pcs : ∀ thread, (s.pc thread).OnFirst
  claims : s.memory.pushIndex 0 + ∑ thread, (s.pc thread).toClaim ≤ calls

theorem first_init : (State.init : State Thread Value).First 0 where
  memory := ⟨rfl, rfl, rfl, rfl⟩
  pcs _ := trivial
  claims := by simp [State.init, Memory.init, Memory.pushIndex, Chunk.new, Pc.toClaim]

/-- A thread that is going to claim a slot finds one. -/
theorem State.First.room (first : s.First calls) (few : calls ≤ chunkSize)
    (claims : (s.pc thread).toClaim = 1) : s.memory.pushIndex 0 < chunkSize := by
  have one : (s.pc thread).toClaim ≤ ∑ other, (s.pc other).toClaim :=
    Finset.single_le_sum (f := fun other => (s.pc other).toClaim) (fun _ _ => Nat.zero_le _)
      (Finset.mem_univ thread)
  have bound := first.claims
  omega

/-- Every step within the first chunk is careful. -/
theorem State.First.careful (first : s.First calls) (few : calls ≤ chunkSize) :
    Careful s label := by
  cases label with
  | push | pop => trivial
  | run thread spurious =>
      have on := first.pcs thread
      cases here : s.pc thread with
      | claimPush value tail =>
          rw [here] at on
          obtain rfl := on
          have claims : (s.pc thread).toClaim = 1 := by
            rw [here]
            rfl
          have small := first.room few claims
          have size : chunkSize = 64 := rfl
          rw [Careful, here]
          show s.memory.pushIndex 0 + 1 < 2 ^ 64
          omega
      | moveHeadEmpty | loadFreeHead | storeNext | pushFree | storeTail =>
          rw [here] at on
          exact on.elim
      | _ =>
          rw [Careful, here]
          trivial

variable [DecidableEq Thread]

/-- A thread goes on, behind `more` calls of `push`. -/
theorem State.First.goOn (first : s.First calls)
    (pc_eq : after.pc = Function.update s.pc thread now) (kept : after.memory.First)
    (on : now.OnFirst) {more : Nat}
    (balance : after.memory.pushIndex 0 + now.toClaim =
      s.memory.pushIndex 0 + (s.pc thread).toClaim + more) : after.First (calls + more) where
  memory := kept
  pcs other := by
    rw [pc_eq]
    by_cases self : other = thread
    · subst self
      rwa [Function.update_self]
    · rw [Function.update_of_ne self]
      exact first.pcs other
  claims := by
    have sum : ∑ other, (Function.update s.pc thread now other).toClaim + (s.pc thread).toClaim =
        ∑ other, (s.pc other).toClaim + now.toClaim := by
      refine sum_exchange (Finset.mem_univ thread) (fun other _ differs => ?_) ?_
      · rw [Function.update_of_ne differs]
      · rw [Function.update_self, add_comm]
    have bound := first.claims
    rw [pc_eq]
    omega

/-- **One step** within the first chunk. -/
theorem State.First.step (first : s.First calls) (few : calls ≤ chunkSize)
    (inv : s.Inv role chain freeChain) (taken : MPMCQueue.step s label = some after) :
    after.First (calls + label.isPush.toNat) := by
  cases label with
  | push thread value =>
      simp only [MPMCQueue.step, Option.ite_none_right_eq_some, Option.some.injEq] at taken
      obtain ⟨idle, rfl⟩ := taken
      have on : (Pc.loadTail value).OnFirst := trivial
      refine first.goOn (State.pc_setPc s thread _) first.memory on ?_
      rw [Pc.eq_idle idle]
      rfl
  | pop thread =>
      simp only [MPMCQueue.step, Option.ite_none_right_eq_some, Option.some.injEq] at taken
      obtain ⟨idle, rfl⟩ := taken
      have on : (Pc.loadHead : Pc Value).OnFirst := trivial
      refine first.goOn (State.pc_setPc s thread _) first.memory on ?_
      rw [Pc.eq_idle idle]
      rfl
  | run thread spurious =>
      simp only [MPMCQueue.step, Option.map_eq_some_iff] at taken
      obtain ⟨⟨memory, now, event⟩, ran, rfl⟩ := taken
      obtain ⟨kept, on, balance⟩ := (first.pcs thread).run first.memory
        (fun chunk index pushes => inv.slots.empty_of_pushes inv.locals pushes)
        (first.room few) ran
      refine first.goOn (pc_record _ _) ?_ on ?_
      · rw [memory_record]
        exact kept
      · rw [memory_record]
        exact balance

/-- **Every step is careful** as long as `push` is called no more often than a chunk has
slots. -/
theorem careful_of_few {labels : List (Label Thread Value)} {t : Traced Thread Value}
    (first : t.state.First calls) (inv : t.state.Inv role chain freeChain)
    (few : calls + labels.countP Label.isPush ≤ chunkSize) :
    Along Traced.step (fun t label => Careful t.state label) t labels := by
  induction labels generalizing t calls role chain freeChain with
  | nil => trivial
  | cons label rest ih =>
      have count : (label :: rest).countP Label.isPush =
          rest.countP Label.isPush + label.isPush.toNat := by
        rw [List.countP_cons]
        cases label.isPush <;> rfl
      have careful : Careful t.state label := first.careful (by omega)
      refine ⟨careful, fun next taken => ?_⟩
      simp only [Traced.step, Option.map_eq_some_iff] at taken
      obtain ⟨state, taken, rfl⟩ := taken
      obtain ⟨role', chain', freeChain', inv'⟩ := inv.step careful taken
      exact ih (first.step (by omega) inv taken) inv' (by omega)

/-- **The first chunk is linearizable.** Whatever the threads do, as long as they call `push`
no more often than a chunk has slots, their calls and what they returned are a history of the
atomic queue. -/
theorem linearizable_of_few {labels : List (Label Thread Value)} {t : Traced Thread Value}
    (run : exec Traced.step .init labels = some t)
    (few : labels.countP Label.isPush ≤ chunkSize) :
    ∃ moves q, exec AtomicQueue.step .init moves = some q ∧ q.history = t.history := by
  have careful : Along Traced.step (fun t label => Careful t.state label) .init labels :=
    careful_of_few first_init inv_init (by rwa [Nat.zero_add])
  obtain ⟨moves, q, _, _, _, runs, linear⟩ := linear_of_run run careful
  exact ⟨moves, q, runs, linear.history⟩

end

/-! ## Two threads -/

/-- Both threads push and pop in one chunk. -/
theorem linearizable_of_few_of_two : ∃ t moves q, exec Traced.step .init twoPushers = some t ∧
    t.history = twoPushersHistory ∧ exec AtomicQueue.step .init moves = some q ∧
    q.history = t.history := by
  obtain ⟨t, run, history⟩ : ∃ t ∈ exec Traced.step .init twoPushers,
      t.history = twoPushersHistory := by
    decide +kernel
  obtain ⟨moves, q, runs, same⟩ := linearizable_of_few run (by decide)
  exact ⟨t, moves, q, run, history, runs, same⟩

/-- One call of `push` more, and the only consumer may get the last value first. -/
theorem not_linearizable : ¬ ∀ (labels : List (Label Bool Nat)) (t : Traced Bool Nat),
    exec Traced.step .init labels = some t → labels.countP Label.isPush ≤ chunkSize + 1 →
      ∃ moves q, exec AtomicQueue.step .init moves = some q ∧ q.history = t.history := by
  intro always
  obtain ⟨t, run, popped, pushing, idle, one⟩ : ∃ t ∈ exec Traced.step .init lossy,
      valuesOf Action.popped true t.history = [some 64] ∧
      valuesOf Action.pushing false t.history = (List.range 65).map some ∧
      valuesOf Action.pushing true t.history = [] ∧
      ∀ thread, (thread, Action.call .pop) ∈ t.history → thread = true := by
    decide +kernel
  obtain ⟨moves, q, runs, same⟩ := always lossy t run (by decide +kernel)
  obtain ⟨puts, takes, order, takers, values⟩ := ordered_of_run runs
  rw [same] at takers values
  -- the producer alone puts values, the first one first
  have first := popped_of_one order takers (values true).2.2 one
  have mine : ownedBy true puts = [] := List.prefix_nil.mp (idle ▸ (values true).1)
  have all : puts.map Prod.snd = ownedBy false puts := by
    rw [ownedBy, List.filter_eq_self.mpr]
    intro entry member
    by_contra other
    have yours : entry.2 ∈ ownedBy true puts := by
      apply List.mem_map_of_mem
      exact List.mem_filter.mpr ⟨member, by simpa using other⟩
    rw [mine] at yours
    cases yours
  rw [popped, all] at first
  have begins := first.trans (values false).1
  rw [pushing] at begins
  exact absurd begins (by decide)

end Drpc.Util.MPMCQueue
