import Drpc.Util.MpmcDelivery

/-! # What a popper waits for

A popper that has claimed a slot waits until it is occupied. Beside the state, a run
counts how often each chunk was allocated, and notes for each pusher the allocation of
its chunk from which it has its index (`Tracked`). When the steps are careful, a slot
that a popper waits for is occupied, or the pusher that has its index from the current
allocation is going to fill it; and no pusher finds its slot occupied
(`waits_for_push`).
-/

namespace Drpc.Util.MPMCQueue

open Transition

variable {Thread Value : Type}

/-- The chunk that `allocate_chunk` returns with the next step. -/
def Pc.allocates (m : Memory Value) : Pc Value → Option ChunkPtr
  | .resetRetired _ _ chunk => some chunk
  | .newChunk .. => some m.fresh
  | _ => none

/-- The chunk whose `push_index` the next step fetches. -/
def Pc.obtains : Pc Value → Option ChunkPtr
  | .claimPush _ tail => some tail
  | _ => none

/-- A run, with what has to be known of its past. -/
structure Tracked (Thread Value : Type) where
  state : State Thread Value
  /-- How often each chunk was allocated. -/
  allocations : ChunkPtr → Nat
  /-- The allocation from which a thread has its index. -/
  obtained : Thread → Nat

def Tracked.init : Tracked Thread Value := ⟨.init, fun _ => 0, fun _ => 0⟩

/-- `push` constructs into the slot with its next steps. -/
def Pc.Fills (m : Memory Value) (pc : Pc Value) (chunk : ChunkPtr) (index : Nat) : Prop :=
  match pc with
  | .checkSlot _ tail claimed => tail = chunk ∧ claimed = index ∧ m.slot tail claimed = none
  | .construct _ tail claimed => tail = chunk ∧ claimed = index
  | _ => False

/-- Poppers wait only for slots that are filled, and pushers find their slots empty. -/
structure Tracked.Served (t : Tracked Thread Value) : Prop where
  waits : ∀ {thread head index}, t.state.pc thread = .waitSlot head index →
    (t.state.memory.slot head index).isSome = true ∨
      ∃ pusher, (t.state.pc pusher).Fills t.state.memory head index ∧
        t.obtained pusher = t.allocations head
  finds : ∀ {thread value tail index}, t.state.pc thread = .checkSlot value tail index →
    t.state.memory.slot tail index = none

section

variable [DecidableEq Thread]

/-- Count an allocation, and note where an index is from. -/
def Tracked.note (t : Tracked Thread Value) (thread : Thread) : Tracked Thread Value where
  state := t.state
  allocations chunk :=
    if (t.state.pc thread).allocates t.state.memory = some chunk then t.allocations chunk + 1
    else t.allocations chunk
  obtained :=
    match (t.state.pc thread).obtains with
    | some tail => Function.update t.obtained thread (t.allocations tail)
    | none => t.obtained

/-- One step of the threads. -/
def Tracked.step (t : Tracked Thread Value) (label : Label Thread Value) :
    Option (Tracked Thread Value) :=
  (MPMCQueue.step t.state label).map fun state =>
    match label with
    | .run thread _ => { t.note thread with state }
    | .push .. | .pop _ => { t with state }

theorem Tracked.state_of_step {t t' : Tracked Thread Value} {label : Label Thread Value}
    (taken : t.step label = some t') : MPMCQueue.step t.state label = some t'.state := by
  simp only [Tracked.step, Option.map_eq_some_iff] at taken
  obtain ⟨state, taken, rfl⟩ := taken
  rw [taken]
  cases label <;> rfl

/-- A call that starts notes nothing, and an atomic operation what there is to note. -/
theorem Tracked.step_cases {t t' : Tracked Thread Value} {label : Label Thread Value}
    (taken : t.step label = some t') :
    (∃ thread call, t.state.pc thread = .idle ∧
        t' = { t with state := t.state.setPc thread (Call.start call) }) ∨
      ∃ thread spurious memory now event,
        (t.state.pc thread).run t.state.memory spurious = some (memory, now, event) ∧
        t' = { t.note thread with
          state := ({ t.state with memory }.setPc thread now).record event } := by
  simp only [Tracked.step, Option.map_eq_some_iff] at taken
  obtain ⟨state, taken, rfl⟩ := taken
  cases label with
  | push thread value =>
      simp only [MPMCQueue.step, Option.ite_none_right_eq_some, Option.some.injEq] at taken
      obtain ⟨idle, rfl⟩ := taken
      exact .inl ⟨thread, .push value, Pc.eq_idle idle, rfl⟩
  | pop thread =>
      simp only [MPMCQueue.step, Option.ite_none_right_eq_some, Option.some.injEq] at taken
      obtain ⟨idle, rfl⟩ := taken
      exact .inl ⟨thread, .pop, Pc.eq_idle idle, rfl⟩
  | run thread spurious =>
      simp only [MPMCQueue.step, Option.map_eq_some_iff] at taken
      obtain ⟨⟨memory, now, event⟩, ran, rfl⟩ := taken
      exact .inr ⟨thread, spurious, memory, now, event, ran, rfl⟩

/-- What is noted changes nothing in the run. -/
theorem exec_tracked (t : Tracked Thread Value) (labels : List (Label Thread Value)) :
    (exec Tracked.step t labels).map Tracked.state = exec MPMCQueue.step t.state labels := by
  induction labels generalizing t with
  | nil => rfl
  | cons label rest ih =>
      cases taken : t.step label with
      | none =>
          have stuck : MPMCQueue.step t.state label = none := by
            simpa only [Tracked.step, Option.map_eq_none_iff] using taken
          rw [exec_cons, exec_cons, taken, stuck]
          rfl
      | some next =>
          rw [exec_cons, exec_cons, taken, Tracked.state_of_step taken]
          exact ih next

end

variable {m m' : Memory Value} {role : ChunkPtr → Role Thread} {pc : Thread → Pc Value}
  {thread : Thread} {chain freeChain : List ChunkPtr} {now next : Pc Value} {chunk : ChunkPtr}
  {index : Nat}

/-- A pusher finds its slot empty. -/
theorem Slots.fills (slots : Slots m role pc) (locals : ∀ other, (pc other).Local m role other)
    (pushes : (pc thread).Pushes chunk index) : (pc thread).Fills m chunk index := by
  have empty := slots.empty_of_pushes locals pushes
  cases here : pc thread with
  | checkSlot value tail claimed =>
      rw [here] at pushes
      obtain ⟨rfl, rfl⟩ := pushes
      exact ⟨rfl, rfl, empty⟩
  | construct value tail claimed =>
      rw [here] at pushes
      exact pushes
  | _ =>
      rw [here] at pushes
      exact pushes.elim

/-- A slot that a popper has claimed is occupied, or a pusher has claimed it too. -/
theorem Slots.awaits (slots : Slots m role pc) (locals : ∀ other, (pc other).Local m role other)
    (pops : (pc thread).Pops chunk index) :
    (m.slot chunk index).isSome = true ∨ Claimed Pc.Pushes pc chunk index := by
  obtain ⟨inUse, popped, -⟩ := pops.claimed (locals thread)
  obtain ⟨small, ordered⟩ := slots.order chunk inUse
  by_cases pushing : Claimed Pc.Pushes pc chunk index
  · exact .inr pushing
  · apply Or.inl
    exact (slots.occupied chunk index inUse (popped.trans_le small)).mpr
      ⟨popped.trans_le ordered, pushing, fun _ => ⟨thread, pops⟩⟩

/-- A thread that has claimed a slot to fill has just fetched its index, or had it. -/
theorem pushes_run {spurious : Bool} {event : Option (Event Value)}
    (taken : now.run m spurious = some (m', next, event)) (pushes : next.Pushes chunk index) :
    now.obtains = some chunk ∨ (now.obtains = none ∧ now.Pushes chunk index) := by
  cases now with
  | idle => cases taken
  | claimPush value tail =>
      cases taken
      split at pushes
      · exact .inl (congrArg some pushes.1)
      · exact pushes.elim
  | checkSlot value tail claimed =>
      cases taken
      split at pushes
      · exact pushes.elim
      · exact .inr ⟨rfl, pushes⟩
  | construct | resetPush | resetPop | resetReaders | newChunk | enter | takeSlot | leave =>
      cases taken
      exact pushes.elim
  | waitSlot head claimed =>
      cases taken
      split at pushes <;> exact pushes.elim
  | claimPop head claimed =>
      simp only [Pc.run] at taken
      split at taken <;> cases taken <;> exact pushes.elim
  | _ =>
      have links := Pc.links_run rfl taken
      exact absurd pushes (Pc.not_pushes (Pc.unclaimed_of_atSlot links.away) chunk index)

/-- `allocate_chunk` returns no chunk in use. -/
theorem not_inUse_of_allocates (allocates : now.allocates m = some chunk)
    (loc : now.Local m role thread) (chunks : Chunks m role chain freeChain) :
    ¬ (role chunk).InUse := by
  cases now with
  | resetRetired value tail new =>
      cases allocates
      rw [loc.2.1]
      exact Role.not_inUse_owned
  | newChunk value tail =>
      cases allocates
      rw [(chunks.fresh _).mpr le_rfl]
      exact Role.not_inUse_unallocated
  | _ => cases allocates

section

variable [DecidableEq Thread] {t : Tracked Thread Value}

/-- What is noted of a thread that fetches no index, and of the other threads. -/
theorem Tracked.obtained_note {thread pusher : Thread}
    (old : pusher ≠ thread ∨ (t.state.pc thread).obtains = none) :
    (t.note thread).obtained pusher = t.obtained pusher := by
  cases fetches : (t.state.pc thread).obtains with
  | none => simp only [Tracked.note, fetches]
  | some tail =>
      rcases old with differs | fetchesNone
      · simp only [Tracked.note, fetches, Function.update_of_ne differs]
      · rw [fetches] at fetchesNone
        cases fetchesNone

/-- What is noted of a thread that fetches its index. -/
theorem Tracked.obtained_of_fetched (fetched : (t.state.pc thread).obtains = some chunk) :
    (t.note thread).obtained thread = (t.note thread).allocations chunk := by
  cases here : t.state.pc thread with
  | claimPush value tail =>
      rw [here] at fetched
      cases fetched
      simp [Tracked.note, here, Pc.obtains, Pc.allocates]
  | _ =>
      rw [here] at fetched
      cases fetched

end

section

variable [Fintype Thread]

/-- The invariant of careful runs: pushers have their indices from the current
allocation of their chunks. -/
def Tracked.Current (t : Tracked Thread Value) : Prop :=
  (∃ role chain freeChain, t.state.Inv role chain freeChain) ∧
    ∀ pusher chunk index, (t.state.pc pusher).Pushes chunk index →
      t.obtained pusher = t.allocations chunk

variable {t t' : Tracked Thread Value}

theorem Tracked.Current.served (current : t.Current) : t.Served where
  waits := by
    intro thread head index here
    obtain ⟨⟨role, chain, freeChain, inv⟩, recent⟩ := current
    have pops : (t.state.pc thread).Pops head index := by
      rw [here]
      exact ⟨rfl, rfl⟩
    refine (inv.slots.awaits inv.locals pops).imp_right fun claimed => ?_
    obtain ⟨pusher, pushes⟩ := claimed
    exact ⟨pusher, inv.slots.fills inv.locals pushes, recent pusher head index pushes⟩
  finds := by
    intro thread value tail index here
    obtain ⟨⟨role, chain, freeChain, inv⟩, -⟩ := current
    have pushes : (t.state.pc thread).Pushes tail index := by
      rw [here]
      exact ⟨rfl, rfl⟩
    exact inv.slots.empty_of_pushes inv.locals pushes

variable [DecidableEq Thread]

/-- A chunk from which a pusher has its index is not allocated. -/
theorem Tracked.allocations_note (inv : t.state.Inv role chain freeChain) (thread : Thread)
    (inUse : (role chunk).InUse) : (t.note thread).allocations chunk = t.allocations chunk := by
  apply if_neg
  intro allocates
  exact not_inUse_of_allocates allocates (inv.locals thread) inv.chunks inUse

/-- **One step** of a careful run. -/
theorem Tracked.Current.step (current : t.Current) {label : Label Thread Value}
    (careful : Careful t.state label) (taken : t.step label = some t') : t'.Current := by
  obtain ⟨⟨role, chain, freeChain, inv⟩, recent⟩ := current
  refine ⟨inv.step careful (Tracked.state_of_step taken), ?_⟩
  intro pusher chunk index pushes
  rcases Tracked.step_cases taken with ⟨thread, call, idle, rfl⟩ |
    ⟨thread, spurious, memory, now, event, ran, rfl⟩
  · apply recent pusher chunk index
    rw [State.pc_setPc] at pushes
    by_cases self : pusher = thread
    · rw [self, Function.update_self] at pushes
      cases call <;> exact pushes.elim
    · rwa [Function.update_of_ne self] at pushes
  · have kept : (t.state.pc pusher).Pushes chunk index →
        pusher ≠ thread ∨ (t.state.pc thread).obtains = none →
        (t.note thread).obtained pusher = (t.note thread).allocations chunk := by
      intro before old
      rw [Tracked.obtained_note old,
        Tracked.allocations_note inv thread (before.claimed (inv.locals pusher)).1]
      exact recent pusher chunk index before
    rw [pc_record, State.pc_setPc] at pushes
    by_cases self : pusher = thread
    · subst self
      rw [Function.update_self] at pushes
      rcases pushes_run ran pushes with fetched | ⟨fetchesNone, before⟩
      · exact Tracked.obtained_of_fetched fetched
      · exact kept before (.inr fetchesNone)
    · rw [Function.update_of_ne self] at pushes
      exact kept pushes (.inl self)

/-- **A popper never waits for a slot that nobody fills.** In a run whose steps are
careful, a slot that a popper waits for is occupied, or a pusher that has its index from
the current allocation of the chunk constructs into it next; and no pusher finds its slot
occupied. -/
theorem waits_for_push {labels : List (Label Thread Value)} {t : Tracked Thread Value}
    (run : exec Tracked.step .init labels = some t)
    (careful : Along Tracked.step (fun t label => Careful t.state label) .init labels) :
    t.Served := by
  have start : (Tracked.init : Tracked Thread Value).Current :=
    ⟨⟨_, _, _, inv_init⟩, fun _ _ _ pushes => pushes.elim⟩
  have current : t.Current := exec_invariant
    (fun t label t' current allowed taken => current.step allowed taken) start run careful
  exact current.served

end

/-! ## Two threads -/

/-- The consumer claims a slot while the producer is still to fill it. -/
def early : List (Label Bool Nat) :=
  [.push true 7, .run true false, .run true false, .pop false] ++
    List.replicate 6 (.run false false)

/-- The consumer waits, and the producer is going to fill the slot. -/
theorem waits_for_push_of_early : ∃ t, exec Tracked.step .init early = some t ∧
    t.state.memory.slot 0 0 = none ∧ t.Served := by
  obtain ⟨t, run, empty⟩ : ∃ t ∈ exec Tracked.step .init early, t.state.memory.slot 0 0 = none := by
    decide +kernel
  exact ⟨t, run, empty, waits_for_push run (by decide +kernel)⟩

/-- When the producer fills the second chunk too, it gets the chunk that `pop` has moved
past too early, with its 64 values. -/
def refilled : List (Label Bool Nat) :=
  lossy ++ (List.range 63).flatMap (fun value =>
      .push false (65 + value) :: List.replicate 4 (.run false false)) ++
    .push false 128 :: List.replicate 14 (.run false false)

/-- A pusher finds its slot occupied. -/
theorem finds_occupied : ¬ ∀ (labels : List (Label Bool Nat)) (t : Tracked Bool Nat),
    exec Tracked.step .init labels = some t → t.Served := by
  intro always
  obtain ⟨t, run, full⟩ : ∃ t ∈ exec Tracked.step .init refilled,
      (match t.state.pc false with
        | .checkSlot _ tail index => (t.state.memory.slot tail index).isSome
        | _ => false) = true := by
    decide +kernel
  split at full
  next here =>
    rw [(always refilled t run).finds here] at full
    cases full
  next => cases full

end Drpc.Util.MPMCQueue
