import Drpc.Library.AtomicQueue
import Drpc.Library.Simulation
import Drpc.Util.MpmcTurns

/-! # The task queue is linearizable

In a run whose steps are careful, the calls and returns of the threads are a history of the
atomic queue (`linearizable`): a `push` takes effect when it claims its slot, a `pop` when
it claims a slot or finds none. The abstract queue holds what the claimed slots hold, or
what pushers are bringing to them (`Holds`).
-/

namespace Drpc.Util.MPMCQueue

open Transition AtomicQueue

variable {Thread Value : Type}

/-! ## Calls and returns -/

/-- What the caller gets. -/
def Event.reply : Event Value → Reply (Option Value)
  | .pushed value => .pushed (some value)
  | .popped value => .popped value
  | .empty => .empty

/-- What a step shows of the calls. -/
def State.acts (s : State Thread Value) :
    Label Thread Value → List (Thread × Action (Option Value))
  | .push thread value => [(thread, .call (.push (some value)))]
  | .pop thread => [(thread, .call .pop)]
  | .run thread spurious =>
      match (s.pc thread).run s.memory spurious with
      | some (_, _, some event) => [(thread, .reply event.reply)]
      | _ => []

/-- A run, with its calls and returns. -/
structure Traced (Thread Value : Type) where
  state : State Thread Value
  history : List (Thread × Action (Option Value))

def Traced.init : Traced Thread Value := ⟨.init, []⟩

/-- One step of the threads. -/
def Traced.step [DecidableEq Thread] (t : Traced Thread Value) (label : Label Thread Value) :
    Option (Traced Thread Value) :=
  (MPMCQueue.step t.state label).map fun state => ⟨state, t.history ++ t.state.acts label⟩

/-! ## What the slots hold -/

/-- The thread brings a value to a slot. -/
def Pc.Brings (pc : Pc Value) (slot : ChunkPtr × Nat) (value : Value) : Prop :=
  match pc with
  | .checkSlot brought tail index | .construct brought tail index =>
      (tail, index) = slot ∧ brought = value
  | _ => False

/-- What a claimed slot holds, or is going to. -/
inductive Holds (m : Memory Value) (pc : Thread → Pc Value) (slot : ChunkPtr × Nat) :
    Option Value → Prop where
  | occupied {value : Value} (holds : m.slot slot.1 slot.2 = some value) :
      Holds m pc slot (some value)
  | brought {value : Value} (thread : Thread) (brings : (pc thread).Brings slot value) :
      Holds m pc slot (some value)

variable {m m' : Memory Value} {role role' : ChunkPtr → Role Thread} {pc : Thread → Pc Value}
  {thread : Thread} {chain freeChain chain' freeChain' : List ChunkPtr} {now next : Pc Value}
  {slot : ChunkPtr × Nat} {value : Option Value}

theorem Pc.Brings.pushes {brought : Value} (brings : now.Brings slot brought) :
    now.Pushes slot.1 slot.2 := by
  cases now with
  | checkSlot | construct =>
      obtain ⟨rfl, -⟩ := brings
      exact ⟨rfl, rfl⟩
  | _ => exact brings.elim

/-- An occupied slot holds its value. -/
theorem Holds.eq_slot (holds : Holds m pc slot value) (slots : Slots m role pc)
    (locals : ∀ other, (pc other).Local m role other)
    (occupied : (m.slot slot.1 slot.2).isSome = true) : m.slot slot.1 slot.2 = value := by
  cases holds with
  | occupied holds => exact holds
  | brought thread brings =>
      rw [slots.empty_of_pushes locals brings.pushes] at occupied
      cases occupied

/-- What one operation does to a slot of a chunk in use. -/
theorem slot_run {spurious : Bool} {event : Option (Event Value)}
    (chunks : Chunks m role chain freeChain) (inUse : (role slot.1).InUse)
    (taken : now.run m spurious = some (m', next, event)) :
    m'.slot slot.1 slot.2 = m.slot slot.1 slot.2 ∨ now = .takeSlot slot.1 slot.2 ∨
      ∃ value, now = .construct value slot.1 slot.2 ∧ m'.slot slot.1 slot.2 = some value := by
  cases now with
  | idle => cases taken
  | checkSlot | waitSlot =>
      cases taken
      exact .inl rfl
  | claimPush | enter | leave | resetPush | resetPop | resetReaders =>
      cases taken
      exact .inl (by simp)
  | claimPop =>
      simp only [Pc.run] at taken
      split at taken <;> cases taken
      · exact .inl (by simp)
      · exact .inl rfl
  | newChunk value tail =>
      cases taken
      have old : slot.1 ≠ m.fresh := by
        intro same
        exact Role.not_inUse_unallocated ((chunks.fresh slot.1).mpr same.ge ▸ inUse)
      exact .inl (congrFun (congrArg Chunk.slots (Function.update_of_ne old ..)) slot.2)
  | construct value tail index =>
      cases taken
      by_cases same : slot.1 = tail ∧ slot.2 = index
      · obtain ⟨rfl, rfl⟩ := same
        exact .inr (.inr ⟨value, rfl, slot_setSlot_self⟩)
      · exact .inl (slot_setSlot_of_ne same)
  | takeSlot head index =>
      cases taken
      by_cases same : slot.1 = head ∧ slot.2 = index
      · obtain ⟨rfl, rfl⟩ := same
        exact .inr (.inl rfl)
      · exact .inl (slot_setSlot_of_ne same)
  | _ =>
      have links := Pc.links_run rfl taken
      rw [links.slot]
      exact .inl rfl

section

variable [DecidableEq Thread]

/-- A slot keeps what it holds until it is read. -/
theorem Holds.run {spurious : Bool} {event : Option (Event Value)} (holds : Holds m pc slot value)
    (chunks : Chunks m role chain freeChain) (slots : Slots m role pc)
    (locals : ∀ other, (pc other).Local m role other) (inUse : (role slot.1).InUse)
    (unread : pc thread ≠ .takeSlot slot.1 slot.2)
    (taken : (pc thread).run m spurious = some (m', next, event)) :
    Holds m' (Function.update pc thread next) slot value := by
  cases holds with
  | occupied holds =>
      rcases slot_run chunks inUse taken with same | reads | ⟨other, here, -⟩
      · exact .occupied (same.trans holds)
      · exact (unread reads).elim
      · -- nobody constructs into an occupied slot
        have empty : m.slot slot.1 slot.2 = none :=
          slots.empty_of_pushes locals (by rw [here]; exact ⟨rfl, rfl⟩)
        rw [holds] at empty
        cases empty
  | @brought brought other brings =>
      by_cases self : other = thread
      · subst self
        have empty := slots.empty_of_pushes locals brings.pushes
        cases here : pc other with
        | checkSlot value tail index =>
            rw [here] at brings taken
            obtain ⟨rfl, rfl⟩ := brings
            cases taken
            refine .brought other ?_
            rw [Function.update_self, if_neg (by simpa using empty)]
            exact ⟨rfl, rfl⟩
        | construct value tail index =>
            rw [here] at brings taken
            obtain ⟨rfl, rfl⟩ := brings
            cases taken
            exact .occupied slot_setSlot_self
        | _ =>
            rw [here] at brings
            exact brings.elim
      · refine .brought other ?_
        rwa [Function.update_of_ne self]

/-- A call that starts leaves alone what is brought. -/
theorem Holds.call (holds : Holds m pc slot value) (idle : pc thread = .idle) :
    Holds m (Function.update pc thread next) slot value := by
  cases holds with
  | occupied holds => exact .occupied holds
  | brought other brings =>
      refine .brought other ?_
      rw [Function.update_of_ne]
      · exact brings
      · rintro rfl
        rw [idle] at brings
        exact brings.elim

end

/-! ## The simulation -/

/-- The atomic queue has its call at the same point. -/
def Progress.Matches (holds : ChunkPtr × Nat → Option Value → Prop) :
    Progress Value → Stage (Option Value) → Prop
  | .idle, stage => stage = .idle
  | .pushing value, stage => stage = .pushing (some value)
  | .pushed value, stage => stage = .pushed (some value)
  | .popping sawEmpty, stage => ∃ seen, stage = .popping seen ∧ (sawEmpty = true → seen = true)
  | .claimed head index, stage => ∃ value, stage = .popped value ∧ holds (head, index) value
  | .popped value, stage => stage = .popped value

theorem Progress.Matches.mono {holds holds' : ChunkPtr × Nat → Option Value → Prop}
    {progress : Progress Value} {stage : Stage (Option Value)}
    (fits : progress.Matches holds stage)
    (kept : ∀ head index value, progress = .claimed head index → holds (head, index) value →
      holds' (head, index) value) : progress.Matches holds' stage := by
  cases progress with
  | claimed head index =>
      obtain ⟨value, stands, held⟩ := fits
      exact ⟨value, stands, kept head index value rfl held⟩
  | _ => exact fits

/-- A thread that has claimed a slot is going to empty it. -/
theorem pops_of_claimed {head : ChunkPtr} {index : Nat}
    (claimed : now.progress = .claimed head index) : now.Pops head index := by
  cases now with
  | enter | waitSlot | takeSlot =>
      cases claimed
      exact ⟨rfl, rfl⟩
  | loadReaders chunk after | clearRetired chunk after | loadFreeHead chunk after
  | storeNext chunk old after | pushFree chunk old after =>
      cases after <;> cases claimed
  | _ => cases claimed

variable [Fintype Thread]

/-- The atomic queue beside a run: it holds what the slots between the pushers and the poppers
hold. -/
structure Linear (t : Traced Thread Value) (q : AtomicQueue.State Thread (Option Value))
    (role : ChunkPtr → Role Thread) (chain freeChain : List ChunkPtr) : Prop where
  inv : t.state.Inv role chain freeChain
  ordered : Ordered t.state.memory t.state.pc chain
  queue : List.Forall₂ (Holds t.state.memory t.state.pc) (t.state.memory.queue chain) q.queue
  stages : ∀ thread, (t.state.pc thread).progress.Matches (Holds t.state.memory t.state.pc)
    (q.stage thread)
  history : q.history = t.history

theorem linear_init : Linear (Traced.init : Traced Thread Value) .init
    (fun chunk => if chunk = 0 then .live else .unallocated) [0] [] where
  inv := inv_init
  ordered := ordered_init
  queue := .nil
  stages _ := rfl
  history := rfl

variable {t : Traced Thread Value} {q : AtomicQueue.State Thread (Option Value)}

/-- A slot between the pushers and the poppers is in use, and no popper reads it. -/
theorem queue_unread {s : State Thread Value} (inv : s.Inv role chain freeChain)
    (member : slot ∈ s.memory.queue chain) :
    (role slot.1).InUse ∧ s.pc thread ≠ .takeSlot slot.1 slot.2 := by
  obtain ⟨chunk, linked, pending⟩ := List.mem_flatMap.mp member
  obtain ⟨same, lower, -, -⟩ := mem_pending.mp pending
  refine ⟨.inl ((inv.chunks.live slot.1).mpr (same ▸ linked)), fun here => ?_⟩
  have loc := inv.locals thread
  rw [here] at loc
  exact Nat.not_le_of_lt loc.2 (same ▸ lower)

/-- Another popper reads another slot. -/
theorem claimed_unread {s : State Thread Value} (inv : s.Inv role chain freeChain)
    {other : Thread} (differs : other ≠ thread) {head : ChunkPtr} {index : Nat}
    (claimed : (s.pc other).progress = .claimed head index) :
    (role head).InUse ∧ s.pc thread ≠ .takeSlot head index := by
  have pops := pops_of_claimed claimed
  refine ⟨(pops.claimed (inv.locals other)).1, fun here => ?_⟩
  exact differs (inv.slots.onePopper other thread head index pops (by rw [here]; exact ⟨rfl, rfl⟩))

variable [DecidableEq Thread]

omit [Fintype Thread] in
/-- One thread goes on. -/
theorem matches_update {holds : ChunkPtr × Nat → Option Value → Prop}
    {stages : Thread → Stage (Option Value)} {stage : Stage (Option Value)}
    (here : next.progress.Matches holds stage)
    (others : ∀ other ≠ thread, (pc other).progress.Matches holds (stages other))
    (other : Thread) : (Function.update pc thread next other).progress.Matches holds
      (Function.update stages thread stage other) := by
  by_cases self : other = thread
  · subst self
    rwa [Function.update_self, Function.update_self]
  · rw [Function.update_of_ne self, Function.update_of_ne self]
    exact others other self

/-- A call starts. -/
theorem Linear.call (linear : Linear t q role chain freeChain) (idle : t.state.pc thread = .idle)
    (call : Call Value) (request : Request (Option Value))
    (starts : call.start.progress.Matches (fun _ _ => False) request.stage) :
    Linear ⟨t.state.setPc thread call.start, t.history ++ [(thread, .call request)]⟩
      ⟨q.queue, Function.update q.stage thread request.stage,
        q.history ++ [(thread, .call request)]⟩ role chain freeChain where
  inv := linear.inv.call idle call
  ordered := by
    refine ⟨linear.ordered.full, fun other tail found => ?_, fun other head found => ?_⟩
    · rw [State.pc_setPc] at found
      by_cases self : other = thread
      · subst self
        rw [Function.update_self] at found
        cases call <;> cases found
      · rw [Function.update_of_ne self] at found
        exact linear.ordered.filled other tail found
    · rw [State.pc_setPc] at found
      by_cases self : other = thread
      · subst self
        rw [Function.update_self] at found
        cases call <;> cases found
      · rw [Function.update_of_ne self] at found
        exact linear.ordered.headed other head found
  queue := linear.queue.imp fun _ _ holds => holds.call idle
  stages := by
    apply matches_update
    · exact starts.mono fun _ _ _ _ => False.elim
    · intro other _
      exact (linear.stages other).mono fun _ _ _ _ holds => holds.call idle
  history := by
    rw [linear.history]

/-- Behind an operation, when the call of the thread and the abstract queue are where they
should be. -/
theorem Linear.behind (linear : Linear t q role chain freeChain) {memory : Memory Value}
    {spurious : Bool} {event : Option (Event Value)}
    (inv : (({ t.state with memory }.setPc thread next).record event).Inv role' chain' freeChain')
    (careful : (t.state.pc thread).Careful t.state.memory (Others t.state.pc thread))
    (taken : (t.state.pc thread).run t.state.memory spurious = some (memory, next, event))
    {queue : List (Option Value)} {stage : Stage (Option Value)}
    {history : List (Thread × Action (Option Value))}
    (held : List.Forall₂ (Holds memory (Function.update t.state.pc thread next))
      (memory.queue chain') queue)
    (here : next.progress.Matches (Holds memory (Function.update t.state.pc thread next)) stage) :
    Linear ⟨({ t.state with memory }.setPc thread next).record event, history⟩
      ⟨queue, Function.update q.stage thread stage, history⟩ role' chain' freeChain' := by
  have chunks := inv.chunks
  rw [memory_record] at chunks
  have old := linear.inv
  refine ⟨inv, ?_, ?_, ?_, rfl⟩
  · rw [memory_record, pc_record]
    exact linear.ordered.run old.chunks chunks old.locals careful taken
  · rw [memory_record, pc_record]
    exact held
  · rw [memory_record, pc_record]
    apply matches_update here
    intro other differs
    refine (linear.stages other).mono fun head index value claimed holds => ?_
    obtain ⟨inUse, unread⟩ := claimed_unread old differs claimed
    exact holds.run old.chunks old.slots old.locals inUse unread taken

/-- Behind an operation that the atomic queue does not see. -/
theorem Linear.stays (linear : Linear t q role chain freeChain) {memory : Memory Value}
    {spurious : Bool} {event : Option (Event Value)}
    (inv : (({ t.state with memory }.setPc thread next).record event).Inv role' chain' freeChain')
    (careful : (t.state.pc thread).Careful t.state.memory (Others t.state.pc thread))
    (taken : (t.state.pc thread).run t.state.memory spurious = some (memory, next, event))
    (held : List.Forall₂ (Holds memory (Function.update t.state.pc thread next))
      (memory.queue chain') q.queue)
    (here : next.progress.Matches (Holds memory (Function.update t.state.pc thread next))
      (q.stage thread)) :
    Linear ⟨({ t.state with memory }.setPc thread next).record event, q.history⟩ q
      role' chain' freeChain' := by
  have behind : Linear ⟨({ t.state with memory }.setPc thread next).record event, q.history⟩
      ⟨q.queue, Function.update q.stage thread (q.stage thread), q.history⟩ role' chain'
      freeChain' := linear.behind inv careful taken held here
  rwa [Function.update_eq_self] at behind

/-- The slots between the pushers and the poppers keep what they hold. -/
theorem Linear.held (linear : Linear t q role chain freeChain) {memory : Memory Value}
    {spurious : Bool} {event : Option (Event Value)}
    (taken : (t.state.pc thread).run t.state.memory spurious = some (memory, next, event)) :
    List.Forall₂ (Holds memory (Function.update t.state.pc thread next))
      (t.state.memory.queue chain) q.queue := by
  have old := linear.inv
  have unread : ∀ slot ∈ t.state.memory.queue chain,
      (role slot.1).InUse ∧ t.state.pc thread ≠ .takeSlot slot.1 slot.2 :=
    fun slot member => queue_unread old member
  have both := (List.forall₂_and_left _ _).mpr ⟨unread, linear.queue⟩
  refine both.imp fun slot value holds => ?_
  obtain ⟨⟨inUse, unread⟩, holds⟩ := holds
  exact holds.run old.chunks old.slots old.locals inUse unread taken

omit [Fintype Thread] [DecidableEq Thread] in
/-- What an operation shows of the calls. -/
theorem acts_run {s : State Thread Value} {memory : Memory Value} {spurious : Bool}
    {event : Option (Event Value)}
    (taken : (s.pc thread).run s.memory spurious = some (memory, next, event)) :
    s.acts (.run thread spurious) =
      (event.map fun event => (thread, Action.reply event.reply)).toList := by
  rw [State.acts, taken]
  cases event <;> rfl

/-- **One atomic operation** is answered by the atomic queue. -/
theorem Linear.run (linear : Linear t q role chain freeChain) {memory : Memory Value}
    {spurious : Bool} {event : Option (Event Value)}
    (careful : (t.state.pc thread).Careful t.state.memory (Others t.state.pc thread))
    (taken : (t.state.pc thread).run t.state.memory spurious = some (memory, next, event))
    (inv : (({ t.state with memory }.setPc thread next).record event).Inv role' chain' freeChain') :
    ∃ moves after, exec AtomicQueue.step q moves = some after ∧
      Linear ⟨({ t.state with memory }.setPc thread next).record event,
        t.history ++ t.state.acts (.run thread spurious)⟩ after role' chain' freeChain' := by
  have chunks : Chunks memory role' chain' freeChain' := by
    have kept := inv.chunks
    rwa [memory_record] at kept
  have turn := turn_run linear.inv linear.ordered chunks careful taken
  have held := linear.held taken
  have stands := linear.stages thread
  rw [acts_run taken, ← linear.history]
  cases turn with
  | quiet same slots_eq =>
      rw [← slots_eq] at held
      have here : next.progress.Matches (Holds memory (Function.update t.state.pc thread next))
          (q.stage thread) := by
        rw [same]
        refine stands.mono fun head index value claimed holds => ?_
        have old := linear.inv
        have inUse := ((pops_of_claimed claimed).claimed (old.locals thread)).1
        refine holds.run old.chunks old.slots old.locals inUse (fun reads => ?_) taken
        -- who reads its slot is not where it was
        rw [reads] at taken same
        cases taken
        cases same
      exact ⟨[], q, rfl, by simpa using linear.stays inv careful taken held here⟩
  | @claimsPush value tail here behind slots_eq =>
      rw [here] at stands
      subst behind
      refine ⟨[.put thread], _, (exec_singleton ..).trans (step_put stands), ?_⟩
      have more : List.Forall₂ (Holds memory (Function.update t.state.pc thread
          (.checkSlot value tail (t.state.memory.pushIndex tail))))
          (memory.queue chain') (q.queue ++ [some value]) := by
        rw [slots_eq]
        refine List.rel_append held (.cons (.brought thread ?_) .nil)
        rw [Function.update_self]
        exact ⟨rfl, rfl⟩
      simpa using linear.behind inv careful taken more rfl
  | @claimsPop head index here behind slots_eq =>
      rw [here] at stands
      subst behind
      obtain ⟨seen, stands, -⟩ := stands
      rw [slots_eq] at held
      obtain ⟨value, rest, holds, less, queue⟩ := List.forall₂_cons_left_iff.mp held
      refine ⟨[.take thread], _, (exec_singleton ..).trans (step_take stands queue), ?_⟩
      simpa using linear.behind inv careful taken less ⟨value, rfl, holds⟩
  | seesEmpty here behind slots_eq empty =>
      rw [here] at stands
      obtain ⟨seen, stands, -⟩ := stands
      rw [empty, List.forall₂_nil_left_iff] at held
      refine ⟨[.see thread], _, (exec_singleton ..).trans (step_see stands held), ?_⟩
      have none_ : List.Forall₂ (Holds memory (Function.update t.state.pc thread next))
          (memory.queue chain') q.queue := by
        rw [slots_eq, empty, held]
        exact .nil
      have here : next.progress.Matches (Holds memory (Function.update t.state.pc thread next))
          (.popping true) := by
        rw [behind]
        exact ⟨true, rfl, fun _ => rfl⟩
      simpa using linear.behind inv careful taken none_ here
  | retries here behind slots_eq =>
      rw [← slots_eq] at held
      rw [here] at stands
      obtain ⟨seen, stands, -⟩ := stands
      have here : next.progress.Matches (Holds memory (Function.update t.state.pc thread next))
          (q.stage thread) := by
        rw [behind]
        exact ⟨seen, stands, fun again => by cases again⟩
      exact ⟨[], q, rfl, by simpa using linear.stays inv careful taken held here⟩
  | @reads head index here behind slots_eq =>
      rw [← slots_eq] at held
      rw [here] at stands
      obtain ⟨value, stands, holds⟩ := stands
      have old := linear.inv
      have value_eq : t.state.memory.slot head index = value :=
        holds.eq_slot old.slots old.locals (old.slots.taking here)
      have here : next.progress.Matches (Holds memory (Function.update t.state.pc thread next))
          (q.stage thread) := by
        rw [behind, value_eq]
        exact stands
      exact ⟨[], q, rfl, by simpa using linear.stays inv careful taken held here⟩
  | @returnsPushed value here behind slots_eq =>
      rw [← slots_eq] at held
      rw [here] at stands
      subst behind
      have replies : (q.stage thread).reply = some (.pushed (some value)) := by
        rw [stands]
        rfl
      refine ⟨[.reply thread], _, (exec_singleton ..).trans (step_reply replies), ?_⟩
      exact linear.behind inv careful taken held rfl
  | @returnsPopped value here behind slots_eq =>
      rw [← slots_eq] at held
      rw [here] at stands
      subst behind
      have replies : (q.stage thread).reply = some (.popped value) := by
        rw [stands]
        rfl
      refine ⟨[.reply thread], _, (exec_singleton ..).trans (step_reply replies), ?_⟩
      exact linear.behind inv careful taken held rfl
  | @returnsEmpty sawEmpty here behind slots_eq empty =>
      rw [← slots_eq] at held
      rw [here] at stands
      obtain ⟨seen, stands, knows⟩ := stands
      subst behind
      cases sawEmpty with
      | true =>
          have replies : (q.stage thread).reply = some .empty := by
            rw [stands, knows rfl]
            rfl
          refine ⟨[.reply thread], _, (exec_singleton ..).trans (step_reply replies), ?_⟩
          exact linear.behind inv careful taken held rfl
      | false =>
          -- the queue is empty at this very step
          have queue : q.queue = [] := by
            rwa [slots_eq, empty rfl, List.forall₂_nil_left_iff] at held
          have replies : (Function.update q.stage thread (.popping true) thread).reply =
              some .empty := by
            rw [Function.update_self]
            rfl
          refine ⟨[.see thread, .reply thread], _, exec_cons_eq_some.mpr
            ⟨_, step_see stands queue, (exec_singleton ..).trans (step_reply replies)⟩, ?_⟩
          rw [Function.update_idem]
          exact linear.behind inv careful taken held rfl

/-! ## Runs -/

/-- **Every step** of a careful run is answered by the atomic queue. -/
theorem linear_simulates :
    Simulates Traced.step AtomicQueue.step
      (fun (t : Traced Thread Value) q => ∃ role chain freeChain, Linear t q role chain freeChain)
      (fun t label => Careful t.state label) fun _ _ => True := by
  rintro t q label after ⟨role, chain, freeChain, linear⟩ careful taken
  have free (moves : List (Move Thread (Option Value))) :
      Along AtomicQueue.step (fun _ _ => True) q moves := along_of_forall_mem (fun _ _ => trivial) _
  simp only [Traced.step, Option.map_eq_some_iff] at taken
  obtain ⟨state, taken, rfl⟩ := taken
  cases label with
  | push thread value =>
      simp only [MPMCQueue.step, Option.ite_none_right_eq_some, Option.some.injEq] at taken
      obtain ⟨idle, rfl⟩ := taken
      have idle := Pc.eq_idle idle
      have stands := linear.stages thread
      rw [idle] at stands
      refine ⟨[.call thread (.push (some value))], _,
        (exec_singleton ..).trans (step_call stands _), free _, role, chain, freeChain, ?_⟩
      exact linear.call idle (.push value) (.push (some value)) rfl
  | pop thread =>
      simp only [MPMCQueue.step, Option.ite_none_right_eq_some, Option.some.injEq] at taken
      obtain ⟨idle, rfl⟩ := taken
      have idle := Pc.eq_idle idle
      have stands := linear.stages thread
      rw [idle] at stands
      refine ⟨[.call thread .pop], _, (exec_singleton ..).trans (step_call stands _), free _, role,
        chain, freeChain, ?_⟩
      exact linear.call idle .pop .pop ⟨false, rfl, id⟩
  | run thread spurious =>
      obtain ⟨role', chain', freeChain', inv⟩ := linear.inv.step careful taken
      simp only [MPMCQueue.step, Option.map_eq_some_iff] at taken
      obtain ⟨⟨memory, now, event⟩, ran, rfl⟩ := taken
      obtain ⟨moves, after, answered, linear⟩ := linear.run careful ran inv
      exact ⟨moves, after, answered, free moves, role', chain', freeChain', linear⟩

omit [Fintype Thread] in
/-- What the history notes changes nothing in the run. -/
theorem exec_traced (t : Traced Thread Value) (labels : List (Label Thread Value)) :
    (exec Traced.step t labels).map Traced.state = exec MPMCQueue.step t.state labels := by
  induction labels generalizing t with
  | nil => rfl
  | cons label rest ih =>
      cases taken : MPMCQueue.step t.state label with
      | none => simp [exec_cons, Traced.step, taken]
      | some next =>
          rw [exec_cons, exec_cons, taken, Traced.step, taken]
          exact ih _

/-- The atomic queue beside a careful run. -/
theorem linear_of_run {labels : List (Label Thread Value)} {t : Traced Thread Value}
    (run : exec Traced.step .init labels = some t)
    (careful : Along Traced.step (fun t label => Careful t.state label) .init labels) :
    ∃ moves q role chain freeChain, exec AtomicQueue.step .init moves = some q ∧
      Linear t q role chain freeChain := by
  have start : ∃ role chain freeChain,
      Linear (Traced.init : Traced Thread Value) .init role chain freeChain :=
    ⟨_, _, _, linear_init⟩
  obtain ⟨moves, q, runs, -, role, chain, freeChain, linear⟩ :=
    linear_simulates.exec start run careful
  exact ⟨moves, q, role, chain, freeChain, runs, linear⟩

/-- **The task queue is linearizable.** In a run whose steps are careful, the calls of the
threads and what they returned are a history of the atomic queue: each call takes effect at
one moment between its call and its return, and a `pop` returns false only if the queue was
empty at a moment of the call. -/
theorem linearizable {labels : List (Label Thread Value)} {t : Traced Thread Value}
    (run : exec Traced.step .init labels = some t)
    (careful : Along Traced.step (fun t label => Careful t.state label) .init labels) :
    ∃ moves q, exec AtomicQueue.step .init moves = some q ∧ q.history = t.history := by
  obtain ⟨moves, q, _, _, _, runs, linear⟩ := linear_of_run run careful
  exact ⟨moves, q, runs, linear.history⟩

/-- **The values have one order.** In a run whose steps are careful, there is one order of the
pushed values in which each thread's come in the order of its calls, and those whose `push`
returned come first among them; the poppers take them from the front, each those it returns
in the order in which it does, and a thread that alone pops returns the beginning of the
order. -/
theorem popped_in_order {labels : List (Label Thread Value)} {t : Traced Thread Value}
    (run : exec Traced.step .init labels = some t)
    (careful : Along Traced.step (fun t label => Careful t.state label) .init labels) :
    ∃ puts takes : List (Thread × Option Value), takes.map Prod.snd <+: puts.map Prod.snd ∧
      (∀ thread, ownedBy thread puts <+: valuesOf Action.pushing thread t.history ∧
        valuesOf Action.pushed thread t.history <+: ownedBy thread puts ∧
        valuesOf Action.popped thread t.history <+: ownedBy thread takes) ∧
      ∀ consumer, (∀ thread, (thread, Action.call .pop) ∈ t.history → thread = consumer) →
        valuesOf Action.popped consumer t.history <+: puts.map Prod.snd := by
  obtain ⟨moves, q, _, _, _, runs, linear⟩ := linear_of_run run careful
  obtain ⟨puts, takes, order, takers, values⟩ := ordered_of_run runs
  rw [linear.history] at takers values
  exact ⟨puts, takes, order, values, fun consumer one =>
    popped_of_one order takers (values consumer).2.2 one⟩

/-! ## Two threads -/

/-- What the threads call and what they get. -/
def twoPushersHistory : List (Bool × Action (Option Nat)) :=
  [(true, .call (.push (some 7))), (false, .call (.push (some 8))),
    (false, .reply (.pushed (some 8))), (true, .reply (.pushed (some 7))),
    (true, .call .pop), (true, .reply (.popped (some 8)))]

/-- The pushes overlap, and the one that was called last takes effect first. -/
theorem linearizable_of_two : ∃ t moves q, exec Traced.step .init twoPushers = some t ∧
    t.history = twoPushersHistory ∧ exec AtomicQueue.step .init moves = some q ∧
    q.history = t.history := by
  obtain ⟨t, run, history⟩ : ∃ t ∈ exec Traced.step .init twoPushers,
      t.history = twoPushersHistory := by
    decide +kernel
  obtain ⟨moves, q, runs, same⟩ := linearizable run (by decide +kernel)
  exact ⟨t, moves, q, run, history, runs, same⟩

/-- The value that is popped is the first of their order. -/
theorem popped_in_order_of_two : ∃ t, exec Traced.step .init twoPushers = some t ∧
    t.history = twoPushersHistory ∧ ∃ puts takes : List (Bool × Option Nat),
      takes.map Prod.snd <+: puts.map Prod.snd ∧
      (∀ thread, ownedBy thread puts <+: valuesOf Action.pushing thread t.history ∧
        valuesOf Action.pushed thread t.history <+: ownedBy thread puts ∧
        valuesOf Action.popped thread t.history <+: ownedBy thread takes) ∧
      [some 8] <+: puts.map Prod.snd := by
  obtain ⟨t, run, history⟩ : ∃ t ∈ exec Traced.step .init twoPushers,
      t.history = twoPushersHistory := by
    decide +kernel
  obtain ⟨puts, takes, order, values, one⟩ := popped_in_order run (by decide +kernel)
  refine ⟨t, run, history, puts, takes, order, values, ?_⟩
  have popped : valuesOf Action.popped true t.history = [some 8] := by
    rw [history]
    rfl
  rw [← popped]
  apply one
  intro thread called
  rw [history] at called
  simpa [twoPushersHistory] using called

end Drpc.Util.MPMCQueue
