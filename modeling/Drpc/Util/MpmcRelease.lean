import Drpc.Util.MpmcRetire

/-! # Releasing chunks of the task queue

In a prudent run nobody comes to a retired chunk, and `try_release_chunk` waits for its
readers, so nobody else is at work on a chunk that is released (`Guarded`). So prudent
runs are careful (`careful_of_prudent`), and chunks are reclaimed safely
(`reclaimed_safely`).
-/

namespace Drpc.Util.MPMCQueue

open Transition Chain

variable {Thread Value : Type} {m m' : Memory Value} {role role' : ChunkPtr → Role Thread}
  {pc : Thread → Pc Value} {thread : Thread} {chain freeChain : List ChunkPtr}
  {now next : Pc Value} {chunk : ChunkPtr} {spurious : Bool} {event : Option (Event Value)}

/-! ## What prudent runs keep -/

/-- What is known of the chunks that are retired or being released. -/
structure Guarded (m : Memory Value) (role : ChunkPtr → Role Thread) (pc : Thread → Pc Value) :
    Prop where
  /-- `tail_chunk` has moved on from a retired chunk, and who is at work on it is settled. -/
  retired : ∀ chunk, m.retired chunk = true → (role chunk).InUse ∧ m.tailChunk ≠ chunk ∧
    ∀ thread, chunk ∈ (pc thread).holds →
      (pc thread).Settled chunk ∨ (pc thread).checks = some chunk
  /-- Nobody else is at work on a chunk that is released. -/
  released : ∀ thread chunk, (pc thread).releases = some chunk →
    m.retired chunk = false ∧ m.tailChunk ≠ chunk ∧ ¬ Others pc thread chunk
  /-- Who is going to take a retired chunk for the free list has seen its last reader go. -/
  unread : ∀ thread chunk after, pc thread = .clearRetired chunk after → m.retired chunk = true →
    ∀ other, (pc other).reading ≠ some chunk

/-- A chunk where chunks are found is in the chain, free, or not allocated yet, or it is
`tail_chunk`. -/
theorem Found.elsewhere (found : Found m chunk) (chunks : Chunks m role chain freeChain)
    (notTail : m.tailChunk ≠ chunk) :
    role chunk = .live ∨ role chunk = .free ∨ role chunk = .unallocated := by
  cases found with
  | tail named => exact (notTail named).elim
  | head named =>
      exact .inl ((chunks.live chunk).mpr (named ▸ mem_of_linked chunks.linked))
  | free named =>
      have linked := chunks.freeLinked
      rw [named] at linked
      exact .inr (.inl ((chunks.free chunk).mpr (mem_of_linked linked)))
  | new named => exact .inr (.inr ((chunks.fresh chunk).mpr named.le))

/-- A chunk that is released is out of the chain and not on the free list. -/
theorem Pc.releases_role (releases : now.releases = some chunk) (loc : now.Local m role thread) :
    role chunk = .owned thread ∨ role chunk = .left := by
  cases now with
  | loadFreeHead released after =>
      cases after with
      | moveTail => cases releases
      | popAgain | popReturn =>
          cases releases
          exact loc.1.imp_right And.left
  | storeNext released old after | pushFree released old after =>
      cases releases
      exact .inl loc.1
  | _ => cases releases

/-- A retired chunk is behind `head_chunk`. -/
theorem Guarded.left (guarded : Guarded m role pc) (chunks : Chunks m role chain freeChain)
    (retired : m.retired chunk = true) : role chunk = .left := by
  refine (guarded.retired chunk retired).1.resolve_left fun live => ?_
  rw [chunks.retired chunk live] at retired
  cases retired

/-- Who else holds the chunk of a thread is about to take it from the free list. -/
theorem candidate_of_owned {other : Thread} (member : chunk ∈ now.holds)
    (loc : now.Local m role other) (owned : role chunk = .owned thread) (differs : other ≠ thread) :
    now.candidate = some chunk := by
  have notInUse : ¬ (role chunk).InUse := owned ▸ Role.not_inUse_owned
  have notHis : role chunk ≠ .owned other := fun his =>
    differs (Role.owned.inj (his.symm.trans owned))
  have behind : ∀ {after : After Value}, after.Local m role → chunk ∉ after.holds := by
    intro after loc member
    cases after with
    | moveTail value tail expected =>
        cases List.mem_singleton.mp member
        exact notInUse loc.1
    | popAgain | popReturn => cases member
  cases now with
  | idle | loadTail | loadHead => cases member
  | claimPush value tail | loadFree value tail | newChunk value tail =>
      cases List.mem_singleton.mp member
      exact (notInUse loc.1).elim
  | checkSlot value tail index | construct value tail index =>
      cases List.mem_singleton.mp member
      exact (notInUse loc.1.1).elim
  | storeTail value tail new | moveTail value tail new =>
      cases List.mem_singleton.mp member
      exact (notInUse loc.1).elim
  | loadFreeNext value tail candidate =>
      rcases List.mem_cons.mp member with rfl | same
      · exact (notInUse loc.1).elim
      · exact congrArg some (List.mem_singleton.mp same).symm
  | takeFree value tail candidate link =>
      rcases List.mem_cons.mp member with rfl | same
      · exact (notInUse loc.1.1).elim
      · exact congrArg some (List.mem_singleton.mp same).symm
  | resetPush value tail new =>
      rcases List.mem_cons.mp member with rfl | same
      · exact (notInUse loc.1.1).elim
      · exact (notHis (List.mem_singleton.mp same ▸ loc.2)).elim
  | linkNext value tail new | resetPop value tail new | resetNext value tail new
  | resetReaders value tail new | resetRetired value tail new =>
      rcases List.mem_cons.mp member with rfl | same
      · exact (notInUse loc.1.1).elim
      · exact (notHis (List.mem_singleton.mp same ▸ loc.2.1)).elim
  | loadPopIndex head | loadNextEmpty head | leave head value =>
      cases List.mem_singleton.mp member
      exact (notInUse loc).elim
  | loadPushIndex head index | loadNextConsumed head | moveHeadConsumed head next
  | moveHeadEmpty head next | claimPop head index | enter head index | waitSlot head index
  | takeSlot head index =>
      cases List.mem_singleton.mp member
      exact (notInUse loc.1).elim
  | storeRetired retiring =>
      cases List.mem_singleton.mp member
      exact (notInUse (.inr loc)).elim
  | loadReaders checked after | clearRetired checked after =>
      rcases List.mem_cons.mp member with rfl | later
      · exact (notInUse loc.1).elim
      · exact (behind (.of_isPop loc.2) later).elim
  | loadFreeHead released after =>
      rcases List.mem_cons.mp member with rfl | later
      · rcases loc.1 with his | ⟨left, -⟩
        · exact (notHis his).elim
        · exact (notInUse (.inr left)).elim
      · exact (behind loc.2 later).elim
  | storeNext released old after =>
      rcases List.mem_cons.mp member with rfl | later
      · exact (notHis loc.1).elim
      · exact (behind loc.2 later).elim
  | pushFree released old after =>
      rcases List.mem_cons.mp member with rfl | later
      · exact (notHis loc.1).elim
      · exact (behind loc.2.2 later).elim

/-- **A prudent operation is careful**, also with the retired chunks among those that
others are at work on. -/
theorem Guarded.careful (guarded : Guarded m role pc) (chunks : Chunks m role chain freeChain)
    (locals : ∀ other, (pc other).Local m role other)
    (prudent : (pc thread).Prudent m pc thread) :
    (pc thread).Careful m fun chunk => Others pc thread chunk ∨ m.retired chunk = true := by
  have apart : ∀ {chunk : ChunkPtr}, (pc thread).releases = some chunk →
      m.tailChunk ≠ chunk ∧ ¬ (Others pc thread chunk ∨ m.retired chunk = true) := by
    intro chunk releases
    obtain ⟨notRetired, notTail, alone⟩ := guarded.released thread chunk releases
    exact ⟨notTail, fun either => either.elim alone (ne_true_of_eq_false notRetired)⟩
  have loc := locals thread
  cases here : pc thread with
  | loadFreeHead released after =>
      cases after with
      | moveTail value tail expected =>
          rw [here] at loc prudent
          have owned : role released = .owned thread := loc.1.resolve_right fun left => left.2
          have notInUse : ¬ (role released).InUse := owned ▸ Role.not_inUse_owned
          refine ⟨fun named => notInUse (named ▸ chunks.tailInUse), ?_⟩
          rintro (⟨other, differs, member⟩ | retired)
          · exact prudent other differs
              (candidate_of_owned member (locals other) owned differs)
          · exact notInUse (guarded.retired released retired).1
      | popAgain | popReturn => exact apart (by rw [here]; rfl)
  | storeNext released old after | pushFree released old after => exact apart (by rw [here]; rfl)
  | moveHeadEmpty head link | storeTail value tail new | claimPush value tail =>
      rw [here] at prudent
      exact prudent
  | _ => trivial

/-- **A retired chunk is free of other operations when it is taken for the free list**: its
readers are gone, and with them the pushes that had claimed a slot of it. -/
theorem Guarded.alone (guarded : Guarded m role pc) (chunks : Chunks m role chain freeChain)
    (locals : ∀ other, (pc other).Local m role other) (slots : Slots m role pc)
    {after : After Value} (here : pc thread = .clearRetired chunk after)
    (retired : m.retired chunk = true)
    (unchecked : ∀ other ≠ thread, (pc other).checks ≠ some chunk) : ¬ Others pc thread chunk := by
  rintro ⟨other, differs, member⟩
  have unread := guarded.unread thread chunk after here retired
  obtain ⟨inUse, -, holders⟩ := guarded.retired chunk retired
  -- all its slots were claimed, so who is going to fill one is waited for
  have unpushed : ∀ index, ¬ (pc other).Pushes chunk index := by
    intro index pushes
    have small := (pushes.claimed (locals other)).2.1
    have popped := (chunks.left chunk (guarded.left chunks retired)).1
    obtain ⟨popper, pops⟩ := slots.awaited chunk index inUse (small.trans_le popped) ⟨other, pushes⟩
    have held := holders popper (pops.claimed (locals popper)).2.2
    cases stands : pc popper with
    | enter =>
        rw [stands] at held
        exact held.elim id fun checks => by cases checks
    | waitSlot | takeSlot =>
        rw [stands] at pops
        exact unread popper (by rw [stands, ← pops.1]; rfl)
    | _ =>
        rw [stands] at pops
        exact pops
  rcases holders other member with settled | checks
  · cases stands : pc other with
    | waitSlot | takeSlot | leave =>
        rw [stands] at settled
        exact unread other (by rw [stands, ← settled]; rfl)
    | loadReaders =>
        rw [stands] at settled
        exact unchecked other differs (by rw [stands, ← settled]; rfl)
    | checkSlot value tail index | construct value tail index =>
        rw [stands] at settled
        exact unpushed index (by rw [stands]; exact ⟨settled, rfl⟩)
    | _ =>
        rw [stands] at settled
        exact settled
  · exact unchecked other differs checks

/-- A chunk that is neither free nor in the chain nor new. -/
def Role.Away (role : Role Thread) : Prop := (∃ owner, role = .owned owner) ∨ role = .left

theorem Role.Away.of_releases (releases : now.releases = some chunk)
    (loc : now.Local m role thread) : (role chunk).Away := by
  rcases Pc.releases_role releases loc with owned | left
  · exact .inl ⟨thread, owned⟩
  · exact .inr left

/-- An operation does not begin to work on a chunk that is neither free nor in the chain. -/
theorem holds_of_run (chunks : Chunks m role chain freeChain) (notTail : m.tailChunk ≠ chunk)
    (away : (role chunk).Away) (taken : now.run m spurious = some (m', next, event))
    (member : chunk ∈ next.holds) : chunk ∈ now.holds := by
  refine (holds_run taken member).resolve_right fun found => ?_
  rcases found.elsewhere chunks notTail with part | part | part <;>
    simp [Role.Away, part] at away

/-- `tail_chunk` does not move to such a chunk. -/
theorem notTail_of_run (chunks : Chunks m role chain freeChain) (loc : now.Local m role thread)
    (prudent : now.Prudent m pc thread) (taken : now.run m spurious = some (m', next, event))
    (notTail : m.tailChunk ≠ chunk) (away : (role chunk).Away) : m'.tailChunk ≠ chunk := by
  rcases tailChunk_run chunks loc prudent taken with same | live
  · rw [same]
    exact notTail
  · rintro rfl
    simp [Role.Away, live] at away

/-- Only `retire_chunk` retires a chunk. -/
theorem notRetired_of_run (taken : now.run m spurious = some (m', next, event))
    (unset : m.retired chunk = false) (notRetiring : now ≠ .storeRetired chunk) :
    m'.retired chunk = false := by
  refine Bool.eq_false_of_not_eq_true fun retired => ?_
  rcases retired_run taken retired with before | retiring
  · rw [unset] at before
    cases before
  · exact notRetiring retiring

section

variable [DecidableEq Thread]

/-- Who else is at work on a chunk, when one thread goes on. -/
theorem others_update_self : Others (Function.update pc thread next) thread chunk ↔
    Others pc thread chunk := by
  constructor
  · rintro ⟨other, differs, member⟩
    rw [Function.update_of_ne differs] at member
    exact ⟨other, differs, member⟩
  · rintro ⟨other, differs, member⟩
    exact ⟨other, differs, by rwa [Function.update_of_ne differs]⟩

variable (guarded : Guarded m role pc) (chunks : Chunks m role chain freeChain)
  (locals : ∀ other, (pc other).Local m role other)
  (prudent : (pc thread).Prudent m pc thread)
  (taken : (pc thread).run m spurious = some (m', next, event))

include guarded chunks locals prudent taken

/-- What is known of a retired chunk is known behind an operation. -/
theorem Guarded.retired_step
    (kept : Guarantee m role m' role' thread
      fun chunk => Others pc thread chunk ∨ m.retired chunk = true)
    (here : next.Local m' role' thread) (retired : m'.retired chunk = true) :
    (role' chunk).InUse ∧ m'.tailChunk ≠ chunk ∧
      ∀ other, chunk ∈ (Function.update pc thread next other).holds →
        (Function.update pc thread next other).Settled chunk ∨
          (Function.update pc thread next other).checks = some chunk := by
  rcases retired_run taken retired with before | stored
  · obtain ⟨inUse, notTail, holders⟩ := guarded.retired chunk before
    have away : (role chunk).Away := .inr (guarded.left chunks before)
    refine ⟨(kept.keeps chunk (.inr before)).inUse inUse,
      notTail_of_run chunks (locals thread) prudent taken notTail away, ?_⟩
    intro other member
    by_cases self : other = thread
    · subst self
      rw [Function.update_self] at member ⊢
      have held := holds_of_run chunks notTail away taken member
      exact settled_run (holders other held) (locals other) taken retired member
    · rw [Function.update_of_ne self] at member ⊢
      exact holders other member
  · rw [stored] at taken prudent
    obtain ⟨notTail, settled⟩ := prudent
    cases taken
    refine ⟨here.1, notTail, fun other member => ?_⟩
    by_cases self : other = thread
    · rw [self, Function.update_self]
      exact .inr rfl
    · rw [Function.update_of_ne self] at member ⊢
      exact .inl (settled other self member)

omit [DecidableEq Thread] in
/-- Nobody else is at work on the chunk that an operation releases. -/
theorem Guarded.released_self (slots : Slots m role pc) (releases : next.releases = some chunk) :
    m'.retired chunk = false ∧ m'.tailChunk ≠ chunk ∧ ¬ Others pc thread chunk := by
  have loc := locals thread
  have from_ := releases_run taken releases
  have careful := guarded.careful chunks locals prudent
  have tail : m.tailChunk ≠ chunk → (role chunk).Away → m'.tailChunk ≠ chunk :=
    notTail_of_run chunks loc prudent taken
  generalize stands : pc thread = now at from_ loc
  cases from_ with
  | already releases =>
      have already : (pc thread).releases = some chunk := stands ▸ releases
      obtain ⟨notRetired, notTail, alone⟩ := guarded.released thread chunk already
      refine ⟨notRetired_of_run taken notRetired ?_, tail notTail (.of_releases releases loc),
        alone⟩
      intro retiring
      rw [retiring] at already
      cases already
  | retired retired =>
      have notTail := (guarded.retired chunk retired).2.1
      refine ⟨?_, tail notTail (.inr (guarded.left chunks retired)), ?_⟩
      · rw [stands] at taken
        simp only [Pc.run, if_pos retired] at taken
        cases taken
        rw [Memory.retired_setRetired, Function.update_self]
      · rw [stands] at prudent
        exact guarded.alone chunks locals slots stands retired (prudent retired)
  | unlinked =>
      rw [stands] at careful
      have owned : role chunk = .owned thread := loc.1.resolve_right fun left => left.2
      refine ⟨notRetired_of_run taken ?_ ?_, tail careful.1 (.inl ⟨_, owned⟩),
        fun others => careful.2 (.inl others)⟩
      · exact Bool.eq_false_of_not_eq_true fun retired => careful.2 (.inr retired)
      · intro retiring
        rw [stands] at retiring
        cases retiring

/-- Nobody comes to a chunk that another operation releases. -/
theorem Guarded.released_other {other : Thread} (differs : other ≠ thread)
    (releases : (pc other).releases = some chunk) :
    m'.retired chunk = false ∧ m'.tailChunk ≠ chunk ∧
      ¬ Others (Function.update pc thread next) other chunk := by
  obtain ⟨notRetired, notTail, alone⟩ := guarded.released other chunk releases
  have away : (role chunk).Away := .of_releases releases (locals other)
  refine ⟨notRetired_of_run taken notRetired fun retiring => ?_,
    notTail_of_run chunks (locals thread) prudent taken notTail away, ?_⟩
  · refine alone ⟨thread, Ne.symm differs, ?_⟩
    rw [retiring]
    exact List.mem_singleton_self _
  · rintro ⟨who, notHim, member⟩
    by_cases self : who = thread
    · subst self
      rw [Function.update_self] at member
      exact alone ⟨who, notHim, holds_of_run chunks notTail away taken member⟩
    · rw [Function.update_of_ne self] at member
      exact alone ⟨who, notHim, member⟩

omit chunks locals in
/-- **The last reader of a chunk is gone** when `try_release_chunk` has loaded zero from its
`active_readers`, and nobody begins to read a retired chunk. -/
theorem Guarded.unread_step [Fintype Thread] (count : Counted m pc) {other reader : Thread}
    {after : After Value}
    (stands : Function.update pc thread next other = .clearRetired chunk after)
    (retired : m'.retired chunk = true) :
    (Function.update pc thread next reader).reading ≠ some chunk := by
  intro reads
  by_cases self : other = thread
  · subst self
    rw [Function.update_self] at stands
    rw [stands] at taken reads
    obtain ⟨-, unread, -⟩ := clearRetired_run taken
    rw [count.counted, Finset.card_eq_zero] at unread
    by_cases same : reader = other
    · rw [same, Function.update_self] at reads
      cases reads
    · rw [Function.update_of_ne same] at reads
      exact Finset.filter_eq_empty_iff.mp unread (Finset.mem_univ reader) reads
  · rw [Function.update_of_ne self] at stands
    rcases retired_run taken retired with before | retiring
    · have unread := guarded.unread other chunk after stands before
      by_cases same : reader = thread
      · subst same
        rw [Function.update_self] at reads
        rcases reading_run taken reads with already | ⟨index, enters⟩
        · exact unread reader already
        · have held := (guarded.retired chunk before).2.2 reader
          rw [enters] at held
          exact (held (List.mem_singleton_self _)).elim id fun checks => by cases checks
      · rw [Function.update_of_ne same] at reads
        exact unread reader reads
    · rw [retiring] at prudent
      have settled := prudent.2 other self
      rw [stands] at settled
      exact settled (List.mem_cons_self ..)

/-- **One prudent operation** keeps what is known of the chunks that are retired or being
released. -/
theorem Guarded.run [Fintype Thread] (slots : Slots m role pc) (count : Counted m pc)
    (kept : Guarantee m role m' role' thread
      fun chunk => Others pc thread chunk ∨ m.retired chunk = true)
    (here : next.Local m' role' thread) : Guarded m' role' (Function.update pc thread next) where
  retired chunk := guarded.retired_step chunks locals prudent taken kept here
  released other chunk releases := by
    by_cases self : other = thread
    · subst self
      rw [Function.update_self] at releases
      rw [others_update_self]
      exact guarded.released_self chunks locals prudent taken slots releases
    · rw [Function.update_of_ne self] at releases
      exact guarded.released_other chunks locals prudent taken self releases
  unread other chunk after stands retired reader :=
    guarded.unread_step prudent taken count stands retired

end

/-! ## Runs -/

section

variable [Fintype Thread] {s : State Thread Value}

/-- The invariant of prudent runs. -/
def State.Safe (s : State Thread Value) : Prop :=
  (∃ role chain freeChain, s.Inv role chain freeChain ∧ Guarded s.memory role s.pc) ∧
    Counted s.memory s.pc

theorem safe_init : (State.init : State Thread Value).Safe := by
  refine ⟨⟨_, _, _, inv_init, ?_⟩, counted_init⟩
  constructor
  · intro chunk retired
    cases retired
  · intro thread chunk releases
    cases releases
  · intro thread chunk after stands
    cases stands

variable {label : Label Thread Value} {after : State Thread Value}

/-- **A prudent step is careful.** -/
theorem State.Safe.careful (safe : s.Safe) (prudent : Prudent s label) :
    Careful s label ∧ Countable s label := by
  obtain ⟨⟨role, chain, freeChain, inv, guarded⟩, count⟩ := safe
  cases label with
  | push | pop => exact ⟨trivial, trivial⟩
  | run thread spurious =>
      constructor
      · have careful := guarded.careful inv.chunks inv.locals prudent
        exact Pc.Careful.mono careful fun _ => .inl
      · intro head enters
        change (s.pc thread).Prudent s.memory s.pc thread at prudent
        cases stands : s.pc thread with
        | enter =>
            rw [stands] at enters prudent
            cases enters
            exact prudent
        | _ =>
            rw [stands] at enters
            cases enters

variable [DecidableEq Thread]

omit [Fintype Thread] in
/-- A call starts at work on no chunk. -/
theorem Guarded.call (guarded : Guarded m role pc) (idle : pc thread = .idle) (call : Call Value) :
    Guarded m role (Function.update pc thread call.start) := by
  have same : ∀ {α : Type} (of : Pc Value → α) (other : Thread), of call.start = of .idle →
      of (Function.update pc thread call.start other) = of (pc other) := by
    intro α of other starts
    by_cases self : other = thread
    · rw [self, Function.update_self, idle, starts]
    · rw [Function.update_of_ne self]
  have holds := fun other => same Pc.holds other (by cases call <;> rfl)
  constructor
  · intro chunk retired
    obtain ⟨inUse, notTail, holders⟩ := guarded.retired chunk retired
    refine ⟨inUse, notTail, fun other member => ?_⟩
    rw [same (fun now => now.Settled chunk) other (by cases call <;> rfl),
      same Pc.checks other (by cases call <;> rfl)]
    exact holders other (holds other ▸ member)
  · intro other chunk releases
    rw [same Pc.releases other (by cases call <;> rfl)] at releases
    obtain ⟨notRetired, notTail, alone⟩ := guarded.released other chunk releases
    refine ⟨notRetired, notTail, ?_⟩
    rintro ⟨who, differs, member⟩
    exact alone ⟨who, differs, holds who ▸ member⟩
  · intro other chunk after stands retired reader
    rw [same Pc.reading reader (by cases call <;> rfl)]
    refine guarded.unread other chunk after ?_ retired reader
    by_cases self : other = thread
    · rw [self, Function.update_self] at stands
      cases call <;> cases stands
    · rwa [Function.update_of_ne self] at stands

/-- **One step** of a prudent run. -/
theorem State.Safe.step (safe : s.Safe) (prudent : Prudent s label)
    (taken : MPMCQueue.step s label = some after) : after.Safe := by
  obtain ⟨careful, countable⟩ := safe.careful prudent
  obtain ⟨⟨role, chain, freeChain, inv, guarded⟩, count⟩ := safe
  have kept : s.Kept := ⟨⟨role, chain, freeChain, inv⟩, count⟩
  refine ⟨?_, (kept.step careful countable taken).2⟩
  rcases step_cases taken with ⟨thread, call, idle, rfl⟩ |
    ⟨thread, spurious, memory, now, event, rfl, ran, rfl⟩
  · exact ⟨role, chain, freeChain, inv.call idle call, guarded.call idle call⟩
  · have apart := guarded.careful inv.chunks inv.locals prudent
    obtain ⟨role', chain', freeChain', behind, keeps⟩ := inv.run (fun _ => .inl) apart ran
    refine ⟨role', chain', freeChain', behind, ?_⟩
    have here : now.Local memory role' thread := by
      have loc := behind.locals thread
      rwa [memory_record, pc_record, State.pc_setPc, Function.update_self] at loc
    rw [memory_record, pc_record]
    exact guarded.run inv.chunks inv.locals prudent ran inv.slots count keeps here

/-- **Prudent runs are careful.** -/
theorem careful_of_prudent {labels : List (Label Thread Value)}
    (prudent : Along MPMCQueue.step Prudent .init labels) :
    Along MPMCQueue.step (fun s label => Careful s label ∧ Countable s label) .init labels := by
  have implied : ∀ (s : State Thread Value) (label : Label Thread Value), s.Safe →
      Prudent s label → Careful s label ∧ Countable s label :=
    fun _ _ safe allowed => safe.careful allowed
  have preserved : ∀ (s : State Thread Value) (label : Label Thread Value)
      (next : State Thread Value), s.Safe → Prudent s label →
      MPMCQueue.step s label = some next → next.Safe :=
    fun _ _ _ safe allowed taken => safe.step allowed taken
  exact along_of_invariant implied preserved safe_init prudent

/-- **Chunks are reclaimed safely.** In a run whose steps are prudent, a chunk on the
free list is there once, is not in the chain and not the tail, is empty, has no slot
that some `pop` has still to empty, and no `push` in progress may still write to it;
and `active_readers` is the number of poppers that read the chunk. -/
theorem reclaimed_safely {labels : List (Label Thread Value)} {s : State Thread Value}
    (run : exec MPMCQueue.step .init labels = some s)
    (prudent : Along MPMCQueue.step Prudent .init labels) :
    ∃ chain free, s.Reclaimed chain free := by
  have start : (State.init : State Thread Value).Kept := ⟨⟨_, _, _, inv_init⟩, counted_init⟩
  have kept : s.Kept := exec_invariant
    (fun s label after kept allowed taken => kept.step allowed.1 allowed.2 taken) start run
    (careful_of_prudent prudent)
  obtain ⟨⟨role, chain, freeChain, inv⟩, count⟩ := kept
  exact ⟨chain, freeChain, inv.reclaimed count⟩

end

/-! ## Two threads -/

/-- The first chunk is filled and one value pushed behind it. One popper claims the last slot
of the first chunk and announces itself; then the other one moves `head_chunk` on, retires the
chunk, finds a reader and pops the next value. The reader releases the chunk. -/
def readerWaits : List (Label Bool Nat) :=
  (List.range 64).flatMap (fun value => .push true value :: List.replicate 4 (.run true false)) ++
    .push true 64 :: List.replicate 10 (.run true false) ++
    (List.range 63).flatMap (fun _ => .pop true :: List.replicate 10 (.run true false)) ++
    .pop false :: List.replicate 5 (.run false false) ++
    .pop true :: List.replicate 17 (.run true false) ++ List.replicate 8 (.run false false)

theorem prudent_readerWaits : Along MPMCQueue.step Prudent .init readerWaits := by
  decide +kernel

/-- The chunk that was read to its end is free. -/
theorem reclaimed_safely_of_reader : ∃ s, exec MPMCQueue.step .init readerWaits = some s ∧
    s.memory.freeList = some 0 ∧ ∃ chain free, s.Reclaimed chain free := by
  obtain ⟨s, run, released⟩ : ∃ s ∈ exec MPMCQueue.step .init readerWaits,
      s.memory.freeList = some 0 := by
    decide +kernel
  exact ⟨s, run, released, reclaimed_safely run prudent_readerWaits⟩

/-- The chunk that `pop` has moved past too early is on the free list with 64 values. -/
theorem reclaimed_full : ¬ ∀ (labels : List (Label Bool Nat)) (s : State Bool Nat),
    exec MPMCQueue.step .init labels = some s → ∃ chain free, s.Reclaimed chain free := by
  intro always
  obtain ⟨s, run, first, occupied⟩ : ∃ s ∈ exec MPMCQueue.step .init lossy,
      s.memory.freeList = some 0 ∧ s.memory.slot 0 0 = some 0 := by
    decide +kernel
  obtain ⟨chain, free, reclaimed⟩ := always lossy s run
  have member : 0 ∈ free := mem_of_linked (first ▸ reclaimed.freeLinked)
  have empty := reclaimed.empty 0 member 0 (by decide)
  rw [occupied] at empty
  cases empty

end Drpc.Util.MPMCQueue
