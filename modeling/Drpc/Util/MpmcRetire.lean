import Drpc.Util.MpmcReclaim

/-! # Retiring chunks of the task queue

A `pop` that has moved `head_chunk` past a chunk retires it, and `try_release_chunk`
hands a retired chunk to the free list once it has found no reader of it. `Prudent` says
when a chunk may be retired; the rest is what one operation does to the chunks that are
retired or being released.
-/

namespace Drpc.Util.MPMCQueue

variable {Thread Value : Type}

/-- What may still be at work on a chunk when it is retired: a `pop` that has announced
itself on it or is about to look at its `active_readers`, and a `push` that has claimed a
slot of it. -/
def Pc.Settled (pc : Pc Value) (chunk : ChunkPtr) : Prop :=
  match pc with
  | .waitSlot head _ | .takeSlot head _ | .leave head _ | .loadReaders head _ => head = chunk
  | .checkSlot _ tail _ | .construct _ tail _ => tail = chunk
  | _ => False

instance (pc : Pc Value) (chunk : ChunkPtr) : Decidable (pc.Settled chunk) :=
  match pc with
  | .waitSlot head _ | .takeSlot head _ | .leave head _ | .loadReaders head _ =>
      inferInstanceAs (Decidable (head = chunk))
  | .checkSlot _ tail _ | .construct _ tail _ => inferInstanceAs (Decidable (tail = chunk))
  | .idle | .loadTail _ | .claimPush .. | .linkNext .. | .storeTail .. | .moveTail .. | .loadFree ..
  | .loadFreeNext .. | .takeFree .. | .resetPush .. | .resetPop .. | .resetNext ..
  | .resetReaders .. | .resetRetired .. | .newChunk .. | .loadHead | .loadPopIndex _
  | .loadPushIndex .. | .loadNextConsumed _ | .moveHeadConsumed .. | .loadNextEmpty _
  | .moveHeadEmpty .. | .claimPop .. | .enter .. | .storeRetired _ | .clearRetired ..
  | .loadFreeHead .. | .storeNext .. | .pushFree .. => .isFalse id

/-- The chunk that `allocate_chunk` has found at the head of the free list. -/
def Pc.candidate : Pc Value → Option ChunkPtr
  | .loadFreeNext _ _ chunk | .takeFree _ _ chunk _ => some chunk
  | _ => none

/-- What a step has to find so that chunks are reclaimed safely. `head_chunk` does not
move past a chunk with slots that were not popped. When a chunk is retired, `tail_chunk`
has moved on, and who is still at work on it is settled. When a retired chunk is taken
for the free list, no other `try_release_chunk` has it in hand, and when `push` gives back
the chunk it has not linked, no other `allocate_chunk` has. `tail_chunk` does not move
back, and the counters do not wrap around. -/
def Pc.Prudent (m : Memory Value) (pc : Thread → Pc Value) (thread : Thread) : Pc Value → Prop
  | .moveHeadEmpty head _ => m.headChunk = head → chunkSize ≤ m.popIndex head
  | .storeRetired chunk => m.tailChunk ≠ chunk ∧
      ∀ other ≠ thread, chunk ∈ (pc other).holds → (pc other).Settled chunk
  | .clearRetired chunk _ => m.retired chunk = true →
      ∀ other ≠ thread, (pc other).checks ≠ some chunk
  | .loadFreeHead chunk (.moveTail ..) => ∀ other ≠ thread, (pc other).candidate ≠ some chunk
  | .storeTail _ tail new => m.tailChunk = tail ∨ m.tailChunk = new
  | .claimPush _ tail => m.pushIndex tail + 1 < 2 ^ 64
  | .enter head _ => m.activeReaders head + 1 < 2 ^ 64
  | _ => True

instance [Fintype Thread] [DecidableEq Thread] (m : Memory Value) (pc : Thread → Pc Value)
    (thread : Thread) (now : Pc Value) : Decidable (now.Prudent m pc thread) :=
  match now with
  | .moveHeadEmpty head _ =>
      inferInstanceAs (Decidable (m.headChunk = head → chunkSize ≤ m.popIndex head))
  | .storeRetired chunk => inferInstanceAs (Decidable (m.tailChunk ≠ chunk ∧
      ∀ other ≠ thread, chunk ∈ (pc other).holds → (pc other).Settled chunk))
  | .clearRetired chunk _ => inferInstanceAs (Decidable (m.retired chunk = true →
      ∀ other ≠ thread, (pc other).checks ≠ some chunk))
  | .loadFreeHead chunk (.moveTail ..) =>
      inferInstanceAs (Decidable (∀ other ≠ thread, (pc other).candidate ≠ some chunk))
  | .storeTail _ tail new => inferInstanceAs (Decidable (m.tailChunk = tail ∨ m.tailChunk = new))
  | .claimPush _ tail => inferInstanceAs (Decidable (m.pushIndex tail + 1 < 2 ^ 64))
  | .enter head _ => inferInstanceAs (Decidable (m.activeReaders head + 1 < 2 ^ 64))
  | .idle | .loadTail _ | .checkSlot .. | .construct .. | .linkNext .. | .moveTail .. | .loadFree ..
  | .loadFreeNext .. | .takeFree .. | .resetPush .. | .resetPop .. | .resetNext ..
  | .resetReaders .. | .resetRetired .. | .newChunk .. | .loadHead | .loadPopIndex _
  | .loadPushIndex .. | .loadNextConsumed _ | .moveHeadConsumed .. | .loadNextEmpty _
  | .claimPop .. | .waitSlot .. | .takeSlot .. | .leave .. | .loadReaders ..
  | .loadFreeHead _ .popAgain | .loadFreeHead _ (.popReturn _) | .storeNext .. | .pushFree .. =>
      .isTrue trivial

/-- The steps of a run are prudent. -/
def Prudent (s : State Thread Value) : Label Thread Value → Prop
  | .run thread _ => (s.pc thread).Prudent s.memory s.pc thread
  | .push .. | .pop _ => True

instance [Fintype Thread] [DecidableEq Thread] (s : State Thread Value)
    (label : Label Thread Value) : Decidable (Prudent s label) :=
  match label with
  | .run thread _ => inferInstanceAs (Decidable ((s.pc thread).Prudent s.memory s.pc thread))
  | .push .. | .pop _ => .isTrue trivial

/-! ## What one operation does -/

variable {m m' : Memory Value} {role role' : ChunkPtr → Role Thread} {pc : Thread → Pc Value}
  {thread : Thread} {chain freeChain : List ChunkPtr} {now next : Pc Value} {chunk : ChunkPtr}
  {spurious : Bool} {event : Option (Event Value)}

/-- Where an operation finds a chunk it has not worked on before. -/
inductive Found (m : Memory Value) (chunk : ChunkPtr) : Prop where
  | tail (named : m.tailChunk = chunk)
  | head (named : m.headChunk = chunk)
  | free (named : m.freeList = some chunk)
  | new (named : m.fresh = chunk)

theorem holds_resume {after : After Value} (member : chunk ∈ after.resume.1.holds) :
    chunk ∈ after.holds := by
  cases after with
  | moveTail => exact member
  | popAgain | popReturn => cases member

theorem holds_allocateFrom {value : Value} {tail : ChunkPtr} {first : Option ChunkPtr}
    (member : chunk ∈ (allocateFrom value tail first).holds) :
    chunk = tail ∨ first = some chunk := by
  cases first with
  | none => exact .inl (List.mem_singleton.mp member)
  | some found =>
      rcases List.mem_cons.mp member with same | same
      · exact .inl same
      · exact .inr (congrArg some (List.mem_singleton.mp same).symm)

/-- **What an operation works on**, it has worked on before or finds where chunks are found. -/
theorem holds_run (taken : now.run m spurious = some (m', next, event))
    (member : chunk ∈ next.holds) : chunk ∈ now.holds ∨ Found m chunk := by
  cases now with
  | idle => cases taken
  | loadTail value =>
      cases taken
      exact .inr (.tail (List.mem_singleton.mp member).symm)
  | loadHead =>
      cases taken
      exact .inr (.head (List.mem_singleton.mp member).symm)
  | loadFree value tail =>
      cases taken
      rcases holds_allocateFrom member with rfl | first
      · exact .inl (List.mem_singleton_self _)
      · exact .inr (.free first)
  | takeFree value tail candidate link =>
      simp only [Pc.run] at taken
      split at taken <;> cases taken
      · exact .inl member
      · rcases holds_allocateFrom member with rfl | first
        · exact .inl (List.mem_cons_self ..)
        · exact .inr (.free first)
  | newChunk value tail =>
      cases taken
      rcases List.mem_cons.mp member with rfl | same
      · exact .inl (List.mem_singleton_self _)
      · exact .inr (.new (List.mem_singleton.mp same).symm)
  | claimPush value tail =>
      cases taken
      split at member <;> exact .inl member
  | checkSlot value tail index =>
      cases taken
      split at member
      · cases member
      · exact .inl member
  | construct | storeTail | moveTail =>
      cases taken
      cases member
  | loadPushIndex head index =>
      cases taken
      split at member
      · exact .inl member
      · split at member <;> exact .inl member
  | waitSlot head index =>
      cases taken
      split at member <;> exact .inl member
  | linkNext value tail new =>
      simp only [Pc.run] at taken
      split at taken <;> cases taken
      · exact .inl (List.mem_cons.mpr (.inl (List.mem_singleton.mp member)))
      · exact .inl ((List.Perm.swap ..).mem_iff.mp member)
  | loadNextConsumed head | loadNextEmpty head | moveHeadConsumed head link
  | moveHeadEmpty head link | claimPop head index =>
      simp only [Pc.run] at taken
      split at taken <;> cases taken
      all_goals first
        | exact .inl member
        | cases member
  | loadReaders checked after | clearRetired checked after =>
      simp only [Pc.run] at taken
      split at taken
      · cases taken
        exact .inl member
      · obtain ⟨-, rfl⟩ := resumed taken
        exact .inl (List.mem_cons_of_mem _ (holds_resume member))
  | pushFree released old after =>
      simp only [Pc.run] at taken
      split at taken
      · obtain ⟨-, rfl⟩ := resumed taken
        exact .inl (List.mem_cons_of_mem _ (holds_resume member))
      · cases taken
        exact .inl member
  | loadFreeNext | resetPush | resetPop | resetNext | resetReaders | resetRetired | loadPopIndex
  | enter | takeSlot | leave | storeRetired | loadFreeHead | storeNext =>
      cases taken
      exact .inl member

/-- A chunk that is retired was so, or is retired now. -/
theorem retired_run (taken : now.run m spurious = some (m', next, event))
    (retired : m'.retired chunk = true) :
    m.retired chunk = true ∨ now = .storeRetired chunk := by
  cases now with
  | idle => cases taken
  | storeRetired stored =>
      cases taken
      rw [Memory.retired_setRetired, Function.update_apply] at retired
      split at retired
      · rename_i same
        exact .inr (same ▸ rfl)
      · exact .inl retired
  | resetRetired value tail reset =>
      cases taken
      rw [Memory.retired_setRetired, Function.update_apply] at retired
      split at retired
      · cases retired
      · exact .inl retired
  | clearRetired checked after =>
      simp only [Pc.run] at taken
      split at taken
      · cases taken
        rw [Memory.retired_setRetired, Function.update_apply] at retired
        split at retired
        · cases retired
        · exact .inl retired
      · obtain ⟨rfl, -⟩ := resumed taken
        exact .inl retired
  | newChunk value tail =>
      cases taken
      by_cases new : chunk = m.fresh
      · subst new
        simp [Memory.retired, Memory.setChunk, Chunk.new] at retired
      · exact .inl ((congrArg Chunk.retired (Function.update_of_ne new ..)).symm.trans retired)
  | claimPush | construct | resetPush | resetPop | resetNext | resetReaders | enter | takeSlot
  | leave | storeNext =>
      cases taken
      simp only [Memory.retired_setPushIndex, Memory.retired_setSlot, Memory.retired_setPopIndex,
        Memory.retired_setNext, Memory.retired_setActiveReaders] at retired
      exact .inl retired
  | linkNext | claimPop =>
      simp only [Pc.run] at taken
      split at taken <;> cases taken
      · simp only [Memory.retired_setNext, Memory.retired_setPopIndex] at retired
        exact .inl retired
      · exact .inl retired
  | takeFree | loadNextConsumed | loadNextEmpty | moveHeadConsumed | moveHeadEmpty =>
      simp only [Pc.run] at taken
      split at taken <;> cases taken <;> exact .inl retired
  | loadReaders checked after =>
      simp only [Pc.run] at taken
      split at taken
      · cases taken
        exact .inl retired
      · obtain ⟨rfl, -⟩ := resumed taken
        exact .inl retired
  | pushFree released old after =>
      simp only [Pc.run] at taken
      split at taken
      · obtain ⟨rfl, -⟩ := resumed taken
        exact .inl retired
      · cases taken
        exact .inl retired
  | loadTail | checkSlot | storeTail | moveTail | loadFree | loadFreeNext | loadHead | loadPopIndex
  | loadPushIndex | waitSlot | loadFreeHead =>
      cases taken
      exact .inl retired

/-- The tail moves on to the end of the chain. -/
theorem Chunks.live_behind_tail (chunks : Chunks m role chain freeChain)
    (link : m.next m.tailChunk = some chunk) : role chunk = .live := by
  obtain ⟨last, live, ends, near⟩ := chunks.tail
  rcases near with same | linked
  · rw [same, ends] at link
    cases link
  · rw [linked] at link
    cases link
    exact live

/-- **The tail** moves to a chunk of the chain, when it moves. -/
theorem tailChunk_run (chunks : Chunks m role chain freeChain) (loc : now.Local m role thread)
    (prudent : now.Prudent m pc thread) (taken : now.run m spurious = some (m', next, event)) :
    m'.tailChunk = m.tailChunk ∨ role m'.tailChunk = .live := by
  cases now with
  | idle => cases taken
  | storeTail value tail new =>
      cases taken
      rcases prudent with named | moved
      · exact .inr (chunks.live_behind_tail (named ▸ loc.2))
      · exact .inl moved.symm
  | moveTail value tail expected =>
      cases taken
      by_cases named : m.tailChunk = tail
      · simp only [named, if_true]
        exact .inr (chunks.live_behind_tail (named ▸ loc.2))
      · simp only [if_neg named]
        exact .inl trivial
  | linkNext | claimPop | takeFree | loadNextConsumed | loadNextEmpty | moveHeadConsumed
  | moveHeadEmpty =>
      simp only [Pc.run] at taken
      split at taken <;> cases taken <;> exact .inl rfl
  | loadReaders checked after | clearRetired checked after =>
      simp only [Pc.run] at taken
      split at taken
      · cases taken
        exact .inl rfl
      · obtain ⟨rfl, -⟩ := resumed taken
        exact .inl rfl
  | pushFree released old after =>
      simp only [Pc.run] at taken
      split at taken
      · obtain ⟨rfl, -⟩ := resumed taken
        exact .inl rfl
      · cases taken
        exact .inl rfl
  | _ =>
      cases taken
      exact .inl rfl

theorem holds_resume_of_isPop {after : After Value} (pops : after.IsPop) :
    after.resume.1.holds = [] := by
  cases after with
  | moveTail => exact pops.elim
  | popAgain | popReturn => rfl

/-- Who is settled on a retired chunk stays so until it is done with it. -/
theorem settled_run (stands : now.Settled chunk ∨ now.checks = some chunk)
    (loc : now.Local m role thread) (taken : now.run m spurious = some (m', next, event))
    (retired : m'.retired chunk = true) (member : chunk ∈ next.holds) :
    next.Settled chunk ∨ next.checks = some chunk := by
  cases now with
  | waitSlot head index =>
      obtain rfl : head = chunk := stands.resolve_right fun checks => by cases checks
      cases taken
      split <;> exact .inl rfl
  | takeSlot head index =>
      obtain rfl : head = chunk := stands.resolve_right fun checks => by cases checks
      cases taken
      exact .inl rfl
  | leave head value =>
      obtain rfl : head = chunk := stands.resolve_right fun checks => by cases checks
      cases taken
      exact .inl rfl
  | checkSlot value tail index =>
      obtain rfl : tail = chunk := stands.resolve_right fun checks => by cases checks
      cases taken
      split at member
      · cases member
      · rename_i free
        rw [if_neg free]
        exact .inl rfl
  | construct value tail index =>
      cases taken
      cases member
  | loadReaders checked after =>
      have same : checked = chunk := stands.elim id fun checks => Option.some.inj checks
      simp only [Pc.run] at taken
      split at taken
      · cases taken
        exact .inr (congrArg some same)
      · obtain ⟨-, rfl⟩ := resumed taken
        rw [holds_resume_of_isPop loc.2] at member
        cases member
  | clearRetired checked after =>
      obtain rfl : checked = chunk := Option.some.inj (stands.resolve_left id)
      simp only [Pc.run] at taken
      split at taken
      · -- the compare_exchange has taken it
        cases taken
        rw [Memory.retired_setRetired, Function.update_self] at retired
        cases retired
      · obtain ⟨-, rfl⟩ := resumed taken
        rw [holds_resume_of_isPop loc.2] at member
        cases member
  | _ =>
      exfalso
      rcases stands with settled | checks
      · exact settled
      · cases checks

/-- The retired chunk, or the chunk of `push`, that an operation has taken for the free
list. The chunk of `push` counts once the head of the free list was loaded. -/
def Pc.releases : Pc Value → Option ChunkPtr
  | .loadFreeHead _ (.moveTail ..) => none
  | .loadFreeHead chunk _ | .storeNext chunk _ _ | .pushFree chunk _ _ => some chunk
  | _ => none

/-- How an operation comes to release a chunk. -/
inductive Releases (m : Memory Value) (chunk : ChunkPtr) : Pc Value → Prop where
  | already {now : Pc Value} (releases : now.releases = some chunk) : Releases m chunk now
  | retired {after : After Value} (retired : m.retired chunk = true) :
      Releases m chunk (.clearRetired chunk after)
  | unlinked {value : Value} {tail expected : ChunkPtr} :
      Releases m chunk (.loadFreeHead chunk (.moveTail value tail expected))

theorem releases_resume (after : After Value) : after.resume.1.releases = none := by
  cases after <;> rfl

theorem releases_allocateFrom (value : Value) (tail : ChunkPtr) (first : Option ChunkPtr) :
    (allocateFrom value tail first).releases = none := by
  cases first <;> rfl

/-- An operation releases a chunk that it has released before, that it has found retired,
or that it has not linked. -/
theorem releases_run (taken : now.run m spurious = some (m', next, event))
    (releases : next.releases = some chunk) : Releases m chunk now := by
  cases now with
  | idle => cases taken
  | clearRetired checked after =>
      simp only [Pc.run] at taken
      split at taken
      · rename_i retired
        cases taken
        cases after with
        | moveTail => cases releases
        | popAgain | popReturn =>
            cases releases
            exact .retired retired
      · obtain ⟨-, rfl⟩ := resumed taken
        rw [releases_resume] at releases
        cases releases
  | loadFreeHead released after =>
      cases taken
      cases releases
      cases after with
      | moveTail => exact .unlinked
      | popAgain | popReturn => exact .already rfl
  | storeNext released old after =>
      cases taken
      exact .already releases
  | pushFree released old after =>
      simp only [Pc.run] at taken
      split at taken
      · obtain ⟨-, rfl⟩ := resumed taken
        rw [releases_resume] at releases
        cases releases
      · cases taken
        exact .already releases
  | loadReaders checked after =>
      simp only [Pc.run] at taken
      split at taken
      · cases taken
        cases releases
      · obtain ⟨-, rfl⟩ := resumed taken
        rw [releases_resume] at releases
        cases releases
  | loadFree value tail =>
      cases taken
      rw [releases_allocateFrom] at releases
      cases releases
  | takeFree value tail candidate link =>
      simp only [Pc.run] at taken
      split at taken <;> cases taken
      · cases releases
      · rw [releases_allocateFrom] at releases
        cases releases
  | linkNext | claimPop | loadNextConsumed | loadNextEmpty | moveHeadConsumed | moveHeadEmpty =>
      simp only [Pc.run] at taken
      split at taken <;> cases taken <;> cases releases
  | claimPush | checkSlot | waitSlot =>
      cases taken
      split at releases <;> cases releases
  | loadPushIndex head index =>
      cases taken
      split at releases
      · cases releases
      · split at releases <;> cases releases
  | _ =>
      cases taken
      cases releases

/-- `pop` reads a chunk to which it has announced itself. -/
theorem reading_run (taken : now.run m spurious = some (m', next, event))
    (reads : next.reading = some chunk) :
    now.reading = some chunk ∨ ∃ index, now = .enter chunk index := by
  cases now with
  | idle => cases taken
  | enter head index =>
      cases taken
      cases reads
      exact .inr ⟨index, rfl⟩
  | waitSlot head index =>
      cases taken
      split at reads <;> exact .inl reads
  | takeSlot head index =>
      cases taken
      exact .inl reads
  | claimPush | checkSlot =>
      cases taken
      split at reads <;> cases reads
  | claimPop =>
      simp only [Pc.run] at taken
      split at taken <;> cases taken <;> cases reads
  | construct | leave | newChunk | resetPush | resetPop | resetReaders =>
      cases taken
      cases reads
  | _ =>
      rw [reading_of_atSlot (Pc.links_run rfl taken).away] at reads
      cases reads

/-- `try_release_chunk` is at its compare_exchange once it has found no reader. -/
theorem clearRetired_run {after : After Value}
    (taken : now.run m spurious = some (m', .clearRetired chunk after, event)) :
    now = .loadReaders chunk after ∧ m.activeReaders chunk = 0 ∧ m' = m := by
  have links : ∀ {first : Option ChunkPtr} {value : Value} {tail : ChunkPtr},
      allocateFrom value tail first ≠ .clearRetired chunk after := by
    intro first value tail
    cases first <;> nofun
  have resumes : ∀ {behind : After Value}, behind.resume.1 ≠ .clearRetired chunk after := by
    intro behind
    cases behind <;> nofun
  cases now with
  | idle => cases taken
  | loadReaders checked behind =>
      simp only [Pc.run] at taken
      split at taken
      · rename_i unread
        cases taken
        exact ⟨rfl, unread, rfl⟩
      · exact (resumes (resumed taken).2.symm).elim
  | clearRetired checked behind =>
      simp only [Pc.run] at taken
      split at taken
      · cases taken
      · exact (resumes (resumed taken).2.symm).elim
  | pushFree released old behind =>
      simp only [Pc.run] at taken
      split at taken
      · exact (resumes (resumed taken).2.symm).elim
      · cases taken
  | loadFree value tail =>
      simp only [Pc.run, Option.some.injEq, Prod.mk.injEq] at taken
      exact (links taken.2.1).elim
  | takeFree value tail candidate link =>
      simp only [Pc.run] at taken
      split at taken
      · cases taken
      · simp only [Option.some.injEq, Prod.mk.injEq] at taken
        exact (links taken.2.1).elim
  | claimPush | checkSlot | waitSlot =>
      simp only [Pc.run, Option.some.injEq, Prod.mk.injEq] at taken
      obtain ⟨-, stands, -⟩ := taken
      split at stands <;> cases stands
  | loadPushIndex head index =>
      simp only [Pc.run, Option.some.injEq, Prod.mk.injEq] at taken
      obtain ⟨-, stands, -⟩ := taken
      split at stands
      · cases stands
      · split at stands <;> cases stands
  | linkNext | claimPop | loadNextConsumed | loadNextEmpty | moveHeadConsumed | moveHeadEmpty =>
      simp only [Pc.run] at taken
      split at taken <;> cases taken
  | _ => cases taken

end Drpc.Util.MPMCQueue
