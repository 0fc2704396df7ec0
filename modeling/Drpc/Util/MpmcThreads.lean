import Drpc.Util.MpmcHandover

/-! # The threads of the task queue

A careful atomic operation keeps the chunks in order, gives its thread what it relies on
next, and keeps what the others rely on (`Chunks.run`).
-/

namespace Drpc.Util.MPMCQueue

open Chain

variable {Thread Value : Type} {m m' : Memory Value} {role role' : ChunkPtr → Role Thread}
  {chain freeChain : List ChunkPtr} {thread : Thread} {others : ChunkPtr → Prop} {chunk : ChunkPtr}

/-- Behind a release, a thread stands where it may rely on what it did. -/
theorem After.Local.resume {after : After Value} (loc : after.Local m role) :
    after.resume.1.Local m role thread := by
  cases after with
  | moveTail value tail expected => exact loc
  | popAgain | popReturn => trivial

theorem After.Local.of_isPop {after : After Value} (pops : after.IsPop) : after.Local m role := by
  cases after with
  | moveTail => exact pops.elim
  | popAgain | popReturn => trivial

/-- How the chunks stand behind an operation of `thread`. -/
def Continues (m : Memory Value) (role : ChunkPtr → Role Thread) (thread : Thread)
    (others : ChunkPtr → Prop) (m' : Memory Value) (pc : Pc Value) : Prop :=
  ∃ role' chain freeChain, Chunks m' role' chain freeChain ∧ pc.Local m' role' thread ∧
    Guarantee m role m' role' thread others

/-- A load, or a `compare_exchange` that fails. -/
theorem Chunks.stay (chunks : Chunks m role chain freeChain) {pc : Pc Value}
    (here : pc.Local m role thread) : Continues m role thread others m pc :=
  ⟨role, chain, freeChain, chunks, here, .refl⟩

/-- A write to a chunk in use. -/
theorem Chunks.used (chunks : Chunks m role chain freeChain) (same : SameBut m m' chunk)
    (inUse : (role chunk).InUse) (next : m'.next chunk = m.next chunk)
    (push : m.pushIndex chunk ≤ m'.pushIndex chunk) (pop : m.popIndex chunk ≤ m'.popIndex chunk)
    (retired : role chunk = .live → m'.retired chunk = false) {pc : Pc Value}
    (here : pc.Local m' role thread) : Continues m role thread others m' pc :=
  ⟨role, chain, freeChain, chunks.write same next pop retired, here,
    same.guarantee inUse next push pop⟩

/-- A write to a chunk of the thread. -/
theorem Chunks.own (chunks : Chunks m role chain freeChain) (same : SameBut m m' chunk)
    (owned : role chunk = .owned thread) {pc : Pc Value} (here : pc.Local m' role thread) :
    Continues m role thread others m' pc :=
  ⟨role, chain, freeChain, chunks.writeOwned same owned, here, same.guaranteeOwned owned⟩

/-- The thread still finds the tail it knows behind a write to its own chunk. -/
theorem WasTail.own {tail : ChunkPtr} (was : WasTail m role tail) (same : SameBut m m' chunk)
    (owned : role chunk = .owned thread) : WasTail m' role tail := by
  have away : tail ≠ chunk := by
    intro equal
    subst equal
    exact Role.not_inUse_owned (owned ▸ was.1)
  refine ⟨was.1, fun ends => ?_⟩
  rw [same.tailChunk]
  exact was.2 ((same.next away).symm.trans ends)

theorem After.Local.congr {after : After Value} (loc : after.Local m role)
    (inUse : ∀ chunk, (role chunk).InUse → (role' chunk).InUse)
    (next : ∀ chunk, (role chunk).InUse → m'.next chunk = m.next chunk) :
    after.Local m' role' := by
  cases after with
  | moveTail value tail expected => exact ⟨inUse tail loc.1, (next tail loc.1).trans loc.2⟩
  | popAgain | popReturn => trivial

theorem After.Local.own {after : After Value} (loc : after.Local m role)
    (same : SameBut m m' chunk) (owned : role chunk = .owned thread) : after.Local m' role := by
  refine loc.congr (fun _ => id) fun other inUse => same.next ?_
  intro equal
  subst equal
  exact Role.not_inUse_owned (owned ▸ inUse)

/-- What `allocate_chunk` does with the head of the free list. -/
theorem WasTail.allocateFrom {tail : ChunkPtr} (was : WasTail m role tail) (value : Value)
    (first : Option ChunkPtr) : (allocateFrom value tail first).Local m role thread := by
  cases first with
  | none => exact was
  | some chunk => exact was

/-! ## The operations that hand chunks over -/

section

variable (chunks : Chunks m role chain freeChain) {value : Value} {tail new : ChunkPtr}
  {spurious : Bool} {after : After Value} {next : Pc Value} {event : Option (Event Value)}

include chunks

/-- `push` claims a slot. -/
theorem Chunks.claimPush (was : WasTail m role tail) (room : m.pushIndex tail + 1 < 2 ^ 64)
    (taken : (Pc.claimPush value tail).run m spurious = some (m', next, event)) :
    Continues m role thread others m' next := by
  cases taken
  rw [Nat.mod_eq_of_lt room]
  refine chunks.used (sameBut_setPushIndex ..) was.1 (by simp) (by simp) (by simp)
    (fun live => by simpa using chunks.retired tail live) ?_
  have still : WasTail (m.setPushIndex tail (m.pushIndex tail + 1)) role tail :=
    ⟨was.1, fun ends => was.2 (by simpa using ends)⟩
  split
  · exact ⟨still, ‹_›, by simp⟩
  · exact still

/-- `push` links its chunk behind the last one, or finds that another one was. -/
theorem Chunks.linkNext (loc : (Pc.linkNext value tail new).Local m role thread)
    (taken : (Pc.linkNext value tail new).run m spurious = some (m', next, event)) :
    Continues m role thread others m' next := by
  obtain ⟨was, owned, push, pop, unlinked, retired⟩ := loc
  simp only [Pc.run] at taken
  cases link : m.next tail with
  | some expected =>
      rw [link] at taken
      cases taken
      exact chunks.stay ⟨.inl owned, was.1, link⟩
  | none =>
      rw [link] at taken
      cases taken
      obtain ⟨⟨longer, linked⟩, kept⟩ := chunks.link was link owned push pop unlinked retired
      refine ⟨_, longer, freeChain, linked, ⟨?_, by simp⟩, kept⟩
      have away : tail ≠ new := by
        intro equal
        subst equal
        exact Role.not_inUse_owned (owned ▸ was.1)
      rw [Function.update_of_ne away]
      exact was.1

/-- `allocate_chunk` takes the first free chunk, or goes on to the one that is first now. -/
theorem Chunks.takeFree {link : Option ChunkPtr}
    (loc : (Pc.takeFree value tail new link).Local m role thread)
    (taken : (Pc.takeFree value tail new link).run m spurious = some (m', next, event)) :
    Continues m role thread others m' next := by
  simp only [Pc.run] at taken
  split at taken
  next first =>
    cases taken
    obtain ⟨⟨rest, taken⟩, kept⟩ := chunks.take thread others first.2 loc.2
    refine ⟨_, chain, rest, taken, ⟨⟨?_, loc.1.2⟩, by simp⟩, kept⟩
    by_cases same : tail = new
    · have free : role new = .free :=
        (chunks.free new).mpr (mem_of_linked (first.2 ▸ chunks.freeLinked))
      exact absurd (free ▸ same ▸ loc.1.1) Role.not_inUse_free
    · rw [Function.update_of_ne same]
      exact loc.1.1
  next =>
    cases taken
    exact chunks.stay (WasTail.allocateFrom loc.1 value m.freeList)

/-- `allocate_chunk` makes a new chunk. -/
theorem Chunks.newChunk (was : WasTail m role tail)
    (taken : (Pc.newChunk value tail).run m spurious = some (m', next, event)) :
    Continues m role thread others m' next := by
  cases taken
  obtain ⟨behind, kept⟩ := chunks.allocate thread others
    { m.setChunk m.fresh .new with chunkCount := m.chunkCount + 1, fresh := m.fresh + 1 }
    (fun other away => Function.update_of_ne away ..) rfl rfl rfl rfl
  have away : tail ≠ m.fresh := by
    intro equal
    subst equal
    exact Role.not_inUse_unallocated ((chunks.fresh m.fresh).mpr le_rfl ▸ was.1)
  refine ⟨_, chain, freeChain, behind, ⟨⟨?_, fun ends => was.2 ?_⟩, ?_⟩, kept⟩
  · rw [Function.update_of_ne away]
    exact was.1
  · exact (congrArg Chunk.next (Function.update_of_ne away ..)).symm.trans ends
  · simp [Memory.pushIndex, Memory.popIndex, Memory.next, Memory.retired, Memory.setChunk,
      Chunk.new]

/-- `push` moves `tail_chunk` on when it still names the chunk it has found there. -/
theorem Chunks.moveTailOn (loc : (Pc.moveTail value tail new).Local m role thread) :
    Continues m role thread others
      { m with tailChunk := if m.tailChunk = tail then new else m.tailChunk }
      (.loadTail value) := by
  split
  next named =>
    obtain ⟨behind, kept⟩ := chunks.moveTail thread others loc.2 named
    exact ⟨role, chain, freeChain, behind, trivial, kept⟩
  next => exact chunks.stay trivial

/-- `pop` moves `head_chunk` past a chunk with no slot left to pop. -/
theorem Chunks.moveHeadOn {head later : ChunkPtr} (link : m.next head = some later)
    (popped : m.headChunk = head → chunkSize ≤ m.popIndex head)
    (taken : (if m.headChunk = head then
        some ({ m with headChunk := later }, .storeRetired head, none)
      else some (m, .loadHead, none)) = some (m', next, event)) :
    Continues m role thread others m' next := by
  split at taken
  next named =>
    subst named
    cases taken
    obtain ⟨⟨rest, moved⟩, kept⟩ := chunks.moveHead thread others (popped rfl) link
    exact ⟨_, rest, freeChain, moved, by simp [Pc.Local], kept⟩
  next =>
    cases taken
    exact chunks.stay trivial

/-- `try_release_chunk` takes a retired chunk for the free list. -/
theorem Chunks.clearRetired (inUse : (role chunk).InUse) (pops : after.IsPop)
    (taken : (Pc.clearRetired chunk after).run m spurious = some (m', next, event)) :
    Continues m role thread others m' next := by
  simp only [Pc.run] at taken
  split at taken
  next retired =>
    cases taken
    have left : role chunk = .left := by
      refine inUse.resolve_left fun live => ?_
      rw [chunks.retired chunk live] at retired
      cases retired
    exact chunks.used (sameBut_setRetired ..) inUse (by simp) (by simp) (by simp)
      (fun _ => by simp) ⟨.inr ⟨left, pops⟩, .of_isPop pops⟩
  next =>
    obtain ⟨rfl, rfl⟩ := resumed taken
    exact chunks.stay (After.Local.of_isPop pops).resume

/-- `release_chunk` begins: the chunk is in the hands of its thread. -/
theorem Chunks.loadFreeHead (loc : (Pc.loadFreeHead chunk after).Local m role thread)
    (notTail : m.tailChunk ≠ chunk) (alone : ¬ others chunk) :
    Continues m role thread others m (.storeNext chunk m.freeList after) := by
  rcases loc.1 with owned | ⟨left, pops⟩
  · exact chunks.stay ⟨owned, loc.2⟩
  · obtain ⟨behind, kept⟩ := chunks.release thread others left notTail alone
    exact ⟨_, chain, freeChain, behind, ⟨by simp, .of_isPop pops⟩, kept⟩

/-- `release_chunk` puts its chunk on the free list, or loads its head again. -/
theorem Chunks.freed {old : Option ChunkPtr}
    (loc : (Pc.pushFree chunk old after).Local m role thread) (alone : ¬ others chunk)
    (taken : (Pc.pushFree chunk old after).run m spurious = some (m', next, event)) :
    Continues m role thread others m' next := by
  simp only [Pc.run] at taken
  split at taken
  next first =>
    obtain ⟨rfl, rfl⟩ := resumed taken
    obtain ⟨owned, link, behind⟩ := loc
    obtain ⟨⟨longer, next⟩, kept⟩ := chunks.pushFree thread others owned
      (link.trans first.2.symm) alone
    refine ⟨_, chain, longer, next,
      (behind.congr (fun other inUse => ?_) fun _ _ => rfl).resume, kept⟩
    rw [Function.update_of_ne]
    · exact inUse
    · intro equal
      subst equal
      exact Role.not_inUse_owned (owned ▸ inUse)
  next =>
    cases taken
    exact chunks.stay ⟨loc.1, loc.2.2⟩

end

/-- `allocate_chunk` writes to the chunk it has taken from the free list. -/
theorem Chunks.reset (chunks : Chunks m role chain freeChain)
    {tail : ChunkPtr} (was : WasTail m role tail) (owned : role chunk = .owned thread)
    (same : SameBut m m' chunk) {next : Pc Value}
    (here : WasTail m' role tail → next.Local m' role thread) :
    Continues m role thread others m' next :=
  chunks.own same owned (here (was.own same owned))

/-! ## One atomic operation -/

/-- **One atomic operation**, when it is careful, keeps the chunks in order, gives its
thread what it relies on next, and keeps what the others rely on. -/
theorem Chunks.run (chunks : Chunks m role chain freeChain) {pc pc' : Pc Value} {spurious : Bool}
    {event : Option (Event Value)} (loc : pc.Local m role thread) (careful : pc.Careful m others)
    (taken : pc.run m spurious = some (m', pc', event)) :
    Continues m role thread others m' pc' := by
  cases pc with
  | idle => cases taken
  | loadTail value =>
      cases taken
      exact chunks.stay ⟨chunks.tailInUse, fun _ => rfl⟩
  | claimPush value tail => exact chunks.claimPush loc careful taken
  | checkSlot value tail index =>
      cases taken
      apply chunks.stay
      split
      · trivial
      · exact loc
  | construct value tail index =>
      cases taken
      exact chunks.used (sameBut_setSlot ..) loc.1.1 (by simp) (by simp) (by simp)
        (fun live => by simpa using chunks.retired tail live) trivial
  | linkNext value tail new => exact chunks.linkNext loc taken
  | storeTail value tail new =>
      cases taken
      rcases careful with named | moved
      · obtain ⟨next, kept⟩ := chunks.moveTail thread others loc.2 named
        exact ⟨role, chain, freeChain, next, trivial, kept⟩
      · rw [← moved]
        exact chunks.stay trivial
  | moveTail value tail expected =>
      cases taken
      exact chunks.moveTailOn loc
  | loadFree value tail =>
      cases taken
      exact chunks.stay (WasTail.allocateFrom loc value m.freeList)
  | loadFreeNext value tail chunk =>
      cases taken
      exact chunks.stay ⟨loc, fun _ => rfl⟩
  | takeFree value tail chunk next => exact chunks.takeFree loc taken
  | resetPush value tail chunk =>
      cases taken
      exact chunks.reset loc.1 loc.2 (sameBut_setPushIndex ..) fun was => ⟨was, loc.2, by simp⟩
  | resetPop value tail chunk =>
      cases taken
      exact chunks.reset loc.1 loc.2.1 (sameBut_setPopIndex ..) fun was =>
        ⟨was, loc.2.1, by simpa using loc.2.2, by simp⟩
  | resetNext value tail chunk =>
      cases taken
      exact chunks.reset loc.1 loc.2.1 (sameBut_setNext ..) fun was =>
        ⟨was, loc.2.1, by simpa using loc.2.2.1, by simpa using loc.2.2.2, by simp⟩
  | resetReaders value tail chunk =>
      cases taken
      exact chunks.reset loc.1 loc.2.1 (sameBut_setActiveReaders ..) fun was =>
        ⟨was, loc.2.1, by simpa using loc.2.2⟩
  | resetRetired value tail chunk =>
      cases taken
      obtain ⟨was, owned, push, pop, next⟩ := loc
      exact chunks.reset was owned (sameBut_setRetired ..) fun was =>
        ⟨was, owned, by simpa using push, by simpa using pop, by simpa using next, by simp⟩
  | newChunk value tail => exact chunks.newChunk loc taken
  | loadHead =>
      cases taken
      exact chunks.stay (.inl ((chunks.live _).mpr (mem_of_linked chunks.linked)))
  | loadPopIndex head =>
      cases taken
      exact chunks.stay ⟨loc, le_rfl⟩
  | loadPushIndex head index =>
      cases taken
      apply chunks.stay
      split
      next consumed => exact ⟨loc.1, consumed.trans loc.2⟩
      next inRange =>
        split
        · exact loc.1
        next filled => exact ⟨loc.1, Nat.lt_of_not_le inRange, Nat.lt_of_not_le filled⟩
  | loadNextConsumed head =>
      simp only [Pc.run] at taken
      cases link : m.next head with
      | none =>
          rw [link] at taken
          cases taken
          exact chunks.stay trivial
      | some next =>
          rw [link] at taken
          cases taken
          exact chunks.stay ⟨loc.1, loc.2, link⟩
  | moveHeadConsumed head next => exact chunks.moveHeadOn loc.2.2 (fun _ => loc.2.1) taken
  | loadNextEmpty head =>
      simp only [Pc.run] at taken
      cases link : m.next head with
      | none =>
          rw [link] at taken
          cases taken
          exact chunks.stay trivial
      | some next =>
          rw [link] at taken
          cases taken
          exact chunks.stay ⟨loc, link⟩
  | moveHeadEmpty head next => exact chunks.moveHeadOn loc.2 careful taken
  | claimPop head index =>
      simp only [Pc.run] at taken
      split at taken
      next claimed =>
        cases taken
        exact chunks.used (sameBut_setPopIndex ..) loc.1 (by simp) (by simp) (by simp [claimed.2])
          (fun live => by simpa using chunks.retired head live) ⟨loc.1, by simp⟩
      next =>
        cases taken
        exact chunks.stay trivial
  | enter head index =>
      cases taken
      exact chunks.used (sameBut_setActiveReaders ..) loc.1 (by simp) (by simp) (by simp)
        (fun live => by simpa using chunks.retired head live) ⟨loc.1, by simpa using loc.2⟩
  | waitSlot head index =>
      cases taken
      apply chunks.stay
      split <;> exact loc
  | takeSlot head index =>
      cases taken
      exact chunks.used (sameBut_setSlot ..) loc.1 (by simp) (by simp) (by simp)
        (fun live => by simpa using chunks.retired head live) loc.1
  | leave head value =>
      cases taken
      exact chunks.used (sameBut_setActiveReaders ..) loc (by simp) (by simp) (by simp)
        (fun live => by simpa using chunks.retired head live) ⟨loc, trivial⟩
  | storeRetired chunk =>
      cases taken
      refine chunks.used (sameBut_setRetired ..) (.inr loc) (by simp) (by simp) (by simp)
        (fun live => ?_) ⟨.inr loc, trivial⟩
      rw [show role chunk = .left from loc] at live
      cases live
  | loadReaders chunk after =>
      simp only [Pc.run] at taken
      split at taken
      · cases taken
        exact chunks.stay loc
      · obtain ⟨rfl, rfl⟩ := resumed taken
        exact chunks.stay (After.Local.of_isPop loc.2).resume
  | clearRetired chunk after => exact chunks.clearRetired loc.1 loc.2 taken
  | loadFreeHead chunk after =>
      cases taken
      exact chunks.loadFreeHead loc careful.1 careful.2
  | storeNext chunk old after =>
      cases taken
      have same := sameBut_setNext m chunk old
      exact chunks.own same loc.1 ⟨loc.1, by simp, loc.2.own same loc.1⟩
  | pushFree chunk old after => exact chunks.freed loc careful.2 taken

end Drpc.Util.MPMCQueue
