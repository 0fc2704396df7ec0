import Drpc.Library.Chain
import Drpc.Util.MpmcQueue

/-! # The chunks of the task queue

Each chunk plays one part at a time: it is in the chain from `head_chunk`, left
behind by it, on the free list, or in the hands of one thread. `Local` says what a
thread may rely on where it stands. A step of one thread keeps that for the others
(`Keeps`), as long as a chunk goes to the free list only when nobody else still
works on it.
-/

namespace Drpc.Util.MPMCQueue

open Chain

variable {Thread Value : Type}

/-- The part a chunk plays. -/
inductive Role (Thread : Type) where
  | unallocated
  | free
  | owned (thread : Thread)
  /-- In the chain from `head_chunk`. -/
  | live
  /-- `head_chunk` has moved past it. -/
  | left

/-- Threads push to it and pop from it. -/
def Role.InUse (role : Role Thread) : Prop := role = .live ∨ role = .left

/-- The chunks an operation still works on behind a release. -/
def After.holds : After Value → List ChunkPtr
  | .moveTail _ tail _ => [tail]
  | .popAgain | .popReturn _ => []

/-- The chunks an operation still works on. -/
def Pc.holds : Pc Value → List ChunkPtr
  | .idle | .loadTail _ | .loadHead => []
  | .claimPush _ tail | .checkSlot _ tail _ | .construct _ tail _ | .storeTail _ tail _
  | .moveTail _ tail _ | .loadFree _ tail | .newChunk _ tail => [tail]
  | .linkNext _ tail chunk | .loadFreeNext _ tail chunk | .takeFree _ tail chunk _
  | .resetPush _ tail chunk | .resetPop _ tail chunk | .resetNext _ tail chunk
  | .resetReaders _ tail chunk | .resetRetired _ tail chunk => [tail, chunk]
  | .loadPopIndex head | .loadPushIndex head _ | .loadNextConsumed head
  | .moveHeadConsumed head _ | .loadNextEmpty head | .moveHeadEmpty head _ | .claimPop head _
  | .enter head _ | .waitSlot head _ | .takeSlot head _ | .leave head _ => [head]
  | .storeRetired chunk => [chunk]
  | .loadReaders chunk after | .clearRetired chunk after | .loadFreeHead chunk after
  | .storeNext chunk _ after | .pushFree chunk _ after => chunk :: after.holds

/-- What a step has to find, with `others` for the chunks other operations work on:
`head_chunk` does not move past a chunk with slots that were not popped, a chunk goes
to the free list only when nobody else works on it and `tail_chunk` has moved on,
`tail_chunk` does not move back, and `push_index` does not wrap around. -/
def Pc.Careful (m : Memory Value) (others : ChunkPtr → Prop) : Pc Value → Prop
  | .moveHeadEmpty head _ => m.headChunk = head → chunkSize ≤ m.popIndex head
  | .loadFreeHead chunk _ | .storeNext chunk _ _ | .pushFree chunk _ _ =>
      m.tailChunk ≠ chunk ∧ ¬ others chunk
  | .storeTail _ tail new => m.tailChunk = tail ∨ m.tailChunk = new
  | .claimPush _ tail => m.pushIndex tail + 1 < 2 ^ 64
  | _ => True

/-- Carefulness can be checked. -/
instance (m : Memory Value) (others : ChunkPtr → Prop) [DecidablePred others] (pc : Pc Value) :
    Decidable (pc.Careful m others) :=
  match pc with
  | .moveHeadEmpty head _ =>
      inferInstanceAs (Decidable (m.headChunk = head → chunkSize ≤ m.popIndex head))
  | .loadFreeHead chunk _ | .storeNext chunk _ _ | .pushFree chunk _ _ =>
      inferInstanceAs (Decidable (m.tailChunk ≠ chunk ∧ ¬ others chunk))
  | .storeTail _ tail new =>
      inferInstanceAs (Decidable (m.tailChunk = tail ∨ m.tailChunk = new))
  | .claimPush _ tail => inferInstanceAs (Decidable (m.pushIndex tail + 1 < 2 ^ 64))
  | .idle | .loadTail _ | .checkSlot .. | .construct .. | .linkNext .. | .moveTail .. | .loadFree ..
  | .loadFreeNext .. | .takeFree .. | .resetPush .. | .resetPop .. | .resetNext ..
  | .resetReaders .. | .resetRetired .. | .newChunk .. | .loadHead | .loadPopIndex _
  | .loadPushIndex .. | .loadNextConsumed _ | .moveHeadConsumed .. | .loadNextEmpty _
  | .claimPop .. | .enter .. | .waitSlot .. | .takeSlot .. | .leave .. | .storeRetired _
  | .loadReaders .. | .clearRetired .. => .isTrue trivial

/-- Who is careful for more chunks is careful for fewer. -/
theorem Pc.Careful.mono {m : Memory Value} {others fewer : ChunkPtr → Prop} {pc : Pc Value}
    (careful : pc.Careful m others) (among : ∀ chunk, fewer chunk → others chunk) :
    pc.Careful m fewer := by
  cases pc with
  | loadFreeHead chunk after | storeNext chunk old after | pushFree chunk old after =>
      exact ⟨careful.1, fun few => careful.2 (among chunk few)⟩
  | moveHeadEmpty | storeTail | claimPush => exact careful
  | _ => trivial

/-- How the chunks lie in memory. -/
structure Chunks (m : Memory Value) (role : ChunkPtr → Role Thread)
    (chain freeChain : List ChunkPtr) : Prop where
  linked : Linked m.next (some m.headChunk) chain
  freeLinked : Linked m.next m.freeList freeChain
  live : ∀ chunk, role chunk = .live ↔ chunk ∈ chain
  free : ∀ chunk, role chunk = .free ↔ chunk ∈ freeChain
  chainNodup : chain.Nodup
  freeNodup : freeChain.Nodup
  fresh : ∀ chunk, role chunk = .unallocated ↔ m.fresh ≤ chunk
  tailInUse : (role m.tailChunk).InUse
  tail : ∃ last, role last = .live ∧ m.next last = none ∧
    (m.tailChunk = last ∨ m.next m.tailChunk = some last)
  left : ∀ chunk, role chunk = .left → chunkSize ≤ m.popIndex chunk ∧ m.next chunk ≠ none
  retired : ∀ chunk, role chunk = .live → m.retired chunk = false

/-- `push` has found it in `tail_chunk`: it is in use, and `tail_chunk` still names it
unless a chunk was linked behind it. -/
def WasTail (m : Memory Value) (role : ChunkPtr → Role Thread) (tail : ChunkPtr) : Prop :=
  (role tail).InUse ∧ (m.next tail = none → m.tailChunk = tail)

/-- What a thread may rely on behind a release. -/
def After.Local (m : Memory Value) (role : ChunkPtr → Role Thread) : After Value → Prop
  | .moveTail _ tail expected => (role tail).InUse ∧ m.next tail = some expected
  | .popAgain | .popReturn _ => True

/-- `try_release_chunk` is part of `pop`. -/
def After.IsPop : After Value → Prop
  | .moveTail .. => False
  | .popAgain | .popReturn _ => True

/-- What a thread may rely on where it stands. -/
def Pc.Local (m : Memory Value) (role : ChunkPtr → Role Thread) (thread : Thread) :
    Pc Value → Prop
  | .idle | .loadTail _ | .loadHead => True
  | .claimPush _ tail | .loadFree _ tail | .loadFreeNext _ tail _ | .newChunk _ tail =>
      WasTail m role tail
  | .checkSlot _ tail index | .construct _ tail index =>
      WasTail m role tail ∧ index < chunkSize ∧ index < m.pushIndex tail
  | .linkNext _ tail new =>
      WasTail m role tail ∧ role new = .owned thread ∧ m.pushIndex new = 0 ∧ m.popIndex new = 0 ∧
        m.next new = none ∧ m.retired new = false
  | .storeTail _ tail expected | .moveTail _ tail expected =>
      (role tail).InUse ∧ m.next tail = some expected
  | .takeFree _ tail chunk next =>
      WasTail m role tail ∧ (role chunk = .free → m.next chunk = next)
  | .resetPush _ tail chunk => WasTail m role tail ∧ role chunk = .owned thread
  | .resetPop _ tail chunk =>
      WasTail m role tail ∧ role chunk = .owned thread ∧ m.pushIndex chunk = 0
  | .resetNext _ tail chunk =>
      WasTail m role tail ∧ role chunk = .owned thread ∧ m.pushIndex chunk = 0 ∧
        m.popIndex chunk = 0
  | .resetReaders _ tail chunk | .resetRetired _ tail chunk =>
      WasTail m role tail ∧ role chunk = .owned thread ∧ m.pushIndex chunk = 0 ∧
        m.popIndex chunk = 0 ∧ m.next chunk = none
  | .loadPopIndex head | .loadNextEmpty head | .leave head _ => (role head).InUse
  | .loadPushIndex head index => (role head).InUse ∧ index ≤ m.popIndex head
  | .loadNextConsumed head => (role head).InUse ∧ chunkSize ≤ m.popIndex head
  | .moveHeadConsumed head next =>
      (role head).InUse ∧ chunkSize ≤ m.popIndex head ∧ m.next head = some next
  | .moveHeadEmpty head next => (role head).InUse ∧ m.next head = some next
  | .claimPop head index => (role head).InUse ∧ index < chunkSize ∧ index < m.pushIndex head
  | .enter head index | .waitSlot head index | .takeSlot head index =>
      (role head).InUse ∧ index < m.popIndex head
  | .storeRetired chunk => role chunk = .left
  | .loadReaders chunk after | .clearRetired chunk after => (role chunk).InUse ∧ after.IsPop
  | .loadFreeHead chunk after =>
      (role chunk = .owned thread ∨ (role chunk = .left ∧ after.IsPop)) ∧ after.Local m role
  | .storeNext chunk _ after => role chunk = .owned thread ∧ after.Local m role
  | .pushFree chunk old after =>
      role chunk = .owned thread ∧ m.next chunk = old ∧ after.Local m role

/-- What the others find of a chunk they work on, behind a step of `thread`. -/
structure Keeps (m : Memory Value) (role : ChunkPtr → Role Thread) (m' : Memory Value)
    (role' : ChunkPtr → Role Thread) (thread : Thread) (chunk : ChunkPtr) : Prop where
  inUse : (role chunk).InUse → (role' chunk).InUse
  left : role chunk = .left → role' chunk = .left
  pushIndex : (role chunk).InUse → m.pushIndex chunk ≤ m'.pushIndex chunk
  popIndex : (role chunk).InUse → m.popIndex chunk ≤ m'.popIndex chunk
  next : (role chunk).InUse → ∀ next, m.next chunk = some next → m'.next chunk = some next
  owned : ∀ other ≠ thread, role chunk = .owned other →
    role' chunk = .owned other ∧ m'.pushIndex chunk = m.pushIndex chunk ∧
      m'.popIndex chunk = m.popIndex chunk ∧ m'.next chunk = m.next chunk ∧
      m'.retired chunk = m.retired chunk
  free : role' chunk = .free → role chunk = .free ∧ m'.next chunk = m.next chunk
  tail : (role chunk).InUse → m'.next chunk = none → m.tailChunk = chunk → m'.tailChunk = chunk

/-- A step of one thread, for the others. -/
structure Guarantee (m : Memory Value) (role : ChunkPtr → Role Thread) (m' : Memory Value)
    (role' : ChunkPtr → Role Thread) (thread : Thread) (others : ChunkPtr → Prop) : Prop where
  keeps : ∀ chunk, others chunk → Keeps m role m' role' thread chunk
  /-- A chunk comes into use blank. -/
  enters : ∀ chunk, (role' chunk).InUse → ¬ (role chunk).InUse →
    m'.pushIndex chunk = 0 ∧ m'.popIndex chunk = 0
  /-- A chunk goes out of use when every slot was popped and nobody works on it. -/
  leaves : ∀ chunk, (role chunk).InUse → ¬ (role' chunk).InUse →
    chunkSize ≤ m'.popIndex chunk ∧ ¬ others chunk

variable {m m' : Memory Value} {role role' : ChunkPtr → Role Thread}
  {chain freeChain : List ChunkPtr} {thread other : Thread} {others : ChunkPtr → Prop}

/-- A chunk in the hands of a thread is not in use. -/
theorem Role.not_inUse_owned : ¬ (Role.owned thread).InUse := by
  simp [Role.InUse]

/-- Nor is one on the free list. -/
theorem Role.not_inUse_free : ¬ (Role.free : Role Thread).InUse := by
  simp [Role.InUse]

/-- Nor is one that was not allocated. -/
theorem Role.not_inUse_unallocated : ¬ (Role.unallocated : Role Thread).InUse := by
  simp [Role.InUse]

/-! ## What the others keep -/

/-- What a thread relies on behind a release survives the steps of the others. -/
theorem After.Local.stable {after : After Value}
    (keeps : ∀ chunk ∈ after.holds, Keeps m role m' role' thread chunk)
    (loc : after.Local m role) : after.Local m' role' := by
  cases after with
  | moveTail value tail expected =>
      have kept := keeps tail (List.mem_singleton_self _)
      exact ⟨kept.inUse loc.1, kept.next loc.1 _ loc.2⟩
  | popAgain | popReturn => trivial

/-- So does what a `push` has found in `tail_chunk`. -/
theorem WasTail.stable {tail : ChunkPtr} (kept : Keeps m role m' role' thread tail)
    (was : WasTail m role tail) : WasTail m' role' tail := by
  refine ⟨kept.inUse was.1, fun ends => kept.tail was.1 ends (was.2 ?_)⟩
  cases link : m.next tail with
  | none => rfl
  | some next =>
      rw [kept.next was.1 next link] at ends
      cases ends

/-- **What a thread relies on survives the steps of the others.** -/
theorem Pc.Local.stable (differs : other ≠ thread) {pc : Pc Value}
    (keeps : ∀ chunk ∈ pc.holds, Keeps m role m' role' thread chunk)
    (loc : pc.Local m role other) : pc.Local m' role' other := by
  cases pc with
  | idle | loadTail | loadHead => trivial
  | claimPush value tail | loadFree value tail | newChunk value tail | loadFreeNext value tail =>
      exact WasTail.stable (keeps tail (List.mem_cons_self ..)) loc
  | loadPopIndex head | loadNextEmpty head | leave head value =>
      exact (keeps head (List.mem_cons_self ..)).inUse loc
  | checkSlot value tail index | construct value tail index =>
      have kept := keeps tail (List.mem_cons_self ..)
      exact ⟨loc.1.stable kept, loc.2.1, loc.2.2.trans_le (kept.pushIndex loc.1.1)⟩
  | linkNext value tail new =>
      obtain ⟨was, owned, push, pop, next, retired⟩ := loc
      obtain ⟨still, samePush, samePop, sameNext, sameRetired⟩ :=
        (keeps new (by simp [Pc.holds])).owned other differs owned
      exact ⟨was.stable (keeps tail (List.mem_cons_self ..)), still, samePush.trans push,
        samePop.trans pop, sameNext.trans next, sameRetired.trans retired⟩
  | storeTail value tail expected | moveTail value tail expected =>
      have kept := keeps tail (List.mem_cons_self ..)
      exact ⟨kept.inUse loc.1, kept.next loc.1 _ loc.2⟩
  | takeFree value tail chunk next =>
      refine ⟨loc.1.stable (keeps tail (List.mem_cons_self ..)), fun free => ?_⟩
      obtain ⟨before, same⟩ := (keeps chunk (by simp [Pc.holds])).free free
      rw [same, loc.2 before]
  | resetPush value tail chunk =>
      have still := (keeps chunk (by simp [Pc.holds])).owned other differs loc.2
      exact ⟨loc.1.stable (keeps tail (List.mem_cons_self ..)), still.1⟩
  | resetPop value tail chunk =>
      obtain ⟨was, owned, push⟩ := loc
      obtain ⟨still, samePush, -⟩ := (keeps chunk (by simp [Pc.holds])).owned other differs owned
      exact ⟨was.stable (keeps tail (List.mem_cons_self ..)), still, samePush.trans push⟩
  | resetNext value tail chunk =>
      obtain ⟨was, owned, push, pop⟩ := loc
      obtain ⟨still, samePush, samePop, -⟩ :=
        (keeps chunk (by simp [Pc.holds])).owned other differs owned
      exact ⟨was.stable (keeps tail (List.mem_cons_self ..)), still, samePush.trans push,
        samePop.trans pop⟩
  | resetReaders value tail chunk | resetRetired value tail chunk =>
      obtain ⟨was, owned, push, pop, next⟩ := loc
      obtain ⟨still, samePush, samePop, sameNext, -⟩ :=
        (keeps chunk (by simp [Pc.holds])).owned other differs owned
      exact ⟨was.stable (keeps tail (List.mem_cons_self ..)), still, samePush.trans push,
        samePop.trans pop, sameNext.trans next⟩
  | loadPushIndex head index | loadNextConsumed head =>
      have kept := keeps head (List.mem_cons_self ..)
      exact ⟨kept.inUse loc.1, loc.2.trans (kept.popIndex loc.1)⟩
  | moveHeadConsumed head next =>
      have kept := keeps head (List.mem_cons_self ..)
      exact ⟨kept.inUse loc.1, loc.2.1.trans (kept.popIndex loc.1), kept.next loc.1 _ loc.2.2⟩
  | moveHeadEmpty head next =>
      have kept := keeps head (List.mem_cons_self ..)
      exact ⟨kept.inUse loc.1, kept.next loc.1 _ loc.2⟩
  | claimPop head index =>
      have kept := keeps head (List.mem_cons_self ..)
      exact ⟨kept.inUse loc.1, loc.2.1, loc.2.2.trans_le (kept.pushIndex loc.1)⟩
  | enter head index | waitSlot head index | takeSlot head index =>
      have kept := keeps head (List.mem_cons_self ..)
      exact ⟨kept.inUse loc.1, loc.2.trans_le (kept.popIndex loc.1)⟩
  | storeRetired chunk => exact (keeps chunk (List.mem_cons_self ..)).left loc
  | loadReaders chunk after | clearRetired chunk after =>
      exact ⟨(keeps chunk (List.mem_cons_self ..)).inUse loc.1, loc.2⟩
  | loadFreeHead chunk after =>
      have kept := keeps chunk (List.mem_cons_self ..)
      have behind := loc.2.stable fun held member => keeps held (List.mem_cons_of_mem _ member)
      rcases loc.1 with owned | ⟨left, pops⟩
      · exact ⟨.inl (kept.owned other differs owned).1, behind⟩
      · exact ⟨.inr ⟨kept.left left, pops⟩, behind⟩
  | storeNext chunk old after =>
      have kept := keeps chunk (List.mem_cons_self ..)
      exact ⟨(kept.owned other differs loc.1).1,
        loc.2.stable fun held member => keeps held (List.mem_cons_of_mem _ member)⟩
  | pushFree chunk old after =>
      obtain ⟨owned, next, behind⟩ := loc
      obtain ⟨still, -, -, sameNext, -⟩ :=
        (keeps chunk (List.mem_cons_self ..)).owned other differs owned
      exact ⟨still, sameNext.trans next,
        behind.stable fun held member => keeps held (List.mem_cons_of_mem _ member)⟩

/-! ## Writes that change no part -/

/-- A step that writes nothing keeps everything. -/
theorem Keeps.refl (chunk : ChunkPtr) : Keeps m role m role thread chunk where
  inUse := id
  left := id
  pushIndex _ := le_rfl
  popIndex _ := le_rfl
  next _ _ := id
  owned _ _ owned := ⟨owned, rfl, rfl, rfl, rfl⟩
  free free := ⟨free, rfl⟩
  tail _ _ := id

/-- When no chunk changes its part, only what the others keep has to be shown. -/
theorem Guarantee.of_keeps (keeps : ∀ chunk, others chunk → Keeps m role m' role thread chunk) :
    Guarantee m role m' role thread others where
  keeps := keeps
  enters _ inUse notInUse := absurd inUse notInUse
  leaves _ inUse notInUse := absurd inUse notInUse

/-- It gives the others every guarantee. -/
theorem Guarantee.refl : Guarantee m role m role thread others :=
  .of_keeps fun chunk _ => .refl chunk

/-- What is kept of the chunks that `others` names is kept of fewer of them. -/
theorem Guarantee.mono {fewer : ChunkPtr → Prop} (kept : Guarantee m role m' role' thread others)
    (among : ∀ chunk, fewer chunk → others chunk) : Guarantee m role m' role' thread fewer where
  keeps chunk few := kept.keeps chunk (among chunk few)
  enters := kept.enters
  leaves chunk inUse notInUse :=
    ⟨(kept.leaves chunk inUse notInUse).1, fun few =>
      (kept.leaves chunk inUse notInUse).2 (among chunk few)⟩

/-- A chunk that is not in use and that no other thread owns, and that is not free now. -/
theorem Keeps.of_notInUse {chunk : ChunkPtr} (notInUse : ¬ (role chunk).InUse)
    (notOwned : ∀ other ≠ thread, role chunk ≠ .owned other) (notFree : role' chunk ≠ .free) :
    Keeps m role m' role' thread chunk where
  inUse inUse := absurd inUse notInUse
  left left := absurd (.inr left) notInUse
  pushIndex inUse := absurd inUse notInUse
  popIndex inUse := absurd inUse notInUse
  next inUse := absurd inUse notInUse
  owned other differs owned := absurd owned (notOwned other differs)
  free free := absurd free notFree
  tail inUse := absurd inUse notInUse

/-- One chunk was written to. -/
structure SameBut (m m' : Memory Value) (chunk : ChunkPtr) : Prop where
  chunks : ∀ other ≠ chunk, m'.chunks other = m.chunks other
  headChunk : m'.headChunk = m.headChunk
  tailChunk : m'.tailChunk = m.tailChunk
  freeList : m'.freeList = m.freeList
  fresh : m'.fresh = m.fresh

/-- A write to one chunk. -/
theorem sameBut_setChunk (m : Memory Value) (chunk : ChunkPtr) (content : Chunk Value) :
    SameBut m (m.setChunk chunk content) chunk where
  chunks _ differs := Function.update_of_ne differs ..
  headChunk := rfl
  tailChunk := rfl
  freeList := rfl
  fresh := rfl

/-- A store to its link. -/
theorem sameBut_setNext (m : Memory Value) (chunk : ChunkPtr) (next : Option ChunkPtr) :
    SameBut m (m.setNext chunk next) chunk := sameBut_setChunk ..

/-- A store to its `push_index`. -/
theorem sameBut_setPushIndex (m : Memory Value) (chunk : ChunkPtr) (pushIndex : Nat) :
    SameBut m (m.setPushIndex chunk pushIndex) chunk := sameBut_setChunk ..

/-- A store to its `pop_index`. -/
theorem sameBut_setPopIndex (m : Memory Value) (chunk : ChunkPtr) (popIndex : Nat) :
    SameBut m (m.setPopIndex chunk popIndex) chunk := sameBut_setChunk ..

/-- A store to its `active_readers`. -/
theorem sameBut_setActiveReaders (m : Memory Value) (chunk : ChunkPtr) (activeReaders : Nat) :
    SameBut m (m.setActiveReaders chunk activeReaders) chunk := sameBut_setChunk ..

/-- A store to `retired`. -/
theorem sameBut_setRetired (m : Memory Value) (chunk : ChunkPtr) (retired : Bool) :
    SameBut m (m.setRetired chunk retired) chunk := sameBut_setChunk ..

/-- A store to a slot. -/
theorem sameBut_setSlot (m : Memory Value) (chunk : ChunkPtr) (index : Nat)
    (value : Option Value) : SameBut m (m.setSlot chunk index value) chunk := sameBut_setChunk ..

variable {chunk : ChunkPtr}

/-- Two writes to the same chunk. -/
theorem SameBut.trans {m'' : Memory Value} (first : SameBut m m' chunk)
    (second : SameBut m' m'' chunk) : SameBut m m'' chunk where
  chunks other differs := (second.chunks other differs).trans (first.chunks other differs)
  headChunk := second.headChunk.trans first.headChunk
  tailChunk := second.tailChunk.trans first.tailChunk
  freeList := second.freeList.trans first.freeList
  fresh := second.fresh.trans first.fresh

/-- The links of the other chunks stay. -/
theorem SameBut.next (same : SameBut m m' chunk) {other : ChunkPtr} (differs : other ≠ chunk) :
    m'.next other = m.next other := congrArg Chunk.next (same.chunks other differs)

/-- So do their `pop_index`es. -/
theorem SameBut.popIndex (same : SameBut m m' chunk) {other : ChunkPtr} (differs : other ≠ chunk) :
    m'.popIndex other = m.popIndex other := congrArg Chunk.popIndex (same.chunks other differs)

/-- And whether they are retired. -/
theorem SameBut.retired (same : SameBut m m' chunk) {other : ChunkPtr} (differs : other ≠ chunk) :
    m'.retired other = m.retired other := congrArg Chunk.retired (same.chunks other differs)

/-- All of it, for who works on another chunk. -/
theorem SameBut.keeps (same : SameBut m m' chunk) {other : ChunkPtr} (differs : other ≠ chunk) :
    Keeps m role m' role thread other where
  inUse := id
  left := id
  pushIndex _ := (congrArg Chunk.pushIndex (same.chunks other differs)).ge
  popIndex _ := (same.popIndex differs).ge
  next _ _ link := (same.next differs).trans link
  owned _ _ owned :=
    ⟨owned, congrArg Chunk.pushIndex (same.chunks other differs), same.popIndex differs,
      same.next differs, same.retired differs⟩
  free free := ⟨free, same.next differs⟩
  tail _ _ is := same.tailChunk.trans is

/-- A write that leaves the link of its chunk alone and does not lower its `pop_index`. -/
theorem Chunks.write (chunks : Chunks m role chain freeChain) (same : SameBut m m' chunk)
    (next : m'.next chunk = m.next chunk) (pop : m.popIndex chunk ≤ m'.popIndex chunk)
    (retired : role chunk = .live → m'.retired chunk = false) :
    Chunks m' role chain freeChain := by
  have links : m'.next = m.next := by
    funext other
    by_cases differs : other = chunk
    · rw [differs, next]
    · exact same.next differs
  refine { chunks with
    linked := ?_, freeLinked := ?_, fresh := ?_, tailInUse := ?_, tail := ?_, left := ?_
    retired := ?_ }
  · rw [links, same.headChunk]
    exact chunks.linked
  · rw [links, same.freeList]
    exact chunks.freeLinked
  · rw [same.fresh]
    exact chunks.fresh
  · rw [same.tailChunk]
    exact chunks.tailInUse
  · rw [links, same.tailChunk]
    exact chunks.tail
  · intro other left
    rw [links]
    refine ⟨(chunks.left other left).1.trans ?_, (chunks.left other left).2⟩
    by_cases differs : other = chunk
    · rw [differs]
      exact pop
    · exact (same.popIndex differs).ge
  · intro other live
    by_cases differs : other = chunk
    · rw [differs]
      exact retired (differs ▸ live)
    · rw [same.retired differs]
      exact chunks.retired other live

/-- A write to a chunk in use that raises its counters at most. -/
theorem SameBut.guarantee (same : SameBut m m' chunk) (inUse : (role chunk).InUse)
    (next : m'.next chunk = m.next chunk) (push : m.pushIndex chunk ≤ m'.pushIndex chunk)
    (pop : m.popIndex chunk ≤ m'.popIndex chunk) :
    Guarantee m role m' role thread others := by
  refine .of_keeps fun other _ => ?_
  by_cases differs : other = chunk
  · subst differs
    exact {
      inUse := id
      left := id
      pushIndex := fun _ => push
      popIndex := fun _ => pop
      next := fun _ _ link => next.trans link
      owned := fun _ _ owned => absurd (owned ▸ inUse) Role.not_inUse_owned
      free := fun free => ⟨free, next⟩
      tail := fun _ _ is => same.tailChunk.trans is }
  · exact same.keeps differs

/-- A thread does what it likes with its own chunk. -/
theorem Chunks.writeOwned (chunks : Chunks m role chain freeChain) (same : SameBut m m' chunk)
    (owned : role chunk = .owned thread) : Chunks m' role chain freeChain := by
  have other_of {part : Role Thread} {other : ChunkPtr} (plays : role other = part)
      (differs : part ≠ .owned thread) : other ≠ chunk := by
    intro equal
    subst equal
    exact differs (plays.symm.trans owned)
  have other_of_inUse {other : ChunkPtr} (inUse : (role other).InUse) : other ≠ chunk := by
    intro equal
    subst equal
    exact Role.not_inUse_owned (owned ▸ inUse)
  refine { chunks with
    linked := ?_, freeLinked := ?_, fresh := ?_, tailInUse := ?_, tail := ?_, left := ?_
    retired := ?_ }
  · rw [same.headChunk]
    exact linked_congr (fun other member =>
      same.next (other_of ((chunks.live other).mpr member) nofun)) chunks.linked
  · rw [same.freeList]
    exact linked_congr (fun other member =>
      same.next (other_of ((chunks.free other).mpr member) nofun)) chunks.freeLinked
  · rw [same.fresh]
    exact chunks.fresh
  · rw [same.tailChunk]
    exact chunks.tailInUse
  · obtain ⟨last, live, ends, near⟩ := chunks.tail
    rw [same.tailChunk, same.next (other_of_inUse chunks.tailInUse)]
    exact ⟨last, live, (same.next (other_of live nofun)).trans ends, near⟩
  · intro other left
    rw [same.next (other_of left nofun), same.popIndex (other_of left nofun)]
    exact chunks.left other left
  · intro other live
    rw [same.retired (other_of live nofun)]
    exact chunks.retired other live

/-- What a thread writes to a chunk in its own hands, nobody else sees. -/
theorem SameBut.guaranteeOwned (same : SameBut m m' chunk) (owned : role chunk = .owned thread) :
    Guarantee m role m' role thread others := by
  refine .of_keeps fun other _ => ?_
  by_cases differs : other = chunk
  · subst differs
    exact .of_notInUse (owned ▸ Role.not_inUse_owned)
      (fun who differs plays => differs (Role.owned.inj (plays.symm.trans owned)))
      (by rw [owned]; nofun)
  · exact same.keeps differs

end Drpc.Util.MPMCQueue
