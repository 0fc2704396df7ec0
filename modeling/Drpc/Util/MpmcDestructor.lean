import Drpc.Util.MpmcReclaim

/-! # The destructor of the task queue

In every run whose steps are careful, a chunk that was allocated is in the chain, on the
free list, in the hands of one operation, or retired with a popper that is still going to
check it (`Accounted`). So nothing is lost: when no operation is in progress, the
destructor deletes every chunk once and destroys the values that were not popped
(`destroyed_once`).
-/

namespace Drpc.Util.MPMCQueue

open Transition Chain

variable {Thread Value : Type}

/-! ## The destructor -/

/-- A loop of `~MPMCQueue`, with the chunks deleted so far. It has to stop at a chunk that
was deleted before. -/
def Memory.deleteFrom (m : Memory Value) :
    Nat → Option ChunkPtr → List ChunkPtr → Option (List ChunkPtr)
  | _, none, deleted => some deleted
  | 0, some _, _ => none
  | fuel + 1, some current, deleted =>
      if current ∈ deleted then none
      else m.deleteFrom fuel (m.next current) (deleted ++ [current])

/-- `~MPMCQueue`: the chain from `head_chunk`, then the free list. -/
def Memory.destroy (m : Memory Value) (fuel : Nat) : Option (List ChunkPtr) :=
  (m.deleteFrom fuel (some m.headChunk) []).bind (m.deleteFrom fuel m.freeList)

/-- `~Chunk`: the values that the nodes destroy. -/
def Memory.destroyed (m : Memory Value) (chunk : ChunkPtr) : List Value :=
  (List.range chunkSize).filterMap (m.slot chunk)

/-! ## Where the chunks are -/

/-- The chunk an operation has taken out of the structure, or not put back yet. -/
def Pc.inHand : Pc Value → Option ChunkPtr
  | .resetPush _ _ chunk | .resetPop _ _ chunk | .resetNext _ _ chunk | .resetReaders _ _ chunk
  | .resetRetired _ _ chunk | .linkNext _ _ chunk | .storeRetired chunk | .loadFreeHead chunk _
  | .storeNext chunk _ _ | .pushFree chunk _ _ => some chunk
  | _ => none

/-- A retired chunk that somebody is still going to check. -/
structure Awaited (m : Memory Value) (pc : Thread → Pc Value) (chunk : ChunkPtr) : Prop where
  retired : m.retired chunk = true
  checked : 0 < m.activeReaders chunk ∨ ∃ thread, (pc thread).checks = some chunk

/-- Where an allocated chunk is. -/
inductive Accounted (m : Memory Value) (pc : Thread → Pc Value) (chain freeChain : List ChunkPtr)
    (chunk : ChunkPtr) : Prop where
  | live (member : chunk ∈ chain)
  | free (member : chunk ∈ freeChain)
  | inHand (thread : Thread) (hand : (pc thread).inHand = some chunk)
  | awaited (awaits : Awaited m pc chunk)

variable {m m' : Memory Value} {role role' : ChunkPtr → Role Thread} {pc : Thread → Pc Value}
  {thread : Thread} {chain freeChain chain' freeChain' : List ChunkPtr} {next : Pc Value}
  {chunk : ChunkPtr}

section

variable [DecidableEq Thread]

/-- What one operation has to do with a chunk. -/
structure Passes (m m' : Memory Value) (now next : Pc Value)
    (chain freeChain chain' freeChain' : List ChunkPtr) (chunk : ChunkPtr) : Prop where
  live : chunk ∈ chain → chunk ∈ chain' ∨ next.inHand = some chunk
  free : chunk ∈ freeChain → chunk ∈ freeChain' ∨ next.inHand = some chunk
  hand : now.inHand = some chunk → chunk ∈ chain' ∨ chunk ∈ freeChain' ∨
    next.inHand = some chunk ∨ (m'.retired chunk = true ∧ next.checks = some chunk)
  retired : m.retired chunk = true → m'.retired chunk = true ∨ next.inHand = some chunk
  readers : 0 < m.activeReaders chunk →
    0 < m'.activeReaders chunk ∨ next.checks = some chunk ∨ next.inHand = some chunk
  checks : now.checks = some chunk → m.retired chunk = true →
    0 < m'.activeReaders chunk ∨ next.checks = some chunk ∨ next.inHand = some chunk

/-- A chunk stays accounted for. -/
theorem Accounted.step (accounted : Accounted m pc chain freeChain chunk)
    (passes : Passes m m' (pc thread) next chain freeChain chain' freeChain' chunk) :
    Accounted m' (Function.update pc thread next) chain' freeChain' chunk := by
  have mine : next.inHand = some chunk →
      Accounted m' (Function.update pc thread next) chain' freeChain' chunk := fun hand =>
    .inHand thread (by rw [Function.update_self]; exact hand)
  cases accounted with
  | live member => exact (passes.live member).elim .live mine
  | free member => exact (passes.free member).elim .free mine
  | inHand other hand =>
      by_cases self : other = thread
      · subst self
        rcases passes.hand hand with live | free | hand | ⟨retired, checks⟩
        · exact .live live
        · exact .free free
        · exact mine hand
        · exact .awaited ⟨retired, .inr ⟨other, by rw [Function.update_self]; exact checks⟩⟩
      · exact .inHand other (by rw [Function.update_of_ne self]; exact hand)
  | awaited awaits =>
      rcases passes.retired awaits.retired with retired | hand
      · have goesOn : 0 < m'.activeReaders chunk ∨ next.checks = some chunk ∨
            next.inHand = some chunk →
            Accounted m' (Function.update pc thread next) chain' freeChain' chunk := by
          rintro (readers | checks | hand)
          · exact .awaited ⟨retired, .inl readers⟩
          · exact .awaited ⟨retired, .inr ⟨thread, by rw [Function.update_self]; exact checks⟩⟩
          · exact mine hand
        rcases awaits.checked with readers | ⟨other, checks⟩
        · exact goesOn (passes.readers readers)
        · by_cases self : other = thread
          · subst self
            exact goesOn (passes.checks checks awaits.retired)
          · exact .awaited ⟨retired, .inr ⟨other, by rw [Function.update_of_ne self]; exact checks⟩⟩
      · exact mine hand

end

/-! ## One operation -/

/-- What an operation leaves alone that only works on the counters and the slots. -/
structure SameLinks (m m' : Memory Value) : Prop where
  next : m'.next = m.next
  headChunk : m'.headChunk = m.headChunk
  freeList : m'.freeList = m.freeList
  retired : m'.retired = m.retired
  activeReaders : m'.activeReaders = m.activeReaders

theorem SameLinks.refl (m : Memory Value) : SameLinks m m := ⟨rfl, rfl, rfl, rfl, rfl⟩

section

variable (chunks : Chunks m role chain freeChain) (behind : Chunks m' role' chain' freeChain')

include chunks behind

/-- The chain stays when its links and its head do. -/
theorem Chunks.chain_eq (next : ∀ chunk ∈ chain, m'.next chunk = m.next chunk)
    (head : m'.headChunk = m.headChunk) : chain' = chain := by
  apply linked_unique _ behind.linked
  rw [head]
  exact linked_congr next chunks.linked

theorem Chunks.freeChain_eq (next : ∀ chunk ∈ freeChain, m'.next chunk = m.next chunk)
    (head : m'.freeList = m.freeList) : freeChain' = freeChain := by
  apply linked_unique _ behind.freeLinked
  rw [head]
  exact linked_congr next chunks.freeLinked

/-- An operation that leaves the links alone. -/
theorem Passes.of_links {now : Pc Value} (links : m'.next = m.next)
    (head : m'.headChunk = m.headChunk) (freeList : m'.freeList = m.freeList)
    (hand : now.inHand = some chunk →
      next.inHand = some chunk ∨ (m'.retired chunk = true ∧ next.checks = some chunk))
    (retired : m.retired chunk = true → m'.retired chunk = true ∨ next.inHand = some chunk)
    (readers : 0 < m.activeReaders chunk →
      0 < m'.activeReaders chunk ∨ next.checks = some chunk)
    (checks : now.checks = some chunk → m.retired chunk = true →
      0 < m'.activeReaders chunk ∨ next.checks = some chunk ∨ next.inHand = some chunk) :
    Passes m m' now next chain freeChain chain' freeChain' chunk := by
  obtain rfl := chunks.chain_eq behind (fun chunk _ => congrFun links chunk) head
  obtain rfl := chunks.freeChain_eq behind (fun chunk _ => congrFun links chunk) freeList
  exact ⟨.inl, .inl, fun held => .inr (.inr (hand held)), retired,
    fun some_ => (readers some_).imp_right .inl, checks⟩

/-- An operation that leaves the links and the flags alone and keeps in hand what it had. -/
theorem Passes.of_sameLinks {now : Pc Value} (same : SameLinks m m')
    (hand : next.inHand = now.inHand) (checks : now.checks = none) :
    Passes m m' now next chain freeChain chain' freeChain' chunk := by
  apply Passes.of_links chunks behind same.next same.headChunk same.freeList
  · exact fun held => .inl (hand.trans held)
  · intro retired
    rw [same.retired]
    exact .inl retired
  · intro readers
    rw [same.activeReaders]
    exact .inl readers
  · intro checked
    rw [checks] at checked
    cases checked

omit chunks behind in
theorem Role.away_of_owned {part : Role Thread} (owned : part = .owned thread) :
    part ≠ .live ∧ part ≠ .free := by
  subst owned
  simp

/-- A write to a chunk that is in hand behind it. -/
theorem Passes.of_inHand {now : Pc Value} {held : ChunkPtr}
    (same : ∀ other ≠ held, m'.chunks other = m.chunks other)
    (head : m'.headChunk = m.headChunk) (freeList : m'.freeList = m.freeList)
    (away : role held ≠ .live ∧ role held ≠ .free)
    (hand : ∀ chunk, now.inHand = some chunk → chunk = held) (behindHand : next.inHand = some held)
    (checks : now.checks = none) :
    Passes m m' now next chain freeChain chain' freeChain' chunk := by
  obtain rfl := chunks.chain_eq behind (fun chunk member => congrArg Chunk.next
    (same chunk fun equal => away.1 (equal ▸ (chunks.live chunk).mpr member))) head
  obtain rfl := chunks.freeChain_eq behind (fun chunk member => congrArg Chunk.next
    (same chunk fun equal => away.2 (equal ▸ (chunks.free chunk).mpr member))) freeList
  by_cases self : chunk = held
  · subst self
    exact ⟨.inl, .inl, fun _ => .inr (.inr (.inl behindHand)), fun _ => .inr behindHand,
      fun _ => .inr (.inr behindHand), fun _ _ => .inr (.inr behindHand)⟩
  · have unchanged := same chunk self
    constructor
    · exact .inl
    · exact .inl
    · exact fun held => (self (hand chunk held)).elim
    · intro retired
      rw [Memory.retired, unchanged]
      exact .inl retired
    · intro readers
      rw [Memory.activeReaders, unchanged]
      exact .inl readers
    · intro checked
      rw [checks] at checked
      cases checked

/-- `pop` leaves a chunk behind. -/
theorem Passes.of_moveHead {now : Pc Value} {later : ChunkPtr}
    (link : m.next m.headChunk = some later) (moved : m' = { m with headChunk := later })
    (hand : now.inHand = none) (behindHand : next.inHand = some m.headChunk)
    (checks : now.checks = none) :
    Passes m m' now next chain freeChain chain' freeChain' chunk := by
  subst moved
  obtain rfl := chunks.freeChain_eq behind (fun _ _ => rfl) rfl
  obtain ⟨rest, rfl, tail⟩ := linked_some chunks.linked
  rw [link] at tail
  obtain rfl := linked_unique tail behind.linked
  constructor
  · intro member
    rcases List.mem_cons.mp member with rfl | later
    · exact .inr behindHand
    · exact .inl later
  · exact .inl
  · intro held
    rw [hand] at held
    cases held
  · exact .inl
  · exact .inl
  · intro checked
    rw [checks] at checked
    cases checked

/-- `push` links its chunk behind the last one. -/
theorem Passes.of_link {value : Value} {tail new : ChunkPtr}
    (loc : (Pc.linkNext value tail new).Local m role thread) (ends : m.next tail = none)
    (moved : m' = m.setNext tail (some new)) :
    Passes m m' (.linkNext value tail new) next chain freeChain chain' freeChain' chunk := by
  subst moved
  have extends_ : ∀ node link, m.next node = some link →
      (m.setNext tail (some new)).next node = some link := by
    intro node link found
    rw [Memory.next_setNext, Function.update_apply]
    split
    · rename_i same
      rw [same, ends] at found
      cases found
    · exact found
  obtain rfl := chunks.freeChain_eq behind (fun chunk member => by
    rw [Memory.next_setNext, Function.update_of_ne]
    rintro rfl
    exact Role.not_inUse_free ((chunks.free chunk).mpr member ▸ loc.1.1)) rfl
  have grows : ∀ chunk ∈ chain, chunk ∈ chain' := fun chunk =>
    mem_of_linked_extends chunks.linked behind.linked extends_
  -- a tail without a successor is not left behind
  have live : role tail = .live := loc.1.1.resolve_right fun left => (chunks.left tail left).2 ends
  have linked : new ∈ chain' := by
    apply mem_next_of_linked behind.linked (grows tail ((chunks.live tail).mp live))
    rw [Memory.next_setNext, Function.update_self]
  constructor
  · exact fun member => .inl (grows chunk member)
  · exact .inl
  · intro held
    cases held
    exact .inl linked
  · intro retired
    rw [Memory.retired_setNext]
    exact .inl retired
  · intro readers
    rw [Memory.activeReaders_setNext]
    exact .inl readers
  · intro checked
    cases checked

/-- `allocate_chunk` takes the first chunk of the free list. -/
theorem Passes.of_take {value : Value} {tail first : ChunkPtr} {link : Option ChunkPtr}
    (loc : (Pc.takeFree value tail first link).Local m role thread)
    (head : m.freeList = some first) (moved : m' = { m with freeList := link })
    (behindHand : next.inHand = some first) :
    Passes m m' (.takeFree value tail first link) next chain freeChain chain' freeChain' chunk := by
  subst moved
  obtain rfl := chunks.chain_eq behind (fun _ _ => rfl) rfl
  have linked := chunks.freeLinked
  rw [head] at linked
  obtain ⟨rest, rfl, tail⟩ := linked_some linked
  rw [loc.2 ((chunks.free first).mpr (List.mem_cons_self ..))] at tail
  obtain rfl := linked_unique tail behind.freeLinked
  constructor
  · exact .inl
  · intro member
    rcases List.mem_cons.mp member with rfl | later
    · exact .inr behindHand
    · exact .inl later
  · intro held
    cases held
  · exact .inl
  · exact .inl
  · intro checked
    cases checked

/-- `release_chunk` puts its chunk on the free list. -/
theorem Passes.of_free {released : ChunkPtr} {after : After Value}
    (loc : (Pc.pushFree released m.freeList after).Local m role thread)
    (moved : m' = { m with freeList := some released }) :
    Passes m m' (.pushFree released m.freeList after) next chain freeChain chain' freeChain'
      chunk := by
  subst moved
  obtain rfl := chunks.chain_eq behind (fun _ _ => rfl) rfl
  obtain ⟨rest, rfl, tail⟩ := linked_some behind.freeLinked
  have same : m.next released = m.freeList := loc.2.1
  have linked : Linked m.next m.freeList rest := same ▸ tail
  obtain rfl := linked_unique chunks.freeLinked linked
  constructor
  · exact .inl
  · exact fun member => .inl (List.mem_cons_of_mem _ member)
  · intro held
    cases held
    exact .inr (.inl (List.mem_cons_self ..))
  · exact .inl
  · exact .inl
  · intro checked
    cases checked

omit chunks behind in
theorem inHand_allocateFrom (value : Value) (tail : ChunkPtr) (first : Option ChunkPtr) :
    (allocateFrom value tail first).inHand = none := by
  cases first <;> rfl

/-- `pop` announces itself. -/
theorem Passes.enter {head : ChunkPtr} {index : Nat}
    (room : m.activeReaders head + 1 < 2 ^ 64)
    (moved : m' = m.setActiveReaders head ((m.activeReaders head + 1) % 2 ^ 64)) :
    Passes m m' (.enter head index) next chain freeChain chain' freeChain' chunk := by
  subst moved
  rw [Nat.mod_eq_of_lt room] at behind ⊢
  apply Passes.of_links chunks behind (by simp) rfl rfl
  · intro held
    cases held
  · intro retired
    rw [Memory.retired_setActiveReaders]
    exact .inl retired
  · intro readers
    rw [Memory.activeReaders_setActiveReaders, Function.update_apply]
    split
    · exact .inl (Nat.succ_pos _)
    · exact .inl readers
  · intro checked
    cases checked

/-- Who leaves a chunk checks it. -/
theorem Passes.leave {head : ChunkPtr} {value : Option Value} {count : Nat}
    (moved : m' = m.setActiveReaders head count) (checks : next.checks = some head) :
    Passes m m' (.leave head value) next chain freeChain chain' freeChain' chunk := by
  subst moved
  apply Passes.of_links chunks behind (by simp) rfl rfl
  · intro held
    cases held
  · intro retired
    rw [Memory.retired_setActiveReaders]
    exact .inl retired
  · intro readers
    rw [Memory.activeReaders_setActiveReaders, Function.update_apply]
    split
    · rename_i same
      exact .inr (same ▸ checks)
    · exact .inl readers
  · intro checked
    cases checked

/-- `retire_chunk` sets the flag and checks the chunk. -/
theorem Passes.storeRetired {held : ChunkPtr} (moved : m' = m.setRetired held true)
    (checks : next.checks = some held) :
    Passes m m' (.storeRetired held) next chain freeChain chain' freeChain' chunk := by
  subst moved
  apply Passes.of_links chunks behind (by simp) rfl rfl
  · intro hand
    cases hand
    exact .inr ⟨by simp, checks⟩
  · intro retired
    rw [Memory.retired_setRetired, Function.update_apply]
    split
    · exact .inl rfl
    · exact .inl retired
  · intro readers
    rw [Memory.activeReaders_setRetired]
    exact .inl readers
  · intro checked
    cases checked

/-- `try_release_chunk` leaves a chunk to its readers. -/
theorem Passes.loadReaders {held : ChunkPtr} {after : After Value} {spurious : Bool}
    {event : Option (Event Value)}
    (taken : (Pc.loadReaders held after).run m spurious = some (m', next, event)) :
    Passes m m' (.loadReaders held after) next chain freeChain chain' freeChain' chunk := by
  simp only [Pc.run] at taken
  split at taken
  · cases taken
    refine .of_links chunks behind rfl rfl rfl ?_ .inl .inl fun checked _ => .inr (.inl checked)
    intro hand
    cases hand
  · rename_i some_
    obtain ⟨rfl, rfl⟩ := resumed taken
    apply Passes.of_links chunks behind rfl rfl rfl
    · intro hand
      cases hand
    · exact .inl
    · exact .inl
    · intro checked _
      cases checked
      exact .inl (Nat.pos_of_ne_zero some_)

/-- Who takes a retired chunk has it in hand. -/
theorem Passes.clearRetired {held : ChunkPtr} {after : After Value} {spurious : Bool}
    {event : Option (Event Value)}
    (taken : (Pc.clearRetired held after).run m spurious = some (m', next, event)) :
    Passes m m' (.clearRetired held after) next chain freeChain chain' freeChain' chunk := by
  simp only [Pc.run] at taken
  split at taken
  · cases taken
    apply Passes.of_links chunks behind (by simp) rfl rfl
    · intro hand
      cases hand
    · intro retired
      rw [Memory.retired_setRetired, Function.update_apply]
      split
      · rename_i same
        exact .inr (congrArg some same.symm)
      · exact .inl retired
    · intro readers
      rw [Memory.activeReaders_setRetired]
      exact .inl readers
    · exact fun checked _ => .inr (.inr checked)
  · rename_i not_retired
    obtain ⟨rfl, rfl⟩ := resumed taken
    apply Passes.of_links chunks behind rfl rfl rfl
    · intro hand
      cases hand
    · exact .inl
    · exact .inl
    · intro checked retired
      cases checked
      exact (not_retired retired).elim

/-- `head_chunk` moves on, or has moved. -/
theorem Passes.moveHead {now : Pc Value} {head later : ChunkPtr} {event : Option (Event Value)}
    (link : m.next head = some later) (hand : now.inHand = none) (checks : now.checks = none)
    (taken : (if m.headChunk = head then
        some ({ m with headChunk := later }, .storeRetired head, none)
      else some (m, .loadHead, none)) = some (m', next, event)) :
    Passes m m' now next chain freeChain chain' freeChain' chunk := by
  split at taken
  · rename_i named
    subst named
    cases taken
    exact .of_moveHead chunks behind link rfl hand rfl checks
  · cases taken
    exact .of_sameLinks chunks behind (.refl m) hand.symm checks

/-- A new chunk is in hand. -/
theorem Passes.newChunk {value : Value} {tail : ChunkPtr} {count fresh : Nat}
    (moved : m' = { m.setChunk m.fresh .new with chunkCount := count, fresh := fresh })
    (hand : next.inHand = some m.fresh) :
    Passes m m' (.newChunk value tail) next chain freeChain chain' freeChain' chunk := by
  subst moved
  have unallocated : role m.fresh = .unallocated := (chunks.fresh m.fresh).mpr le_rfl
  refine .of_inHand chunks behind (fun other differs => Function.update_of_ne differs ..)
    rfl rfl ?_ ?_ hand rfl
  · rw [unallocated]
    simp
  · intro chunk held
    cases held

/-- **One atomic operation** loses no chunk. -/
theorem passes_run {now : Pc Value} {spurious : Bool} {event : Option (Event Value)}
    (loc : now.Local m role thread)
    (room : ∀ head ∈ now.entering, m.activeReaders head + 1 < 2 ^ 64)
    (taken : now.run m spurious = some (m', next, event)) :
    Passes m m' now next chain freeChain chain' freeChain' chunk := by
  cases now with
  | idle => cases taken
  | loadTail | loadFreeNext | loadHead | loadPopIndex | loadFreeHead =>
      cases taken
      exact .of_sameLinks chunks behind (.refl m) rfl rfl
  | storeTail | moveTail =>
      cases taken
      exact .of_sameLinks chunks behind ⟨rfl, rfl, rfl, rfl, rfl⟩ rfl rfl
  | loadFree value tail =>
      cases taken
      exact .of_sameLinks chunks behind (.refl m) (inHand_allocateFrom ..) rfl
  | loadPushIndex head index =>
      cases taken
      refine .of_sameLinks chunks behind (.refl m) ?_ rfl
      split
      · rfl
      · split <;> rfl
  | claimPush value tail =>
      cases taken
      refine .of_sameLinks chunks behind ⟨by simp, rfl, rfl, by simp, by simp⟩ ?_ rfl
      split <;> rfl
  | checkSlot value tail index =>
      cases taken
      refine .of_sameLinks chunks behind (.refl m) ?_ rfl
      split <;> rfl
  | waitSlot head index =>
      cases taken
      refine .of_sameLinks chunks behind (.refl m) ?_ rfl
      split <;> rfl
  | construct | takeSlot =>
      cases taken
      exact .of_sameLinks chunks behind ⟨by simp, rfl, rfl, by simp, by simp⟩ rfl rfl
  | loadNextConsumed head | loadNextEmpty head =>
      simp only [Pc.run] at taken
      split at taken <;> cases taken <;> exact .of_sameLinks chunks behind (.refl m) rfl rfl
  | claimPop head index =>
      simp only [Pc.run] at taken
      split at taken <;> cases taken
      · exact .of_sameLinks chunks behind ⟨by simp, rfl, rfl, by simp, by simp⟩ rfl rfl
      · exact .of_sameLinks chunks behind (.refl m) rfl rfl
  | linkNext value tail new =>
      simp only [Pc.run] at taken
      cases link : m.next tail with
      | none =>
          rw [link] at taken
          cases taken
          exact .of_link chunks behind loc link rfl
      | some expected =>
          rw [link] at taken
          cases taken
          exact .of_sameLinks chunks behind (.refl m) rfl rfl
  | takeFree value tail first link =>
      simp only [Pc.run] at taken
      split at taken
      · rename_i head
        cases taken
        exact .of_take chunks behind loc head.2 rfl rfl
      · cases taken
        exact .of_sameLinks chunks behind (.refl m) (inHand_allocateFrom ..) rfl
  | resetPush value tail held =>
      cases taken
      exact .of_inHand chunks behind (sameBut_setPushIndex ..).chunks rfl rfl
        (Role.away_of_owned loc.2) (fun _ => Option.some.inj ∘ Eq.symm) rfl rfl
  | resetPop value tail held | resetNext value tail held | resetReaders value tail held
  | resetRetired value tail held =>
      cases taken
      exact .of_inHand chunks behind (sameBut_setChunk ..).chunks rfl rfl
        (Role.away_of_owned loc.2.1) (fun _ => Option.some.inj ∘ Eq.symm) rfl rfl
  | newChunk value tail =>
      cases taken
      exact .newChunk chunks behind rfl rfl
  | storeNext held old after =>
      cases taken
      exact .of_inHand chunks behind (sameBut_setNext ..).chunks rfl rfl
        (Role.away_of_owned loc.1) (fun _ => Option.some.inj ∘ Eq.symm) rfl rfl
  | moveHeadConsumed head later => exact .moveHead chunks behind loc.2.2 rfl rfl taken
  | moveHeadEmpty head later => exact .moveHead chunks behind loc.2 rfl rfl taken
  | pushFree held old after =>
      simp only [Pc.run] at taken
      split at taken
      · rename_i head
        obtain ⟨-, rfl⟩ := head
        obtain ⟨rfl, rfl⟩ := resumed taken
        exact .of_free chunks behind loc rfl
      · cases taken
        exact .of_sameLinks chunks behind (.refl m) rfl rfl
  | enter head index =>
      cases taken
      exact .enter chunks behind (room head rfl) rfl
  | leave head value =>
      cases taken
      exact .leave chunks behind rfl rfl
  | storeRetired held =>
      cases taken
      exact .storeRetired chunks behind rfl rfl
  | loadReaders held after => exact .loadReaders chunks behind taken
  | clearRetired held after => exact .clearRetired chunks behind taken

end

/-- Only `new Chunk` allocates, and has the chunk in hand. -/
theorem fresh_run {now : Pc Value} {spurious : Bool} {event : Option (Event Value)}
    (taken : now.run m spurious = some (m', next, event)) :
    m'.fresh = m.fresh ∨ (m'.fresh = m.fresh + 1 ∧ next.inHand = some m.fresh) := by
  cases now with
  | idle => cases taken
  | newChunk value tail =>
      cases taken
      exact .inr ⟨rfl, rfl⟩
  | claimPush | checkSlot | construct | enter | waitSlot | takeSlot | leave | resetPush | resetPop
  | resetReaders =>
      cases taken
      exact .inl rfl
  | claimPop head index =>
      simp only [Pc.run] at taken
      split at taken <;> cases taken <;> exact .inl rfl
  | _ => exact .inl (Pc.links_run rfl taken).fresh

/-! ## Runs -/

/-- Every allocated chunk is somewhere. -/
def State.AllAccounted (s : State Thread Value) (chain freeChain : List ChunkPtr) : Prop :=
  ∀ chunk < s.memory.fresh, Accounted s.memory s.pc chain freeChain chunk

section

variable [Fintype Thread] {s : State Thread Value}

/-- What careful runs keep. -/
structure State.Whole (s : State Thread Value) : Prop where
  counted : Counted s.memory s.pc
  accounted : ∃ role chain freeChain, s.Inv role chain freeChain ∧ s.AllAccounted chain freeChain

theorem whole_init : (State.init : State Thread Value).Whole where
  counted := counted_init
  accounted := by
    refine ⟨_, _, _, inv_init, fun chunk allocated => .live ?_⟩
    have first : chunk = 0 := Nat.lt_one_iff.mp allocated
    exact List.mem_singleton.mpr first

variable [DecidableEq Thread]

/-- **One step** of a careful run. -/
theorem State.Whole.step (whole : s.Whole) {label : Label Thread Value} {after : State Thread Value}
    (careful : Careful s label) (countable : Countable s label)
    (taken : MPMCQueue.step s label = some after) : after.Whole := by
  obtain ⟨counted, role, chain, freeChain, inv, accounted⟩ := whole
  have kept : s.Kept := ⟨⟨role, chain, freeChain, inv⟩, counted⟩
  have behind := (kept.step careful countable taken).2
  obtain ⟨role', chain', freeChain', inv'⟩ := inv.step careful taken
  refine ⟨behind, role', chain', freeChain', inv', fun chunk allocated => ?_⟩
  have chunks' := inv'.chunks
  rcases step_cases taken with ⟨thread, call, idle, rfl⟩ |
    ⟨thread, spurious, memory, now, event, rfl, ran, rfl⟩
  · -- a call starts with nothing in hand
    apply (accounted chunk allocated).step
    rw [idle]
    apply Passes.of_sameLinks inv.chunks chunks' (.refl s.memory) _ rfl
    cases call <;> rfl
  · rw [memory_record] at allocated chunks' ⊢
    rw [pc_record]
    by_cases before : chunk < s.memory.fresh
    · exact (accounted chunk before).step
        (passes_run inv.chunks chunks' (inv.locals thread) countable ran)
    · -- a new chunk is in hand
      rcases fresh_run ran with same | ⟨grown, hand⟩
      · exact (before (same ▸ allocated)).elim
      · have new : chunk = s.memory.fresh := by
          have bound : chunk < s.memory.fresh + 1 := allocated.trans_eq grown
          exact Nat.le_antisymm (Nat.le_of_lt_succ bound) (Nat.le_of_not_lt before)
        exact .inHand thread (by rw [new, State.pc_setPc, Function.update_self]; exact hand)

/-! ## When no operation is in progress -/

omit [DecidableEq Thread] in
/-- Every allocated chunk is in the chain or on the free list. -/
theorem State.Whole.quiet (whole : s.Whole) (quiet : s.Quiet) :
    ∃ role chain freeChain, s.Inv role chain freeChain ∧
      ∀ chunk < s.memory.fresh, chunk ∈ chain ∨ chunk ∈ freeChain := by
  obtain ⟨counted, role, chain, freeChain, inv, accounted⟩ := whole
  refine ⟨role, chain, freeChain, inv, fun chunk allocated => ?_⟩
  have idle := quiet.pc_eq
  cases accounted chunk allocated with
  | live member => exact .inl member
  | free member => exact .inr member
  | inHand thread hand =>
      rw [idle thread] at hand
      cases hand
  | awaited awaits =>
      rcases awaits.checked with some_ | ⟨thread, checks⟩
      · rw [counted.counted, Finset.card_pos] at some_
        obtain ⟨thread, reads⟩ := some_
        have reading := (Finset.mem_filter.mp reads).2
        rw [idle thread] at reading
        cases reading
      · rw [idle thread] at checks
        cases checks

end

section

/-- A loop of the destructor goes through the whole chain when it is not too long and meets
nothing that was deleted before. -/
theorem deleteFrom_of_linked {start : Option ChunkPtr} {nodes : List ChunkPtr} {fuel : Nat}
    {deleted : List ChunkPtr} (linked : Linked m.next start nodes) (enough : nodes.length ≤ fuel)
    (fresh : (deleted ++ nodes).Nodup) :
    m.deleteFrom fuel start deleted = some (deleted ++ nodes) := by
  induction nodes generalizing start fuel deleted with
  | nil =>
      cases linked
      rw [List.append_nil]
      cases fuel <;> rfl
  | cons node rest ih =>
      obtain ⟨rfl, tail⟩ := linked
      obtain ⟨fuel, rfl⟩ : ∃ less, fuel = less + 1 :=
        ⟨fuel - 1, by simp only [List.length_cons] at enough; omega⟩
      have first : node ∉ deleted := fun member =>
        List.disjoint_of_nodup_append fresh member (List.mem_cons_self ..)
      rw [Memory.deleteFrom, if_neg first]
      have more : (deleted ++ [node] ++ rest).Nodup := by
        rwa [List.append_assoc]
      rw [ih tail (Nat.le_of_succ_le_succ enough) more, List.append_assoc]
      rfl

/-- What the destructor deletes when no operation is in progress. -/
theorem destroy_eq (chunks : Chunks m role chain freeChain)
    (everywhere : ∀ chunk < m.fresh, chunk ∈ chain ∨ chunk ∈ freeChain) {fuel : Nat}
    (enough : m.fresh ≤ fuel) :
    m.destroy fuel = some (chain ++ freeChain) ∧
      (chain ++ freeChain).Perm (List.range m.fresh) := by
  have allocated : ∀ {chunk}, role chunk ≠ .unallocated → chunk < m.fresh := fun named =>
    Nat.lt_of_not_le fun beyond => named ((chunks.fresh _).mpr beyond)
  have live : ∀ chunk ∈ chain, role chunk = .live := fun chunk => (chunks.live chunk).mpr
  have free : ∀ chunk ∈ freeChain, role chunk = .free := fun chunk => (chunks.free chunk).mpr
  have once : (chain ++ freeChain).Nodup := by
    apply List.nodup_append.mpr
    refine ⟨chunks.chainNodup, chunks.freeNodup, fun chunk linked other released same => ?_⟩
    have both := (live chunk linked).symm.trans (same ▸ free other released)
    cases both
  have whole : (chain ++ freeChain).Perm (List.range m.fresh) := by
    apply (List.perm_ext_iff_of_nodup once List.nodup_range).mpr
    intro chunk
    rw [List.mem_append, List.mem_range]
    refine ⟨?_, everywhere chunk⟩
    rintro (linked | released)
    · exact allocated (by rw [live chunk linked]; simp)
    · exact allocated (by rw [free chunk released]; simp)
  have size : (chain ++ freeChain).length ≤ fuel := by
    rw [whole.length_eq, List.length_range]
    exact enough
  rw [List.length_append] at size
  refine ⟨?_, whole⟩
  rw [Memory.destroy, deleteFrom_of_linked chunks.linked (by omega)
    (by simpa using chunks.chainNodup), Option.bind_some, List.nil_append]
  exact deleteFrom_of_linked chunks.freeLinked (by omega) once

theorem sum_range_eq {M : Type} [AddCommMonoid M] (f : Nat → M) (count : Nat) :
    ∑ index ∈ Finset.range count, f index = ((List.range count).map f).sum := by
  rw [← List.toFinset_range, List.sum_toFinset f List.nodup_range]

/-- The values that the nodes of a chunk destroy. -/
theorem destroyed_chunk (m : Memory Value) (chunk : ChunkPtr) :
    (((m.destroyed chunk).map some : List (Option Value)) : Multiset (Option Value)) =
      ∑ index ∈ Finset.range chunkSize, inSlot (m.slot chunk index) := by
  rw [sum_range_eq, Memory.destroyed]
  induction List.range chunkSize with
  | nil => rfl
  | cons index rest ih =>
      rw [List.map_cons, List.sum_cons, ← ih, List.filterMap_cons]
      cases m.slot chunk index with
      | none => exact (zero_add _).symm
      | some value => exact (Multiset.cons_coe ..).symm

/-- The values the destructor destroys are those in the slots. -/
theorem destroyed_eq {deleted : List ChunkPtr} (all : deleted.Perm (List.range m.fresh)) :
    (((deleted.flatMap m.destroyed).map some : List (Option Value)) : Multiset (Option Value)) =
      m.stored := by
  let values (chunk : ChunkPtr) : List (Option Value) := (m.destroyed chunk).map some
  calc (((deleted.flatMap m.destroyed).map some : List (Option Value)) : Multiset (Option Value))
      = (deleted.map fun chunk => (values chunk : Multiset (Option Value))).sum := by
        rw [List.map_flatMap]
        exact (Multiset.coe_bind deleted values).symm
    _ = ((List.range m.fresh).map fun chunk =>
          ∑ index ∈ Finset.range chunkSize, inSlot (m.slot chunk index)).sum := by
        simp only [values, destroyed_chunk]
        exact (all.map _).sum_eq
    _ = m.stored := (sum_range_eq _ _).symm

variable [Fintype Thread] [DecidableEq Thread]

/-- **The destructor frees every chunk once and destroys what was not popped.** In a run whose
steps are careful, when no operation is in progress, its loops end and delete no chunk twice,
every chunk that was ever allocated is among those they delete, and the values whose `push` has
returned are those `pop` has returned and those the nodes of the deleted chunks destroy. -/
theorem destroyed_once {labels : List (Label Thread Value)} {s : State Thread Value}
    (run : exec MPMCQueue.step .init labels = some s)
    (careful : Along MPMCQueue.step (fun s label => Careful s label ∧ Countable s label) .init
      labels) (quiet : s.Quiet) {fuel : Nat} (enough : s.memory.fresh ≤ fuel) :
    ∃ deleted, s.memory.destroy fuel = some deleted ∧
      deleted.Perm (List.range s.memory.fresh) ∧
      (s.pushed.map some).Perm (s.popped ++ (deleted.flatMap s.memory.destroyed).map some) := by
  have whole : s.Whole := exec_invariant
    (fun s label after kept allowed taken => State.Whole.step kept allowed.1 allowed.2 taken)
    whole_init run careful
  obtain ⟨role, chain, freeChain, inv, everywhere⟩ := whole.quiet quiet
  obtain ⟨deletes, all⟩ := destroy_eq inv.chunks everywhere enough
  refine ⟨_, deletes, all, Multiset.coe_eq_coe.mp ?_⟩
  have nothing : ∑ thread, (s.pc thread).carries = 0 :=
    Finset.sum_eq_zero fun thread _ => by
      rw [quiet.pc_eq thread]
      rfl
  have values := inv.values
  rw [nothing, add_zero, ← destroyed_eq all] at values
  exact values

end

/-- The first chunk is filled; then two threads allocate the next one, and the one that
comes too late releases its chunk. -/
def lateAllocation : List (Label Bool Nat) :=
  (List.range 64).flatMap (fun value => .push true value :: List.replicate 4 (.run true false)) ++
    [.push true 64, .push false 65] ++ List.replicate 5 (.run true false) ++
    List.replicate 8 (.run false false)

/-- Both pushes are finished, and one value is popped. -/
def lateFinished : List (Label Bool Nat) :=
  lateAllocation ++ List.replicate 5 (.run true false) ++ List.replicate 5 (.run false false) ++
    .pop true :: List.replicate 10 (.run true false)

/-- The values that are left are destroyed with the three chunks, one of them free. -/
theorem destroyed_once_of_late : ∃ s, exec MPMCQueue.step .init lateFinished = some s ∧
    s.memory.freeList = some 2 ∧ s.popped = [some 0] ∧ ∃ deleted,
      s.memory.destroy 3 = some deleted ∧ deleted.Perm [0, 1, 2] ∧
        (s.pushed.map some).Perm ([some 0] ++ (deleted.flatMap s.memory.destroyed).map some) := by
  obtain ⟨s, run, quiet, fresh, released, popped⟩ : ∃ s ∈ exec MPMCQueue.step .init lateFinished,
      s.Quiet ∧ s.memory.fresh = 3 ∧ s.memory.freeList = some 2 ∧ s.popped = [some 0] := by
    decide +kernel
  obtain ⟨deleted, deletes, all, values⟩ :=
    destroyed_once run (by decide +kernel) quiet fresh.le
  rw [fresh] at all
  rw [popped] at values
  exact ⟨s, run, released, popped, deleted, deletes, all, values⟩

end Drpc.Util.MPMCQueue
