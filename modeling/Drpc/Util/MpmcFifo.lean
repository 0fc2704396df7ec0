import Drpc.Util.MpmcChunks
import Drpc.Util.MpmcDrain

/-! # What one call does to the task queue

Between two calls of one thread the chunks of the chain hold the values that were pushed
and not yet popped, in order, and the chunks of the free list hold none (`Sequential`). A
call that runs alone returns what it returns on a plain FIFO queue, and leaves the values
that it leaves there (`Sequential.call`).
-/

namespace Drpc.Util.MPMCQueue

open Chain

variable {Value : Type}

/-- A plain FIFO queue: what a call returns, and the values behind it. -/
def fifo : List Value → Call Value → Event Value × List Value
  | queue, .push value => (.pushed value, queue ++ [value])
  | [], .pop => (.empty, [])
  | value :: rest, .pop => (.popped (some value), rest)

/-- A chunk of the chain, between two calls. -/
structure Memory.Settled (m : Memory Value) (chunk : ChunkPtr) : Prop where
  unread : m.activeReaders chunk = 0
  retired : m.retired chunk = false
  small : m.popIndex chunk ≤ chunkSize
  ordered : m.popIndex chunk ≤ m.pushIndex chunk
  occupied : ∀ index < chunkSize, (m.slot chunk index).isSome = true ↔
    m.popIndex chunk ≤ index ∧ index < m.pushIndex chunk

/-- The values of `queue` are in the chunks of the chain. -/
structure Queued (m : Memory Value) (chain free : List ChunkPtr) (queue : List Value) : Prop where
  linked : Linked m.next (some m.headChunk) chain
  ends : ∃ before, chain = before ++ [m.tailChunk]
  freeLinked : Linked m.next m.freeList free
  nodup : (chain ++ free).Nodup
  allocated : ∀ chunk ∈ chain ++ free, chunk < m.fresh
  settled : ∀ chunk ∈ chain, m.Settled chunk
  blank : ∀ chunk ∈ free, ∀ index < chunkSize, m.slot chunk index = none
  contents : chain.flatMap m.window = queue.map some

/-- The memory between two calls. -/
structure Sequential (m : Memory Value) (chain free : List ChunkPtr) (queue : List Value) : Prop
    extends Queued m chain free queue where
  counted : m.chunkCount = chain.length + free.length
  room : m.pushIndex m.tailChunk ≤ chunkSize

variable {m m' : Memory Value} {chain free : List ChunkPtr} {queue queue' : List Value}
  {chunk : ChunkPtr}

theorem sequential_init : Sequential (Memory.init : Memory Value) [0] [] [] where
  linked := ⟨rfl, rfl⟩
  ends := ⟨[], rfl⟩
  freeLinked := rfl
  nodup := List.nodup_singleton _
  allocated chunk member := by
    rw [List.mem_singleton.mp member]
    exact Nat.one_pos
  settled _ _ := ⟨rfl, rfl, Nat.zero_le _, le_rfl, fun index _ => by
    simp [Memory.init, Memory.slot, Memory.pushIndex, Chunk.new]⟩
  blank _ member := by cases member
  contents := rfl
  counted := rfl
  room := Nat.zero_le _

/-! ## What a write changes -/

theorem Memory.Settled.congr (settled : m.Settled chunk) (same : m'.chunks chunk = m.chunks chunk) :
    m'.Settled chunk := by
  obtain ⟨unread, retired, small, ordered, occupied⟩ := settled
  constructor <;>
    simpa only [Memory.activeReaders, Memory.retired, Memory.popIndex, Memory.pushIndex,
      Memory.slot, same]

/-- Only the chunks of the two lists matter. -/
theorem Queued.congr (queued : Queued m chain free queue)
    (same : ∀ chunk ∈ chain ++ free, m'.chunks chunk = m.chunks chunk)
    (headChunk : m'.headChunk = m.headChunk) (tailChunk : m'.tailChunk = m.tailChunk)
    (freeList : m'.freeList = m.freeList) (fresh : m.fresh ≤ m'.fresh) :
    Queued m' chain free queue where
  linked := by
    rw [headChunk]
    exact linked_congr (fun chunk member =>
      congrArg Chunk.next (same chunk (List.mem_append_left _ member))) queued.linked
  ends := by
    rw [tailChunk]
    exact queued.ends
  freeLinked := by
    rw [freeList]
    exact linked_congr (fun chunk member =>
      congrArg Chunk.next (same chunk (List.mem_append_right _ member))) queued.freeLinked
  nodup := queued.nodup
  allocated chunk member := (queued.allocated chunk member).trans_le fresh
  settled chunk member :=
    (queued.settled chunk member).congr (same chunk (List.mem_append_left _ member))
  blank chunk member index small :=
    (congrFun (congrArg Chunk.slots (same chunk (List.mem_append_right _ member))) index).trans
      (queued.blank chunk member index small)
  contents := by
    rw [← queued.contents]
    exact List.flatMap_congr fun chunk member =>
      window_congr (same chunk (List.mem_append_left _ member))

/-- A write to a chunk of the chain that leaves its link alone. -/
theorem Queued.write (queued : Queued m chain free queue) (same : SameBut m m' chunk)
    (member : chunk ∈ chain) (next : m'.next chunk = m.next chunk) (settled : m'.Settled chunk)
    (contents : chain.flatMap m'.window = queue'.map some) : Queued m' chain free queue' := by
  have links : m'.next = m.next := by
    funext other
    by_cases differs : other = chunk
    · rw [differs, next]
    · exact same.next differs
  have apart : ∀ other ∈ free, other ≠ chunk := fun other inFree is =>
    (List.nodup_append.mp queued.nodup).2.2 chunk member other inFree is.symm
  exact {
    linked := by
      rw [links, same.headChunk]
      exact queued.linked
    ends := by
      rw [same.tailChunk]
      exact queued.ends
    freeLinked := by
      rw [links, same.freeList]
      exact queued.freeLinked
    nodup := queued.nodup
    allocated := by
      rw [same.fresh]
      exact queued.allocated
    settled := by
      intro other inChain
      by_cases is : other = chunk
      · rw [is]
        exact settled
      · exact (queued.settled other inChain).congr (same.chunks other is)
    blank := by
      intro other inFree index small
      exact (congrFun (congrArg Chunk.slots (same.chunks other (apart other inFree))) index).trans
        (queued.blank other inFree index small)
    contents := contents }

theorem Queued.tail_mem (queued : Queued m chain free queue) : m.tailChunk ∈ chain := by
  obtain ⟨before, rfl⟩ := queued.ends
  exact List.mem_append_right _ (List.mem_singleton_self _)

/-- A write to the last chunk that puts `values` behind its values. -/
theorem Queued.writeTail (queued : Queued m chain free queue) (same : SameBut m m' m.tailChunk)
    (next : m'.next m.tailChunk = m.next m.tailChunk) (settled : m'.Settled m.tailChunk)
    (values : List Value)
    (window : m'.window m.tailChunk = m.window m.tailChunk ++ values.map some) :
    Queued m' chain free (queue ++ values) := by
  apply queued.write same queued.tail_mem next settled
  have contents := queued.contents
  obtain ⟨before, rfl⟩ := queued.ends
  have others : before.flatMap m'.window = before.flatMap m.window := by
    refine List.flatMap_congr fun chunk member => window_congr (same.chunks chunk ?_)
    intro equal
    subst equal
    have nodup := (List.nodup_append.mp (List.nodup_append.mp queued.nodup).1).2.2
    exact nodup _ member _ (List.mem_singleton_self _) rfl
  rw [List.flatMap_append, List.flatMap_singleton] at contents ⊢
  rw [others, window, ← List.append_assoc, contents, List.map_append]

/-! ## `push` -/

/-- The memory behind a `push` into the chunk at the tail. -/
def Memory.putLast (m : Memory Value) (value : Value) : Memory Value :=
  (m.setPushIndex m.tailChunk (m.pushIndex m.tailChunk + 1)).setSlot m.tailChunk
    (m.pushIndex m.tailChunk) (some value)

/-- The step of `push` that fetches its index. -/
theorem run_claimPush (room : m.pushIndex m.tailChunk ≤ chunkSize) (value : Value) :
    (Pc.claimPush value m.tailChunk).run m false =
      some (m.setPushIndex m.tailChunk (m.pushIndex m.tailChunk + 1),
        if m.pushIndex m.tailChunk < chunkSize then
          .checkSlot value m.tailChunk (m.pushIndex m.tailChunk)
        else .loadFree value m.tailChunk, none) := by
  have noWrap : (m.pushIndex m.tailChunk + 1) % 2 ^ 64 = m.pushIndex m.tailChunk + 1 := by
    have : chunkSize = 64 := rfl
    omega
  simp only [Pc.run, noWrap]

/-- `push` fills the first slot of the last chunk that is not filled. -/
theorem Sequential.returns_pushed (seq : Sequential m chain free queue)
    (space : m.pushIndex m.tailChunk < chunkSize) (value : Value) :
    Returns m (.loadTail value) (m.putLast value) (.pushed value) := by
  have claim := run_claimPush seq.room value
  rw [if_pos space] at claim
  have empty : (m.slot m.tailChunk (m.pushIndex m.tailChunk)).isSome = false := by
    have occupied := (seq.settled _ seq.tail_mem).occupied _ space
    simpa using occupied
  have check : (Pc.checkSlot value m.tailChunk (m.pushIndex m.tailChunk)).run
      (m.setPushIndex m.tailChunk (m.pushIndex m.tailChunk + 1)) false =
      some (m.setPushIndex m.tailChunk (m.pushIndex m.tailChunk + 1),
        .construct value m.tailChunk (m.pushIndex m.tailChunk), none) := by
    simp [Pc.run, empty]
  exact .later rfl (.later claim (.later check (.now rfl)))

/-- A `push` puts its value behind the others. -/
theorem Sequential.putLast (seq : Sequential m chain free queue)
    (space : m.pushIndex m.tailChunk < chunkSize) (value : Value) :
    Sequential (m.putLast value) chain free (queue ++ [value]) := by
  have tail := seq.settled _ seq.tail_mem
  have same : SameBut m (m.putLast value) m.tailChunk :=
    (sameBut_setPushIndex ..).trans (sameBut_setSlot ..)
  have push : (m.putLast value).pushIndex m.tailChunk = m.pushIndex m.tailChunk + 1 := by
    simp [Memory.putLast]
  have pop : (m.putLast value).popIndex m.tailChunk = m.popIndex m.tailChunk := by
    simp [Memory.putLast]
  have slot : (m.putLast value).slot m.tailChunk = Function.update (m.slot m.tailChunk)
      (m.pushIndex m.tailChunk) (some value) := by
    simp [Memory.putLast]
  refine { seq.writeTail same (by simp [Memory.putLast]) ?_ [value] ?_ with
    counted := seq.counted, room := ?_ }
  · refine ⟨?_, ?_, ?_, ?_, fun index small => ?_⟩
    · simpa [Memory.putLast] using tail.unread
    · simpa [Memory.putLast] using tail.retired
    · rw [pop]
      exact tail.small
    · rw [pop, push]
      exact tail.ordered.trans (Nat.le_succ _)
    · have before := tail.occupied index small
      have ordered := tail.ordered
      rw [slot, pop, push]
      by_cases is : index = m.pushIndex m.tailChunk
      · subst is
        rw [Function.update_self]
        exact iff_of_true rfl ⟨ordered, Nat.lt_succ_self _⟩
      · rw [Function.update_of_ne is, before]
        omega
  · have longer : min (m.pushIndex m.tailChunk + 1) chunkSize - m.popIndex m.tailChunk =
        (min (m.pushIndex m.tailChunk) chunkSize - m.popIndex m.tailChunk) + 1 := by
      have ordered := tail.ordered
      omega
    have last : m.popIndex m.tailChunk + (min (m.pushIndex m.tailChunk) chunkSize -
        m.popIndex m.tailChunk) = m.pushIndex m.tailChunk := by
      have ordered := tail.ordered
      omega
    simp only [Memory.window, push, pop, slot, longer, List.range'_concat, List.map_append,
      List.map_cons, List.map_nil, Nat.one_mul, last, Function.update_self]
    refine congrArg (· ++ [some value]) (List.map_congr_left fun index member => ?_)
    rw [List.mem_range'_1] at member
    rw [Function.update_of_ne (by omega)]
  · exact push.trans_le space

/-- `push` fetches an index behind the last slot. -/
theorem Sequential.overshoot (seq : Sequential m chain free queue)
    (full : chunkSize ≤ m.pushIndex m.tailChunk) :
    Queued (m.setPushIndex m.tailChunk (m.pushIndex m.tailChunk + 1)) chain free queue := by
  have tail := seq.settled _ seq.tail_mem
  rw [← List.append_nil queue]
  apply seq.writeTail (sameBut_setPushIndex ..) (by simp)
  · refine ⟨?_, ?_, ?_, ?_, fun index small => ?_⟩
    · simpa using tail.unread
    · simpa using tail.retired
    · simpa using tail.small
    · simpa using tail.ordered.trans (Nat.le_succ _)
    · have before := tail.occupied index small
      simp only [Memory.slot_setPushIndex, Memory.popIndex_setPushIndex,
        Memory.pushIndex_setPushIndex, Function.update_self, before]
      omega
  · have same : min (m.pushIndex m.tailChunk + 1) chunkSize =
        min (m.pushIndex m.tailChunk) chunkSize := by
      omega
    simp [Memory.window, same]

/-! ## `allocate_chunk` -/

/-- A chunk as `allocate_chunk` returns it. -/
structure Memory.Unused (m : Memory Value) (chunk : ChunkPtr) : Prop where
  pushIndex : m.pushIndex chunk = 0
  popIndex : m.popIndex chunk = 0
  next : m.next chunk = none
  unread : m.activeReaders chunk = 0
  retired : m.retired chunk = false
  blank : ∀ index < chunkSize, m.slot chunk index = none

/-- The stores of `allocate_chunk` to a chunk of the free list. -/
def Memory.reset (m : Memory Value) (chunk : ChunkPtr) : Memory Value :=
  ((((m.setPushIndex chunk 0).setPopIndex chunk 0).setNext chunk none).setActiveReaders chunk
    0).setRetired chunk false

theorem sameBut_reset (m : Memory Value) (chunk : ChunkPtr) : SameBut m (m.reset chunk) chunk :=
  ((((sameBut_setPushIndex ..).trans (sameBut_setPopIndex ..)).trans (sameBut_setNext ..)).trans
    (sameBut_setActiveReaders ..)).trans (sameBut_setRetired ..)

/-- The first chunk of the free list is taken. -/
theorem Queued.take (queued : Queued m chain (chunk :: free) queue) :
    Queued { m with freeList := m.next chunk } chain free queue := by
  have sublist : (chain ++ free).Sublist (chain ++ chunk :: free) :=
    (List.Sublist.refl chain).append (List.sublist_cons_self chunk free)
  exact {
    linked := queued.linked
    ends := queued.ends
    freeLinked := queued.freeLinked.2
    nodup := queued.nodup.sublist sublist
    allocated := fun other member => queued.allocated other (sublist.subset member)
    settled := fun other member => (queued.settled other member).congr rfl
    blank := fun other member => queued.blank other (List.mem_cons_of_mem _ member)
    contents := queued.contents }

/-- `allocate_chunk`, of a thread that runs alone: it returns a chunk of neither list. -/
theorem Queued.allocate (queued : Queued m chain free queue)
    (counted : m.chunkCount = chain.length + free.length) (value : Value) :
    ∃ m' new free', Solo m (.loadFree value m.tailChunk) m' (.linkNext value m'.tailChunk new) ∧
      Queued m' chain free' queue ∧ new ∉ chain ++ free' ∧ new < m'.fresh ∧ m'.Unused new ∧
      m'.chunkCount = chain.length + free'.length + 1 := by
  cases first : m.freeList with
  | none =>
      have load : (Pc.loadFree value m.tailChunk).run m false =
          some (m, .newChunk value m.tailChunk, none) := by
        simp only [Pc.run, first, allocateFrom]
      have apart : m.fresh ∉ chain ++ free := fun member =>
        absurd (queued.allocated _ member) (Nat.lt_irrefl _)
      refine ⟨{ m.setChunk m.fresh .new with
        chunkCount := m.chunkCount + 1, fresh := m.fresh + 1 }, m.fresh, free,
        .cons load (.cons rfl (.refl _ _)), ?_, apart, Nat.lt_succ_self _, ?_,
        congrArg (· + 1) counted⟩
      · refine queued.congr (fun other member => ?_) rfl rfl rfl (Nat.le_succ _)
        apply Function.update_of_ne
        intro equal
        subst equal
        exact apart member
      · constructor <;>
          simp [Memory.pushIndex, Memory.popIndex, Memory.next, Memory.activeReaders,
            Memory.retired, Memory.slot, Memory.setChunk, Chunk.new]
  | some chunk =>
      obtain ⟨rest, rfl, -⟩ := linked_some (first ▸ queued.freeLinked)
      have load : (Pc.loadFree value m.tailChunk).run m false =
          some (m, .loadFreeNext value m.tailChunk chunk, none) := by
        simp only [Pc.run, first, allocateFrom]
      have take : (Pc.takeFree value m.tailChunk chunk (m.next chunk)).run m false =
          some ({ m with freeList := m.next chunk }, .resetPush value m.tailChunk chunk, none) :=
        if_pos ⟨rfl, first⟩
      have apart : chunk ∉ chain ++ rest :=
        (List.nodup_middle.mp queued.nodup |> List.nodup_cons.mp).1
      have taken := queued.take
      refine ⟨({ m with freeList := m.next chunk } : Memory Value).reset chunk, chunk, rest,
        .cons load (.cons rfl (.cons take (.cons rfl (.cons rfl (.cons rfl (.cons rfl (.cons rfl
          (.refl _ _)))))))), ?_, apart, ?_, ?_, ?_⟩
      · have same := sameBut_reset ({ m with freeList := m.next chunk } : Memory Value) chunk
        apply taken.congr (fun other member => same.chunks other ?_) same.headChunk same.tailChunk
          same.freeList same.fresh.ge
        intro equal
        subst equal
        exact apart member
      · exact queued.allocated chunk (List.mem_append_right _ (List.mem_cons_self ..))
      · have blank := queued.blank chunk (List.mem_cons_self ..)
        constructor <;> simp [Memory.reset]
        exact blank
      · change m.chunkCount = _
        rw [counted, List.length_cons]
        omega

/-- The chunk is linked behind the last one, and `tail_chunk` moves on to it. -/
def Memory.append (m : Memory Value) (new : ChunkPtr) : Memory Value :=
  { m.setNext m.tailChunk (some new) with tailChunk := new }

@[simp] theorem pushIndex_append (new : ChunkPtr) : (m.append new).pushIndex = m.pushIndex :=
  Memory.pushIndex_setNext ..

@[simp] theorem popIndex_append (new : ChunkPtr) : (m.append new).popIndex = m.popIndex :=
  Memory.popIndex_setNext ..

@[simp] theorem activeReaders_append (new : ChunkPtr) :
    (m.append new).activeReaders = m.activeReaders := Memory.activeReaders_setNext ..

@[simp] theorem retired_append (new : ChunkPtr) : (m.append new).retired = m.retired :=
  Memory.retired_setNext ..

@[simp] theorem slot_append (new : ChunkPtr) : (m.append new).slot = m.slot :=
  Memory.slot_setNext ..

@[simp] theorem window_append (new : ChunkPtr) : (m.append new).window = m.window := by
  funext chunk
  simp only [Memory.window, pushIndex_append, popIndex_append, slot_append]

theorem Memory.Settled.append (settled : m.Settled chunk) (new : ChunkPtr) :
    (m.append new).Settled chunk := by
  obtain ⟨unread, retired, small, ordered, occupied⟩ := settled
  constructor <;> simpa

theorem Memory.Unused.settled (unused : m.Unused chunk) : m.Settled chunk where
  unread := unused.unread
  retired := unused.retired
  small := unused.popIndex.trans_le (Nat.zero_le _)
  ordered := unused.popIndex.trans_le (Nat.zero_le _)
  occupied index small := by
    rw [unused.blank index small, unused.pushIndex]
    simp

theorem Memory.Unused.window (unused : m.Unused chunk) : m.window chunk = [] := by
  apply window_eq_nil
  rw [unused.pushIndex]
  exact Nat.zero_le _

/-- An unused chunk ends the chain, with no values. -/
theorem Queued.append (queued : Queued m chain free queue) {new : ChunkPtr}
    (apart : new ∉ chain ++ free) (allocated : new < m.fresh) (unused : m.Unused new)
    (counted : m.chunkCount = chain.length + free.length + 1) :
    Sequential (m.append new) (chain ++ [new]) free queue := by
  have links : ∀ {other : ChunkPtr}, other ≠ m.tailChunk →
      (m.append new).next other = m.next other := fun away =>
    (sameBut_setNext m m.tailChunk (some new)).next away
  have linkTail : (m.append new).next m.tailChunk = some new := by
    simp [Memory.append, Memory.next, Memory.setNext, Memory.setChunk]
  have notTail : new ≠ m.tailChunk := by
    intro equal
    subst equal
    exact apart (List.mem_append_left _ queued.tail_mem)
  obtain ⟨chainNodup, -, disjoint⟩ := List.nodup_append.mp queued.nodup
  refine {
    linked := ?_
    ends := ⟨chain, rfl⟩
    freeLinked := ?_
    nodup := ?_
    allocated := ?_
    settled := ?_
    blank := ?_
    contents := ?_
    counted := ?_
    room := ?_ }
  · obtain ⟨before, rfl⟩ := queued.ends
    rw [List.append_assoc]
    refine linked_concat queued.linked (fun other member => links ?_) linkTail
      ((links notTail).trans unused.next)
    intro equal
    subst equal
    exact (List.nodup_append.mp chainNodup).2.2 _ member _ (List.mem_singleton_self _) rfl
  · refine linked_congr (fun other member => links ?_) queued.freeLinked
    intro equal
    subst equal
    exact disjoint _ queued.tail_mem _ member rfl
  · rw [List.append_assoc, List.singleton_append, List.nodup_middle]
    exact List.nodup_cons.mpr ⟨apart, queued.nodup⟩
  · intro other member
    rw [List.append_assoc, List.singleton_append] at member
    rcases List.mem_cons.mp (List.perm_middle.mem_iff.mp member) with rfl | old
    · exact allocated
    · exact queued.allocated other old
  · intro other member
    rcases List.mem_append.mp member with old | isNew
    · exact (queued.settled other old).append new
    · rw [List.mem_singleton.mp isNew]
      exact unused.settled.append new
  · rw [slot_append]
    exact queued.blank
  · rw [window_append, List.flatMap_append, List.flatMap_singleton, unused.window,
      List.append_nil]
    exact queued.contents
  · rw [List.length_append, List.length_singleton, Nat.add_right_comm]
    exact counted
  · rw [pushIndex_append]
    exact unused.pushIndex.trans_le (Nat.zero_le _)

/-- When the last chunk is full, `push` appends another one and is back at its loop. -/
theorem Sequential.extend (seq : Sequential m chain free queue)
    (full : chunkSize ≤ m.pushIndex m.tailChunk) (value : Value) :
    ∃ m' chain' free', Solo m (.loadTail value) m' (.loadTail value) ∧
      Sequential m' chain' free' queue ∧ m'.pushIndex m'.tailChunk = 0 := by
  have claim := run_claimPush seq.room value
  rw [if_neg (Nat.not_lt.mpr full)] at claim
  have overshot := seq.overshoot full
  obtain ⟨m', new, free', solo, queued, apart, allocated, unused, counted⟩ :=
    overshot.allocate seq.counted value
  have ends : m'.next m'.tailChunk = none := by
    have linked := queued.linked
    obtain ⟨before, rfl⟩ := queued.ends
    exact next_of_last linked
  have link : (Pc.linkNext value m'.tailChunk new).run m' false =
      some (m'.setNext m'.tailChunk (some new), .storeTail value m'.tailChunk new, none) := by
    simp only [Pc.run, ends]
  have toEnd : Solo m' (.linkNext value m'.tailChunk new) (m'.append new) (.loadTail value) :=
    .cons link (.cons rfl (.refl _ _))
  refine ⟨m'.append new, chain ++ [new], free',
    .cons rfl (.cons claim (solo.trans toEnd)), queued.append apart allocated unused counted, ?_⟩
  rw [pushIndex_append]
  exact unused.pushIndex

/-- **A `push`** returns, with its value behind the others. -/
theorem Sequential.push (seq : Sequential m chain free queue) (value : Value) :
    ∃ m' chain' free', Returns m (.loadTail value) m' (.pushed value) ∧
      Sequential m' chain' free' (queue ++ [value]) := by
  by_cases space : m.pushIndex m.tailChunk < chunkSize
  · exact ⟨_, chain, free, seq.returns_pushed space value, seq.putLast space value⟩
  · obtain ⟨m', chain', free', solo, extended, empty⟩ :=
      seq.extend (Nat.le_of_not_lt space) value
    have space' : m'.pushIndex m'.tailChunk < chunkSize := by
      rw [empty]
      decide
    exact ⟨_, chain', free', solo _ _ (extended.returns_pushed space' value),
      extended.putLast space' value⟩

/-! ## `pop` -/

variable {later : List ChunkPtr}

theorem sameBut_takeFirst : SameBut m m.takeFirst m.headChunk :=
  (((sameBut_setPopIndex ..).trans (sameBut_setActiveReaders ..)).trans (sameBut_setSlot ..)).trans
    (sameBut_setActiveReaders ..)

theorem Memory.Settled.takeFirst (settled : m.Settled m.headChunk)
    (something : m.popIndex m.headChunk < min (m.pushIndex m.headChunk) chunkSize) :
    m.takeFirst.Settled m.headChunk := by
  obtain ⟨unread, retired, small, ordered, occupied⟩ := settled
  refine ⟨?_, ?_, ?_, ?_, fun index inRange => ?_⟩
  · have left : m.takeFirst.activeReaders m.headChunk =
        ((0 + 1) % 2 ^ 64 + (2 ^ 64 - 1)) % 2 ^ 64 := by
      rw [activeReaders_takeFirst, Function.update_self, unread]
    exact left.trans rfl
  · rw [retired_takeFirst]
    exact retired
  · rw [popIndex_takeFirst, Function.update_self]
    omega
  · rw [popIndex_takeFirst, pushIndex_takeFirst, Function.update_self]
    omega
  · have before := occupied index inRange
    rw [popIndex_takeFirst, pushIndex_takeFirst, slot_takeFirst, Function.update_self,
      Function.update_self]
    by_cases is : index = m.popIndex m.headChunk
    · subst is
      rw [Function.update_self]
      exact iff_of_false (by simp) fun both => absurd both.1 (Nat.not_succ_le_self _)
    · rw [Function.update_of_ne is, before]
      omega

/-- A `pop` takes the first of the values. -/
theorem Sequential.takeFirst (seq : Sequential m (m.headChunk :: later) free queue)
    (something : m.popIndex m.headChunk < min (m.pushIndex m.headChunk) chunkSize) :
    ∃ value rest, queue = value :: rest ∧
      Returns m .loadHead m.takeFirst (.popped (some value)) ∧
      Sequential m.takeFirst (m.headChunk :: later) free rest := by
  have member : m.headChunk ∈ m.headChunk :: later := List.mem_cons_self ..
  have head := seq.settled _ member
  have returns := returns_popped something
    ((head.occupied _ (by omega)).mpr ⟨le_rfl, by omega⟩) head.retired
  have apart : m.headChunk ∉ later :=
    (List.nodup_cons.mp (List.nodup_append.mp seq.nodup).1).1
  have contents := seq.contents
  rw [List.flatMap_cons, window_takeFirst something, List.cons_append] at contents
  cases queue with
  | nil => cases contents
  | cons value rest =>
      rw [List.map_cons, List.cons.injEq] at contents
      rw [contents.1] at returns
      refine ⟨value, rest, rfl, returns, {
        seq.write sameBut_takeFirst member (by rw [next_takeFirst]) (head.takeFirst something) ?_
          with counted := seq.counted, room := ?_ }⟩
      · rw [List.flatMap_cons, flatMap_window_takeFirst apart]
        exact contents.2
      · rw [pushIndex_takeFirst]
        exact seq.room

/-- The memory behind a `pop` that leaves the chunk at the head behind. -/
def Memory.leave (m : Memory Value) (next : ChunkPtr) : Memory Value :=
  ({ m with headChunk := next } : Memory Value).release m.headChunk

/-- A chunk with nothing left goes to the free list. -/
theorem Sequential.leave (seq : Sequential m (m.headChunk :: later) free queue) {next : ChunkPtr}
    (link : m.next m.headChunk = some next)
    (nothing : min (m.pushIndex m.headChunk) chunkSize ≤ m.popIndex m.headChunk) :
    Sequential (m.leave next) later (m.headChunk :: free) queue := by
  have head := seq.settled _ (List.mem_cons_self ..)
  have apart := (List.nodup_cons.mp (List.cons_append .. ▸ seq.nodup)).1
  have same : ∀ {chunk : ChunkPtr}, chunk ∈ later ++ free →
      (m.leave next).chunks chunk = m.chunks chunk := by
    intro chunk member
    have away : chunk ≠ m.headChunk := by
      intro equal
      subst equal
      exact apart member
    simp only [Memory.leave, Memory.release, Memory.setNext, Memory.setRetired, Memory.setChunk,
      Function.update_of_ne away]
  have inChain : ∀ {chunk : ChunkPtr}, chunk ∈ later →
      (m.leave next).chunks chunk = m.chunks chunk := fun member =>
    same (List.mem_append_left _ member)
  have inFree : ∀ {chunk : ChunkPtr}, chunk ∈ free →
      (m.leave next).chunks chunk = m.chunks chunk := fun member =>
    same (List.mem_append_right _ member)
  have ends : ∃ before, later = before ++ [m.tailChunk] := by
    obtain ⟨before, split⟩ := seq.ends
    cases before with
    | nil =>
        have linked := seq.linked.2
        rw [List.nil_append, List.cons.injEq] at split
        rw [link, split.2] at linked
        cases linked
    | cons node rest =>
        rw [List.cons_append, List.cons.injEq] at split
        exact ⟨rest, split.2⟩
  have tail : m.tailChunk ∈ later := by
    obtain ⟨before, rfl⟩ := ends
    exact List.mem_append_right _ (List.mem_singleton_self _)
  refine {
    linked := ?_
    ends := ends
    freeLinked := ⟨rfl, ?_⟩
    nodup := ?_
    allocated := ?_
    settled := fun chunk member =>
      (seq.settled chunk (List.mem_cons_of_mem _ member)).congr (inChain member)
    blank := ?_
    contents := ?_
    counted := ?_
    room := ?_ }
  · have linked := seq.linked.2
    rw [link] at linked
    exact linked_congr (fun chunk member => congrArg Chunk.next (inChain member)) linked
  · have back : (m.leave next).next m.headChunk = m.freeList := by
      simp [Memory.leave, Memory.release, Memory.next, Memory.setNext, Memory.setChunk]
    rw [back]
    exact linked_congr (fun chunk member => congrArg Chunk.next (inFree member)) seq.freeLinked
  · exact List.nodup_middle.mpr seq.nodup
  · intro chunk member
    exact seq.allocated chunk (List.perm_middle.mem_iff.mp member)
  · intro chunk member index small
    rcases List.mem_cons.mp member with rfl | old
    · have empty : (m.slot m.headChunk index).isSome = false := by
        have occupied := head.occupied index small
        rw [← Bool.not_eq_true, occupied]
        omega
      have slot : (m.leave next).slot = m.slot :=
        (Memory.slot_setNext ..).trans
          ((Memory.slot_setRetired ..).trans (Memory.slot_setRetired ..))
      rw [slot]
      exact Option.not_isSome_iff_eq_none.mp (Bool.eq_false_iff.mp empty)
    · exact (congrFun (congrArg Chunk.slots (inFree old)) index).trans
        (seq.blank chunk old index small)
  · have contents := seq.contents
    rw [List.flatMap_cons, window_eq_nil nothing, List.nil_append] at contents
    rw [← contents]
    exact List.flatMap_congr fun chunk member => window_congr (inChain member)
  · change m.chunkCount = _
    rw [seq.counted, List.length_cons, List.length_cons]
    omega
  · have pushIndex : (m.leave next).pushIndex m.tailChunk = m.pushIndex m.tailChunk :=
      congrArg Chunk.pushIndex (inChain tail)
    exact pushIndex.trans_le seq.room

/-- **A `pop`** returns what a FIFO queue returns. -/
theorem Sequential.pop (seq : Sequential m chain free queue) :
    ∃ m' chain' free', Returns m .loadHead m' (fifo queue .pop).1 ∧
      Sequential m' chain' free' (fifo queue .pop).2 := by
  induction chain generalizing m free with
  | nil => cases seq.linked
  | cons node later ih =>
      obtain rfl : m.headChunk = node := Option.some.inj seq.linked.1
      have head := seq.settled _ (List.mem_cons_self ..)
      by_cases something : m.popIndex m.headChunk < min (m.pushIndex m.headChunk) chunkSize
      · obtain ⟨value, rest, rfl, returns, behind⟩ := seq.takeFirst something
        exact ⟨_, _, _, returns, behind⟩
      · have nothing := Nat.le_of_not_lt something
        cases link : m.next m.headChunk with
        | some next =>
            obtain ⟨m', chain', free', returns, behind⟩ := ih (seq.leave link nothing)
            have solo := (solo_moveHead link nothing).trans (solo_release head.unread)
            exact ⟨m', chain', free', solo _ _ returns, behind⟩
        | none =>
            have linked := seq.linked.2
            have contents := seq.contents
            rw [link] at linked
            cases later with
            | cons => cases linked.1
            | nil =>
                rw [List.flatMap_singleton, window_eq_nil nothing] at contents
                obtain rfl : queue = [] := List.map_eq_nil_iff.mp contents.symm
                exact ⟨m, [m.headChunk], free, returns_empty link nothing, seq⟩

/-! ## Both -/

/-- **One call** returns what it returns on a FIFO queue, and leaves what it leaves there. -/
theorem Sequential.call (seq : Sequential m chain free queue) (call : Call Value) :
    ∃ m' chain' free', Returns m call.start m' (fifo queue call).1 ∧
      Sequential m' chain' free' (fifo queue call).2 := by
  cases call with
  | push value => exact seq.push value
  | pop => exact seq.pop

end Drpc.Util.MPMCQueue
