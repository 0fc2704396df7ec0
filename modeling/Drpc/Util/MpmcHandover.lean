import Drpc.Util.MpmcChunks

/-! # How chunks change hands

`allocate_chunk` takes a chunk from the free list or a new one, `push` links it behind
the last one and moves `tail_chunk` on, `pop` moves `head_chunk` on, and `release_chunk`
puts a chunk on the free list. Each of these steps gives one chunk another part and keeps
what the other threads rely on.
-/

namespace Drpc.Util.MPMCQueue

open Chain

variable {Thread Value : Type} {m m' : Memory Value} {role role' : ChunkPtr → Role Thread}
  {chain freeChain : List ChunkPtr} {thread : Thread} {others : ChunkPtr → Prop} {chunk : ChunkPtr}

theorem Chunks.last_unique (chunks : Chunks m role chain freeChain) {first second : ChunkPtr}
    (firstLive : role first = .live) (firstEnds : m.next first = none)
    (secondLive : role second = .live) (secondEnds : m.next second = none) : first = second :=
  linked_end_unique chunks.linked ((chunks.live first).mp firstLive) firstEnds
    ((chunks.live second).mp secondLive) secondEnds

/-- A chunk in use that ends the chain is in it. -/
theorem Chunks.live_of_end (chunks : Chunks m role chain freeChain) (inUse : (role chunk).InUse)
    (ends : m.next chunk = none) : role chunk = .live := by
  rcases inUse with live | left
  · exact live
  · exact absurd ends (chunks.left chunk left).2

/-- A part that neither the old nor the new role of the chunk is stays with whom it was. -/
theorem update_role_iff {old new part : Role Thread} (was : role chunk = old)
    (oldDiffers : old ≠ part) (newDiffers : new ≠ part) (other : ChunkPtr) :
    Function.update role chunk new other = part ↔ role other = part := by
  by_cases same : other = chunk
  · subst same
    rw [Function.update_self, was]
    exact ⟨fun is => absurd is newDiffers, fun is => absurd is oldDiffers⟩
  · rw [Function.update_of_ne same]

theorem Keeps.of_eq {other : ChunkPtr} (sameRole : role' other = role other)
    (sameChunk : m'.chunks other = m.chunks other) (tail : m'.tailChunk = m.tailChunk) :
    Keeps m role m' role' thread other where
  inUse inUse := sameRole ▸ inUse
  left left := sameRole ▸ left
  pushIndex _ := (congrArg Chunk.pushIndex sameChunk).ge
  popIndex _ := (congrArg Chunk.popIndex sameChunk).ge
  next _ _ link := (congrArg Chunk.next sameChunk).trans link
  owned _ _ owned :=
    ⟨sameRole.trans owned, congrArg Chunk.pushIndex sameChunk, congrArg Chunk.popIndex sameChunk,
      congrArg Chunk.next sameChunk, congrArg Chunk.retired sameChunk⟩
  free free := ⟨sameRole ▸ free, congrArg Chunk.next sameChunk⟩
  tail _ _ is := tail.trans is

/-- `allocate_chunk` takes the first chunk of the free list. -/
theorem Chunks.take (thread : Thread) (others : ChunkPtr → Prop)
    (chunks : Chunks m role chain freeChain) {next : Option ChunkPtr}
    (first : m.freeList = some chunk) (link : role chunk = .free → m.next chunk = next) :
    (∃ rest, Chunks { m with freeList := next } (Function.update role chunk (.owned thread)) chain
      rest) ∧
    Guarantee m role { m with freeList := next } (Function.update role chunk (.owned thread)) thread
      others := by
  obtain ⟨rest, rfl, -⟩ := linked_some (first ▸ chunks.freeLinked)
  have free : role chunk = .free := (chunks.free chunk).mpr (List.mem_cons_self ..)
  have notInRest : chunk ∉ rest := (List.nodup_cons.mp chunks.freeNodup).1
  have parts := fun (part : Role Thread) (oldDiffers : Role.free ≠ part)
    (newDiffers : Role.owned thread ≠ part) => update_role_iff free oldDiffers newDiffers
  have inUse : ∀ other, (Function.update role chunk (.owned thread) other).InUse ↔
      (role other).InUse := fun other => or_congr (parts .live nofun nofun other)
        (parts .left nofun nofun other)
  constructor
  · refine ⟨rest, { chunks with
      freeLinked := ?_, live := ?_, free := ?_, freeNodup := ?_, fresh := ?_, tailInUse := ?_
      tail := ?_, left := ?_, retired := ?_ }⟩
    · exact link free ▸ chunks.freeLinked.2
    · exact fun other => (parts .live nofun nofun other).trans (chunks.live other)
    · intro other
      by_cases same : other = chunk
      · subst same
        rw [Function.update_self]
        exact ⟨nofun, fun member => absurd member notInRest⟩
      · rw [Function.update_of_ne same, chunks.free, List.mem_cons, or_iff_right same]
    · exact (List.nodup_cons.mp chunks.freeNodup).2
    · exact fun other => (parts .unallocated nofun nofun other).trans (chunks.fresh other)
    · exact (inUse _).mpr chunks.tailInUse
    · obtain ⟨last, live, ends, near⟩ := chunks.tail
      exact ⟨last, (parts .live nofun nofun last).mpr live, ends, near⟩
    · exact fun other left => chunks.left other ((parts .left nofun nofun other).mp left)
    · exact fun other live => chunks.retired other ((parts .live nofun nofun other).mp live)
  · refine {
      keeps := fun other _ => ?_
      enters := fun other now before => absurd ((inUse other).mp now) before
      leaves := fun other before now => absurd ((inUse other).mpr before) now }
    by_cases same : other = chunk
    · subst same
      exact .of_notInUse (free ▸ Role.not_inUse_free) (fun _ _ => by rw [free]; nofun)
        (by rw [Function.update_self]; nofun)
    · exact .of_eq (Function.update_of_ne same ..) rfl rfl

/-- `allocate_chunk` gets a new chunk. -/
theorem Chunks.allocate (thread : Thread) (others : ChunkPtr → Prop)
    (chunks : Chunks m role chain freeChain) (m' : Memory Value)
    (next : ∀ other ≠ m.fresh, m'.chunks other = m.chunks other)
    (headChunk : m'.headChunk = m.headChunk)
    (tailChunk : m'.tailChunk = m.tailChunk) (freeList : m'.freeList = m.freeList)
    (fresh : m'.fresh = m.fresh + 1) :
    Chunks m' (Function.update role m.fresh (.owned thread)) chain freeChain ∧
    Guarantee m role m' (Function.update role m.fresh (.owned thread)) thread others := by
  have blank : role m.fresh = .unallocated := (chunks.fresh _).mpr le_rfl
  have parts := fun (part : Role Thread) (oldDiffers : Role.unallocated ≠ part)
    (newDiffers : Role.owned thread ≠ part) => update_role_iff blank oldDiffers newDiffers
  have inUse : ∀ other, (Function.update role m.fresh (.owned thread) other).InUse ↔
      (role other).InUse := fun other => or_congr (parts .live nofun nofun other)
        (parts .left nofun nofun other)
  have differs : ∀ {part : Role Thread} {other : ChunkPtr}, role other = part →
      part ≠ .unallocated → other ≠ m.fresh := by
    rintro part other plays notBlank rfl
    exact notBlank (plays.symm.trans blank)
  have links : ∀ {part : Role Thread} {other : ChunkPtr}, role other = part →
      part ≠ .unallocated → m'.next other = m.next other := fun plays notBlank =>
    congrArg Chunk.next (next _ (differs plays notBlank))
  have tailLink : m'.next m.tailChunk = m.next m.tailChunk := by
    rcases chunks.tailInUse with live | left
    · exact links live nofun
    · exact links left nofun
  constructor
  · refine {
      linked := ?_, freeLinked := ?_, live := ?_, free := ?_, chainNodup := chunks.chainNodup
      freeNodup := chunks.freeNodup, fresh := ?_, tailInUse := ?_, tail := ?_, left := ?_
      retired := ?_ }
    · rw [headChunk]
      exact linked_congr (fun other member =>
        links ((chunks.live other).mpr member) nofun) chunks.linked
    · rw [freeList]
      exact linked_congr (fun other member =>
        links ((chunks.free other).mpr member) nofun) chunks.freeLinked
    · exact fun other => (parts .live nofun nofun other).trans (chunks.live other)
    · exact fun other => (parts .free nofun nofun other).trans (chunks.free other)
    · intro other
      rw [fresh]
      by_cases same : other = m.fresh
      · subst same
        rw [Function.update_self]
        exact ⟨nofun, fun less => absurd less (Nat.not_succ_le_self _)⟩
      · rw [Function.update_of_ne same, chunks.fresh]
        exact ⟨fun atMost => Nat.lt_of_le_of_ne atMost (Ne.symm same), Nat.le_of_lt⟩
    · rw [tailChunk]
      exact (inUse _).mpr chunks.tailInUse
    · obtain ⟨last, live, ends, near⟩ := chunks.tail
      rw [tailChunk, tailLink]
      exact ⟨last, (parts .live nofun nofun last).mpr live, (links live nofun).trans ends, near⟩
    · intro other left
      have was := (parts .left nofun nofun other).mp left
      rw [links was nofun]
      refine ⟨(chunks.left other was).1.trans_eq ?_, (chunks.left other was).2⟩
      exact (congrArg Chunk.popIndex (next _ (differs was nofun))).symm
    · intro other live
      have was := (parts .live nofun nofun other).mp live
      exact (congrArg Chunk.retired (next _ (differs was nofun))).trans (chunks.retired other was)
  · refine {
      keeps := fun other _ => ?_
      enters := fun other now before => absurd ((inUse other).mp now) before
      leaves := fun other before now => absurd ((inUse other).mpr before) now }
    by_cases same : other = m.fresh
    · subst same
      exact .of_notInUse (blank ▸ Role.not_inUse_unallocated) (fun _ _ => by rw [blank]; nofun)
        (by rw [Function.update_self]; nofun)
    · exact .of_eq (Function.update_of_ne same ..) (next other same) tailChunk

/-- `push` links its new chunk behind the last one. -/
theorem Chunks.link (chunks : Chunks m role chain freeChain) {tail new : ChunkPtr}
    (was : WasTail m role tail) (ends : m.next tail = none) (owned : role new = .owned thread)
    (push : m.pushIndex new = 0) (pop : m.popIndex new = 0) (next : m.next new = none)
    (retired : m.retired new = false) :
    (∃ longer, Chunks (m.setNext tail (some new)) (Function.update role new .live) longer
      freeChain) ∧
    Guarantee m role (m.setNext tail (some new)) (Function.update role new .live) thread
      others := by
  have live : role tail = .live := chunks.live_of_end was.1 ends
  have differs : tail ≠ new := by
    intro equal
    subst equal
    rw [live] at owned
    cases owned
  have notInChain : new ∉ chain := by
    intro member
    rw [(chunks.live new).mpr member] at owned
    cases owned
  obtain ⟨nodes, rfl⟩ : ∃ nodes, chain = nodes ++ [tail] := by
    obtain ⟨nodes, last, rfl⟩ : ∃ nodes last, chain = nodes ++ [last] :=
      (List.eq_nil_or_concat' chain).resolve_left fun none_ => by
        have member := (chunks.live tail).mp live
        simp [none_] at member
    have lastLive : role last = .live := (chunks.live last).mpr (by simp)
    exact ⟨nodes, by
      rw [chunks.last_unique live ends lastLive (next_of_last chunks.linked)]⟩
  have nodup := List.nodup_append.mp chunks.chainNodup
  have links : ∀ {other : ChunkPtr}, other ≠ tail →
      (m.setNext tail (some new)).next other = m.next other := fun away => by
    rw [Memory.next_setNext, Function.update_of_ne away]
  have linkTail : (m.setNext tail (some new)).next tail = some new := by
    rw [Memory.next_setNext, Function.update_self]
  have parts := fun (part : Role Thread) (oldDiffers : Role.owned thread ≠ part)
    (newDiffers : Role.live ≠ part) => update_role_iff owned oldDiffers newDiffers
  have liveOf : ∀ other, Function.update role new .live other = .live ↔
      other = new ∨ role other = .live := by
    intro other
    by_cases same : other = new
    · simp [same]
    · simp [same]
  constructor
  · refine ⟨nodes ++ [tail, new], {
      linked := ?_, freeLinked := ?_, live := ?_, free := ?_, chainNodup := ?_
      freeNodup := chunks.freeNodup, fresh := ?_, tailInUse := ?_, tail := ?_, left := ?_
      retired := ?_ }⟩
    · refine linked_concat chunks.linked (fun other member => links ?_) linkTail
        ((links differs.symm).trans next)
      intro equal
      subst equal
      exact nodup.2.2 other member other (List.mem_singleton_self _) rfl
    · refine linked_congr (fun other member => links ?_) chunks.freeLinked
      intro equal
      subst equal
      have free := (chunks.free other).mpr member
      rw [live] at free
      cases free
    · intro other
      rw [liveOf, chunks.live]
      simp only [List.mem_append, List.mem_cons, List.not_mem_nil, or_false]
      tauto
    · exact fun other => (parts .free nofun nofun other).trans (chunks.free other)
    · have longer : nodes ++ [tail, new] = (nodes ++ [tail]) ++ [new] := by simp
      rw [longer, List.nodup_append]
      refine ⟨chunks.chainNodup, List.nodup_singleton _, ?_⟩
      rintro other member _ single rfl
      exact notInChain (List.mem_singleton.mp single ▸ member)
    · exact fun other => (parts .unallocated nofun nofun other).trans (chunks.fresh other)
    · rcases chunks.tailInUse with tailLive | tailLeft
      · exact .inl ((liveOf _).mpr (.inr tailLive))
      · exact .inr ((parts .left nofun nofun _).mpr tailLeft)
    · refine ⟨new, (liveOf new).mpr (.inl rfl), (links differs.symm).trans next, .inr ?_⟩
      change (m.setNext tail (some new)).next m.tailChunk = some new
      rw [was.2 ends, linkTail]
    · intro other left
      have before := (parts .left nofun nofun other).mp left
      have away : other ≠ tail := by
        intro equal
        subst equal
        rw [live] at before
        cases before
      rw [Memory.popIndex_setNext, links away]
      exact chunks.left other before
    · intro other plays
      rw [Memory.retired_setNext]
      rcases (liveOf other).mp plays with rfl | before
      · exact retired
      · exact chunks.retired other before
  · refine { keeps := fun other _ => ?_, enters := fun other now before => ?_
             leaves := fun other before now => ?_ }
    · by_cases isNew : other = new
      · subst isNew
        exact .of_notInUse (owned ▸ Role.not_inUse_owned)
          (fun who away plays => away (Role.owned.inj (plays.symm.trans owned)))
          (by rw [Function.update_self]; nofun)
      · have sameRole : Function.update role new .live other = role other :=
          Function.update_of_ne isNew ..
        by_cases isTail : other = tail
        · subst isTail
          exact {
            inUse := fun _ => sameRole ▸ .inl live
            left := fun left => by rw [live] at left; cases left
            pushIndex := fun _ => (congrFun (Memory.pushIndex_setNext ..) other).ge
            popIndex := fun _ => (congrFun (Memory.popIndex_setNext ..) other).ge
            next := fun _ _ link => by rw [ends] at link; cases link
            owned := fun _ _ plays => by rw [live] at plays; cases plays
            free := fun free => by rw [sameRole, live] at free; cases free
            tail := fun _ stillEnds => by rw [linkTail] at stillEnds; cases stillEnds }
        · exact .of_eq sameRole (Function.update_of_ne isTail ..) rfl
    · have isNew : other = new := by
        by_contra away
        rw [Function.update_of_ne away] at now
        exact before now
      subst isNew
      rw [Memory.pushIndex_setNext, Memory.popIndex_setNext]
      exact ⟨push, pop⟩
    · by_cases isNew : other = new
      · subst isNew
        exact absurd (owned ▸ before) Role.not_inUse_owned
      · rw [Function.update_of_ne isNew] at now
        exact absurd before now

/-- `tail_chunk` moves on to the chunk linked behind it. -/
theorem Chunks.moveTail (thread : Thread) (others : ChunkPtr → Prop)
    (chunks : Chunks m role chain freeChain) {tail expected : ChunkPtr}
    (link : m.next tail = some expected) (named : m.tailChunk = tail) :
    Chunks { m with tailChunk := expected } role chain freeChain ∧
    Guarantee m role { m with tailChunk := expected } role thread others := by
  obtain ⟨last, live, ends, near⟩ := chunks.tail
  have isLast : expected = last := by
    rcases near with is | isNext
    · rw [← is, named, link] at ends
      cases ends
    · rw [named, link, Option.some.injEq] at isNext
      exact isNext
  subst isLast
  constructor
  · exact { chunks with
      tailInUse := .inl live
      tail := ⟨expected, live, ends, .inl rfl⟩ }
  · refine .of_keeps fun other _ => { Keeps.refl other with tail := fun _ stillEnds is => ?_ }
    have was : m.next tail = none := by
      rw [← named, is]
      exact stillEnds
    rw [link] at was
    cases was

/-- `pop` moves `head_chunk` past a consumed chunk. -/
theorem Chunks.moveHead (thread : Thread) (others : ChunkPtr → Prop)
    (chunks : Chunks m role chain freeChain) {next : ChunkPtr}
    (consumed : chunkSize ≤ m.popIndex m.headChunk) (link : m.next m.headChunk = some next) :
    (∃ rest, Chunks { m with headChunk := next } (Function.update role m.headChunk .left) rest
      freeChain) ∧
    Guarantee m role { m with headChunk := next } (Function.update role m.headChunk .left) thread
      others := by
  obtain ⟨rest, rfl, -⟩ := linked_some chunks.linked
  have live : role m.headChunk = .live := (chunks.live _).mpr (List.mem_cons_self ..)
  have nodup := List.nodup_cons.mp chunks.chainNodup
  have parts := fun (part : Role Thread) (oldDiffers : Role.live ≠ part)
    (newDiffers : Role.left ≠ part) => update_role_iff live oldDiffers newDiffers
  have inUse : ∀ other, (Function.update role m.headChunk .left other).InUse ↔
      (role other).InUse := by
    intro other
    by_cases same : other = m.headChunk
    · rw [same, Function.update_self, live]
      exact iff_of_true (.inr rfl) (.inl rfl)
    · rw [Function.update_of_ne same]
  constructor
  · refine ⟨rest, { chunks with
      linked := ?_, live := ?_, free := ?_, chainNodup := nodup.2, fresh := ?_, tailInUse := ?_
      tail := ?_, left := ?_, retired := ?_ }⟩
    · exact link ▸ chunks.linked.2
    · intro other
      by_cases same : other = m.headChunk
      · rw [same, Function.update_self]
        exact ⟨nofun, fun member => absurd member nodup.1⟩
      · rw [Function.update_of_ne same, chunks.live, List.mem_cons, or_iff_right same]
    · exact fun other => (parts .free nofun nofun other).trans (chunks.free other)
    · exact fun other => (parts .unallocated nofun nofun other).trans (chunks.fresh other)
    · exact (inUse _).mpr chunks.tailInUse
    · obtain ⟨last, lastLive, ends, near⟩ := chunks.tail
      refine ⟨last, ?_, ends, near⟩
      rw [Function.update_of_ne, lastLive]
      intro equal
      subst equal
      rw [link] at ends
      cases ends
    · intro other left
      by_cases same : other = m.headChunk
      · rw [same]
        exact ⟨consumed, fun ends => nomatch link.symm.trans ends⟩
      · rw [Function.update_of_ne same] at left
        exact chunks.left other left
    · intro other plays
      by_cases same : other = m.headChunk
      · rw [same, Function.update_self] at plays
        cases plays
      · rw [Function.update_of_ne same] at plays
        exact chunks.retired other plays
  · refine {
      keeps := fun other _ => ?_
      enters := fun other now before => absurd ((inUse other).mp now) before
      leaves := fun other before now => absurd ((inUse other).mpr before) now }
    by_cases same : other = m.headChunk
    · subst same
      exact {
        inUse := (inUse _).mpr
        left := fun left => by rw [live] at left; cases left
        pushIndex := fun _ => le_rfl
        popIndex := fun _ => le_rfl
        next := fun _ _ => id
        owned := fun _ _ owned => by rw [live] at owned; cases owned
        free := fun free => by rw [Function.update_self] at free; cases free
        tail := fun _ _ => id }
    · exact .of_eq (Function.update_of_ne same ..) rfl rfl

/-- A chunk that `head_chunk` has left behind comes into the hands of the thread that
releases it. -/
theorem Chunks.release (thread : Thread) (others : ChunkPtr → Prop)
    (chunks : Chunks m role chain freeChain) (left : role chunk = .left)
    (movedOn : m.tailChunk ≠ chunk) (alone : ¬ others chunk) :
    Chunks m (Function.update role chunk (.owned thread)) chain freeChain ∧
    Guarantee m role m (Function.update role chunk (.owned thread)) thread others := by
  have parts := fun (part : Role Thread) (oldDiffers : Role.left ≠ part)
    (newDiffers : Role.owned thread ≠ part) => update_role_iff left oldDiffers newDiffers
  constructor
  · refine { chunks with
      live := ?_, free := ?_, fresh := ?_, tailInUse := ?_, tail := ?_, left := ?_, retired := ?_ }
    · exact fun other => (parts .live nofun nofun other).trans (chunks.live other)
    · exact fun other => (parts .free nofun nofun other).trans (chunks.free other)
    · exact fun other => (parts .unallocated nofun nofun other).trans (chunks.fresh other)
    · rw [Function.update_of_ne movedOn]
      exact chunks.tailInUse
    · obtain ⟨last, live, ends, near⟩ := chunks.tail
      exact ⟨last, (parts .live nofun nofun last).mpr live, ends, near⟩
    · intro other plays
      by_cases same : other = chunk
      · rw [same, Function.update_self] at plays
        cases plays
      · rw [Function.update_of_ne same] at plays
        exact chunks.left other plays
    · exact fun other live => chunks.retired other ((parts .live nofun nofun other).mp live)
  · refine { keeps := fun other held => ?_, enters := fun other now before => ?_
             leaves := fun other before now => ?_ }
    · have away : other ≠ chunk := by
        intro equal
        subst equal
        exact alone held
      exact .of_eq (Function.update_of_ne away ..) rfl rfl
    · by_cases same : other = chunk
      · rw [same, Function.update_self] at now
        exact absurd now Role.not_inUse_owned
      · rw [Function.update_of_ne same] at now
        exact absurd now before
    · by_cases same : other = chunk
      · subst same
        exact ⟨(chunks.left other left).1, alone⟩
      · rw [Function.update_of_ne same] at now
        exact absurd before now

/-- `release_chunk` puts a chunk on the free list. -/
theorem Chunks.pushFree (thread : Thread) (others : ChunkPtr → Prop)
    (chunks : Chunks m role chain freeChain) (owned : role chunk = .owned thread)
    (link : m.next chunk = m.freeList) (alone : ¬ others chunk) :
    (∃ longer, Chunks { m with freeList := some chunk } (Function.update role chunk .free) chain
      longer) ∧
    Guarantee m role { m with freeList := some chunk } (Function.update role chunk .free) thread
      others := by
  have notFree : chunk ∉ freeChain := by
    intro member
    rw [(chunks.free chunk).mpr member] at owned
    cases owned
  have parts := fun (part : Role Thread) (oldDiffers : Role.owned thread ≠ part)
    (newDiffers : Role.free ≠ part) => update_role_iff owned oldDiffers newDiffers
  have inUse : ∀ other, (Function.update role chunk .free other).InUse ↔
      (role other).InUse := fun other => or_congr (parts .live nofun nofun other)
        (parts .left nofun nofun other)
  constructor
  · refine ⟨chunk :: freeChain, { chunks with
      freeLinked := ?_, live := ?_, free := ?_, freeNodup := ?_, fresh := ?_, tailInUse := ?_
      tail := ?_, left := ?_, retired := ?_ }⟩
    · exact ⟨rfl, link.symm ▸ chunks.freeLinked⟩
    · exact fun other => (parts .live nofun nofun other).trans (chunks.live other)
    · intro other
      by_cases same : other = chunk
      · simp [same]
      · rw [Function.update_of_ne same, chunks.free, List.mem_cons, or_iff_right same]
    · exact List.nodup_cons.mpr ⟨notFree, chunks.freeNodup⟩
    · exact fun other => (parts .unallocated nofun nofun other).trans (chunks.fresh other)
    · exact (inUse _).mpr chunks.tailInUse
    · obtain ⟨last, live, ends, near⟩ := chunks.tail
      exact ⟨last, (parts .live nofun nofun last).mpr live, ends, near⟩
    · exact fun other left => chunks.left other ((parts .left nofun nofun other).mp left)
    · exact fun other live => chunks.retired other ((parts .live nofun nofun other).mp live)
  · refine {
      keeps := fun other held => ?_
      enters := fun other now before => absurd ((inUse other).mp now) before
      leaves := fun other before now => absurd ((inUse other).mpr before) now }
    have away : other ≠ chunk := by
      intro equal
      subst equal
      exact alone held
    exact .of_eq (Function.update_of_ne away ..) rfl rfl

end Drpc.Util.MPMCQueue
