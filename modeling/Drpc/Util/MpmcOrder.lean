import Drpc.Util.MpmcDestructor

/-! # The order of the slots of the task queue

In a run whose steps are careful, a chunk of the chain is full when another one is linked
behind it, and the chunk a popper has found at the head stays there until it is left behind
(`Ordered`). So the slots that pushers have claimed and poppers have not are a queue: a
pusher that claims one adds it at the end, a popper that claims one takes the first, and
every other operation leaves them as they are (`pending_run`).
-/

namespace Drpc.Util.MPMCQueue

open Chain

variable {Thread Value : Type}

/-- The chunk that `push` has found full. -/
def Pc.filled : Pc Value → Option ChunkPtr
  | .loadFree _ tail | .loadFreeNext _ tail _ | .takeFree _ tail _ _ | .resetPush _ tail _
  | .resetPop _ tail _ | .resetNext _ tail _ | .resetReaders _ tail _ | .resetRetired _ tail _
  | .newChunk _ tail | .linkNext _ tail _ => some tail
  | _ => none

/-- The chunk that `pop` has found at the head. -/
def Pc.headed : Pc Value → Option ChunkPtr
  | .loadPopIndex head | .loadPushIndex head _ | .loadNextConsumed head | .moveHeadConsumed head _
  | .loadNextEmpty head | .moveHeadEmpty head _ | .claimPop head _ => some head
  | _ => none

/-- Chunks are filled before others are linked behind them, and left in the order of the
chain. -/
structure Ordered (m : Memory Value) (pc : Thread → Pc Value) (chain : List ChunkPtr) : Prop where
  full : ∀ chunk ∈ chain, m.next chunk ≠ none → chunkSize ≤ m.pushIndex chunk
  filled : ∀ thread tail, (pc thread).filled = some tail → chunkSize ≤ m.pushIndex tail
  headed : ∀ thread head, (pc thread).headed = some head → head ∈ chain → m.headChunk = head

variable {m m' : Memory Value} {role role' : ChunkPtr → Role Thread} {pc : Thread → Pc Value}
  {thread : Thread} {chain freeChain chain' freeChain' : List ChunkPtr} {now next : Pc Value}

theorem ordered_init :
    Ordered (Memory.init : Memory Value) (fun _ : Thread => Pc.idle) [0] where
  full chunk _ linked := (linked rfl).elim
  filled thread tail found := by cases found
  headed thread head found := by cases found

/-- A chunk that `push` has found full is in use. -/
theorem Pc.filled_inUse {tail : ChunkPtr} (found : now.filled = some tail)
    (loc : now.Local m role thread) : (role tail).InUse ∧ tail ∈ now.holds := by
  cases now with
  | loadFree | loadFreeNext | newChunk =>
      cases found
      exact ⟨loc.1, List.mem_cons_self ..⟩
  | takeFree | resetPush | resetPop | resetNext | resetReaders | resetRetired | linkNext =>
      cases found
      exact ⟨loc.1.1, List.mem_cons_self ..⟩
  | _ => cases found

/-- A chunk that `pop` has found at the head is in use. -/
theorem Pc.headed_inUse {head : ChunkPtr} (found : now.headed = some head)
    (loc : now.Local m role thread) : (role head).InUse ∧ head ∈ now.holds := by
  cases now with
  | loadPopIndex | loadNextEmpty =>
      cases found
      exact ⟨loc, List.mem_cons_self ..⟩
  | loadPushIndex | loadNextConsumed | moveHeadConsumed | moveHeadEmpty | claimPop =>
      cases found
      exact ⟨loc.1, List.mem_cons_self ..⟩
  | _ => cases found

/-! ## What one operation does to the counters -/

/-- How the counters of the chunks in use change. -/
inductive Counts (m m' : Memory Value) (role : ChunkPtr → Role Thread) (now next : Pc Value) :
    Prop where
  | same (push : ∀ chunk, (role chunk).InUse → m'.pushIndex chunk = m.pushIndex chunk)
      (pop : ∀ chunk, (role chunk).InUse → m'.popIndex chunk = m.popIndex chunk)
  | push {value : Value} {tail : ChunkPtr} (before : now = .claimPush value tail)
      (written : m' = m.setPushIndex tail (m.pushIndex tail + 1))
      (behind : next = if m.pushIndex tail < chunkSize then
        .checkSlot value tail (m.pushIndex tail) else .loadFree value tail)
  | pop {head : ChunkPtr} {index : Nat} (before : now = .claimPop head index)
      (current : m.popIndex head = index) (written : m' = m.setPopIndex head (index + 1))
      (behind : next = .enter head index)

/-- A chunk in hand is not in use. -/
theorem Role.ne_of_owned {chunk held : ChunkPtr} (inUse : (role chunk).InUse)
    (owned : role held = .owned thread) : chunk ≠ held := by
  intro same
  subst same
  exact Role.not_inUse_owned (owned ▸ inUse)

/-- **One atomic operation** claims a slot or leaves the counters of the chunks in use alone. -/
theorem counts_run {others : ChunkPtr → Prop} {spurious : Bool} {event : Option (Event Value)}
    (chunks : Chunks m role chain freeChain) (loc : now.Local m role thread)
    (careful : now.Careful m others)
    (taken : now.run m spurious = some (m', next, event)) : Counts m m' role now next := by
  cases now with
  | idle => cases taken
  | claimPush value tail =>
      have fits : (m.pushIndex tail + 1) % 2 ^ 64 = m.pushIndex tail + 1 := Nat.mod_eq_of_lt careful
      simp only [Pc.run, fits] at taken
      cases taken
      exact .push rfl rfl rfl
  | claimPop head index =>
      simp only [Pc.run] at taken
      split at taken
      · rename_i first
        cases taken
        exact .pop rfl first.2 rfl rfl
      · cases taken
        exact .same (fun _ _ => rfl) fun _ _ => rfl
  | checkSlot | waitSlot =>
      cases taken
      exact .same (fun _ _ => rfl) fun _ _ => rfl
  | construct | enter | takeSlot | leave | resetReaders =>
      cases taken
      exact .same (by simp) (by simp)
  | resetPush value tail held =>
      cases taken
      refine .same (fun chunk inUse => ?_) (by simp)
      rw [Memory.pushIndex_setPushIndex, Function.update_of_ne (Role.ne_of_owned inUse loc.2)]
  | resetPop value tail held =>
      cases taken
      refine .same (by simp) fun chunk inUse => ?_
      rw [Memory.popIndex_setPopIndex, Function.update_of_ne (Role.ne_of_owned inUse loc.2.1)]
  | newChunk value tail =>
      cases taken
      have old : ∀ chunk, (role chunk).InUse →
          (Function.update m.chunks m.fresh .new) chunk = m.chunks chunk := by
        intro chunk inUse
        apply Function.update_of_ne
        rintro rfl
        exact Role.not_inUse_unallocated ((chunks.fresh m.fresh).mpr le_rfl ▸ inUse)
      exact .same (fun chunk inUse => congrArg Chunk.pushIndex (old chunk inUse))
        fun chunk inUse => congrArg Chunk.popIndex (old chunk inUse)
  | _ =>
      have links := Pc.links_run rfl taken
      refine .same (fun chunk _ => ?_) fun chunk _ => ?_
      · rw [links.pushIndex]
      · rw [links.popIndex]

/-- `push_index` does not decrease. -/
theorem Counts.pushIndex_le (counts : Counts m m' role now next) {chunk : ChunkPtr}
    (inUse : (role chunk).InUse) : m.pushIndex chunk ≤ m'.pushIndex chunk := by
  cases counts with
  | same push pop => exact (push chunk inUse).ge
  | push before written behind =>
      subst written
      rw [Memory.pushIndex_setPushIndex, Function.update_apply]
      split
      · rename_i same
        rw [same]
        exact Nat.le_succ _
      · exact le_rfl
  | pop before current written behind =>
      subst written
      rw [Memory.pushIndex_setPopIndex]

/-! ## What one operation does to the chain -/

/-- How the chain changes. -/
inductive Advances (m m' : Memory Value) (now : Pc Value) (chain chain' : List ChunkPtr) :
    Prop where
  | same (chain_eq : chain' = chain) (head : m'.headChunk = m.headChunk)
      (next : ∀ chunk ∈ chain, m'.next chunk = m.next chunk)
  | link {value : Value} {tail new : ChunkPtr} {before : List ChunkPtr}
      (here : now = .linkNext value tail new) (written : m' = m.setNext tail (some new))
      (chain_eq : chain = before ++ [tail]) (longer : chain' = before ++ [tail, new])
  | move {later : ChunkPtr} (written : m' = { m with headChunk := later })
      (consumed : chunkSize ≤ m.popIndex m.headChunk) (chain_eq : chain = m.headChunk :: chain')

section

variable (chunks : Chunks m role chain freeChain) (behind : Chunks m' role' chain' freeChain')

include chunks behind

theorem Advances.of_next (head : m'.headChunk = m.headChunk) (links : m'.next = m.next) :
    Advances m m' now chain chain' :=
  .same (chunks.chain_eq behind (fun chunk _ => congrFun links chunk) head) head
    fun chunk _ => congrFun links chunk

/-- A write to a chunk that is not in the chain. -/
theorem Advances.of_away {held : ChunkPtr} (same : ∀ other ≠ held, m'.chunks other = m.chunks other)
    (head : m'.headChunk = m.headChunk) (away : role held ≠ .live) :
    Advances m m' now chain chain' := by
  have next : ∀ chunk ∈ chain, m'.next chunk = m.next chunk := fun chunk member =>
    congrArg Chunk.next (same chunk fun equal => away (equal ▸ (chunks.live chunk).mpr member))
  exact .same (chunks.chain_eq behind next head) head next

theorem Advances.of_link {value : Value} {tail new : ChunkPtr}
    (loc : (Pc.linkNext value tail new).Local m role thread) (ends : m.next tail = none)
    (written : m' = m.setNext tail (some new)) :
    Advances m m' (.linkNext value tail new) chain chain' := by
  subst written
  have live := chunks.live_of_end loc.1.1 ends
  obtain ⟨before, rfl⟩ := concat_of_linked chunks.linked ((chunks.live tail).mp live) ends
  have differs : new ≠ tail := (Role.ne_of_owned loc.1.1 loc.2.1).symm
  refine .link rfl rfl rfl (linked_unique (linked_concat chunks.linked ?_ ?_ ?_) behind.linked)
  · intro other member
    rw [Memory.next_setNext, Function.update_of_ne]
    rintro rfl
    exact (List.nodup_append.mp chunks.chainNodup).2.2 other member other
      (List.mem_singleton_self _) rfl
  · rw [Memory.next_setNext, Function.update_self]
  · rw [Memory.next_setNext, Function.update_of_ne differs]
    exact loc.2.2.2.2.1

theorem Advances.of_move {later : ChunkPtr} (link : m.next m.headChunk = some later)
    (consumed : chunkSize ≤ m.popIndex m.headChunk)
    (written : m' = { m with headChunk := later }) : Advances m m' now chain chain' := by
  subst written
  obtain ⟨rest, rfl, tail⟩ := linked_some chunks.linked
  rw [link] at tail
  obtain rfl := linked_unique tail behind.linked
  exact .move rfl consumed rfl

/-- **One atomic operation** links a chunk behind the last one, leaves the first one behind, or
leaves the chain alone. -/
theorem advances_run {others : ChunkPtr → Prop} {spurious : Bool} {event : Option (Event Value)}
    (loc : now.Local m role thread) (careful : now.Careful m others)
    (taken : now.run m spurious = some (m', next, event)) : Advances m m' now chain chain' := by
  cases now with
  | idle => cases taken
  | loadTail | loadFree | loadFreeNext | checkSlot | waitSlot | loadHead | loadPopIndex
  | loadPushIndex | loadFreeHead | storeTail | moveTail =>
      cases taken
      exact .of_next chunks behind rfl rfl
  | claimPush | construct | enter | takeSlot | leave | storeRetired =>
      cases taken
      exact .of_next chunks behind rfl (by simp)
  | loadNextConsumed | loadNextEmpty | takeFree =>
      simp only [Pc.run] at taken
      split at taken <;> cases taken <;> exact .of_next chunks behind rfl rfl
  | claimPop head index =>
      simp only [Pc.run] at taken
      split at taken <;> cases taken
      · exact .of_next chunks behind rfl (by simp)
      · exact .of_next chunks behind rfl rfl
  | linkNext value tail new =>
      simp only [Pc.run] at taken
      cases link : m.next tail with
      | none =>
          rw [link] at taken
          cases taken
          exact .of_link chunks behind loc link rfl
      | some expected =>
          rw [link] at taken
          cases taken
          exact .of_next chunks behind rfl rfl
  | resetPush value tail held =>
      cases taken
      exact .of_away chunks behind (sameBut_setPushIndex ..).chunks rfl
        (Role.away_of_owned loc.2).1
  | resetPop value tail held | resetNext value tail held | resetReaders value tail held
  | resetRetired value tail held =>
      cases taken
      exact .of_away chunks behind (sameBut_setChunk ..).chunks rfl (Role.away_of_owned loc.2.1).1
  | storeNext held old after =>
      cases taken
      exact .of_away chunks behind (sameBut_setNext ..).chunks rfl (Role.away_of_owned loc.1).1
  | newChunk value tail =>
      cases taken
      refine .of_away chunks behind (fun other differs => Function.update_of_ne differs ..) rfl ?_
      rw [(chunks.fresh m.fresh).mpr le_rfl]
      simp
  | moveHeadConsumed head later =>
      simp only [Pc.run] at taken
      split at taken
      · rename_i named
        subst named
        cases taken
        exact .of_move chunks behind loc.2.2 loc.2.1 rfl
      · cases taken
        exact .of_next chunks behind rfl rfl
  | moveHeadEmpty head later =>
      simp only [Pc.run] at taken
      split at taken
      · rename_i named
        subst named
        cases taken
        exact .of_move chunks behind loc.2 (careful rfl) rfl
      · cases taken
        exact .of_next chunks behind rfl rfl
  | loadReaders held after =>
      simp only [Pc.run] at taken
      split at taken
      · cases taken
        exact .of_next chunks behind rfl rfl
      · obtain ⟨rfl, -⟩ := resumed taken
        exact .of_next chunks behind rfl rfl
  | clearRetired held after =>
      simp only [Pc.run] at taken
      split at taken
      · cases taken
        exact .of_next chunks behind rfl (by simp)
      · obtain ⟨rfl, -⟩ := resumed taken
        exact .of_next chunks behind rfl rfl
  | pushFree held old after =>
      simp only [Pc.run] at taken
      split at taken
      · obtain ⟨rfl, -⟩ := resumed taken
        exact .of_next chunks behind rfl rfl
      · cases taken
        exact .of_next chunks behind rfl rfl

end

/-! ## The order is kept -/

theorem headed_resume (after : After Value) : after.resume.1.headed = none := by
  cases after <;> rfl

theorem filled_resume (after : After Value) : after.resume.1.filled = none := by
  cases after <;> rfl

theorem headed_allocateFrom (value : Value) (tail : ChunkPtr) (first : Option ChunkPtr) :
    (allocateFrom value tail first).headed = none := by
  cases first <;> rfl

theorem filled_allocateFrom (value : Value) (tail : ChunkPtr) (first : Option ChunkPtr) :
    (allocateFrom value tail first).filled = some tail := by
  cases first <;> rfl

/-- `pop` works on the chunk it has loaded from `head_chunk`. -/
theorem headed_run {spurious : Bool} {event : Option (Event Value)} {head : ChunkPtr}
    (taken : now.run m spurious = some (m', next, event)) (found : next.headed = some head) :
    now.headed = some head ∨ m'.headChunk = head := by
  cases now with
  | idle => cases taken
  | loadHead =>
      cases taken
      exact .inr (Option.some.inj found)
  | loadPopIndex =>
      cases taken
      exact .inl found
  | loadPushIndex =>
      cases taken
      refine .inl ?_
      split at found
      · exact found
      · split at found <;> exact found
  | loadNextConsumed | loadNextEmpty =>
      simp only [Pc.run] at taken
      split at taken <;> cases taken
      · cases found
      · exact .inl found
  | loadTail | construct | storeTail | moveTail | loadFreeNext | resetPush | resetPop | resetNext
  | resetReaders | resetRetired | newChunk | enter | takeSlot | leave | storeRetired
  | loadFreeHead | storeNext =>
      cases taken
      cases found
  | claimPush | checkSlot | waitSlot =>
      cases taken
      split at found <;> cases found
  | loadFree =>
      cases taken
      rw [headed_allocateFrom] at found
      cases found
  | linkNext | moveHeadConsumed | moveHeadEmpty | claimPop =>
      simp only [Pc.run] at taken
      split at taken <;> cases taken <;> cases found
  | takeFree =>
      simp only [Pc.run] at taken
      split at taken <;> cases taken
      · cases found
      · rw [headed_allocateFrom] at found
        cases found
  | loadReaders | clearRetired =>
      simp only [Pc.run] at taken
      split at taken
      · cases taken
        cases found
      · obtain ⟨-, rfl⟩ := resumed taken
        rw [headed_resume] at found
        cases found
  | pushFree =>
      simp only [Pc.run] at taken
      split at taken
      · obtain ⟨-, rfl⟩ := resumed taken
        rw [headed_resume] at found
        cases found
      · cases taken
        cases found

/-- `push` allocates a chunk when it has found the tail full. -/
theorem filled_run {spurious : Bool} {event : Option (Event Value)} {tail : ChunkPtr}
    (taken : now.run m spurious = some (m', next, event)) (found : next.filled = some tail) :
    now.filled = some tail ∨
      (chunkSize ≤ m.pushIndex tail ∧ ∃ value, now = .claimPush value tail) := by
  cases now with
  | idle => cases taken
  | claimPush value claimed =>
      cases taken
      split at found
      · cases found
      · rename_i full
        cases found
        exact .inr ⟨Nat.le_of_not_lt full, value, rfl⟩
  | loadFreeNext | resetPush | resetPop | resetNext | resetReaders | resetRetired | newChunk =>
      cases taken
      exact .inl found
  | loadFree =>
      cases taken
      rw [filled_allocateFrom] at found
      exact .inl found
  | takeFree =>
      simp only [Pc.run] at taken
      split at taken <;> cases taken
      · exact .inl found
      · rw [filled_allocateFrom] at found
        exact .inl found
  | loadTail | construct | storeTail | moveTail | loadHead | loadPopIndex | enter | takeSlot
  | leave | storeRetired | loadFreeHead | storeNext =>
      cases taken
      cases found
  | checkSlot | waitSlot =>
      cases taken
      split at found <;> cases found
  | loadPushIndex =>
      cases taken
      split at found
      · cases found
      · split at found <;> cases found
  | linkNext | moveHeadConsumed | moveHeadEmpty | claimPop | loadNextConsumed | loadNextEmpty =>
      simp only [Pc.run] at taken
      split at taken <;> cases taken <;> cases found
  | loadReaders | clearRetired =>
      simp only [Pc.run] at taken
      split at taken
      · cases taken
        cases found
      · obtain ⟨-, rfl⟩ := resumed taken
        rw [filled_resume] at found
        cases found
  | pushFree =>
      simp only [Pc.run] at taken
      split at taken
      · obtain ⟨-, rfl⟩ := resumed taken
        rw [filled_resume] at found
        cases found
      · cases taken
        cases found

/-- A chunk that was found at the head is still there, or left behind. -/
theorem Advances.headed (advances : Advances m m' now chain chain')
    (chunks : Chunks m role chain freeChain) (loc : now.Local m role thread) {head : ChunkPtr}
    (inUse : (role head).InUse) (before : head ∈ chain → m.headChunk = head)
    (member : head ∈ chain') : m'.headChunk = head := by
  cases advances with
  | same chain_eq sameHead next =>
      rw [sameHead]
      exact before (chain_eq ▸ member)
  | link here written chain_eq longer =>
      subst here written chain_eq longer
      have differs := Role.ne_of_owned inUse loc.2.1
      apply before
      simp only [List.mem_append, List.mem_cons, List.not_mem_nil, or_false] at member ⊢
      exact member.imp_right fun last => last.resolve_right differs
  | move written consumed chain_eq =>
      subst chain_eq
      have first := before (List.mem_cons_of_mem _ member)
      exact absurd (first ▸ member) (List.nodup_cons.mp chunks.chainNodup).1

/-- A chunk with one behind it is full. -/
theorem Advances.full (advances : Advances m m' now chain chain')
    (chunks : Chunks m role chain freeChain) (loc : now.Local m role thread)
    (counts : Counts m m' role now next)
    (full : ∀ chunk ∈ chain, m.next chunk ≠ none → chunkSize ≤ m.pushIndex chunk)
    (filled : ∀ tail, now.filled = some tail → chunkSize ≤ m.pushIndex tail)
    {chunk : ChunkPtr} (member : chunk ∈ chain') (linked : m'.next chunk ≠ none) :
    chunkSize ≤ m'.pushIndex chunk := by
  have grows {other : ChunkPtr} (inChain : other ∈ chain) :
      m.pushIndex other ≤ m'.pushIndex other :=
    counts.pushIndex_le (.inl ((chunks.live other).mpr inChain))
  cases advances with
  | same chain_eq sameHead next =>
      subst chain_eq
      rw [next chunk member] at linked
      exact (full chunk member linked).trans (grows member)
  | @link value tail new before here written chain_eq longer =>
      subst here written chain_eq longer
      by_cases new_ : chunk = new
      · subst new_
        rw [Memory.next_setNext,
          Function.update_of_ne (Role.ne_of_owned loc.1.1 loc.2.1).symm] at linked
        exact (linked loc.2.2.2.2.1).elim
      · have old : chunk ∈ before ++ [tail] := by
          simp only [List.mem_append, List.mem_cons, List.not_mem_nil, or_false] at member ⊢
          exact member.imp_right fun last => last.resolve_right new_
        refine le_trans ?_ (grows old)
        by_cases tail_ : chunk = tail
        · exact tail_ ▸ filled tail rfl
        · rw [Memory.next_setNext, Function.update_of_ne tail_] at linked
          exact full chunk old linked
  | move written consumed chain_eq =>
      subst written chain_eq
      have old : chunk ∈ m.headChunk :: chain' := List.mem_cons_of_mem _ member
      exact (full chunk old linked).trans (grows old)

section

variable [DecidableEq Thread]

/-- **One atomic operation** keeps the order of the chunks. -/
theorem Ordered.run {others : ChunkPtr → Prop} {spurious : Bool} {event : Option (Event Value)}
    (ordered : Ordered m pc chain) (chunks : Chunks m role chain freeChain)
    (behind : Chunks m' role' chain' freeChain')
    (locals : ∀ other, (pc other).Local m role other) (careful : (pc thread).Careful m others)
    (taken : (pc thread).run m spurious = some (m', next, event)) :
    Ordered m' (Function.update pc thread next) chain' := by
  have loc := locals thread
  have counts := counts_run chunks loc careful taken
  have advances := advances_run chunks behind loc careful taken
  refine ⟨fun chunk => ?_, fun other tail found => ?_, fun other head found member => ?_⟩
  · exact advances.full chunks loc counts ordered.full (ordered.filled thread)
  · have before (who : Thread) (had : (pc who).filled = some tail) :
        chunkSize ≤ m'.pushIndex tail :=
      (ordered.filled who tail had).trans
        (counts.pushIndex_le (Pc.filled_inUse had (locals who)).1)
    by_cases self : other = thread
    · subst self
      rw [Function.update_self] at found
      rcases filled_run taken found with had | ⟨full, value, here⟩
      · exact before other had
      · rw [here] at loc
        exact full.trans (counts.pushIndex_le loc.1)
    · rw [Function.update_of_ne self] at found
      exact before other found
  · have before (who : Thread) (had : (pc who).headed = some head) : m'.headChunk = head :=
      advances.headed chunks loc (Pc.headed_inUse had (locals who)).1 (ordered.headed who head had)
        member
    by_cases self : other = thread
    · subst self
      rw [Function.update_self] at found
      exact (headed_run taken found).elim (before other) id
    · rw [Function.update_of_ne self] at found
      exact before other found

end

/-! ## The slots between the pushers and the poppers -/

/-- The slots of a chunk that pushers have claimed and poppers have not. -/
def Memory.pending (m : Memory Value) (chunk : ChunkPtr) : List (ChunkPtr × Nat) :=
  (List.range' (m.popIndex chunk) (min (m.pushIndex chunk) chunkSize - m.popIndex chunk)).map
    (Prod.mk chunk)

/-- These slots, in the order of the chain. -/
def Memory.queue (m : Memory Value) (chain : List ChunkPtr) : List (ChunkPtr × Nat) :=
  chain.flatMap m.pending

theorem pending_congr {chunk : ChunkPtr} (push : m'.pushIndex chunk = m.pushIndex chunk)
    (pop : m'.popIndex chunk = m.popIndex chunk) : m'.pending chunk = m.pending chunk := by
  rw [Memory.pending, push, pop, ← Memory.pending]

theorem pending_eq_nil {chunk : ChunkPtr}
    (none_ : min (m.pushIndex chunk) chunkSize ≤ m.popIndex chunk) : m.pending chunk = [] := by
  rw [Memory.pending, Nat.sub_eq_zero_of_le none_]
  rfl

theorem mem_pending {chunk other : ChunkPtr} {index : Nat} :
    (other, index) ∈ m.pending chunk ↔ other = chunk ∧ m.popIndex chunk ≤ index ∧
      index < m.pushIndex chunk ∧ index < chunkSize := by
  simp only [Memory.pending, List.mem_map, List.mem_range'_1, Prod.mk.injEq]
  constructor
  · rintro ⟨at_, ⟨lower, upper⟩, rfl, rfl⟩
    exact ⟨rfl, lower, by omega, by omega⟩
  · rintro ⟨rfl, lower, pushed, small⟩
    exact ⟨index, ⟨lower, by omega⟩, rfl, rfl⟩

/-- One more slot is claimed by a pusher. -/
theorem pending_push {tail : ChunkPtr} (room : m.pushIndex tail < chunkSize)
    (order : m.popIndex tail ≤ m.pushIndex tail) :
    (m.setPushIndex tail (m.pushIndex tail + 1)).pending tail =
      m.pending tail ++ [(tail, m.pushIndex tail)] := by
  have longer : min (m.pushIndex tail + 1) chunkSize - m.popIndex tail =
      min (m.pushIndex tail) chunkSize - m.popIndex tail + 1 := by omega
  rw [Memory.pending, Memory.pushIndex_setPushIndex, Function.update_self,
    Memory.popIndex_setPushIndex, longer, List.range'_concat, List.map_append, ← Memory.pending]
  have last : m.popIndex tail + 1 * (min (m.pushIndex tail) chunkSize - m.popIndex tail) =
      m.pushIndex tail := by omega
  rw [last]
  rfl

/-- A full chunk has no more slots. -/
theorem pending_full {tail : ChunkPtr} (full : chunkSize ≤ m.pushIndex tail) (chunk : ChunkPtr) :
    (m.setPushIndex tail (m.pushIndex tail + 1)).pending chunk = m.pending chunk := by
  by_cases same : chunk = tail
  · subst same
    rw [Memory.pending, Memory.pushIndex_setPushIndex, Function.update_self,
      Memory.popIndex_setPushIndex, min_eq_right (full.trans (Nat.le_succ _)), Memory.pending,
      min_eq_right full]
  · apply pending_congr
    · rw [Memory.pushIndex_setPushIndex, Function.update_of_ne same]
    · rw [Memory.popIndex_setPushIndex]

/-- The first slot is claimed by a popper. -/
theorem pending_pop {head : ChunkPtr} (small : m.popIndex head < chunkSize)
    (pushed : m.popIndex head < m.pushIndex head) :
    m.pending head = (head, m.popIndex head) ::
      (m.setPopIndex head (m.popIndex head + 1)).pending head := by
  have shorter : min (m.pushIndex head) chunkSize - m.popIndex head =
      min (m.pushIndex head) chunkSize - (m.popIndex head + 1) + 1 := by omega
  rw [Memory.pending, shorter, List.range'_succ, List.map_cons, Memory.pending,
    Memory.popIndex_setPopIndex, Function.update_self, Memory.pushIndex_setPopIndex]

/-- The slots of a chain that ends with its first chunk. -/
theorem queue_eq_nil (chunks : Chunks m role chain freeChain) (ends : m.next m.headChunk = none)
    (none_ : min (m.pushIndex m.headChunk) chunkSize ≤ m.popIndex m.headChunk) :
    m.queue chain = [] := by
  obtain ⟨rest, rfl, tail⟩ := linked_some chunks.linked
  rw [ends] at tail
  obtain rfl : [] = rest := linked_unique tail rfl
  rw [Memory.queue, List.flatMap_singleton]
  exact pending_eq_nil none_

/-- Where no slot is claimed, the slots stay. -/
theorem queue_same (chunks : Chunks m role chain freeChain) (loc : now.Local m role thread)
    (advances : Advances m m' now chain chain')
    (push : ∀ chunk, (role chunk).InUse → m'.pushIndex chunk = m.pushIndex chunk)
    (pop : ∀ chunk, (role chunk).InUse → m'.popIndex chunk = m.popIndex chunk) :
    m'.queue chain' = m.queue chain := by
  have same {chunk : ChunkPtr} (member : chunk ∈ chain) : m'.pending chunk = m.pending chunk := by
    have inUse : (role chunk).InUse := .inl ((chunks.live chunk).mpr member)
    exact pending_congr (push chunk inUse) (pop chunk inUse)
  cases advances with
  | same chain_eq head next =>
      subst chain_eq
      exact List.flatMap_congr fun chunk member => same member
  | @link value tail new before here written chain_eq longer =>
      subst here chain_eq longer
      have blank : m'.pending new = [] := by
        apply pending_eq_nil
        rw [written, Memory.pushIndex_setNext, loc.2.2.1]
        exact (Nat.min_le_left ..).trans (Nat.zero_le _)
      have split : before ++ [tail, new] = (before ++ [tail]) ++ [new] := by simp
      rw [Memory.queue, split, List.flatMap_append, List.flatMap_singleton, blank, List.append_nil]
      exact List.flatMap_congr fun chunk member => same member
  | move written consumed chain_eq =>
      subst chain_eq
      rw [Memory.queue, Memory.queue, List.flatMap_cons,
        pending_eq_nil ((Nat.min_le_right ..).trans consumed), List.nil_append]
      exact List.flatMap_congr fun chunk member => same (List.mem_cons_of_mem _ member)

end Drpc.Util.MPMCQueue
