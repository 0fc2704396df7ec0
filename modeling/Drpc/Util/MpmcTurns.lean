import Drpc.Util.MpmcOrder

/-! # What an operation of the task queue does to the queue

How far a call is, as far as its values are concerned, is its `Progress`. An atomic operation
brings its call forward in one of nine ways (`Turn`): two of them claim a slot, which adds
it to the slots between the pushers and the poppers or takes it from them, one reads a value,
one finds that there are no such slots, and the others leave these slots alone.
-/

namespace Drpc.Util.MPMCQueue

open Chain

variable {Thread Value : Type}

/-- How far a call is. -/
inductive Progress (Value : Type) where
  | idle
  | pushing (value : Value)
  /-- A slot is claimed for the value. -/
  | pushed (value : Value)
  /-- `pop` goes on to return false when it has found the queue empty. -/
  | popping (sawEmpty : Bool)
  /-- A slot is claimed, and its value was not read yet. -/
  | claimed (head : ChunkPtr) (index : Nat)
  | popped (value : Option Value)

/-- How far a call is behind a release. -/
def After.progress : After Value → Progress Value
  | .moveTail value _ _ => .pushing value
  | .popAgain => .popping false
  | .popReturn value => .popped value

def Pc.progress : Pc Value → Progress Value
  | .idle => .idle
  | .loadTail value | .claimPush value _ | .linkNext value _ _ | .storeTail value _ _
  | .moveTail value _ _ | .loadFree value _ | .loadFreeNext value _ _ | .takeFree value _ _ _
  | .resetPush value _ _ | .resetPop value _ _ | .resetNext value _ _ | .resetReaders value _ _
  | .resetRetired value _ _ | .newChunk value _ => .pushing value
  | .checkSlot value _ _ | .construct value _ _ => .pushed value
  | .loadHead | .loadPopIndex _ | .loadPushIndex _ _ | .loadNextConsumed _ | .moveHeadConsumed _ _
  | .moveHeadEmpty _ _ | .claimPop _ _ | .storeRetired _ => .popping false
  | .loadNextEmpty _ => .popping true
  | .enter head index | .waitSlot head index | .takeSlot head index => .claimed head index
  | .leave _ value => .popped value
  | .loadReaders _ after | .clearRetired _ after | .loadFreeHead _ after | .storeNext _ _ after
  | .pushFree _ _ after => after.progress

theorem progress_allocateFrom (value : Value) (tail : ChunkPtr) (first : Option ChunkPtr) :
    (allocateFrom value tail first).progress = .pushing value := by
  cases first <;> rfl

/-- What one operation does: `slots` are those between the pushers and the poppers, and
`slots'` those behind it. -/
inductive Turn (m : Memory Value) (slots slots' : List (ChunkPtr × Nat)) (now next : Pc Value) :
    Option (Event Value) → Prop where
  | quiet (same : next.progress = now.progress) (slots_eq : slots' = slots) :
      Turn m slots slots' now next none
  | claimsPush {value : Value} {tail : ChunkPtr} (here : now = .claimPush value tail)
      (behind : next = .checkSlot value tail (m.pushIndex tail))
      (slots_eq : slots' = slots ++ [(tail, m.pushIndex tail)]) : Turn m slots slots' now next none
  | claimsPop {head : ChunkPtr} {index : Nat} (here : now = .claimPop head index)
      (behind : next = .enter head index) (slots_eq : slots = (head, index) :: slots') :
      Turn m slots slots' now next none
  | seesEmpty (here : now.progress = .popping false) (behind : next.progress = .popping true)
      (slots_eq : slots' = slots) (empty : slots = []) : Turn m slots slots' now next none
  /-- There is another chunk. -/
  | retries (here : now.progress = .popping true) (behind : next.progress = .popping false)
      (slots_eq : slots' = slots) : Turn m slots slots' now next none
  | reads {head : ChunkPtr} {index : Nat} (here : now = .takeSlot head index)
      (behind : next.progress = .popped (m.slot head index)) (slots_eq : slots' = slots) :
      Turn m slots slots' now next none
  | returnsPushed {value : Value} (here : now.progress = .pushed value) (behind : next = .idle)
      (slots_eq : slots' = slots) : Turn m slots slots' now next (some (.pushed value))
  | returnsPopped {value : Option Value} (here : now.progress = .popped value)
      (behind : next = .idle) (slots_eq : slots' = slots) :
      Turn m slots slots' now next (some (.popped value))
  | returnsEmpty {sawEmpty : Bool} (here : now.progress = .popping sawEmpty)
      (behind : next = .idle) (slots_eq : slots' = slots)
      (empty : sawEmpty = false → slots = []) : Turn m slots slots' now next (some .empty)

variable {m m' : Memory Value} {role role' : ChunkPtr → Role Thread} {pc : Thread → Pc Value}
  {thread : Thread} {chain freeChain chain' freeChain' : List ChunkPtr} {now next : Pc Value}
  {slots slots' : List (ChunkPtr × Nat)}

/-- A step that resumes the operation behind a release. -/
theorem Turn.of_resume {after : After Value} {event : Option (Event Value)} {written : Memory Value}
    (taken : some (written, after.resume) = some (m', next, event))
    (here : now.progress = after.progress) (slots_eq : slots' = slots) :
    Turn m slots slots' now next event := by
  simp only [Option.some.injEq, Prod.mk.injEq] at taken
  obtain ⟨-, resumes⟩ := taken
  cases after with
  | moveTail value tail expected =>
      cases resumes
      exact .quiet here.symm slots_eq
  | popAgain =>
      cases resumes
      exact .quiet here.symm slots_eq
  | popReturn value =>
      cases resumes
      exact .returnsPopped here rfl slots_eq

/-! ## The operations that claim slots, or find none -/

section

variable [Fintype Thread] {s : State Thread Value}

/-- A chunk that a popper has found at the head, with slots that no popper has claimed or
nothing behind it, is the first of the chain. -/
theorem headChunk_eq (inv : s.Inv role chain freeChain) (ordered : Ordered s.memory s.pc chain)
    {head : ChunkPtr} (found : (s.pc thread).headed = some head)
    (current : s.memory.popIndex head < chunkSize ∨ s.memory.next head = none) :
    s.memory.headChunk = head := by
  have inUse := (Pc.headed_inUse found (inv.locals thread)).1
  apply ordered.headed thread head found
  apply (inv.chunks.live head).mp
  refine inUse.resolve_right fun left => ?_
  obtain ⟨consumed, linked⟩ := inv.chunks.left head left
  exact current.elim (fun less => Nat.not_le_of_lt less consumed) linked

/-- A chunk in use that is not full ends the chain. -/
theorem next_eq_none (inv : s.Inv role chain freeChain) (ordered : Ordered s.memory s.pc chain)
    {chunk : ChunkPtr} (inUse : (role chunk).InUse)
    (room : s.memory.pushIndex chunk < chunkSize) : s.memory.next chunk = none := by
  by_contra linked
  rcases inUse with live | left
  · exact Nat.not_le_of_lt room (ordered.full chunk ((inv.chunks.live chunk).mp live) linked)
  · have consumed := (inv.chunks.left chunk left).1.trans (inv.slots.order chunk (.inr left)).2
    exact Nat.not_le_of_lt room consumed

/-- `push` claims the slot behind the last one. -/
theorem queue_claimPush (inv : s.Inv role chain freeChain) (ordered : Ordered s.memory s.pc chain)
    {value : Value} {tail : ChunkPtr} (here : s.pc thread = .claimPush value tail)
    (room : s.memory.pushIndex tail < chunkSize) :
    (s.memory.setPushIndex tail (s.memory.pushIndex tail + 1)).queue chain =
      s.memory.queue chain ++ [(tail, s.memory.pushIndex tail)] := by
  have was : WasTail s.memory role tail := by
    have loc := inv.locals thread
    rw [here] at loc
    exact loc
  have ends := next_eq_none inv ordered was.1 room
  have live := inv.chunks.live_of_end was.1 ends
  obtain ⟨before, rfl⟩ := concat_of_linked inv.chunks.linked ((inv.chunks.live tail).mp live) ends
  have others : before.flatMap (s.memory.setPushIndex tail (s.memory.pushIndex tail + 1)).pending =
      before.flatMap s.memory.pending := by
    refine List.flatMap_congr fun chunk member => pending_congr ?_ ?_
    · rw [Memory.pushIndex_setPushIndex, Function.update_of_ne]
      rintro rfl
      exact (List.nodup_append.mp inv.chunks.chainNodup).2.2 chunk member chunk
        (List.mem_singleton_self _) rfl
    · rw [Memory.popIndex_setPushIndex]
  rw [Memory.queue, Memory.queue, List.flatMap_append, List.flatMap_append, others,
    List.flatMap_singleton, List.flatMap_singleton,
    pending_push room (inv.slots.order tail was.1).2, List.append_assoc]

/-- `pop` claims the first slot. -/
theorem queue_claimPop (inv : s.Inv role chain freeChain) (ordered : Ordered s.memory s.pc chain)
    {head : ChunkPtr} {index : Nat} (here : s.pc thread = .claimPop head index)
    (current : s.memory.popIndex head = index) :
    s.memory.queue chain =
      (head, index) :: (s.memory.setPopIndex head (index + 1)).queue chain := by
  subst current
  have loc := inv.locals thread
  rw [here] at loc
  obtain ⟨inUse, small, pushed⟩ := loc
  have found : (s.pc thread).headed = some head := by
    rw [here]
    rfl
  have first := headChunk_eq inv ordered found (.inl small)
  subst first
  obtain ⟨rest, rfl, tail⟩ := linked_some inv.chunks.linked
  have others : rest.flatMap (s.memory.setPopIndex s.memory.headChunk
      (s.memory.popIndex s.memory.headChunk + 1)).pending = rest.flatMap s.memory.pending := by
    refine List.flatMap_congr fun chunk member => pending_congr ?_ ?_
    · rw [Memory.pushIndex_setPopIndex]
    · rw [Memory.popIndex_setPopIndex, Function.update_of_ne]
      rintro rfl
      exact (List.nodup_cons.mp inv.chunks.chainNodup).1 member
  rw [Memory.queue, Memory.queue, List.flatMap_cons, List.flatMap_cons, others,
    pending_pop small pushed]
  rfl

/-- The counters of the head meet only when there are no slots to pop. -/
theorem queue_seesEmpty (inv : s.Inv role chain freeChain) (ordered : Ordered s.memory s.pc chain)
    {head : ChunkPtr} {index : Nat} (here : s.pc thread = .loadPushIndex head index)
    (inRange : index < chunkSize) (met : s.memory.pushIndex head ≤ index) :
    s.memory.queue chain = [] := by
  have loc := inv.locals thread
  rw [here] at loc
  obtain ⟨inUse, bound⟩ := loc
  have order := (inv.slots.order head inUse).2
  have room : s.memory.pushIndex head < chunkSize := met.trans_lt inRange
  have found : (s.pc thread).headed = some head := by
    rw [here]
    rfl
  have first := headChunk_eq inv ordered found (.inl (order.trans_lt room))
  subst first
  apply queue_eq_nil inv.chunks (next_eq_none inv ordered inUse room)
  exact (Nat.min_le_left ..).trans (met.trans bound)

/-- The last chunk was popped to its end. -/
theorem queue_consumed (inv : s.Inv role chain freeChain) (ordered : Ordered s.memory s.pc chain)
    {head : ChunkPtr} (here : s.pc thread = .loadNextConsumed head)
    (ends : s.memory.next head = none) : s.memory.queue chain = [] := by
  have loc := inv.locals thread
  rw [here] at loc
  have found : (s.pc thread).headed = some head := by
    rw [here]
    rfl
  have first := headChunk_eq inv ordered found (.inr ends)
  subst first
  exact queue_eq_nil inv.chunks ends ((Nat.min_le_right ..).trans loc.2)

/-! ## Every operation -/

/-- The next step may claim a slot. -/
def Pc.claims : Pc Value → Bool
  | .claimPush .. | .claimPop .. => true
  | _ => false

/-- **One atomic operation** brings its call forward in one of these ways. -/
theorem turn_run (inv : s.Inv role chain freeChain) (ordered : Ordered s.memory s.pc chain)
    (behind : Chunks m' role' chain' freeChain') {spurious : Bool} {event : Option (Event Value)}
    (careful : (s.pc thread).Careful s.memory (Others s.pc thread))
    (taken : (s.pc thread).run s.memory spurious = some (m', next, event)) :
    Turn s.memory (s.memory.queue chain) (m'.queue chain') (s.pc thread) next event := by
  have loc := inv.locals thread
  have counts := counts_run inv.chunks loc careful taken
  have advances := advances_run inv.chunks behind loc careful taken
  have stays (none_ : (s.pc thread).claims = false) : m'.queue chain' = s.memory.queue chain := by
    cases counts with
    | same push pop => exact queue_same inv.chunks loc advances push pop
    | push here written behind =>
        rw [here] at none_
        cases none_
    | pop here current written behind =>
        rw [here] at none_
        cases none_
  cases here : s.pc thread with
  | idle =>
      rw [here] at taken
      cases taken
  | loadTail | storeTail | moveTail | loadFreeNext | resetPush | resetPop | resetNext
  | resetReaders | resetRetired | newChunk | loadHead | loadPopIndex | enter | leave
  | storeRetired | loadFreeHead | storeNext =>
      have slots := stays (by rw [here]; rfl)
      rw [here] at taken
      cases taken
      exact .quiet rfl slots
  | loadFree value tail =>
      have slots := stays (by rw [here]; rfl)
      rw [here] at taken
      cases taken
      exact .quiet (progress_allocateFrom ..) slots
  | claimPush value tail =>
      rw [here] at taken careful
      have fits : (s.memory.pushIndex tail + 1) % 2 ^ 64 = s.memory.pushIndex tail + 1 :=
        Nat.mod_eq_of_lt careful
      simp only [Pc.run, fits] at taken
      cases taken
      obtain rfl := inv.chunks.chain_eq behind (by simp) rfl
      split
      · rename_i room
        exact .claimsPush rfl rfl (queue_claimPush inv ordered here room)
      · rename_i full
        refine .quiet rfl ?_
        exact List.flatMap_congr fun chunk _ => pending_full (Nat.le_of_not_lt full) chunk
  | checkSlot value tail index =>
      have slots := stays (by rw [here]; rfl)
      have pushes : (s.pc thread).Pushes tail index := by
        rw [here]
        exact ⟨rfl, rfl⟩
      have empty := inv.slots.empty_of_pushes inv.locals pushes
      rw [here] at taken
      cases taken
      rw [empty]
      exact .quiet rfl slots
  | construct value tail index =>
      have slots := stays (by rw [here]; rfl)
      rw [here] at taken
      cases taken
      exact .returnsPushed rfl rfl slots
  | linkNext value tail new =>
      have slots := stays (by rw [here]; rfl)
      rw [here] at taken
      simp only [Pc.run] at taken
      split at taken <;> cases taken <;> exact .quiet rfl slots
  | takeFree value tail chunk link =>
      have slots := stays (by rw [here]; rfl)
      rw [here] at taken
      simp only [Pc.run] at taken
      split at taken <;> cases taken
      · exact .quiet rfl slots
      · exact .quiet (progress_allocateFrom ..) slots
  | loadPushIndex head index =>
      have slots := stays (by rw [here]; rfl)
      rw [here] at taken
      cases taken
      split
      · exact .quiet rfl slots
      · rename_i inRange
        split
        · rename_i met
          exact .seesEmpty rfl rfl slots
            (queue_seesEmpty inv ordered here (Nat.lt_of_not_le inRange) met)
        · exact .quiet rfl slots
  | loadNextConsumed head =>
      have slots := stays (by rw [here]; rfl)
      rw [here] at taken
      simp only [Pc.run] at taken
      cases link : s.memory.next head with
      | none =>
          rw [link] at taken
          cases taken
          exact .returnsEmpty rfl rfl slots fun _ => queue_consumed inv ordered here link
      | some later =>
          rw [link] at taken
          cases taken
          exact .quiet rfl slots
  | loadNextEmpty head =>
      have slots := stays (by rw [here]; rfl)
      rw [here] at taken
      simp only [Pc.run] at taken
      split at taken <;> cases taken
      · exact .returnsEmpty rfl rfl slots fun seen => by cases seen
      · exact .retries rfl rfl slots
  | moveHeadConsumed | moveHeadEmpty =>
      have slots := stays (by rw [here]; rfl)
      rw [here] at taken
      simp only [Pc.run] at taken
      split at taken <;> cases taken <;> exact .quiet rfl slots
  | claimPop head index =>
      rw [here] at taken
      simp only [Pc.run] at taken
      split at taken
      · rename_i first
        cases taken
        obtain rfl := inv.chunks.chain_eq behind (by simp) rfl
        exact .claimsPop rfl rfl (queue_claimPop inv ordered here first.2)
      · cases taken
        obtain rfl := inv.chunks.chain_eq behind (fun _ _ => rfl) rfl
        exact .quiet rfl rfl
  | waitSlot head index =>
      have slots := stays (by rw [here]; rfl)
      rw [here] at taken
      cases taken
      split <;> exact .quiet rfl slots
  | takeSlot head index =>
      have slots := stays (by rw [here]; rfl)
      rw [here] at taken
      cases taken
      exact .reads rfl rfl slots
  | loadReaders chunk after | clearRetired chunk after =>
      have slots := stays (by rw [here]; rfl)
      rw [here] at taken
      simp only [Pc.run] at taken
      split at taken
      · cases taken
        exact .quiet rfl slots
      · exact .of_resume taken rfl slots
  | pushFree chunk old after =>
      have slots := stays (by rw [here]; rfl)
      rw [here] at taken
      simp only [Pc.run] at taken
      split at taken
      · exact .of_resume taken rfl slots
      · cases taken
        exact .quiet rfl slots

end

end Drpc.Util.MPMCQueue
