import Drpc.Library.Transition
import Mathlib.Algebra.Group.Nat.Defs
import Mathlib.Data.Fintype.Basic
import Mathlib.Logic.Function.Basic

/-! # The task queue

`MPMCQueue`: a chain of chunks of 64 slots from `head_chunk` to `tail_chunk` and a
free list of chunks, shared by any number of threads. Every atomic load, store,
`fetch_add` and `compare_exchange` is one step, and what a thread does to its own
memory in between belongs to the step before or behind it. `Pc.run` is the step
itself, on the shared memory; `step` lets the threads take their steps in any
order.
-/

namespace Drpc.Util.MPMCQueue

variable {Thread Value : Type}

/-- The address of a chunk. -/
abbrev ChunkPtr := Nat

/-- `CHUNK_SIZE` -/
def chunkSize : Nat := 64

structure Chunk (Value : Type) where
  next : Option ChunkPtr
  /-- The nodes: the value of a node while it is `occupied`. -/
  slots : Nat → Option Value
  pushIndex : Nat
  popIndex : Nat
  activeReaders : Nat
  retired : Bool

/-- `new Chunk(CHUNK_SIZE)` -/
def Chunk.new : Chunk Value where
  next := none
  slots _ := none
  pushIndex := 0
  popIndex := 0
  activeReaders := 0
  retired := false

/-- The memory the threads share: the chunks below `fresh` were allocated. -/
structure Memory (Value : Type) where
  chunks : ChunkPtr → Chunk Value
  headChunk : ChunkPtr
  tailChunk : ChunkPtr
  freeList : Option ChunkPtr
  chunkCount : Nat
  fresh : ChunkPtr

namespace Memory

/-- A new queue. -/
def init : Memory Value where
  chunks _ := .new
  headChunk := 0
  tailChunk := 0
  freeList := none
  chunkCount := 1
  fresh := 1

def next (m : Memory Value) (chunk : ChunkPtr) : Option ChunkPtr := (m.chunks chunk).next

def pushIndex (m : Memory Value) (chunk : ChunkPtr) : Nat := (m.chunks chunk).pushIndex

def popIndex (m : Memory Value) (chunk : ChunkPtr) : Nat := (m.chunks chunk).popIndex

def activeReaders (m : Memory Value) (chunk : ChunkPtr) : Nat := (m.chunks chunk).activeReaders

def retired (m : Memory Value) (chunk : ChunkPtr) : Bool := (m.chunks chunk).retired

def slot (m : Memory Value) (chunk : ChunkPtr) (index : Nat) : Option Value :=
  (m.chunks chunk).slots index

def setChunk (m : Memory Value) (chunk : ChunkPtr) (content : Chunk Value) : Memory Value :=
  { m with chunks := Function.update m.chunks chunk content }

def setNext (m : Memory Value) (chunk : ChunkPtr) (next : Option ChunkPtr) : Memory Value :=
  m.setChunk chunk { m.chunks chunk with next }

def setPushIndex (m : Memory Value) (chunk : ChunkPtr) (pushIndex : Nat) : Memory Value :=
  m.setChunk chunk { m.chunks chunk with pushIndex }

def setPopIndex (m : Memory Value) (chunk : ChunkPtr) (popIndex : Nat) : Memory Value :=
  m.setChunk chunk { m.chunks chunk with popIndex }

def setActiveReaders (m : Memory Value) (chunk : ChunkPtr) (activeReaders : Nat) : Memory Value :=
  m.setChunk chunk { m.chunks chunk with activeReaders }

def setRetired (m : Memory Value) (chunk : ChunkPtr) (retired : Bool) : Memory Value :=
  m.setChunk chunk { m.chunks chunk with retired }

def setSlot (m : Memory Value) (chunk : ChunkPtr) (index : Nat) (value : Option Value) :
    Memory Value :=
  m.setChunk chunk
    { m.chunks chunk with slots := Function.update (m.chunks chunk).slots index value }

/-! ### What the setters change -/

variable (m : Memory Value) (chunk : ChunkPtr)

/-- A field of the chunks behind a write to one of them. -/
private theorem field_setChunk {α : Type} (field : Chunk Value → α) (content : Chunk Value) :
    (fun other => field ((m.setChunk chunk content).chunks other)) =
      Function.update (fun other => field (m.chunks other)) chunk (field content) := by
  funext other
  by_cases same : other = chunk
  · subst same
    simp [setChunk]
  · simp [setChunk, same]

/-- A write that leaves the field of its chunk alone leaves it alone everywhere. -/
private theorem field_setChunk_same {α : Type} (field : Chunk Value → α) {content : Chunk Value}
    (same : field content = field (m.chunks chunk)) :
    (fun other => field ((m.setChunk chunk content).chunks other)) =
      fun other => field (m.chunks other) := by
  rw [field_setChunk, same]
  exact Function.update_eq_self chunk fun other => field (m.chunks other)

@[simp] theorem next_setNext (next : Option ChunkPtr) :
    (m.setNext chunk next).next = Function.update m.next chunk next :=
  field_setChunk m chunk Chunk.next _

@[simp] theorem next_setPushIndex (pushIndex : Nat) :
    (m.setPushIndex chunk pushIndex).next = m.next :=
  field_setChunk_same m chunk Chunk.next rfl

@[simp] theorem next_setPopIndex (popIndex : Nat) :
    (m.setPopIndex chunk popIndex).next = m.next :=
  field_setChunk_same m chunk Chunk.next rfl

@[simp] theorem next_setActiveReaders (activeReaders : Nat) :
    (m.setActiveReaders chunk activeReaders).next = m.next :=
  field_setChunk_same m chunk Chunk.next rfl

@[simp] theorem next_setRetired (retired : Bool) :
    (m.setRetired chunk retired).next = m.next :=
  field_setChunk_same m chunk Chunk.next rfl

@[simp] theorem next_setSlot (index : Nat) (value : Option Value) :
    (m.setSlot chunk index value).next = m.next :=
  field_setChunk_same m chunk Chunk.next rfl

@[simp] theorem pushIndex_setNext (next : Option ChunkPtr) :
    (m.setNext chunk next).pushIndex = m.pushIndex :=
  field_setChunk_same m chunk Chunk.pushIndex rfl

@[simp] theorem pushIndex_setPushIndex (pushIndex : Nat) :
    (m.setPushIndex chunk pushIndex).pushIndex = Function.update m.pushIndex chunk pushIndex :=
  field_setChunk m chunk Chunk.pushIndex _

@[simp] theorem pushIndex_setPopIndex (popIndex : Nat) :
    (m.setPopIndex chunk popIndex).pushIndex = m.pushIndex :=
  field_setChunk_same m chunk Chunk.pushIndex rfl

@[simp] theorem pushIndex_setActiveReaders (activeReaders : Nat) :
    (m.setActiveReaders chunk activeReaders).pushIndex = m.pushIndex :=
  field_setChunk_same m chunk Chunk.pushIndex rfl

@[simp] theorem pushIndex_setRetired (retired : Bool) :
    (m.setRetired chunk retired).pushIndex = m.pushIndex :=
  field_setChunk_same m chunk Chunk.pushIndex rfl

@[simp] theorem pushIndex_setSlot (index : Nat) (value : Option Value) :
    (m.setSlot chunk index value).pushIndex = m.pushIndex :=
  field_setChunk_same m chunk Chunk.pushIndex rfl

@[simp] theorem popIndex_setNext (next : Option ChunkPtr) :
    (m.setNext chunk next).popIndex = m.popIndex :=
  field_setChunk_same m chunk Chunk.popIndex rfl

@[simp] theorem popIndex_setPushIndex (pushIndex : Nat) :
    (m.setPushIndex chunk pushIndex).popIndex = m.popIndex :=
  field_setChunk_same m chunk Chunk.popIndex rfl

@[simp] theorem popIndex_setPopIndex (popIndex : Nat) :
    (m.setPopIndex chunk popIndex).popIndex = Function.update m.popIndex chunk popIndex :=
  field_setChunk m chunk Chunk.popIndex _

@[simp] theorem popIndex_setActiveReaders (activeReaders : Nat) :
    (m.setActiveReaders chunk activeReaders).popIndex = m.popIndex :=
  field_setChunk_same m chunk Chunk.popIndex rfl

@[simp] theorem popIndex_setRetired (retired : Bool) :
    (m.setRetired chunk retired).popIndex = m.popIndex :=
  field_setChunk_same m chunk Chunk.popIndex rfl

@[simp] theorem popIndex_setSlot (index : Nat) (value : Option Value) :
    (m.setSlot chunk index value).popIndex = m.popIndex :=
  field_setChunk_same m chunk Chunk.popIndex rfl

@[simp] theorem activeReaders_setNext (next : Option ChunkPtr) :
    (m.setNext chunk next).activeReaders = m.activeReaders :=
  field_setChunk_same m chunk Chunk.activeReaders rfl

@[simp] theorem activeReaders_setPushIndex (pushIndex : Nat) :
    (m.setPushIndex chunk pushIndex).activeReaders = m.activeReaders :=
  field_setChunk_same m chunk Chunk.activeReaders rfl

@[simp] theorem activeReaders_setPopIndex (popIndex : Nat) :
    (m.setPopIndex chunk popIndex).activeReaders = m.activeReaders :=
  field_setChunk_same m chunk Chunk.activeReaders rfl

@[simp] theorem activeReaders_setActiveReaders (activeReaders : Nat) :
    (m.setActiveReaders chunk activeReaders).activeReaders =
      Function.update m.activeReaders chunk activeReaders :=
  field_setChunk m chunk Chunk.activeReaders _

@[simp] theorem activeReaders_setRetired (retired : Bool) :
    (m.setRetired chunk retired).activeReaders = m.activeReaders :=
  field_setChunk_same m chunk Chunk.activeReaders rfl

@[simp] theorem activeReaders_setSlot (index : Nat) (value : Option Value) :
    (m.setSlot chunk index value).activeReaders = m.activeReaders :=
  field_setChunk_same m chunk Chunk.activeReaders rfl

@[simp] theorem retired_setNext (next : Option ChunkPtr) :
    (m.setNext chunk next).retired = m.retired :=
  field_setChunk_same m chunk Chunk.retired rfl

@[simp] theorem retired_setPushIndex (pushIndex : Nat) :
    (m.setPushIndex chunk pushIndex).retired = m.retired :=
  field_setChunk_same m chunk Chunk.retired rfl

@[simp] theorem retired_setPopIndex (popIndex : Nat) :
    (m.setPopIndex chunk popIndex).retired = m.retired :=
  field_setChunk_same m chunk Chunk.retired rfl

@[simp] theorem retired_setActiveReaders (activeReaders : Nat) :
    (m.setActiveReaders chunk activeReaders).retired = m.retired :=
  field_setChunk_same m chunk Chunk.retired rfl

@[simp] theorem retired_setRetired (retired : Bool) :
    (m.setRetired chunk retired).retired = Function.update m.retired chunk retired :=
  field_setChunk m chunk Chunk.retired _

@[simp] theorem retired_setSlot (index : Nat) (value : Option Value) :
    (m.setSlot chunk index value).retired = m.retired :=
  field_setChunk_same m chunk Chunk.retired rfl

@[simp] theorem slot_setNext (next : Option ChunkPtr) :
    (m.setNext chunk next).slot = m.slot :=
  field_setChunk_same m chunk Chunk.slots rfl

@[simp] theorem slot_setPushIndex (pushIndex : Nat) :
    (m.setPushIndex chunk pushIndex).slot = m.slot :=
  field_setChunk_same m chunk Chunk.slots rfl

@[simp] theorem slot_setPopIndex (popIndex : Nat) :
    (m.setPopIndex chunk popIndex).slot = m.slot :=
  field_setChunk_same m chunk Chunk.slots rfl

@[simp] theorem slot_setActiveReaders (activeReaders : Nat) :
    (m.setActiveReaders chunk activeReaders).slot = m.slot :=
  field_setChunk_same m chunk Chunk.slots rfl

@[simp] theorem slot_setRetired (retired : Bool) :
    (m.setRetired chunk retired).slot = m.slot :=
  field_setChunk_same m chunk Chunk.slots rfl

@[simp] theorem slot_setSlot (index : Nat) (value : Option Value) :
    (m.setSlot chunk index value).slot =
      Function.update m.slot chunk (Function.update (m.slot chunk) index value) :=
  field_setChunk m chunk Chunk.slots _

end Memory

/-- What an operation does once `release_chunk` or `try_release_chunk` returns. -/
inductive After (Value : Type) where
  /-- `push` moves `tail_chunk` on to `expected`. -/
  | moveTail (value : Value) (tail expected : ChunkPtr)
  /-- `pop` goes back to its loop. -/
  | popAgain
  /-- `pop` returns `value`. -/
  | popReturn (value : Option Value)

/-- The next atomic operation of a thread, with the locals it needs from there on. -/
inductive Pc (Value : Type) where
  | idle
  -- `push`
  | loadTail (value : Value)
  | claimPush (value : Value) (tail : ChunkPtr)
  | checkSlot (value : Value) (tail : ChunkPtr) (index : Nat)
  | construct (value : Value) (tail : ChunkPtr) (index : Nat)
  | linkNext (value : Value) (tail new : ChunkPtr)
  | storeTail (value : Value) (tail new : ChunkPtr)
  | moveTail (value : Value) (tail expected : ChunkPtr)
  -- `allocate_chunk`
  | loadFree (value : Value) (tail : ChunkPtr)
  | loadFreeNext (value : Value) (tail chunk : ChunkPtr)
  | takeFree (value : Value) (tail chunk : ChunkPtr) (next : Option ChunkPtr)
  | resetPush (value : Value) (tail chunk : ChunkPtr)
  | resetPop (value : Value) (tail chunk : ChunkPtr)
  | resetNext (value : Value) (tail chunk : ChunkPtr)
  | resetReaders (value : Value) (tail chunk : ChunkPtr)
  | resetRetired (value : Value) (tail chunk : ChunkPtr)
  | newChunk (value : Value) (tail : ChunkPtr)
  -- `pop`
  | loadHead
  | loadPopIndex (head : ChunkPtr)
  | loadPushIndex (head : ChunkPtr) (index : Nat)
  | loadNextConsumed (head : ChunkPtr)
  | moveHeadConsumed (head next : ChunkPtr)
  | loadNextEmpty (head : ChunkPtr)
  | moveHeadEmpty (head next : ChunkPtr)
  | claimPop (head : ChunkPtr) (index : Nat)
  | enter (head : ChunkPtr) (index : Nat)
  | waitSlot (head : ChunkPtr) (index : Nat)
  | takeSlot (head : ChunkPtr) (index : Nat)
  | leave (head : ChunkPtr) (value : Option Value)
  -- `retire_chunk`, `try_release_chunk`, `release_chunk`
  | storeRetired (chunk : ChunkPtr)
  | loadReaders (chunk : ChunkPtr) (after : After Value)
  | clearRetired (chunk : ChunkPtr) (after : After Value)
  | loadFreeHead (chunk : ChunkPtr) (after : After Value)
  | storeNext (chunk : ChunkPtr) (old : Option ChunkPtr) (after : After Value)
  | pushFree (chunk : ChunkPtr) (old : Option ChunkPtr) (after : After Value)

/-- What a call has returned. A popped `none` is a value that was read from a node
which is not occupied. -/
inductive Event (Value : Type) where
  | pushed (value : Value)
  | popped (value : Option Value)
  /-- `pop` has returned false. -/
  | empty

/-- Go on with the operation behind a release. -/
def After.resume : After Value → Pc Value × Option (Event Value)
  | .moveTail value tail expected => (.moveTail value tail expected, none)
  | .popAgain => (.loadHead, none)
  | .popReturn value => (.idle, some (.popped value))

/-- The head of the free list was loaded into `chunk` of `allocate_chunk`. -/
def allocateFrom (value : Value) (tail : ChunkPtr) : Option ChunkPtr → Pc Value
  | some chunk => .loadFreeNext value tail chunk
  | none => .newChunk value tail

/-- **One atomic operation**: what it does to the shared memory, and where the thread
stands then. `spurious` lets a `compare_exchange_weak` fail. The counters are
`size_t`. `head_chunk` is never null. -/
def Pc.run (m : Memory Value) (spurious : Bool) :
    Pc Value → Option (Memory Value × Pc Value × Option (Event Value))
  | .idle => none
  | .loadTail value => some (m, .claimPush value m.tailChunk, none)
  | .claimPush value tail =>
      let index := m.pushIndex tail
      some (m.setPushIndex tail ((index + 1) % 2 ^ 64),
        if index < chunkSize then .checkSlot value tail index else .loadFree value tail, none)
  | .checkSlot value tail index =>
      some (m, if (m.slot tail index).isSome then .loadTail value else .construct value tail index,
        none)
  | .construct value tail index =>
      some (m.setSlot tail index (some value), .idle, some (.pushed value))
  | .linkNext value tail new =>
      match m.next tail with
      | none => some (m.setNext tail (some new), .storeTail value tail new, none)
      | some expected => some (m, .loadFreeHead new (.moveTail value tail expected), none)
  | .storeTail value _ new => some ({ m with tailChunk := new }, .loadTail value, none)
  | .moveTail value tail expected =>
      some ({ m with tailChunk := if m.tailChunk = tail then expected else m.tailChunk },
        .loadTail value, none)
  | .loadFree value tail => some (m, allocateFrom value tail m.freeList, none)
  | .loadFreeNext value tail chunk => some (m, .takeFree value tail chunk (m.next chunk), none)
  | .takeFree value tail chunk next =>
      if spurious = false ∧ m.freeList = some chunk then
        some ({ m with freeList := next }, .resetPush value tail chunk, none)
      else some (m, allocateFrom value tail m.freeList, none)
  | .resetPush value tail chunk =>
      some (m.setPushIndex chunk 0, .resetPop value tail chunk, none)
  | .resetPop value tail chunk =>
      some (m.setPopIndex chunk 0, .resetNext value tail chunk, none)
  | .resetNext value tail chunk =>
      some (m.setNext chunk none, .resetReaders value tail chunk, none)
  | .resetReaders value tail chunk =>
      some (m.setActiveReaders chunk 0, .resetRetired value tail chunk, none)
  | .resetRetired value tail chunk =>
      some (m.setRetired chunk false, .linkNext value tail chunk, none)
  | .newChunk value tail =>
      some ({ m.setChunk m.fresh .new with
        chunkCount := m.chunkCount + 1, fresh := m.fresh + 1 }, .linkNext value tail m.fresh, none)
  | .loadHead => some (m, .loadPopIndex m.headChunk, none)
  | .loadPopIndex head => some (m, .loadPushIndex head (m.popIndex head), none)
  | .loadPushIndex head index =>
      some (m,
        if chunkSize ≤ index then .loadNextConsumed head
        else if m.pushIndex head ≤ index then .loadNextEmpty head
        else .claimPop head index, none)
  | .loadNextConsumed head =>
      match m.next head with
      | none => some (m, .idle, some .empty)
      | some next => some (m, .moveHeadConsumed head next, none)
  | .moveHeadConsumed head next =>
      if m.headChunk = head then some ({ m with headChunk := next }, .storeRetired head, none)
      else some (m, .loadHead, none)
  | .loadNextEmpty head =>
      match m.next head with
      | none => some (m, .idle, some .empty)
      | some next => some (m, .moveHeadEmpty head next, none)
  | .moveHeadEmpty head next =>
      if m.headChunk = head then some ({ m with headChunk := next }, .storeRetired head, none)
      else some (m, .loadHead, none)
  | .claimPop head index =>
      if spurious = false ∧ m.popIndex head = index then
        some (m.setPopIndex head (index + 1), .enter head index, none)
      else some (m, .loadHead, none)
  | .enter head index =>
      some (m.setActiveReaders head ((m.activeReaders head + 1) % 2 ^ 64),
        .waitSlot head index, none)
  | .waitSlot head index =>
      some (m, if (m.slot head index).isSome then .takeSlot head index else .waitSlot head index,
        none)
  | .takeSlot head index => some (m.setSlot head index none, .leave head (m.slot head index), none)
  | .leave head value =>
      some (m.setActiveReaders head ((m.activeReaders head + (2 ^ 64 - 1)) % 2 ^ 64),
        .loadReaders head (.popReturn value), none)
  | .storeRetired chunk => some (m.setRetired chunk true, .loadReaders chunk .popAgain, none)
  | .loadReaders chunk after =>
      if m.activeReaders chunk = 0 then some (m, .clearRetired chunk after, none)
      else some (m, after.resume)
  | .clearRetired chunk after =>
      if m.retired chunk then
        some (m.setRetired chunk false, .loadFreeHead chunk after, none)
      else some (m, after.resume)
  | .loadFreeHead chunk after => some (m, .storeNext chunk m.freeList after, none)
  | .storeNext chunk old after => some (m.setNext chunk old, .pushFree chunk old after, none)
  | .pushFree chunk old after =>
      if spurious = false ∧ m.freeList = old then
        some ({ m with freeList := some chunk }, after.resume)
      else some (m, .storeNext chunk m.freeList after, none)

/-- What a step that resumes the operation leaves. -/
theorem resumed {m m' : Memory Value} {after : After Value} {pc : Pc Value}
    {event : Option (Event Value)}
    (taken : some (m, after.resume) = some (m', pc, event)) : m' = m ∧ pc = after.resume.1 := by
  simp only [Option.some.injEq, Prod.mk.injEq] at taken
  exact ⟨taken.1.symm, (congrArg Prod.fst taken.2).symm⟩

/-- The thread works on a slot. -/
def Pc.atSlot : Pc Value → Bool
  | .checkSlot .. | .construct .. | .enter .. | .waitSlot .. | .takeSlot .. | .leave .. => true
  | _ => false

/-- The next step only loads, or writes links, pointers and flags. -/
def Pc.links : Pc Value → Bool
  | .idle | .claimPush .. | .claimPop .. | .newChunk .. | .resetPush .. | .resetPop ..
  | .resetReaders .. => false
  | pc => !pc.atSlot

/-- What such a step leaves alone. -/
structure Links (m m' : Memory Value) (next : Pc Value) : Prop where
  slot : m'.slot = m.slot
  pushIndex : m'.pushIndex = m.pushIndex
  popIndex : m'.popIndex = m.popIndex
  activeReaders : m'.activeReaders = m.activeReaders
  fresh : m'.fresh = m.fresh
  away : next.atSlot = false

theorem atSlot_resume (after : After Value) : after.resume.1.atSlot = false := by
  cases after <;> rfl

theorem atSlot_allocateFrom (value : Value) (tail : ChunkPtr) (first : Option ChunkPtr) :
    (allocateFrom value tail first).atSlot = false := by
  cases first <;> rfl

/-- **A step that only loads, or writes links, pointers and flags** leaves the slots and the
counters alone. -/
theorem Pc.links_run {m m' : Memory Value} {pc next : Pc Value} {spurious : Bool}
    {event : Option (Event Value)} (links : pc.links = true)
    (taken : pc.run m spurious = some (m', next, event)) : Links m m' next := by
  cases pc with
  | idle | claimPush | claimPop | newChunk | resetPush | resetPop | resetReaders | checkSlot
  | construct | enter | waitSlot | takeSlot | leave => cases links
  | loadTail | storeTail | moveTail | loadFreeNext | loadHead | loadPopIndex | loadFreeHead =>
      cases taken
      exact ⟨rfl, rfl, rfl, rfl, rfl, rfl⟩
  | resetNext | resetRetired | storeRetired | storeNext =>
      cases taken
      exact ⟨by simp, by simp, by simp, by simp, rfl, rfl⟩
  | loadFree =>
      cases taken
      exact ⟨rfl, rfl, rfl, rfl, rfl, atSlot_allocateFrom ..⟩
  | loadPushIndex =>
      cases taken
      refine ⟨rfl, rfl, rfl, rfl, rfl, ?_⟩
      split
      · rfl
      · split <;> rfl
  | linkNext =>
      simp only [Pc.run] at taken
      split at taken <;> cases taken
      · exact ⟨by simp, by simp, by simp, by simp, rfl, rfl⟩
      · exact ⟨rfl, rfl, rfl, rfl, rfl, rfl⟩
  | takeFree =>
      simp only [Pc.run] at taken
      split at taken <;> cases taken
      · exact ⟨rfl, rfl, rfl, rfl, rfl, rfl⟩
      · exact ⟨rfl, rfl, rfl, rfl, rfl, atSlot_allocateFrom ..⟩
  | loadNextConsumed | loadNextEmpty | moveHeadConsumed | moveHeadEmpty =>
      simp only [Pc.run] at taken
      split at taken <;> cases taken <;> exact ⟨rfl, rfl, rfl, rfl, rfl, rfl⟩
  | loadReaders chunk after =>
      simp only [Pc.run] at taken
      split at taken
      · cases taken
        exact ⟨rfl, rfl, rfl, rfl, rfl, rfl⟩
      · obtain ⟨rfl, rfl⟩ := resumed taken
        exact ⟨rfl, rfl, rfl, rfl, rfl, atSlot_resume after⟩
  | clearRetired chunk after =>
      simp only [Pc.run] at taken
      split at taken
      · cases taken
        exact ⟨by simp, by simp, by simp, by simp, rfl, rfl⟩
      · obtain ⟨rfl, rfl⟩ := resumed taken
        exact ⟨rfl, rfl, rfl, rfl, rfl, atSlot_resume after⟩
  | pushFree chunk old after =>
      simp only [Pc.run] at taken
      split at taken
      · obtain ⟨rfl, rfl⟩ := resumed taken
        exact ⟨rfl, rfl, rfl, rfl, rfl, atSlot_resume after⟩
      · cases taken
        exact ⟨rfl, rfl, rfl, rfl, rfl, rfl⟩

/-- The queue, its threads, and what their calls have returned. -/
structure State (Thread Value : Type) where
  memory : Memory Value
  pc : Thread → Pc Value
  /-- The values whose `push` has returned. -/
  pushed : List Value
  /-- The values that `pop` has returned. -/
  popped : List (Option Value)

/-- A new queue. -/
def State.init : State Thread Value := ⟨.init, fun _ => .idle, [], []⟩

/-- What threads do. -/
inductive Label (Thread Value : Type) where
  /-- A call of `push`. -/
  | push (thread : Thread) (value : Value)
  /-- A call of `pop`. -/
  | pop (thread : Thread)
  /-- The next atomic operation of a thread. -/
  | run (thread : Thread) (spurious : Bool)

def Pc.isIdle : Pc Value → Bool
  | .idle => true
  | _ => false

theorem Pc.eq_idle {pc : Pc Value} (idle : pc.isIdle = true) : pc = .idle := by
  cases pc with
  | idle => rfl
  | _ => cases idle

/-- A call of the queue. -/
inductive Call (Value : Type) where
  | push (value : Value)
  | pop

/-- Where a call starts. -/
def Call.start : Call Value → Pc Value
  | .push value => .loadTail value
  | .pop => .loadHead

/-- Write down what a call has returned. -/
def State.record (s : State Thread Value) : Option (Event Value) → State Thread Value
  | some (.pushed value) => { s with pushed := s.pushed ++ [value] }
  | some (.popped value) => { s with popped := s.popped ++ [value] }
  | some .empty | none => s

theorem memory_record (s : State Thread Value) (event : Option (Event Value)) :
    (s.record event).memory = s.memory := by
  unfold State.record
  split <;> rfl

theorem pc_record (s : State Thread Value) (event : Option (Event Value)) :
    (s.record event).pc = s.pc := by
  unfold State.record
  split <;> rfl

section

variable [DecidableEq Thread]

def State.setPc (s : State Thread Value) (thread : Thread) (pc : Pc Value) : State Thread Value :=
  { s with pc := Function.update s.pc thread pc }

@[simp] theorem State.pc_setPc (s : State Thread Value) (thread : Thread) (pc : Pc Value) :
    (s.setPc thread pc).pc = Function.update s.pc thread pc := rfl

/-- One step of the threads. -/
def step (s : State Thread Value) : Label Thread Value → Option (State Thread Value)
  | .push thread value =>
      if (s.pc thread).isIdle then some (s.setPc thread (.loadTail value)) else none
  | .pop thread => if (s.pc thread).isIdle then some (s.setPc thread .loadHead) else none
  | .run thread spurious =>
      ((s.pc thread).run s.memory spurious).map fun (memory, pc, event) =>
        ({ s with memory }.setPc thread pc).record event

variable {s next : State Thread Value} {label : Label Thread Value}

/-- **What a step is**: a call that starts, or an atomic operation of a thread. -/
theorem step_cases (taken : step s label = some next) :
    (∃ thread call, s.pc thread = .idle ∧ next = s.setPc thread (Call.start call)) ∨
      ∃ thread spurious memory now event, label = .run thread spurious ∧
        (s.pc thread).run s.memory spurious = some (memory, now, event) ∧
        next = ({ s with memory }.setPc thread now).record event := by
  cases label with
  | push thread value =>
      simp only [step, Option.ite_none_right_eq_some, Option.some.injEq] at taken
      exact .inl ⟨thread, .push value, Pc.eq_idle taken.1, taken.2.symm⟩
  | pop thread =>
      simp only [step, Option.ite_none_right_eq_some, Option.some.injEq] at taken
      exact .inl ⟨thread, .pop, Pc.eq_idle taken.1, taken.2.symm⟩
  | run thread spurious =>
      simp only [step, Option.map_eq_some_iff] at taken
      obtain ⟨⟨memory, now, event⟩, ran, rfl⟩ := taken
      exact .inr ⟨thread, spurious, memory, now, event, rfl, ran, rfl⟩

end

/-- No operation is in progress. -/
def State.Quiet (s : State Thread Value) : Prop := ∀ thread, (s.pc thread).isIdle = true

instance [Fintype Thread] (s : State Thread Value) : Decidable s.Quiet :=
  inferInstanceAs (Decidable (∀ thread, (s.pc thread).isIdle = true))

/-! ## What is still in the queue -/

/-- A thread that runs alone from `pc` returns `event`. -/
inductive Returns : Memory Value → Pc Value → Memory Value → Event Value → Prop where
  | now {m m' : Memory Value} {pc pc' : Pc Value} {event : Event Value}
      (run : pc.run m false = some (m', pc', some event)) : Returns m pc m' event
  | later {m m' m'' : Memory Value} {pc pc' : Pc Value} {event : Event Value}
      (run : pc.run m false = some (m', pc', none)) (rest : Returns m' pc' m'' event) :
      Returns m pc m'' event

/-- The values that calls of `pop`, one after the other, would return until one of
them returns false. -/
inductive Drains : Memory Value → List (Option Value) → Prop where
  | empty {m m' : Memory Value} (pop : Returns m .loadHead m' .empty) : Drains m []
  | pop {m m' : Memory Value} {value : Option Value} {rest : List (Option Value)}
      (pop : Returns m .loadHead m' (.popped value)) (drains : Drains m' rest) :
      Drains m (value :: rest)

/-- A thread that runs alone returns one thing. -/
theorem Returns.unique {m m₁ m₂ : Memory Value} {pc : Pc Value} {first second : Event Value}
    (one : Returns m pc m₁ first) (other : Returns m pc m₂ second) :
    m₁ = m₂ ∧ first = second := by
  induction one with
  | now run =>
      cases other with
      | now again =>
          rw [run] at again
          cases again
          exact ⟨rfl, rfl⟩
      | later again =>
          rw [run] at again
          cases again
  | later run rest ih =>
      cases other with
      | now again =>
          rw [run] at again
          cases again
      | later again more =>
          rw [run] at again
          cases again
          exact ih more

/-- The values still in the queue are determined. -/
theorem Drains.unique {m : Memory Value} {first second : List (Option Value)}
    (one : Drains m first) (other : Drains m second) : first = second := by
  induction one generalizing second with
  | empty pop =>
      cases other with
      | empty => rfl
      | pop again => cases (pop.unique again).2
  | pop pop drains ih =>
      cases other with
      | empty again => cases (pop.unique again).2
      | pop again more =>
          obtain ⟨rfl, same⟩ := pop.unique again
          cases same
          rw [ih more]

end Drpc.Util.MPMCQueue
