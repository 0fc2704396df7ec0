import Drpc.Library.Transition
import Drpc.Util.Nodes

/-! # The links of a buffer

Every operation of the buffer, with any arguments: whatever becomes of the positions of
the blocks and of the counters, the nodes stay on the chain and on the free list, each
on one of them, and the destructor deletes each once (`links_conserved`).
-/

namespace Drpc.Util

open Transition ChainedBuffer

/-- An operation of the buffer and its arguments. -/
inductive BufferOp where
  | write (data : Bytes)
  | read (length : Nat)
  | commitResv (resv : Int)
  | commitSend (send : Nat)
  | outputNext
  | outputBackUp (count : Int)
  | inputNext
  | inputBackUp (n : Int)
  | clear
  | pushLimit (limit : Int)
  | popLimit
  deriving DecidableEq, Repr

/-- One operation, in at most `turns` turns of its loop. It is `none` where the source
dereferences a null pointer, and for any number of turns where it does not return. -/
def BufferOp.run (blockSize turns : Nat) (b : ChainedBuffer) : BufferOp → Option ChainedBuffer
  | .write data => (writeLoop blockSize turns b data 0).map Prod.fst
  | .read length => (readLoop turns b length []).map Prod.fst
  | .commitResv resv => b.commitResv blockSize resv
  | .commitSend send =>
      if send = 0 then some b
      else commitSendLoop turns { b with totalSize := sizeSub b.totalSize send } send
  | .outputNext => (b.outputNext blockSize).map Prod.fst
  | .outputBackUp count => b.outputBackUp count
  | .inputNext => (b.inputNext blockSize).map Prod.fst
  | .inputBackUp n => b.inputBackUp n
  | .clear => b.clear turns
  | .pushLimit limit => some (b.pushLimit limit)
  | .popLimit => some b.popLimit

/-- The nodes lie on two lists. -/
def Intact (b : ChainedBuffer) : Prop := ∃ nodes free, b.Chained nodes free

section

variable {blockSize turns : Nat} {b next : ChainedBuffer} {node : Ptr}

/-- The counters play no role. -/
theorem Intact.recount (intact : Intact b) (totalSize consumedBytes : Nat) (limit : Int) :
    Intact { b with totalSize, consumedBytes, limit } := by
  obtain ⟨nodes, free, chained⟩ := intact
  exact ⟨nodes, free, chained.congr rfl rfl rfl rfl rfl⟩

/-- A node behind the tail comes from the free list, or is new. -/
theorem Intact.appendNode (intact : Intact b) : Intact b.appendNode := by
  obtain ⟨nodes, free, chained⟩ := intact
  obtain ⟨new, rest, appended, -⟩ := chained.appendNode
  exact ⟨nodes ++ [new], rest, appended⟩

/-- The head goes to the free list. -/
theorem Intact.removeHead (intact : Intact b) : Intact b.removeHead := by
  obtain ⟨nodes, free, chained⟩ := intact
  cases front : b.head with
  | none =>
      have same : b.removeHead = b := by simp only [ChainedBuffer.removeHead, front]
      rw [same]
      exact ⟨nodes, free, chained⟩
  | some head =>
      have chain := chained.chain
      rw [front] at chain
      obtain ⟨rest, rfl, -⟩ := Chain.linked_some chain
      exact ⟨rest, head :: free, chained.removeHead.1⟩

/-- The head is recycled under a condition. -/
theorem Intact.removeHeadIf (intact : Intact b) (condition : Prop) [Decidable condition] :
    Intact (if condition then b.removeHead else b) := by
  split
  · exact intact.removeHead
  · exact intact

/-- A write to the block of the head. -/
theorem Intact.setHead (intact : Intact b) (front : b.head = some node) (block : BufferBlock) :
    Intact (b.setBlock node block) := by
  obtain ⟨nodes, free, chained⟩ := intact
  have chain := chained.chain
  rw [front] at chain
  exact ⟨nodes, free, chained.setBlock (Chain.mem_of_linked chain) block⟩

/-- A write to the block of the tail. -/
theorem Intact.setTail (intact : Intact b) (back : b.tail = some node) (block : BufferBlock) :
    Intact (b.setBlock node block) := by
  obtain ⟨nodes, free, chained⟩ := intact
  have last := chained.tail
  rw [back] at last
  exact ⟨nodes, free, chained.setBlock (List.mem_of_getLast? last.symm) block⟩

/-- A write to the block of the tail behind which a node was appended: `write` and
`output_next` still hold the reference to it. -/
theorem Intact.setOldTail (intact : Intact b) (back : b.tail = some node) (block : BufferBlock) :
    Intact (b.appendNode.setBlock node block) := by
  obtain ⟨nodes, free, chained⟩ := intact
  have last := chained.tail
  rw [back] at last
  have member := List.mem_of_getLast? last.symm
  obtain ⟨new, rest, appended, -⟩ := chained.appendNode
  exact ⟨nodes ++ [new], rest, appended.setBlock (List.mem_append_left _ member) block⟩

/-! ## The loops -/

/-- A loop over the chain ends with it. -/
theorem readLoop_of_null (front : b.head = none) (length : Nat) (taken : Bytes) :
    readLoop turns b length taken = some (b, taken) := by
  unfold readLoop
  cases length with
  | zero => rfl
  | succ length => simp only [front]

/-- So does `clear`. -/
theorem clearLoop_of_null (front : b.head = none) : clearLoop turns b = some b := by
  unfold clearLoop
  simp only [front]

/-- `write` fills the tail and appends. -/
theorem Intact.writeLoop {source : Bytes} {written total : Nat} (intact : Intact b)
    (taken : ChainedBuffer.writeLoop blockSize turns b source written = some (next, total)) :
    Intact next := by
  induction turns generalizing b source written with
  | zero =>
      cases source with
      | nil =>
          cases taken
          exact intact
      | cons byte rest => cases taken
  | succ turns ih =>
      cases source with
      | nil =>
          cases taken
          exact intact
      | cons byte rest =>
          unfold ChainedBuffer.writeLoop at taken
          cases back : b.tail with
          | none => simp only [back, reduceCtorEq] at taken
          | some tail =>
              simp only [back] at taken
              have stored : ∀ block, Intact ((if (b.block tail).full blockSize then b.appendNode
                  else b).setBlock tail block) := by
                intro block
                split
                · exact intact.setOldTail back block
                · exact intact.setTail back block
              refine ih ?_ taken
              exact (stored _).recount _ _ _

/-- `read` takes from the head and recycles. -/
theorem Intact.readLoop {length : Nat} {before result : Bytes} (intact : Intact b)
    (taken : ChainedBuffer.readLoop turns b length before = some (next, result)) :
    Intact next := by
  induction turns generalizing b length before with
  | zero =>
      cases front : b.head with
      | none =>
          rw [readLoop_of_null front] at taken
          cases taken
          exact intact
      | some head =>
          cases length with
          | zero =>
              cases taken
              exact intact
          | succ length =>
              unfold ChainedBuffer.readLoop at taken
              simp only [front, reduceCtorEq] at taken
  | succ turns ih =>
      cases front : b.head with
      | none =>
          rw [readLoop_of_null front] at taken
          cases taken
          exact intact
      | some head =>
          unfold ChainedBuffer.readLoop at taken
          cases length with
          | zero =>
              cases taken
              exact intact
          | succ length =>
              simp only [front] at taken
              have stored : ∀ block, Intact (b.setBlock head block) := intact.setHead front
              refine ih (Intact.removeHeadIf ?_ _) taken
              exact (stored _).recount _ _ _

/-- `commit_send` takes from the head and recycles. -/
theorem Intact.commitSendLoop {send : Nat} (intact : Intact b)
    (taken : ChainedBuffer.commitSendLoop turns b send = some next) : Intact next := by
  induction turns generalizing b send with
  | zero =>
      cases send with
      | zero =>
          cases taken
          exact intact
      | succ send => cases taken
  | succ turns ih =>
      cases send with
      | zero =>
          cases taken
          exact intact
      | succ send =>
          unfold ChainedBuffer.commitSendLoop at taken
          cases front : b.head with
          | none => simp only [front, reduceCtorEq] at taken
          | some head =>
              simp only [front] at taken
              have stored : ∀ block, Intact (b.setBlock head block) := intact.setHead front
              refine ih ?_ taken
              split
              · apply Intact.removeHead
                split
                · exact (stored _).appendNode
                · exact stored _
              · exact stored _

/-- `clear` recycles. -/
theorem Intact.clearLoop (intact : Intact b)
    (taken : ChainedBuffer.clearLoop turns b = some next) : Intact next := by
  induction turns generalizing b with
  | zero =>
      cases front : b.head with
      | none =>
          rw [clearLoop_of_null front] at taken
          cases taken
          exact intact
      | some head =>
          unfold ChainedBuffer.clearLoop at taken
          simp only [front, reduceCtorEq] at taken
  | succ turns ih =>
      cases front : b.head with
      | none =>
          rw [clearLoop_of_null front] at taken
          cases taken
          exact intact
      | some head =>
          unfold ChainedBuffer.clearLoop at taken
          simp only [front] at taken
          exact ih intact.removeHead taken

/-! ## One operation -/

/-- `commit_resv` writes to the tail, and appends when it is full. -/
theorem Intact.commitResv {resv : Int} (intact : Intact b)
    (taken : b.commitResv blockSize resv = some next) : Intact next := by
  unfold ChainedBuffer.commitResv at taken
  split at taken
  · cases back : b.tail with
    | none => simp only [back, reduceCtorEq] at taken
    | some tail =>
        simp only [back, Option.some.injEq] at taken
        subst taken
        have stored : ∀ block, Intact (b.setBlock tail block) := intact.setTail back
        split
        · apply Intact.appendNode
          exact (stored _).recount _ _ _
        · exact (stored _).recount _ _ _
  · cases taken
    exact intact

/-- The region lies in the old tail, also where a node is appended behind it. -/
theorem Intact.outputNext {region : Ptr × Nat × Int} (intact : Intact b)
    (taken : b.outputNext blockSize = some (next, region)) : Intact next := by
  unfold ChainedBuffer.outputNext at taken
  cases back : b.tail with
  | none => simp only [back, reduceCtorEq] at taken
  | some tail =>
      simp only [back] at taken
      by_cases full : (b.block tail).full blockSize = true
      · cases appended : b.appendNode.tail with
        | none =>
            simp only [full, ↓reduceIte, appended, Option.some.injEq, Prod.mk.injEq] at taken
            obtain ⟨rfl, -⟩ := taken
            exact (intact.setOldTail back _).recount _ _ _
        | some new =>
            simp only [full, ↓reduceIte, appended, Option.some.injEq, Prod.mk.injEq,
              setBlock_setBlock] at taken
            obtain ⟨rfl, -⟩ := taken
            exact (intact.setOldTail back _).recount _ _ _
      · simp only [full, Bool.false_eq_true, ↓reduceIte, Option.some.injEq,
          Prod.mk.injEq] at taken
        obtain ⟨rfl, -⟩ := taken
        exact (intact.setTail back _).recount _ _ _

/-- The region is taken from the head, which is recycled when it is empty. -/
theorem Intact.inputNext {region : Option (Ptr × Nat × Int)} (intact : Intact b)
    (taken : b.inputNext blockSize = some (next, region)) : Intact next := by
  unfold ChainedBuffer.inputNext at taken
  cases front : b.head with
  | none => simp only [front, reduceCtorEq] at taken
  | some head =>
      simp only [front] at taken
      split at taken
      · cases taken
        exact intact
      · rw [Option.some.injEq, Prod.mk.injEq] at taken
        obtain ⟨rfl, -⟩ := taken
        set size := min (Int.bmod (b.block head).size (2 ^ 32)) b.limit
        set readPos := wrapAdd (b.block head).readPos size
        set base : ChainedBuffer := { b.setBlock head { b.block head with readPos } with
          limit := if b.limit = noLimit then b.limit else b.limit - size
          consumedBytes := sizeAdd b.consumedBytes size }
        have stored : Intact base := (intact.setHead front _).recount _ _ _
        exact (stored.removeHeadIf _).recount _ _ _

/-- **One operation** leaves the nodes on the two lists. -/
theorem Intact.step (intact : Intact b) {op : BufferOp}
    (taken : op.run blockSize turns b = some next) : Intact next := by
  cases op with
  | write data =>
      obtain ⟨⟨_, total⟩, returned, rfl⟩ := Option.map_eq_some_iff.mp taken
      exact intact.writeLoop returned
  | read length =>
      obtain ⟨⟨_, result⟩, returned, rfl⟩ := Option.map_eq_some_iff.mp taken
      exact intact.readLoop returned
  | commitResv resv => exact intact.commitResv taken
  | commitSend send =>
      simp only [BufferOp.run] at taken
      split at taken
      · cases taken
        exact intact
      · refine Intact.commitSendLoop ?_ taken
        exact intact.recount _ _ _
  | outputNext =>
      obtain ⟨⟨_, region⟩, returned, rfl⟩ := Option.map_eq_some_iff.mp taken
      exact intact.outputNext returned
  | outputBackUp count =>
      simp only [BufferOp.run, outputBackUp] at taken
      cases back : b.tail with
      | none => simp only [back, reduceCtorEq] at taken
      | some tail =>
          simp only [back, Option.some.injEq] at taken
          subst taken
          exact (intact.setTail back _).recount _ _ _
  | inputNext =>
      obtain ⟨⟨_, region⟩, returned, rfl⟩ := Option.map_eq_some_iff.mp taken
      exact intact.inputNext returned
  | inputBackUp n =>
      simp only [BufferOp.run, inputBackUp] at taken
      cases front : b.head with
      | none => simp only [front, reduceCtorEq] at taken
      | some head =>
          simp only [front, Option.some.injEq] at taken
          subst taken
          exact (intact.setHead front _).recount _ _ _
  | clear =>
      obtain ⟨_, returned, rfl⟩ := Option.map_eq_some_iff.mp taken
      exact (intact.clearLoop returned).recount _ _ _
  | pushLimit limit =>
      cases taken
      exact intact.recount _ _ _
  | popLimit =>
      cases taken
      exact intact.recount _ _ _

/-! ## More turns -/

/-- A `write` that returned returns the same with one more turn. -/
theorem writeLoop_succ {source : Bytes} {written : Nat} {result : ChainedBuffer × Nat}
    (taken : writeLoop blockSize turns b source written = some result) :
    writeLoop blockSize (turns + 1) b source written = some result := by
  induction turns generalizing b source written with
  | zero =>
      cases source with
      | nil => exact taken
      | cons byte rest => cases taken
  | succ turns ih =>
      cases source with
      | nil => exact taken
      | cons byte rest =>
          unfold writeLoop at taken ⊢
          cases back : b.tail with
          | none => simp only [back, reduceCtorEq] at taken
          | some tail =>
              simp only [back] at taken ⊢
              exact ih taken

/-- A `read` does. -/
theorem readLoop_succ {length : Nat} {before : Bytes} {result : ChainedBuffer × Bytes}
    (taken : readLoop turns b length before = some result) :
    readLoop (turns + 1) b length before = some result := by
  induction turns generalizing b length before with
  | zero =>
      cases front : b.head with
      | none => rwa [readLoop_of_null front] at taken ⊢
      | some head =>
          cases length with
          | zero => exact taken
          | succ length =>
              unfold readLoop at taken
              simp only [front, reduceCtorEq] at taken
  | succ turns ih =>
      cases front : b.head with
      | none => rwa [readLoop_of_null front] at taken ⊢
      | some head =>
          cases length with
          | zero => exact taken
          | succ length =>
              unfold readLoop at taken ⊢
              simp only [front] at taken ⊢
              exact ih taken

/-- A `commit_send` does. -/
theorem commitSendLoop_succ {send : Nat} (taken : commitSendLoop turns b send = some next) :
    commitSendLoop (turns + 1) b send = some next := by
  induction turns generalizing b send with
  | zero =>
      cases send with
      | zero => exact taken
      | succ send => cases taken
  | succ turns ih =>
      cases send with
      | zero => exact taken
      | succ send =>
          unfold commitSendLoop at taken ⊢
          cases front : b.head with
          | none => simp only [front, reduceCtorEq] at taken
          | some head =>
              simp only [front] at taken ⊢
              exact ih taken

/-- A `clear` does. -/
theorem clearLoop_succ (taken : clearLoop turns b = some next) :
    clearLoop (turns + 1) b = some next := by
  induction turns generalizing b with
  | zero =>
      cases front : b.head with
      | none => rwa [clearLoop_of_null front] at taken ⊢
      | some head =>
          unfold clearLoop at taken
          simp only [front, reduceCtorEq] at taken
  | succ turns ih =>
      cases front : b.head with
      | none => rwa [clearLoop_of_null front] at taken ⊢
      | some head =>
          unfold clearLoop at taken ⊢
          simp only [front] at taken ⊢
          exact ih taken

/-- A result does not depend on the number of turns that are allowed. -/
theorem BufferOp.run_mono {op : BufferOp} {more : Nat} (fewer : turns ≤ more)
    (taken : op.run blockSize turns b = some next) : op.run blockSize more b = some next := by
  induction fewer with
  | refl => exact taken
  | step _ ih =>
      cases op with
      | write data =>
          obtain ⟨result, returned, rfl⟩ := Option.map_eq_some_iff.mp ih
          simp only [BufferOp.run, writeLoop_succ returned, Option.map_some]
      | read length =>
          obtain ⟨result, returned, rfl⟩ := Option.map_eq_some_iff.mp ih
          simp only [BufferOp.run, readLoop_succ returned, Option.map_some]
      | commitSend send =>
          simp only [BufferOp.run] at ih ⊢
          split at ih
          next none_ => rwa [if_pos none_]
          next some_ => rw [if_neg some_, commitSendLoop_succ ih]
      | clear =>
          obtain ⟨result, returned, rfl⟩ := Option.map_eq_some_iff.mp ih
          simp only [BufferOp.run, ChainedBuffer.clear, clearLoop_succ returned, Option.map_some]
      | commitResv | outputNext | outputBackUp | inputNext | inputBackUp | pushLimit | popLimit =>
          exact ih

/-! ## Runs and the destructor -/

/-- **The invariant holds in every run.** -/
theorem intact_of_run {memory : Ptr → Nat → UInt8} {ops : List BufferOp}
    (run : exec (BufferOp.run blockSize turns) (init memory) ops = some b) : Intact b :=
  exec_invariant (fun _ _ _ intact _ taken => intact.step taken) ⟨[0], [], chained_init memory⟩ run
    (along_of_forall_mem (fun _ _ => trivial) _)

variable {nodes free : List Ptr}

/-- The two lists hold the allocated nodes. -/
theorem ChainedBuffer.Chained.perm (chained : b.Chained nodes free) :
    (nodes ++ free).Perm (List.range b.fresh) :=
  (List.perm_ext_iff_of_nodup chained.nodup List.nodup_range).mpr fun node => by
    rw [chained.allocated, List.mem_range]

/-- `clear` moves the chain to the free list, node by node. -/
theorem ChainedBuffer.Chained.clearLoop (chained : b.Chained nodes free)
    (enough : nodes.length ≤ turns) :
    ∃ next, ChainedBuffer.clearLoop turns b = some next ∧ next.fresh = b.fresh ∧
      next.Chained [] (nodes.reverse ++ free) := by
  induction nodes generalizing b free turns with
  | nil => exact ⟨b, clearLoop_of_null chained.chain, rfl, chained⟩
  | cons head rest ih =>
      obtain ⟨turns, rfl⟩ : ∃ less, turns = less + 1 := ⟨turns - 1, by simp at enough; omega⟩
      have front : b.head = some head := chained.chain.1
      have kept : b.removeHead.fresh = b.fresh := by
        simp only [ChainedBuffer.removeHead, front]
        rfl
      obtain ⟨next, returned, fresh, cleared⟩ := ih chained.removeHead.1
        (Nat.le_of_succ_le_succ enough)
      refine ⟨next, ?_, fresh.trans kept, ?_⟩
      · unfold ChainedBuffer.clearLoop
        simp only [front, returned]
      · rwa [List.reverse_cons, List.append_assoc, List.singleton_append]

/-- The loop of the destructor deletes the nodes of the free list. -/
theorem deleteLoop_of_linked (linked : Chain.Linked b.next b.freeList free)
    (enough : free.length ≤ turns) : deleteLoop turns b = some free := by
  induction free generalizing b turns with
  | nil =>
      unfold deleteLoop
      rw [show b.freeList = none from linked]
  | cons node rest ih =>
      obtain ⟨turns, rfl⟩ : ∃ less, turns = less + 1 := ⟨turns - 1, by simp at enough; omega⟩
      obtain ⟨front, linked⟩ := linked
      have deleted : deleteLoop turns { b with freeList := b.next node } = some rest :=
        ih linked (Nat.le_of_succ_le_succ enough)
      unfold deleteLoop
      simp only [front, deleted, Option.map_some]

/-- **The destructor** deletes each node that was allocated once. -/
theorem Intact.destroy (intact : Intact b) :
    ∃ deleted, b.destroy b.fresh = some deleted ∧ deleted.Perm (List.range b.fresh) := by
  obtain ⟨nodes, free, chained⟩ := intact
  have total := chained.perm.length_eq
  rw [List.length_append, List.length_range] at total
  obtain ⟨next, cleared, fresh, emptied⟩ :=
    chained.clearLoop (by omega : nodes.length ≤ b.fresh)
  have all : (nodes.reverse ++ free).Perm (List.range b.fresh) := by
    rw [← fresh]
    exact emptied.perm
  have deleted : deleteLoop b.fresh { next with totalSize := 0 } = some (nodes.reverse ++ free) :=
    deleteLoop_of_linked emptied.freeList (by rw [all.length_eq, List.length_range])
  refine ⟨nodes.reverse ++ free, ?_, all⟩
  rw [ChainedBuffer.destroy, clear, cleared, Option.map_some, Option.bind_some, deleted]

end

/-- **The links are conserved.** After any operations with any arguments, up to one that
dereferences a null pointer or does not return, `head_` and `tail_` are null together;
the chain from `head_` ends at `tail_`, whose link is null; the chain and the free list
have no node twice or in common, and hold all nodes that were allocated; the nodes on
the free list are reset; and the destructor deletes each node once. -/
theorem links_conserved (blockSize turns : Nat) (memory : Ptr → Nat → UInt8)
    (ops : List BufferOp) (b : ChainedBuffer)
    (run : exec (BufferOp.run blockSize turns) (init memory) ops = some b) :
    (b.head = none ↔ b.tail = none) ∧
      (∃ nodes free, b.Chained nodes free ∧ ∀ tail ∈ b.tail, b.next tail = none) ∧
      ∃ deleted, b.destroy b.fresh = some deleted ∧ deleted.Perm (List.range b.fresh) := by
  have intact := intact_of_run run
  have deleted := intact.destroy
  obtain ⟨nodes, free, chained⟩ := intact
  rcases List.eq_nil_or_concat' nodes with rfl | ⟨before, last, rfl⟩
  · have back : b.tail = none := chained.tail
    exact ⟨iff_of_true chained.chain back, ⟨[], free, chained, by simp [back]⟩, deleted⟩
  · have back : b.tail = some last := by rw [chained.tail, List.getLast?_concat]
    have front : b.head ≠ none := by
      intro null
      have chain := chained.chain
      rw [null] at chain
      cases before <;> cases chain.1
    refine ⟨iff_of_false front (by simp [back]), ⟨_, free, chained, ?_⟩, deleted⟩
    intro tail same
    cases back.symm.trans same
    exact Chain.next_of_last chained.chain

/-- Two blocks are filled and sent, with a node appended, recycled and taken again. -/
theorem links_conserved_of_two : ∃ b, exec (BufferOp.run 4096 9) (init fun _ _ => 0)
      [.commitResv 4096, .outputNext, .commitSend 8192, .outputNext, .read 1, .clear] = some b ∧
    b.head = none ∧ b.tail = none ∧
    ∃ deleted, b.destroy b.fresh = some deleted ∧ deleted.Perm (List.range b.fresh) := by
  have runs : ∃ b ∈ exec (BufferOp.run 4096 9) (init fun _ _ => 0)
      [.commitResv 4096, .outputNext, .commitSend 8192, .outputNext, .read 1, .clear],
      b.head = none := by
    decide +kernel
  obtain ⟨b, run, front⟩ := runs
  obtain ⟨both, -, deleted⟩ := links_conserved 4096 9 (fun _ _ => 0) _ b run
  exact ⟨b, run, front, both.mp front, deleted⟩

end Drpc.Util
