import Drpc.Util.MpmcAlone
import Drpc.Util.MpmcFifo

/-! # The task queue in the hands of one thread

Calls that one thread makes one after another return what they return on a plain FIFO
queue, whatever `compare_exchange_weak` fails on the way, and each of them comes to an end
(`refines_fifo`). The runs of the queue with one thread are such calls (`calls_of_run`).
-/

namespace Drpc.Util.MPMCQueue

open Transition Chain

variable {Value : Type}

/-- What calls of a plain FIFO queue return, one after the other. -/
def replies : List Value → List (Call Value) → List (Event Value)
  | _, [] => []
  | queue, call :: rest => (fifo queue call).1 :: replies (fifo queue call).2 rest

/-- Calls that one thread makes one after another, with what they return. -/
inductive Calls : Memory Value → List (Call Value × Event Value) → Memory Value → Prop where
  | nil (m : Memory Value) : Calls m [] m
  | cons {m m₁ m₂ m₃ : Memory Value} {call : Call Value} {pc behind : Pc Value} {spurious : Bool}
      {event : Event Value} {rest : List (Call Value × Event Value)}
      (during : During m call.start m₁ pc)
      (returns : pc.run m₁ spurious = some (m₂, behind, some event))
      (calls : Calls m₂ rest m₃) : Calls m ((call, event) :: rest) m₃

/-- How the chunks lie between two calls. -/
structure Memory.Tidy (m : Memory Value) (chain free : List ChunkPtr) : Prop where
  linked : Linked m.next (some m.headChunk) chain
  ends : chain.getLast? = some m.tailChunk
  freeLinked : Linked m.next m.freeList free
  nodup : (chain ++ free).Nodup
  blank : ∀ chunk ∈ free, ∀ index < chunkSize, m.slot chunk index = none
  counted : m.chunkCount = chain.length + free.length

variable {m m' : Memory Value} {chain free : List ChunkPtr} {queue : List Value}

theorem Sequential.tidy (seq : Sequential m chain free queue) : m.Tidy chain free where
  linked := seq.linked
  ends := by
    obtain ⟨before, rfl⟩ := seq.ends
    exact List.getLast?_concat
  freeLinked := seq.freeLinked
  nodup := seq.nodup
  blank := seq.blank
  counted := seq.counted

/-! ## Calls one after another -/

theorem current_start (call : Call Value) : call.start.Current m := by
  cases call <;> trivial

/-- Calls one after another return what they return on a FIFO queue. -/
theorem Sequential.calls (seq : Sequential m chain free queue)
    {history : List (Call Value × Event Value)} (calls : Calls m history m') :
    history.map Prod.snd = replies queue (history.map Prod.fst) ∧
      ∃ chain free queue, Sequential m' chain free queue := by
  induction calls generalizing chain free queue with
  | nil => exact ⟨rfl, chain, free, queue, seq⟩
  | @cons m _ _ _ call _ _ _ event rest during returned calls ih =>
      obtain ⟨_, chain', free', returns, behind⟩ := seq.call call
      obtain ⟨rfl, rfl⟩ := during.ends (current_start call) returns returned
      obtain ⟨same, last⟩ := ih behind
      exact ⟨congrArg (_ :: ·) same, last⟩

/-- Any calls can be made one after another. -/
theorem Sequential.exists_calls (seq : Sequential m chain free queue) (calls : List (Call Value)) :
    ∃ history m', history.map Prod.fst = calls ∧ Calls m history m' := by
  induction calls generalizing m chain free queue with
  | nil => exact ⟨[], m, rfl, .nil m⟩
  | cons call rest ih =>
      obtain ⟨m₂, chain', free', returns, behind⟩ := seq.call call
      obtain ⟨m₁, pc, pc', during, returned⟩ := returns.during
      obtain ⟨history, m', same, calls⟩ := ih behind
      exact ⟨(call, _) :: history, m', congrArg (call :: ·) same, .cons during returned calls⟩

/-- **One thread has a FIFO queue.** Any calls can be made one after another on a new
queue. They return what they return on a plain FIFO queue; behind them the chain ends at
`tail_chunk`, it and the free list have no chunk twice or in common, the free chunks are
empty and `chunk_count` counts them all; and from wherever a further call is, it returns. -/
theorem refines_fifo (calls : List (Call Value)) :
    (∃ history m, history.map Prod.fst = calls ∧ Calls .init history m) ∧
      ∀ history (m : Memory Value), history.map Prod.fst = calls → Calls .init history m →
        history.map Prod.snd = replies [] calls ∧ (∃ chain free, m.Tidy chain free) ∧
          ∀ (call : Call Value) m' pc, During m call.start m' pc →
            ∃ m'' event, Returns m' pc m'' event := by
  refine ⟨sequential_init.exists_calls calls, fun history m same made => ?_⟩
  obtain ⟨replied, chain, free, queue, seq⟩ := sequential_init.calls made
  rw [same] at replied
  refine ⟨replied, ⟨chain, free, seq.tidy⟩, fun call m' pc during => ?_⟩
  obtain ⟨m'', chain', free', returns, -⟩ := seq.call call
  exact ⟨m'', _, (during.returns (current_start call) returns).2⟩

/-- A push and two pops: the second one finds the queue empty. -/
theorem refines_fifo_of_three : ∃ history m,
    Calls .init history m ∧ history.map Prod.snd = [.pushed 7, .popped (some 7), .empty] ∧
      ∃ chain free, m.Tidy chain free := by
  obtain ⟨⟨history, m, same, made⟩, all⟩ := refines_fifo [.push 7, .pop, .pop]
  obtain ⟨replied, tidy, -⟩ := all history m same made
  exact ⟨history, m, made, replied, tidy⟩

/-! ## Runs with one thread -/

/-- A thread is idle exactly when its call has returned. -/
theorem isIdle_run {pc pc' : Pc Value} {spurious : Bool} {ended : Option (Event Value)}
    (taken : pc.run m spurious = some (m', pc', ended)) : pc'.isIdle = ended.isSome := by
  cases pc with
  | idle => cases taken
  | loadTail | construct | storeTail | moveTail | loadFreeNext | resetPush | resetPop | resetNext
  | resetReaders | resetRetired | newChunk | loadHead | loadPopIndex | enter | takeSlot | leave
  | storeRetired | loadFreeHead | storeNext =>
      cases taken
      rfl
  | claimPush | checkSlot | waitSlot =>
      cases taken
      split <;> rfl
  | loadPushIndex =>
      cases taken
      split
      · rfl
      · split <;> rfl
  | loadFree =>
      cases taken
      cases m.freeList <;> rfl
  | linkNext | loadNextConsumed | moveHeadConsumed | loadNextEmpty | moveHeadEmpty | claimPop =>
      simp only [Pc.run] at taken
      split at taken <;> cases taken <;> rfl
  | takeFree =>
      simp only [Pc.run] at taken
      split at taken <;> cases taken
      · rfl
      · cases m.freeList <;> rfl
  | loadReaders chunk after | clearRetired chunk after | pushFree chunk old after =>
      simp only [Pc.run] at taken
      split at taken
      · cases after <;> cases taken <;> rfl
      · cases after <;> cases taken <;> rfl

/-- One more call. -/
theorem Calls.concat {history : List (Call Value × Event Value)} (calls : Calls m history m')
    {call : Call Value} {m₁ m₂ : Memory Value} {pc behind : Pc Value} {spurious : Bool}
    {event : Event Value} (during : During m' call.start m₁ pc)
    (returned : pc.run m₁ spurious = some (m₂, behind, some event)) :
    Calls m (history ++ [(call, event)]) m₂ := by
  induction calls with
  | nil => exact .cons during returned (.nil _)
  | cons first ended _ ih => exact .cons first ended (ih during)

/-- A run of one thread has made calls one after another. -/
def State.HasCalled (s : State Unit Value) : Prop :=
  ∃ history m, Calls .init history m ∧
    if (s.pc ()).isIdle then s.memory = m
    else ∃ call : Call Value, During m call.start s.memory (s.pc ())

/-- **Every run of one thread** makes calls one after another. -/
theorem calls_of_run {labels : List (Label Unit Value)} {s : State Unit Value}
    (run : exec MPMCQueue.step .init labels = some s) : s.HasCalled := by
  have start : (State.init : State Unit Value).HasCalled := ⟨[], .init, .nil _, rfl⟩
  have free : Along MPMCQueue.step (fun _ _ => True) (State.init : State Unit Value) labels :=
    along_of_forall_mem (fun _ _ => trivial) _
  refine exec_invariant ?_ start run free
  intro s label next called _ taken
  obtain ⟨history, m, calls, at_⟩ := called
  rcases step_cases taken with ⟨thread, call, idle, rfl⟩ |
    ⟨thread, spurious, memory, now, event, rfl, ran, rfl⟩
  · rw [idle] at at_
    obtain rfl : s.memory = m := at_
    have started : call.start.isIdle = false := by
      cases call <;> rfl
    refine ⟨history, s.memory, calls, ?_⟩
    rw [State.pc_setPc, Function.update_self, if_neg (Bool.eq_false_iff.mp started)]
    exact ⟨call, .start _ _⟩
  · have busy : ¬ (s.pc ()).isIdle = true := by
      intro idle
      rw [Pc.eq_idle idle] at ran
      cases ran
    rw [if_neg busy] at at_
    obtain ⟨call, during⟩ := at_
    have ended : now.isIdle = event.isSome := isIdle_run ran
    cases event with
    | none =>
        refine ⟨history, m, calls, ?_⟩
        rw [memory_record, pc_record, State.pc_setPc, Function.update_self,
          if_neg (Bool.eq_false_iff.mp ended)]
        exact ⟨call, during.step spurious ran⟩
    | some event =>
        refine ⟨_, memory, calls.concat during ran, ?_⟩
        rw [memory_record, pc_record, State.pc_setPc, Function.update_self]
        exact if_pos ended ▸ rfl

end Drpc.Util.MPMCQueue
