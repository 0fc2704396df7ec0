import Drpc.Util.MpmcDrain

/-! # A thread that runs alone

When only one thread calls the queue, what it has loaded stays what memory holds
(`Pc.Current`). A `compare_exchange_weak` that fails then takes it back to where it was:
whatever fails on the way, the call comes to the end that it comes to when nothing fails
(`During.returns`, `During.ends`).
-/

namespace Drpc.Util.MPMCQueue

variable {Value : Type}

/-- A thread that runs alone from `pc` comes to `pc'` and has not returned. Each
`compare_exchange_weak` may fail on the way. -/
inductive During : Memory Value → Pc Value → Memory Value → Pc Value → Prop where
  | start (m : Memory Value) (pc : Pc Value) : During m pc m pc
  | step {m m' m'' : Memory Value} {pc pc' pc'' : Pc Value} (during : During m pc m' pc')
      (spurious : Bool) (run : pc'.run m' spurious = some (m'', pc'', none)) : During m pc m'' pc''

/-- What the thread has loaded is what memory holds. -/
def Pc.Current (m : Memory Value) : Pc Value → Prop
  | .loadPopIndex head => m.headChunk = head
  | .loadPushIndex head index => m.headChunk = head ∧ m.popIndex head = index
  | .claimPop head index => m.headChunk = head ∧ m.popIndex head = index ∧ index < chunkSize ∧
      index < m.pushIndex head
  | .loadFreeNext _ _ chunk => m.freeList = some chunk
  | .takeFree _ _ chunk next => m.freeList = some chunk ∧ m.next chunk = next
  | .storeNext _ old _ => m.freeList = old
  | .pushFree chunk old _ => m.freeList = old ∧ m.next chunk = old
  | _ => True

variable {m m' m'' : Memory Value} {pc pc' : Pc Value} {event : Event Value} {spurious : Bool}

theorem current_resume (after : After Value) : after.resume.1.Current m := by
  cases after <;> trivial

theorem current_allocateFrom (value : Value) (tail : ChunkPtr) :
    (allocateFrom value tail m.freeList).Current m := by
  cases first : m.freeList with
  | none => trivial
  | some chunk => exact first

/-- A thread that runs alone has loaded what memory holds. -/
theorem Pc.Current.run (current : pc.Current m) {ended : Option (Event Value)}
    (taken : pc.run m spurious = some (m', pc', ended)) : pc'.Current m' := by
  cases pc with
  | idle => cases taken
  | loadTail | construct | storeTail | moveTail | resetPush | resetPop | resetNext | resetReaders
  | resetRetired | newChunk | enter | takeSlot | leave | storeRetired =>
      cases taken
      trivial
  | claimPush value tail =>
      cases taken
      split <;> trivial
  | checkSlot value tail index | waitSlot head index =>
      cases taken
      split <;> trivial
  | linkNext value tail new =>
      simp only [Pc.run] at taken
      split at taken <;> cases taken <;> trivial
  | loadFree value tail =>
      cases taken
      exact current_allocateFrom value tail
  | loadFreeNext value tail chunk =>
      cases taken
      exact ⟨current, rfl⟩
  | takeFree value tail chunk next =>
      simp only [Pc.run] at taken
      split at taken <;> cases taken
      · trivial
      · exact current_allocateFrom value tail
  | loadHead =>
      cases taken
      exact rfl
  | loadPopIndex head =>
      cases taken
      exact ⟨current, rfl⟩
  | loadPushIndex head index =>
      cases taken
      split
      · trivial
      next inRange =>
        split
        · trivial
        next filled =>
          exact ⟨current.1, current.2, Nat.lt_of_not_le inRange, Nat.lt_of_not_le filled⟩
  | loadNextConsumed head | moveHeadConsumed head next | loadNextEmpty head
  | moveHeadEmpty head next | claimPop head index =>
      simp only [Pc.run] at taken
      split at taken <;> cases taken <;> trivial
  | loadReaders chunk after | clearRetired chunk after =>
      simp only [Pc.run] at taken
      split at taken
      · cases taken
        trivial
      · obtain ⟨rfl, rfl⟩ := resumed taken
        exact current_resume after
  | loadFreeHead chunk after =>
      cases taken
      exact rfl
  | storeNext chunk old after =>
      cases taken
      exact ⟨current, by simp⟩
  | pushFree chunk old after =>
      simp only [Pc.run] at taken
      split at taken
      · obtain ⟨rfl, rfl⟩ := resumed taken
        exact current_resume after
      · cases taken
        exact rfl

/-- A store of what the link holds already changes nothing. -/
theorem setNext_eq_self {chunk : ChunkPtr} {old : Option ChunkPtr} (link : m.next chunk = old) :
    m.setNext chunk old = m := by
  subst link
  simp only [Memory.setNext, Memory.setChunk, Memory.next]
  rw [Function.update_eq_self]

/-- **A failure takes the thread back to where it was.** -/
theorem Pc.Current.returns (current : pc.Current m)
    (taken : pc.run m spurious = some (m', pc', none)) (returns : Returns m pc m'' event) :
    Returns m' pc' m'' event := by
  have surely : pc.run m false = some (m', pc', none) → Returns m' pc' m'' event := by
    intro same
    cases returns with
    | now run =>
        rw [same] at run
        cases run
    | later run rest =>
        rw [same] at run
        cases run
        exact rest
  cases spurious with
  | false => exact surely taken
  | true =>
      cases pc with
      | takeFree value tail chunk next =>
          obtain ⟨first, link⟩ := current
          simp only [Pc.run, Bool.true_eq_false, false_and, if_false] at taken
          cases taken
          rw [first, allocateFrom]
          have again : (Pc.loadFreeNext value tail chunk).run m false =
              some (m, .takeFree value tail chunk next, none) := by
            rw [← link]
            rfl
          exact .later again returns
      | claimPop head index =>
          obtain ⟨isHead, isIndex, inRange, filled⟩ := current
          simp only [Pc.run, Bool.true_eq_false, false_and, if_false] at taken
          cases taken
          subst isHead isIndex
          have again : (Pc.loadPushIndex m.headChunk (m.popIndex m.headChunk) : Pc Value).run m
              false = some (m, .claimPop m.headChunk (m.popIndex m.headChunk), none) := by
            simp [Pc.run, Nat.not_le.mpr inRange, Nat.not_le.mpr filled]
          exact .later rfl (.later rfl (.later again returns))
      | pushFree chunk old after =>
          obtain ⟨first, link⟩ := current
          simp only [Pc.run, Bool.true_eq_false, false_and, if_false] at taken
          cases taken
          have again : (Pc.storeNext chunk m.freeList after).run m false =
              some (m, .pushFree chunk old after, none) := by
            simp only [Pc.run, first, setNext_eq_self link]
          exact .later again returns
      | _ => exact surely taken

/-- A thread that returns has not failed. -/
theorem Pc.run_of_event (taken : pc.run m spurious = some (m', pc', some event)) :
    pc.run m false = some (m', pc', some event) := by
  cases spurious with
  | false => exact taken
  | true =>
      cases pc with
      | takeFree value tail chunk next =>
          simp only [Pc.run, Bool.true_eq_false, false_and, if_false] at taken
          cases taken
      | claimPop head index =>
          simp only [Pc.run, Bool.true_eq_false, false_and, if_false] at taken
          cases taken
      | pushFree chunk old after =>
          simp only [Pc.run, Bool.true_eq_false, false_and, if_false] at taken
          cases taken
      | _ => exact taken

/-- **From wherever a call is**, it comes to the end it comes to when nothing fails. -/
theorem During.returns (during : During m pc m' pc') (current : pc.Current m)
    (returns : Returns m pc m'' event) : pc'.Current m' ∧ Returns m' pc' m'' event := by
  induction during with
  | start => exact ⟨current, returns⟩
  | step during spurious run ih =>
      obtain ⟨here, rest⟩ := ih current returns
      exact ⟨here.run run, here.returns run rest⟩

/-- The end of a call. -/
theorem During.ends (during : During m pc m' pc') (current : pc.Current m)
    (returns : Returns m pc m'' event) {last : Memory Value} {behind : Pc Value}
    {ended : Event Value} (run : pc'.run m' spurious = some (last, behind, some ended)) :
    last = m'' ∧ ended = event :=
  (Returns.now (Pc.run_of_event run)).unique (during.returns current returns).2

/-- A call that returns has come to its last step. -/
theorem Returns.during (returns : Returns m pc m'' event) :
    ∃ m' pc' behind, During m pc m' pc' ∧ pc'.run m' false = some (m'', behind, some event) := by
  suffices ends : ∀ {m₀ pc₀}, During m₀ pc₀ m pc →
      ∃ m' pc' behind, During m₀ pc₀ m' pc' ∧ pc'.run m' false = some (m'', behind, some event) from
    ends (.start m pc)
  intro m₀ pc₀ before
  induction returns with
  | now run => exact ⟨_, _, _, before, run⟩
  | later run rest ih => exact ih (before.step false run)

end Drpc.Util.MPMCQueue
