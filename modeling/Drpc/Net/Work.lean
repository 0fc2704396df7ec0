import Drpc.Net.Ending

/-! # The work of the thread

Between two events the thread of an executor runs the coroutines of a connection until both
are suspended or have finished. Each of its steps lowers `Endpoint.work`, which the bytes of
an `async_read` raise again; on a stream that ends it is idle after finitely many steps
(`Reader.Inv.budget_lt`).
-/

namespace Drpc.Net

open Transition Settling

variable {State Call : Type} {endpoint : Endpoint State Call} {calls : Nat → ReadCall}
  {quiet : State → Prop} {tracks : State → Nat → Prop} {s next : Connection State Call}

/-- The thread makes these steps of its own. -/
def Label.Own : Label Call → Prop
  | .read _ | .write _ | .goOn => True
  | .callMethod _ | .userClose | .task | .event .. => False

instance decidableOwn : DecidablePred (@Label.Own Call)
  | .read _ | .write _ | .goOn => .isTrue trivial
  | .callMethod _ | .userClose | .task | .event .. => .isFalse id

/-- The steps `send_fn` still makes on its own, on a connection that is `closed`, or has
output `pending`. -/
def SendState.work (closed pending : Bool) : SendState → Nat
  | .running .top => if closed then 1 else if pending then 5 else 2
  | .running .waitWrite => if closed || pending then 4 else 1
  | .running .asyncWrite => 3
  | .notStarted | .suspended _ | .finished => 0

/-- The steps of `recv_fn` besides its turns. -/
def RecvState.work (closed : Bool) : RecvState → Nat
  | .running .loop => 2
  | .running (.awaiting read) => if closed || read then 3 else 1
  | .notStarted | .suspended | .finished => 0

/-- What is left to do before the thread is idle, with `turns` more turns of `recv_fn`; each
of them may resume `send_fn`, and so may the close. -/
def workOf (turns : Nat) (closed pending : Bool) (send : SendState) (recv : RecvState)
    (readable : Bool) : Nat :=
  8 * turns + (if closed then 0 else 7) + send.work closed pending + recv.work closed +
    if readable then 3 else 0

/-- What the thread has left to do, where `rank` bounds the turns of `recv_fn`. -/
def Endpoint.work (endpoint : Endpoint State Call) (rank : State → Nat)
    (s : Connection State Call) : Nat :=
  workOf (rank s.state) (endpoint.closed s.state) (decide (endpoint.content s ≠ [])) s.send s.recv
    s.readable

theorem SendState.work_le (closed pending : Bool) (send : SendState) :
    send.work closed pending ≤ 5 := by
  unfold work
  repeat' split
  all_goals omega

theorem SendState.work_of_still {send : SendState} (still : send.isRunning = false)
    (closed pending : Bool) : send.work closed pending = 0 := by
  cases send with
  | running point => cases still
  | notStarted | suspended awaiter | finished => rfl

section Work

variable {rank : State → Nat}

/-- A step that only moves `send_fn` on. -/
theorem workOf_lt_of_send {turns : Nat} {closed pending after readable : Bool}
    {send moved : SendState} {recv : RecvState}
    (less : moved.work closed after < send.work closed pending) :
    workOf turns closed after moved recv readable <
      workOf turns closed pending send recv readable := by
  unfold workOf
  omega

/-- A resumed `send_fn` costs no more than a turn of `recv_fn` has freed. -/
theorem work_resumeWrite_le (s : Connection State Call) (still : s.send.isRunning = false) :
    endpoint.work rank s.resumeWrite ≤ endpoint.work rank s + 5 := by
  have readable : s.resumeWrite.readable = s.readable := by
    unfold Connection.resumeWrite
    cases s.send <;> rfl
  have most := s.resumeWrite.send.work_le (endpoint.closed s.state)
    (decide (endpoint.content s.resumeWrite ≠ []))
  unfold Endpoint.work workOf
  rw [state_resumeWrite, recv_resumeWrite, readable, SendState.work_of_still still]
  omega

theorem work_sendFn {point : SendPoint} (running : s.send = .running point)
    (taken : endpoint.sendFn s point = some next) :
    endpoint.work rank next < endpoint.work rank s := by
  cases point with
  | top =>
      cases taken
      apply workOf_lt_of_send
      rw [running]
      change SendState.work _ (decide (endpoint.content s ≠ [])) _ < _
      dsimp only
      cases endpoint.closed s.state <;> cases decide (endpoint.content s ≠ []) <;> decide
  | waitWrite =>
      simp only [Endpoint.sendFn] at taken
      split at taken
      next ready =>
        cases taken
        apply workOf_lt_of_send
        rw [running]
        have goesOn : (endpoint.closed s.state || decide (endpoint.content s ≠ [])) = true := by
          simpa [Endpoint.toWriteBytes, List.length_pos_iff] using ready
        simp only [SendState.work, goesOn, ↓reduceIte]
        omega
      next =>
        cases taken
        apply workOf_lt_of_send
        rw [running]
        simp only [SendState.work]
        split <;> omega
  | asyncWrite => cases taken

/-- `async_write` leaves nothing behind where `send_fn` does not suspend on an open
connection. -/
theorem work_write (writing : s.send = .running .asyncWrite) {results : List WriteResult}
    (counts : endpoint.toWriteBytes s < 2 ^ 31) (taken : endpoint.write s results = some next) :
    endpoint.work rank next < endpoint.work rank s := by
  simp only [Endpoint.write, Option.map_eq_some_iff] at taken
  obtain ⟨outcome, wrote, rfl⟩ := taken
  split
  next =>
    apply workOf_lt_of_send
    rw [writing]
    simp only [SendState.work]
    omega
  next goesOn =>
    apply workOf_lt_of_send
    rw [writing]
    change SendState.work (endpoint.closed s.state)
      (decide ((endpoint.output s.state).drop (s.sent + outcome.written) ≠ [])) _ < 3
    cases closed : endpoint.closed s.state with
    | true =>
        simp only [SendState.work, ↓reduceIte]
        omega
    | false =>
        have need : needWrite (endpoint.toWriteBytes s) = endpoint.toWriteBytes s :=
          Int.bmod_eq_of_le (by omega) (by omega)
        have all : endpoint.toWriteBytes s ≤ outcome.written := by
          rw [closed, need] at goesOn
          simp only [true_and, decide_eq_true_eq] at goesOn
          omega
        have none_ : (endpoint.output s.state).drop (s.sent + outcome.written) = [] := by
          rw [← List.drop_drop, List.drop_eq_nil_iff]
          exact all
        simp [none_, SendState.work]

theorem work_recvFn (lawful : endpoint.Lawful quiet) (ranked : Ranked endpoint.advance rank)
    (still : s.send.isRunning = false) {point : RecvPoint} (running : s.recv = .running point)
    (taken : endpoint.recvFn s point = some next) :
    endpoint.work rank next < endpoint.work rank s := by
  cases point with
  | awaiting read =>
      simp only [Endpoint.recvFn] at taken
      split at taken
      next closed =>
        cases taken
        change workOf _ _ (decide (endpoint.content s ≠ [])) _ _ _ < _
        unfold Endpoint.work workOf
        simp only [closed, running, RecvState.work, Bool.true_or, ↓reduceIte]
        omega
      next opened =>
        cases taken
        change workOf _ _ (decide (endpoint.content s ≠ [])) _ _ _ < _
        unfold Endpoint.work workOf
        cases read <;>
          simp only [running, opened, RecvState.work, Bool.or_true, Bool.or_false, ↓reduceIte,
            Bool.false_eq_true] <;>
          omega
  | loop =>
      simp only [Endpoint.recvFn, Option.map_eq_some_iff] at taken
      obtain ⟨state, advanced, rfl⟩ := taken
      have less := ranked _ _ advanced
      have closed := lawful.advance_closed advanced
      -- the turn itself, with `send_fn` off the stack
      have turn : endpoint.work rank { s with state } + 8 ≤ endpoint.work rank s := by
        unfold Endpoint.work workOf
        simp only [SendState.work_of_still still, running, RecvState.work, closed]
        cases endpoint.closed s.state <;> cases endpoint.ended state <;>
          simp only [Bool.or_true, Bool.or_false, Bool.false_eq_true, ↓reduceIte] <;> omega
      split
      next =>
        have ends : endpoint.work rank { s with state, recv := .finished } ≤
            endpoint.work rank { s with state } := by
          change workOf _ _ (decide (endpoint.content { s with state } ≠ [])) _ _ _ ≤ _
          unfold Endpoint.work workOf
          simp only [RecvState.work]
          omega
        omega
      next =>
        split
        next =>
          have resumes : endpoint.work rank ({ s with state } : Connection State Call).resumeWrite ≤
              endpoint.work rank { s with state } + 5 :=
            work_resumeWrite_le { s with state } still
          omega
        next => omega

theorem work_resumeRead (pending : s.readable = true) :
    endpoint.work rank ({ s with readable := false } : Connection State Call).resumeRead <
      endpoint.work rank s := by
  unfold Connection.resumeRead
  cases recv : s.recv with
  | suspended =>
      change workOf _ _ (decide (endpoint.content s ≠ [])) _ _ _ < _
      simp only [Endpoint.work, workOf, pending, recv, RecvState.work, Bool.false_eq_true,
        ↓reduceIte]
      omega
  | notStarted | running point | finished =>
      change workOf _ _ (decide (endpoint.content s ≠ [])) _ _ _ < _
      simp only [Endpoint.work, workOf, pending, recv, Bool.false_eq_true, ↓reduceIte]
      omega

/-- An `async_read` on an open connection. -/
theorem work_read (lawful : endpoint.Lawful quiet) {call : ReadCall}
    (delivers : rank (endpoint.deliver s.state call) ≤
      rank s.state + 2 * call.outcome.bytes.length)
    (still : s.send.isRunning = false) (inLoop : s.recv = .running .loop)
    (opened : endpoint.closed s.state = false) :
    endpoint.work rank (endpoint.read s call) <
      endpoint.work rank s + 18 * call.outcome.bytes.length := by
  have closed := lawful.deliver_closed s.state call
  rw [opened, Bool.false_or] at closed
  have before : endpoint.work rank s = 8 * rank s.state + 9 + if s.readable then 3 else 0 := by
    unfold Endpoint.work workOf
    rw [SendState.work_of_still still, inLoop, opened]
    rfl
  unfold Endpoint.read
  dsimp only
  rw [closed]
  set read : Connection State Call := { s with
    state := endpoint.deliver s.state call
    recv := .running (.awaiting (decide (call.outcome.bytes ≠ []))) } with reads
  have after : endpoint.work rank read = 8 * rank (endpoint.deliver s.state call) +
      (if call.outcome.closes then 0 else 7) +
        (if (call.outcome.closes || decide (call.outcome.bytes ≠ [])) = true then 3 else 1) +
        if s.readable then 3 else 0 := by
    rw [reads]
    unfold Endpoint.work workOf
    rw [SendState.work_of_still still, closed]
    rfl
  cases closes : call.outcome.closes with
  | true =>
      simp only [closes, ↓reduceIte, Bool.true_or] at after ⊢
      have resumes : endpoint.work rank read.resumeWrite ≤ endpoint.work rank read + 5 :=
        work_resumeWrite_le read still
      omega
  | false =>
      simp only [closes, Bool.false_eq_true, ↓reduceIte, Bool.false_or] at after ⊢
      by_cases none_ : call.outcome.bytes = []
      · have nothing : call.outcome.bytes.length = 0 := by rw [none_, List.length_nil]
        simp only [none_, ne_eq, not_true_eq_false, decide_false, Bool.false_eq_true,
          ↓reduceIte] at after
        omega
      · have some_ := List.length_pos_of_ne_nil none_
        simp only [none_, ne_eq, not_false_eq_true, decide_true, ↓reduceIte] at after
        omega

end Work

/-- What the thread has left to do, with all of the stream that it was not yet given. -/
def Reader.budget (endpoint : Endpoint State Call) (rank : State → Nat) (bytes : Bytes)
    (calls : Nat → ReadCall) (r : Reader State Call) : Nat :=
  endpoint.work rank r.connection +
    18 * (bytes.length - (received (firstCalls calls r.count)).length)

/-- **A step of its own** brings the thread nearer to where it is idle. -/
theorem Reader.Inv.budget_lt {rank : State → Nat} {bytes : Bytes} {r after : Reader State Call}
    (lawful : endpoint.Lawful quiet) (tracked : endpoint.Tracked calls tracks)
    (ranked : Ranked endpoint.advance rank)
    (delivers : ∀ s call, rank (endpoint.deliver s call) ≤ rank s + 2 * call.outcome.bytes.length)
    (stream : ReadsStream bytes calls) (inv : r.Inv endpoint calls tracks) {label : Label Call}
    (heeds : endpoint.Heeds calls quiet r label) (own : label.Own)
    (taken : readerStep endpoint.step r label = some after) :
    after.budget endpoint rank bytes calls < r.budget endpoint rank bytes calls := by
  obtain ⟨next, moved, rfl⟩ := Option.map_eq_some_iff.mp taken
  unfold budget
  dsimp only
  cases label with
  | callMethod call | userClose | task | event hup out in_ => exact own.elim
  | read call =>
      obtain rfl : call = calls r.count := heeds
      simp only [Endpoint.step, Option.ite_none_right_eq_some, Option.some.injEq,
        Option.isNone_iff_eq_none] at moved
      obtain ⟨⟨still, inLoop, awaits⟩, rfl⟩ := moved
      have less := work_read lawful (delivers r.connection.state (calls r.count)) still inLoop
        (inv.opened tracked inLoop awaits)
      have within := (stream.received_prefix (r.count + 1)).length_le
      rw [firstCalls_succ, received_append, List.length_append] at within
      change _ + 18 * (_ - (received (firstCalls calls (r.count + 1))).length) < _
      rw [firstCalls_succ, received_append, List.length_append]
      have single : received [calls r.count] = (calls r.count).outcome.bytes :=
        List.flatMap_singleton ..
      rw [single] at within ⊢
      omega
  | write results =>
      simp only [Endpoint.step, Option.ite_none_right_eq_some] at moved
      exact Nat.add_lt_add_right (work_write moved.1 heeds moved.2) _
  | goOn =>
      apply Nat.add_lt_add_right
      rcases endpoint.goOn_cases moved with ⟨point, sends, goes⟩ | ⟨still, ⟨point, running, goes⟩ |
        ⟨-, pending, rfl⟩⟩
      · exact work_sendFn sends goes
      · exact work_recvFn lawful ranked still running goes
      · exact work_resumeRead pending

end Drpc.Net
