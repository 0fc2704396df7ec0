import Drpc.Net.ByteQueue
import Drpc.Net.Work

/-! # The coroutines on the buffers

The coroutines of a connection as in `Net.Coroutines`, with a read buffer and a write buffer
that are chains of blocks. An operation of theirs can dereference a null pointer, or not
return; there the step is undefined. An endpoint on buffers refines an ideal one when its
operations do, under a condition on the turns of `recv_fn` and on the closures of
`CallMethod`; every careful step is then the same step of the ideal coroutines
(`BufferedEndpoint.Refines.step`), and no step of the thread is undefined
(`BufferedEndpoint.Refines.goes`).
-/

namespace Drpc.Net

variable {State Call Ideal : Type}

/-- What a side of the library puts into a connection, on its buffers; `none` stands where
the code would dereference a null pointer or not return. -/
structure BufferedEndpoint (State Call : Type) where
  init : State
  /-- `recv_fn` awaits `async_read`. -/
  awaits : State → Bool
  /-- `recv_fn` between two awaits. -/
  advance : State → Option State
  /-- The room of the view that `async_read` takes. -/
  room : State → Option Nat
  /-- The bytes an `async_read` commits, and the close at the end of the stream. -/
  read : State → List ReadResult → Option State
  /-- `to_write_bytes` -/
  toWriteBytes : State → Nat
  /-- What `async_write` offers to every `::writev`. -/
  offered : State → Bytes
  /-- `async_write`, with the number of bytes it has written. -/
  write : State → List WriteResult → Option (State × Nat)
  /-- `recv_fn` has left its loop. -/
  ended : State → Bool
  closed : State → Bool
  /-- `Connection::close` -/
  close : State → State
  /-- `ClientChannel::close`; the server offers none. -/
  userClose : State → Option State
  /-- The closure of `CallMethod` up to its `resume_write`. -/
  sendRequest : State → Call → Option State
  /-- This advance has written a response, and `resume_write` follows. -/
  answers : State → State → Bool

namespace BufferedEndpoint

variable (buffered : BufferedEndpoint State Call)

/-- A new connection: `send_fn` is spawned before `recv_fn`. -/
def connect : Connection State Call where
  state := buffered.init
  sent := 0
  recv := .notStarted
  send := .notStarted
  readHandle := false
  writeHandle := false
  registered := false
  armed := false
  tasks := [.sendFn, .recvFn]
  readable := false
  resumed := []

/-- `send_fn` goes on, up to `async_write`. -/
def sendFn (s : Connection State Call) : SendPoint → Option (Connection State Call)
  | .top =>
      some { s with send := if buffered.closed s.state then .finished else .running .waitWrite }
  | .waitWrite =>
      if buffered.closed s.state = true ∨ 0 < buffered.toWriteBytes s.state then
        some { s with send := .running .asyncWrite }
      else some { s with writeHandle := true, send := .suspended .waitWrite }
  | .asyncWrite => none

/-- `async_write` and its `WriteAwaiter`. -/
def asyncWrite (s : Connection State Call) (results : List WriteResult) :
    Option (Connection State Call) :=
  (buffered.write s.state results).map fun (state, written) =>
    let short : Bool := decide ((written : Int) < needWrite (buffered.toWriteBytes s.state))
    let s := { s with state, sent := s.sent + written }
    if buffered.closed s.state = false ∧ short = true then
      { s with writeHandle := true, armed := s.registered, send := .suspended .write }
    else { s with send := .running .top }

/-- `async_read` up to its awaiter: on a closed connection `send_fn` is resumed. -/
def asyncRead (s : Connection State Call) (call : ReadCall) : Option (Connection State Call) :=
  if buffered.room s.state = some call.space then
    (buffered.read s.state call.results).map fun state =>
      let s := { s with
        state, recv := .running (.awaiting (decide (bytesOf call.results ≠ []))) }
      if buffered.closed s.state then s.resumeWrite else s
  else none

/-- `recv_fn` goes on, up to `async_read`. -/
def recvFn (s : Connection State Call) : RecvPoint → Option (Connection State Call)
  | .loop =>
      (buffered.advance s.state).map fun next =>
        if buffered.ended next then { s with state := next, recv := .finished }
        else if buffered.answers s.state next then { s with state := next }.resumeWrite
        else { s with state := next }
  | .awaiting read =>
      if buffered.closed s.state then
        some { s with registered := false, armed := false, recv := .running .loop }
      else some { s with recv := if read then .running .loop else .suspended }

/-- The thread goes on where it stands: in `send_fn`, in the `recv_fn` that has
resumed it, or in the handling of an event. -/
def goOn (s : Connection State Call) : Option (Connection State Call) :=
  match s.send with
  | .running point => buffered.sendFn s point
  | .notStarted | .suspended _ | .finished =>
      match s.recv with
      | .running point => buffered.recvFn s point
      | .notStarted | .suspended | .finished =>
          if s.readable then some { s with readable := false }.resumeRead else none

/-- A task of the executor. `RegisterReadAwaiter` does not suspend. -/
def runTask (s : Connection State Call) : Task Call → Option (Connection State Call)
  | .sendFn => some { s with send := .running .top }
  | .recvFn =>
      some { s with readHandle := true, registered := true, armed := false, recv := .running .loop }
  | .sendRequest call =>
      (buffered.sendRequest s.state call).map fun state => { s with state }.resumeWrite

/-- An event of epoll. -/
def handle (s : Connection State Call) (hup out in_ : Bool) : Connection State Call :=
  if hup then { s with state := buffered.close s.state, registered := false, armed := false }
  else
    let s := if out then { s with armed := false }.resumeWrite else s
    { s with readable := in_ }

/-- `recv_fn` runs, and calls `async_read` next. -/
def Reads (s : Connection State Call) : Prop :=
  s.send.isRunning = false ∧ s.recv = .running .loop ∧ buffered.awaits s.state = true

instance decidableReads (s : Connection State Call) : Decidable (buffered.Reads s) :=
  inferInstanceAs (Decidable (_ ∧ _))

/-- One step of a connection. -/
def step (s : Connection State Call) : Label Call → Option (Connection State Call)
  | .callMethod call => some { s with tasks := s.tasks ++ [.sendRequest call] }
  | .userClose =>
      if s.MayClose then (buffered.userClose s.state).map fun state => { s with state } else none
  | .task =>
      match s.tasks with
      | task :: rest => if s.Idle then buffered.runTask { s with tasks := rest } task else none
      | [] => none
  | .event hup out in_ =>
      if s.Idle ∧ s.registered = true ∧ (out = true → s.armed = true) then
        some (buffered.handle s hup out in_)
      else none
  | .read call => if buffered.Reads s then buffered.asyncRead s call else none
  | .write results => if s.send = .running .asyncWrite then buffered.asyncWrite s results else none
  | .goOn => buffered.goOn s

/-- A closure of `CallMethod` runs on an open connection, and its frame `fits`. -/
def CarefulTask (fits : State → Call → Prop) (state : State) : List (Task Call) → Prop
  | .sendRequest call :: _ => buffered.closed state = false ∧ fits state call
  | .sendFn :: _ | .recvFn :: _ | [] => True

instance decidableCarefulTask (fits : State → Call → Prop) (state : State)
    [DecidablePred (fits state)] : DecidablePred (buffered.CarefulTask fits state)
  | .sendRequest _ :: _ => inferInstanceAs (Decidable (_ ∧ _))
  | .sendFn :: _ | .recvFn :: _ | [] => .isTrue trivial

/-- Where `recv_fn` takes a turn, the state `admits` it; a short write ends its call, and an
`int` can count what the write buffer holds; no hangup is announced, and no `EPOLLIN` for a
`recv_fn` that has left its loop; and the next task is careful. -/
def Careful (admits : State → Prop) (fits : State → Call → Prop) (s : Connection State Call) :
    Label Call → Prop
  | .goOn => s.send.isRunning = false → s.recv = .running .loop → admits s.state
  | .write results =>
      ShortWriteEnds (needWrite (buffered.toWriteBytes s.state)) results ∧
        buffered.toWriteBytes s.state < 2 ^ 31
  | .event hup _ in_ =>
      (hup = true → buffered.ended s.state = true) ∧
        (hup = false → in_ = true → buffered.ended s.state = false)
  | .task => buffered.CarefulTask fits s.state s.tasks
  | .read _ | .callMethod _ | .userClose => True

instance decidableCareful (admits : State → Prop) (fits : State → Call → Prop)
    [DecidablePred admits] [∀ state, DecidablePred (fits state)] (s : Connection State Call) :
    DecidablePred (buffered.Careful admits fits s)
  | .goOn => inferInstanceAs (Decidable (_ → _ → _))
  | .write _ => inferInstanceAs (Decidable (_ ∧ _))
  | .event .. => inferInstanceAs (Decidable ((_ → _) ∧ (_ → _ → _)))
  | .task => inferInstanceAs (Decidable (buffered.CarefulTask fits s.state s.tasks))
  | .read _ | .callMethod _ | .userClose => .isTrue trivial

/-- The thread does not stand where the code is undefined or does not return. -/
structure Goes (careful : Connection State Call → Label Call → Prop)
    (s : Connection State Call) : Prop where
  /-- The running code goes on up to an `async_read` or an `async_write`, -/
  goOn : ¬ s.Idle → ¬ buffered.Reads s → s.send ≠ .running .asyncWrite → careful s .goOn →
    (buffered.step s .goOn).isSome = true
  /-- these take what the kernel gives, -/
  reads : buffered.Reads s → ∃ room, ∀ results, Answers room results →
    (buffered.step s (.read ⟨room, results⟩)).isSome = true
  writes : s.send = .running .asyncWrite → ∀ results, Accepts (buffered.offered s.state) results →
    careful s (.write results) → (buffered.step s (.write results)).isSome = true
  /-- and a task that is first in the queue runs. -/
  task : s.Idle → s.tasks ≠ [] → careful s .task → (buffered.step s .task).isSome = true

end BufferedEndpoint

/-! ## Where the thread goes on -/

section Places

variable {s next : Connection State Call}

namespace Endpoint

variable (endpoint : Endpoint State Call)

/-- `send_fn` goes on first. -/
theorem goOn_of_sending {point : SendPoint} (send : s.send = .running point) :
    endpoint.goOn s = endpoint.sendFn s point := by
  unfold goOn
  rw [send]

/-- Then `recv_fn` does. -/
theorem goOn_of_receiving (still : s.send.isRunning = false) {point : RecvPoint}
    (recv : s.recv = .running point) : endpoint.goOn s = endpoint.recvFn s point := by
  unfold goOn
  cases send : s.send with
  | running point => simp [send, SendState.isRunning] at still
  | notStarted | suspended awaiter | finished => simp only [recv]

/-- Then the handling of the event resumes it. -/
theorem goOn_of_readable (still : s.send.isRunning = false) (waits : s.recv.isRunning = false)
    (pending : s.readable = true) :
    endpoint.goOn s = some ({ s with readable := false } : Connection State Call).resumeRead := by
  unfold goOn
  cases send : s.send with
  | running point => simp [send, SendState.isRunning] at still
  | notStarted | suspended awaiter | finished =>
      cases recv : s.recv with
      | running point => simp [recv, RecvState.isRunning] at waits
      | notStarted | suspended | finished => rw [if_pos pending]

end Endpoint

namespace BufferedEndpoint

variable (buffered : BufferedEndpoint State Call)

/-- `send_fn` goes on first. -/
theorem goOn_of_sending {point : SendPoint} (send : s.send = .running point) :
    buffered.goOn s = buffered.sendFn s point := by
  unfold goOn
  rw [send]

/-- Then `recv_fn` does. -/
theorem goOn_of_receiving (still : s.send.isRunning = false) {point : RecvPoint}
    (recv : s.recv = .running point) : buffered.goOn s = buffered.recvFn s point := by
  unfold goOn
  cases send : s.send with
  | running point => simp [send, SendState.isRunning] at still
  | notStarted | suspended awaiter | finished => simp only [recv]

/-- Then the handling of an event does, if one is under way. -/
theorem goOn_of_waiting (still : s.send.isRunning = false) (waits : s.recv.isRunning = false) :
    buffered.goOn s = if s.readable then
      some ({ s with readable := false } : Connection State Call).resumeRead else none := by
  unfold goOn
  cases send : s.send with
  | running point => simp [send, SendState.isRunning] at still
  | notStarted | suspended awaiter | finished =>
      cases recv : s.recv with
      | running point => simp [recv, RecvState.isRunning] at waits
      | notStarted | suspended | finished => rfl

/-- The running code goes on in `send_fn`, else in `recv_fn`, else in the event loop. -/
theorem goOn_cases (taken : buffered.goOn s = some next) :
    (∃ point, s.send = .running point ∧ buffered.sendFn s point = some next) ∨
      s.send.isRunning = false ∧
        ((∃ point, s.recv = .running point ∧ buffered.recvFn s point = some next) ∨
          (s.recv.isRunning = false ∧ s.readable = true ∧
            next = ({ s with readable := false } : Connection State Call).resumeRead)) := by
  by_cases sending : ∃ point, s.send = .running point
  · obtain ⟨point, send⟩ := sending
    exact .inl ⟨point, send, (buffered.goOn_of_sending send).symm.trans taken⟩
  · have still : s.send.isRunning = false := by
      cases send : s.send with
      | running point => exact absurd ⟨point, send⟩ sending
      | notStarted | suspended awaiter | finished => rfl
    refine .inr ⟨still, ?_⟩
    by_cases receiving : ∃ point, s.recv = .running point
    · obtain ⟨point, recv⟩ := receiving
      exact .inl ⟨point, recv, (buffered.goOn_of_receiving still recv).symm.trans taken⟩
    · have waits : s.recv.isRunning = false := by
        cases recv : s.recv with
        | running point => exact absurd ⟨point, recv⟩ receiving
        | notStarted | suspended | finished => rfl
      rw [buffered.goOn_of_waiting still waits] at taken
      simp only [Option.ite_none_right_eq_some, Option.some.injEq] at taken
      exact .inr ⟨waits, taken.1, taken.2.symm⟩

end BufferedEndpoint

end Places

/-! ## Refinement -/

/-- The operations on the buffers do what the ideal ones do, in states that `related` relates
at the number of bytes sent. -/
structure BufferedEndpoint.Refines (buffered : BufferedEndpoint State Call)
    (endpoint : Endpoint Ideal Call) (related : State → Ideal → Nat → Prop)
    (admits : State → Prop) (fits : State → Call → Prop) : Prop where
  init : related buffered.init endpoint.init 0
  ended : ∀ {s t sent}, related s t sent → buffered.ended s = endpoint.ended t
  closed : ∀ {s t sent}, related s t sent → buffered.closed s = endpoint.closed t
  awaits : ∀ {s t sent}, related s t sent →
    (buffered.awaits s = true ↔ endpoint.ended t = false ∧ endpoint.advance t = none)
  running : ∀ {s next}, buffered.advance s = some next →
    buffered.awaits s = false ∧ buffered.ended s = false
  advance : ∀ {s t sent}, related s t sent → buffered.awaits s = false →
    buffered.ended s = false → admits s → ∃ next after, buffered.advance s = some next ∧
      endpoint.advance t = some after ∧ related next after sent ∧
        buffered.answers s next = endpoint.answers t after
  read : ∀ {s t sent}, related s t sent → buffered.awaits s = true →
    ∃ room, buffered.room s = some room ∧ ∀ results, Answers room results →
      ∃ next, buffered.read s results = some next ∧
        related next (endpoint.deliver t ⟨room, results⟩) sent
  toWriteBytes : ∀ {s t sent}, related s t sent →
    buffered.toWriteBytes s = ((endpoint.output t).drop sent).length
  accepts : ∀ {s results after}, buffered.write s results = some after →
    Accepts (buffered.offered s) results
  write : ∀ {s t sent results}, related s t sent → Accepts (buffered.offered s) results →
    ShortWriteEnds (needWrite (buffered.toWriteBytes s)) results →
      ∃ next outcome, buffered.write s results = some (next, outcome.written) ∧
        Net.asyncWrite ((endpoint.output t).drop sent) results = some outcome ∧
          related next t (sent + outcome.written)
  close : ∀ {s t sent}, related s t sent → related (buffered.close s) (endpoint.close t) sent
  userClose : ∀ {s t sent next}, related s t sent → buffered.userClose s = some next →
    ∃ after, endpoint.userClose t = some after ∧ related next after sent
  sendRequest : ∀ {s t sent call}, related s t sent → fits s call →
    ∃ next after, buffered.sendRequest s call = some next ∧
      endpoint.sendRequest t call = some after ∧ related next after sent

/-- The connection with another state of its endpoint. -/
def Connection.on (s : Connection State Call) (state : Ideal) : Connection Ideal Call where
  state
  sent := s.sent
  recv := s.recv
  send := s.send
  readHandle := s.readHandle
  writeHandle := s.writeHandle
  registered := s.registered
  armed := s.armed
  tasks := s.tasks
  readable := s.readable
  resumed := s.resumed

/-- Who is resumed does not depend on the state of the endpoint. -/
theorem on_resumeWrite (s : Connection State Call) (state : Ideal) :
    (s.on state).resumeWrite = s.resumeWrite.on state := by
  unfold Connection.resumeWrite Connection.on
  dsimp only
  split <;> rfl

/-- Nor does it for `recv_fn`. -/
theorem on_resumeRead (s : Connection State Call) (state : Ideal) :
    (s.on state).resumeRead = s.resumeRead.on state := by
  unfold Connection.resumeRead Connection.on
  dsimp only
  split <;> rfl

/-- Resuming `send_fn` sends nothing. -/
theorem sent_resumeWrite (s : Connection State Call) : s.resumeWrite.sent = s.sent := by
  unfold Connection.resumeWrite
  dsimp only
  split <;> rfl

/-- Nor does resuming `recv_fn`. -/
theorem sent_resumeRead (s : Connection State Call) : s.resumeRead.sent = s.sent := by
  unfold Connection.resumeRead
  dsimp only
  split <;> rfl

/-- The connection is one of the ideal endpoint but for its state. -/
def Connection.Related (related : State → Ideal → Nat → Prop) (s : Connection State Call)
    (image : Connection Ideal Call) : Prop :=
  ∃ t, related s.state t s.sent ∧ image = s.on t

namespace BufferedEndpoint.Refines

variable {buffered : BufferedEndpoint State Call} {endpoint : Endpoint Ideal Call}
  {related : State → Ideal → Nat → Prop} {admits : State → Prop} {fits : State → Call → Prop}
  {s next : Connection State Call} {t : Ideal}

/-- New connections are related. -/
theorem connect (refines : buffered.Refines endpoint related admits fits) :
    buffered.connect.Related related endpoint.connect :=
  ⟨_, refines.init, rfl⟩

/-- A resumed `send_fn` leaves the relation. -/
theorem related_resumeWrite (relates : related s.state t s.sent) :
    s.resumeWrite.Related related (s.on t).resumeWrite := by
  refine ⟨t, ?_, on_resumeWrite s t⟩
  rwa [state_resumeWrite, sent_resumeWrite]

/-! ### The steps -/

/-- `send_fn` asks for the close and the size of the write buffer only. -/
theorem sendFn (refines : buffered.Refines endpoint related admits fits)
    (relates : related s.state t s.sent) (point : SendPoint) :
    endpoint.sendFn (s.on t) point = (buffered.sendFn s point).map fun next => next.on t := by
  have closed := refines.closed relates
  cases point with
  | top =>
      simp only [BufferedEndpoint.sendFn, closed]
      rfl
  | waitWrite =>
      have bytes : buffered.toWriteBytes s.state = endpoint.toWriteBytes (s.on t) :=
        refines.toWriteBytes relates
      simp only [BufferedEndpoint.sendFn, closed, bytes]
      rw [apply_ite (Option.map fun next : Connection State Call => next.on t)]
      rfl
  | asyncWrite => rfl

/-- `send_fn` changes neither the endpoint nor what was sent. -/
theorem sendFn_state {point : SendPoint} (taken : buffered.sendFn s point = some next) :
    next.state = s.state ∧ next.sent = s.sent := by
  cases point with
  | top =>
      cases taken
      exact ⟨rfl, rfl⟩
  | waitWrite =>
      simp only [BufferedEndpoint.sendFn] at taken
      split at taken <;> cases taken <;> exact ⟨rfl, rfl⟩
  | asyncWrite => cases taken

/-- `async_write` sends the same bytes. -/
theorem asyncWrite (refines : buffered.Refines endpoint related admits fits)
    (relates : related s.state t s.sent) {results : List WriteResult}
    (careful : buffered.Careful admits fits s (.write results))
    (taken : buffered.asyncWrite s results = some next) :
    ∃ after, endpoint.write (s.on t) results = some after ∧ next.Related related after := by
  simp only [BufferedEndpoint.asyncWrite, Option.map_eq_some_iff] at taken
  obtain ⟨⟨state, written⟩, wrote, rfl⟩ := taken
  obtain ⟨other, outcome, also, ideal, kept⟩ :=
    refines.write relates (refines.accepts wrote) careful.1
  cases also.symm.trans wrote
  have closed := refines.closed kept
  have bytes : buffered.toWriteBytes s.state = endpoint.toWriteBytes (s.on t) :=
    refines.toWriteBytes relates
  unfold Endpoint.write
  change ∃ after, (Net.asyncWrite ((endpoint.output t).drop s.sent) results).map _ = _ ∧ _
  rw [ideal, Option.map_some]
  refine ⟨_, rfl, t, ?_, ?_⟩
  · split <;> exact kept
  · simp only [closed, bytes]
    change (if endpoint.closed t = false ∧ _ then _ else _) = _
    rw [apply_ite fun next : Connection State Call => next.on t]
    rfl

/-- `async_read` delivers the same bytes. -/
theorem asyncRead (refines : buffered.Refines endpoint related admits fits)
    (relates : related s.state t s.sent) (reads : buffered.Reads s) {call : ReadCall}
    (answers : Answers call.space call.results)
    (taken : buffered.asyncRead s call = some next) :
    next.Related related (endpoint.read (s.on t) call) := by
  simp only [BufferedEndpoint.asyncRead, Option.ite_none_right_eq_some] at taken
  obtain ⟨space, taken⟩ := taken
  obtain ⟨state, read, rfl⟩ := Option.map_eq_some_iff.mp taken
  obtain ⟨room, view, gives⟩ := refines.read relates reads.2.2
  obtain rfl : call.space = room := Option.some.inj (space.symm.trans view)
  obtain ⟨other, also, kept⟩ := gives call.results answers
  cases also.symm.trans read
  have closed := refines.closed kept
  have bytes : call.outcome.bytes = bytesOf call.results :=
    Util.ChainedBuffer.bytes_readLoop answers
  unfold Endpoint.read
  dsimp only
  rw [closed, bytes]
  change Connection.Related related _ (if endpoint.closed (endpoint.deliver t call) = true
    then _ else _)
  split
  next shut =>
    exact related_resumeWrite (s := { s with
      state, recv := .running (.awaiting (decide (bytesOf call.results ≠ []))) }) kept
  next => exact ⟨_, kept, rfl⟩

/-- `recv_fn` decides alike on both. -/
theorem recvFn (refines : buffered.Refines endpoint related admits fits)
    (relates : related s.state t s.sent) (still : s.send.isRunning = false) {point : RecvPoint}
    (running : s.recv = .running point) (careful : buffered.Careful admits fits s .goOn)
    (taken : buffered.recvFn s point = some next) :
    ∃ after, endpoint.recvFn (s.on t) point = some after ∧ next.Related related after := by
  cases point with
  | awaiting read =>
      have closed := refines.closed relates
      have state : (s.on t).state = t := rfl
      simp only [BufferedEndpoint.recvFn, closed] at taken
      simp only [Endpoint.recvFn, state]
      split at taken
      next gone =>
        cases taken
        exact ⟨_, if_pos gone, t, relates, rfl⟩
      next opened =>
        cases taken
        exact ⟨_, if_neg opened, t, relates, rfl⟩
  | loop =>
      simp only [BufferedEndpoint.recvFn, Option.map_eq_some_iff] at taken
      obtain ⟨state, advanced, rfl⟩ := taken
      obtain ⟨goes, open_⟩ := refines.running advanced
      obtain ⟨other, after, also, ideal, kept, answers⟩ :=
        refines.advance relates goes open_ (careful still running)
      cases also.symm.trans advanced
      have ended := refines.ended kept
      unfold Endpoint.recvFn
      change ∃ last, (endpoint.advance t).map _ = _ ∧ _
      rw [ideal, Option.map_some]
      refine ⟨_, rfl, ?_⟩
      have from_ : (s.on t).state = t := rfl
      rw [ended, answers, from_]
      split
      next => exact ⟨after, kept, rfl⟩
      next =>
        split
        next => exact related_resumeWrite (s := { s with state }) kept
        next => exact ⟨after, kept, rfl⟩

/-- So does whoever goes on. -/
theorem goOn (refines : buffered.Refines endpoint related admits fits)
    (relates : related s.state t s.sent) (careful : buffered.Careful admits fits s .goOn)
    (taken : buffered.goOn s = some next) :
    ∃ after, endpoint.goOn (s.on t) = some after ∧ next.Related related after := by
  rcases buffered.goOn_cases taken with ⟨point, sends, goes⟩ | ⟨still, ⟨point, running, goes⟩ |
    ⟨waits, pending, rfl⟩⟩
  · obtain ⟨state, sent⟩ := sendFn_state goes
    refine ⟨next.on t, ?_, t, ?_, rfl⟩
    · rw [endpoint.goOn_of_sending (s := s.on t) sends, refines.sendFn relates, goes,
        Option.map_some]
    · rwa [state, sent]
  · rw [endpoint.goOn_of_receiving (s := s.on t) still running]
    exact refines.recvFn relates still running careful goes
  · refine ⟨_, endpoint.goOn_of_readable (s := s.on t) still waits pending, t, ?_, ?_⟩
    · rwa [state_resumeRead, sent_resumeRead]
    · exact on_resumeRead { s with readable := false } t

/-- A task runs on both. -/
theorem runTask (refines : buffered.Refines endpoint related admits fits)
    (relates : related s.state t s.sent) {task : Task Call}
    (fitting : ∀ call, task = .sendRequest call → fits s.state call)
    (taken : buffered.runTask s task = some next) :
    ∃ after, endpoint.runTask (s.on t) task = some after ∧ next.Related related after := by
  cases task with
  | sendFn | recvFn =>
      cases taken
      exact ⟨_, rfl, t, relates, rfl⟩
  | sendRequest call =>
      simp only [BufferedEndpoint.runTask, Option.map_eq_some_iff] at taken
      obtain ⟨state, requested, rfl⟩ := taken
      obtain ⟨other, after, also, ideal, kept⟩ := refines.sendRequest relates (fitting call rfl)
      cases also.symm.trans requested
      unfold Endpoint.runTask
      change ∃ last, (endpoint.sendRequest t call).map _ = _ ∧ _
      rw [ideal, Option.map_some]
      exact ⟨_, rfl, related_resumeWrite (s := { s with state }) kept⟩

/-- And an event is handled on both. -/
theorem handle (refines : buffered.Refines endpoint related admits fits)
    (relates : related s.state t s.sent) (hup out in_ : Bool) :
    (buffered.handle s hup out in_).Related related (endpoint.handle (s.on t) hup out in_) := by
  unfold BufferedEndpoint.handle Endpoint.handle
  cases hup with
  | true => exact ⟨_, refines.close relates, rfl⟩
  | false =>
      simp only [Bool.false_eq_true, ↓reduceIte]
      cases out with
      | false => exact ⟨t, relates, rfl⟩
      | true =>
          refine ⟨t, ?_, ?_⟩
          · change related (Connection.resumeWrite { s with armed := false }).state t
              (Connection.resumeWrite { s with armed := false }).sent
            rwa [state_resumeWrite, sent_resumeWrite]
          · have same := on_resumeWrite { s with armed := false } t
            exact congrArg (fun image : Connection Ideal Call => { image with readable := in_ })
              same

/-- **One careful step** is the same step of the ideal coroutines. -/
theorem step (refines : buffered.Refines endpoint related admits fits)
    {image : Connection Ideal Call} (relates : s.Related related image) {label : Label Call}
    (careful : buffered.Careful admits fits s label)
    (answers : ∀ call, label = .read call → Answers call.space call.results)
    (taken : buffered.step s label = some next) :
    ∃ after, endpoint.step image label = some after ∧ next.Related related after := by
  obtain ⟨t, relates, rfl⟩ := relates
  cases label with
  | callMethod call =>
      cases taken
      exact ⟨_, rfl, t, relates, rfl⟩
  | userClose =>
      simp only [BufferedEndpoint.step, Option.ite_none_right_eq_some] at taken
      obtain ⟨may, taken⟩ := taken
      obtain ⟨state, closes, rfl⟩ := Option.map_eq_some_iff.mp taken
      obtain ⟨after, ideal, kept⟩ := refines.userClose relates closes
      refine ⟨{ s.on t with state := after }, ?_, after, kept, rfl⟩
      change (if s.MayClose then (endpoint.userClose t).map _ else none) = _
      rw [if_pos may, ideal]
      rfl
  | task =>
      simp only [BufferedEndpoint.step] at taken
      simp only [Endpoint.step]
      have tasksSame : (s.on t).tasks = s.tasks := rfl
      rw [tasksSame]
      cases tasks : s.tasks with
      | nil => simp [tasks] at taken
      | cons task rest =>
          simp only [tasks, Option.ite_none_right_eq_some] at taken
          obtain ⟨idle, taken⟩ := taken
          have fitting : ∀ call, task = .sendRequest call → fits s.state call := by
            rintro call rfl
            simp only [BufferedEndpoint.Careful, tasks] at careful
            exact careful.2
          obtain ⟨after, ideal, kept⟩ :=
            refines.runTask (s := { s with tasks := rest }) relates fitting taken
          exact ⟨after, (if_pos idle).trans ideal, kept⟩
  | event hup out in_ =>
      simp only [BufferedEndpoint.step, Option.ite_none_right_eq_some, Option.some.injEq] at taken
      obtain ⟨watched, rfl⟩ := taken
      exact ⟨_, if_pos watched, refines.handle relates hup out in_⟩
  | read call =>
      simp only [BufferedEndpoint.step, Option.ite_none_right_eq_some] at taken
      obtain ⟨reads, taken⟩ := taken
      have waits := ((refines.awaits relates).mp reads.2.2).2
      refine ⟨_, if_pos ⟨reads.1, reads.2.1, ?_⟩,
        refines.asyncRead relates reads (answers call rfl) taken⟩
      rw [Option.isNone_iff_eq_none]
      exact waits
  | write results =>
      simp only [BufferedEndpoint.step, Option.ite_none_right_eq_some] at taken
      obtain ⟨writing, taken⟩ := taken
      obtain ⟨after, ideal, kept⟩ := refines.asyncWrite relates careful taken
      exact ⟨after, (if_pos writing).trans ideal, kept⟩
  | goOn => exact refines.goOn relates careful taken

/-- **The thread goes on** wherever it stands. -/
theorem goes (refines : buffered.Refines endpoint related admits fits)
    {image : Connection Ideal Call} (relates : s.Related related image)
    (ended : s.recv.isRunning = true → buffered.ended s.state = false) :
    buffered.Goes (buffered.Careful admits fits) s := by
  obtain ⟨t, relates, rfl⟩ := relates
  refine ⟨fun busy reading writing careful => ?_, fun reads => ?_,
    fun writing results accepts careful => ?_, fun idle some_ careful => ?_⟩
  · change (buffered.goOn s).isSome = true
    by_cases still : s.send.isRunning = false
    · by_cases waits : s.recv.isRunning = false
      · have pending : s.readable = true := by
          by_contra none_
          exact busy ⟨still, waits, Bool.eq_false_iff.mpr none_⟩
        rw [buffered.goOn_of_waiting still waits, if_pos pending, Option.isSome_some]
      · obtain ⟨point, recv⟩ : ∃ point, s.recv = .running point := by
          cases recv : s.recv with
          | running point => exact ⟨point, rfl⟩
          | notStarted | suspended | finished => simp [recv, RecvState.isRunning] at waits
        rw [buffered.goOn_of_receiving still recv]
        cases point with
        | awaiting read =>
            simp only [BufferedEndpoint.recvFn]
            split <;> rfl
        | loop =>
            have waits : buffered.awaits s.state = false := by
              by_contra awaits
              exact reading ⟨still, recv, by simpa using awaits⟩
            obtain ⟨next, after, advances, -⟩ := refines.advance relates waits
              (ended (by rw [recv]; rfl)) (careful still recv)
            simp only [BufferedEndpoint.recvFn, advances, Option.map_some, Option.isSome_some]
    · obtain ⟨point, send⟩ : ∃ point, s.send = .running point := by
        cases send : s.send with
        | running point => exact ⟨point, rfl⟩
        | notStarted | suspended awaiter | finished => simp [send, SendState.isRunning] at still
      rw [buffered.goOn_of_sending send]
      cases point with
      | top => rfl
      | waitWrite =>
          simp only [BufferedEndpoint.sendFn]
          split <;> rfl
      | asyncWrite => exact absurd send writing
  · obtain ⟨room, view, gives⟩ := refines.read relates reads.2.2
    refine ⟨room, fun results answers => ?_⟩
    obtain ⟨next, read, -⟩ := gives results answers
    simp only [BufferedEndpoint.step, reads, ↓reduceIte, BufferedEndpoint.asyncRead, view, read,
      Option.map_some, Option.isSome_some]
  · obtain ⟨next, outcome, wrote, -⟩ := refines.write relates accepts careful.1
    simp only [BufferedEndpoint.step, writing, ↓reduceIte, BufferedEndpoint.asyncWrite, wrote,
      Option.map_some, Option.isSome_some]
  · cases tasks : s.tasks with
    | nil => exact absurd tasks some_
    | cons task rest =>
        simp only [BufferedEndpoint.step, tasks, idle, ↓reduceIte]
        cases task with
        | sendFn | recvFn => rfl
        | sendRequest call =>
            simp only [BufferedEndpoint.Careful, tasks] at careful
            obtain ⟨next, after, requests, -⟩ := refines.sendRequest relates careful.2
            simp only [BufferedEndpoint.runTask, requests, Option.map_some, Option.isSome_some]

end BufferedEndpoint.Refines

end Drpc.Net
