import Drpc.Net.Teardown

/-! # A connection whose stream ends

The kernel gives a connection the bytes of a stream, cut anywhere, and then the end of the
stream for good (`ReadsStream`). `recv_fn` should find it once, never read again, and come
to its end. On an endpoint whose coroutine does not read a closed connection
(`Endpoint.Tracked`) it does: `Reader.Inv` holds in every state of a run.
-/

namespace Drpc.Net

open Transition Settling

/-! ## The stream -/

/-- The first calls of `async_read`. -/
def firstCalls (calls : Nat → ReadCall) (count : Nat) : List ReadCall :=
  (List.range count).map calls

/-- The calls read `bytes`, cut anywhere, and the end of the stream behind them. -/
structure ReadsStream (bytes : Bytes) (calls : Nat → ReadCall) : Prop where
  /-- Nothing follows once a call has closed the connection. -/
  ends : ∀ first later, first < later → (calls first).outcome.closes = true →
    (calls later).outcome.bytes = []
  reads : ∃ count, received (firstCalls calls count) = bytes ∧
    ∀ later, count ≤ later → (calls later).outcome = ⟨[], true⟩

instance decidableEndsStream (calls : List ReadCall) : Decidable (EndsStream calls) :=
  decidable_of_iff _ ends_iff_pairwise.symm

/-- Some call has found the end of the stream. -/
def Closes (calls : List ReadCall) : Prop := ∃ call ∈ calls, call.outcome.closes = true

theorem firstCalls_succ (calls : Nat → ReadCall) (count : Nat) :
    firstCalls calls (count + 1) = firstCalls calls count ++ [calls count] := by
  rw [firstCalls, List.range_succ, List.map_append, List.map_singleton, ← firstCalls]

theorem firstCalls_add (calls : Nat → ReadCall) (first second : Nat) :
    firstCalls calls (first + second) =
      firstCalls calls first ++ firstCalls (fun index => calls (first + index)) second := by
  simp only [firstCalls, List.range_add, List.map_append, List.map_map, Function.comp_def]

theorem received_append (first second : List ReadCall) :
    received (first ++ second) = received first ++ received second :=
  List.flatMap_append

/-- Calls that give nothing. -/
theorem received_append_silent {first second : List ReadCall}
    (silent : ∀ call ∈ second, call.outcome.bytes = []) :
    received (first ++ second) = received first := by
  have none_ : received second = [] := List.flatMap_eq_nil_iff.mpr silent
  rw [received_append, none_, List.append_nil]

theorem closes_firstCalls {calls : Nat → ReadCall} {count : Nat} :
    Closes (firstCalls calls count) ↔ ∃ index < count, (calls index).outcome.closes = true := by
  simp [Closes, firstCalls]

namespace ReadsStream

variable {bytes : Bytes} {calls : Nat → ReadCall} (stream : ReadsStream bytes calls)
include stream

theorem endsStream (count : Nat) : EndsStream (firstCalls calls count) := by
  apply ends_iff_pairwise.mpr
  rw [firstCalls, List.pairwise_map]
  exact List.pairwise_lt_range.imp fun {first later} before closes =>
    stream.ends first later before closes

/-- From some call on, all bytes were read. -/
theorem received_all : ∃ all, ∀ count, received (firstCalls calls (all + count)) = bytes := by
  obtain ⟨all, whole, later⟩ := stream.reads
  refine ⟨all, fun count => ?_⟩
  rw [firstCalls_add, received_append_silent, whole]
  intro call member
  obtain ⟨index, -, rfl⟩ := List.mem_map.mp member
  rw [later _ (Nat.le_add_right ..)]

/-- The first calls give a front part of the bytes. -/
theorem received_prefix (count : Nat) : received (firstCalls calls count) <+: bytes := by
  obtain ⟨all, whole⟩ := stream.received_all
  rw [← whole count, Nat.add_comm, firstCalls_add, received_append]
  exact List.prefix_append ..

/-- Once a call has closed the connection, all bytes were read. -/
theorem received_of_closes {count : Nat} (closes : Closes (firstCalls calls count)) :
    received (firstCalls calls count) = bytes := by
  obtain ⟨all, whole⟩ := stream.received_all
  have ends := stream.endsStream (count + all)
  rw [firstCalls_add] at ends
  rw [← whole count, Nat.add_comm, firstCalls_add]
  exact (received_append_silent (ends.silent closes)).symm

/-- The end of the stream is found. -/
theorem closes_eventually : ∃ count, (calls count).outcome.closes = true := by
  obtain ⟨all, -, later⟩ := stream.reads
  exact ⟨all, by rw [later all le_rfl]⟩

end ReadsStream

/-! ## The calls of a connection -/

variable {State Call : Type}

/-- A connection that has made `count` calls of `async_read`. -/
structure Reader (State Call : Type) where
  connection : Connection State Call
  count : Nat

/-- The calls of `async_read` in a step. -/
def Label.reads : Label Call → Nat
  | .read _ => 1
  | .callMethod _ | .userClose | .task | .event .. | .write _ | .goOn => 0

/-- A step of the connection, with its calls of `async_read` counted. -/
def readerStep (step : Connection State Call → Label Call → Option (Connection State Call))
    (s : Reader State Call) (label : Label Call) : Option (Reader State Call) :=
  (step s.connection label).map fun connection => ⟨connection, s.count + label.reads⟩

/-- The kernel gives the calls in their order and announces no hangup. No `EPOLLIN` comes
for a `recv_fn` that has left its loop, no closure of `CallMethod` runs on a closed
connection, `recv_fn` goes on on one in a `quiet` state only, and an `int` can count what
the write buffer holds. -/
def Endpoint.Heeds (endpoint : Endpoint State Call) (calls : Nat → ReadCall)
    (quiet : State → Prop) (s : Reader State Call) : Label Call → Prop
  | .read call => call = calls s.count
  | .goOn =>
      s.connection.send.isRunning = false → s.connection.recv = .running .loop →
        endpoint.closed s.connection.state = true →
          (endpoint.advance s.connection.state).isSome = true → quiet s.connection.state
  | .event hup _ in_ =>
      (hup = true → endpoint.ended s.connection.state = true) ∧
        (hup = false → in_ = true → endpoint.ended s.connection.state = false)
  | .task =>
      match s.connection.tasks with
      | .sendRequest _ :: _ => endpoint.closed s.connection.state = false
      | _ => True
  | .write _ => endpoint.toWriteBytes s.connection < 2 ^ 31
  | .callMethod _ | .userClose => True

/-- `tracks state count` holds of the states that the first `count` calls lead to, and a
coroutine that awaits `async_read` in such a state has an open connection. -/
structure Endpoint.Tracked (endpoint : Endpoint State Call) (calls : Nat → ReadCall)
    (tracks : State → Nat → Prop) : Prop where
  init : tracks endpoint.init 0
  advance : ∀ {s t count}, tracks s count → endpoint.advance s = some t → tracks t count
  deliver : ∀ {s count}, tracks s count → endpoint.ended s = false → endpoint.advance s = none →
    tracks (endpoint.deliver s (calls count)) (count + 1)
  close : ∀ {s count}, tracks s count → endpoint.ended s = true → tracks (endpoint.close s) count
  userClose : ∀ {s t count}, tracks s count → endpoint.userClose s = some t → tracks t count
  sendRequest : ∀ {s call t count}, tracks s count → endpoint.sendRequest s call = some t →
    tracks t count
  opened : ∀ {s count}, tracks s count → endpoint.ended s = false → endpoint.advance s = none →
    endpoint.closed s = false

/-- `recv_fn` runs or has finished. -/
def RecvState.Underway (recv : RecvState) : Prop := recv.isRunning = true ∨ recv = .finished

/-- The invariant: the handles are in order, the state is that of the calls, and once a call
has found the end of the stream, `recv_fn` runs or has finished and makes no other. -/
structure Reader.Inv (endpoint : Endpoint State Call) (calls : Nat → ReadCall)
    (tracks : State → Nat → Prop) (s : Reader State Call) : Prop where
  handles : s.connection.Inv endpoint
  tracked : tracks s.connection.state s.count
  closed : Closes (firstCalls calls s.count) →
    endpoint.closed s.connection.state = true ∧ s.connection.recv.Underway
  last : ∀ index, index + 1 < s.count → (calls index).outcome.closes = false

variable {endpoint : Endpoint State Call} {calls : Nat → ReadCall} {quiet : State → Prop}
  {tracks : State → Nat → Prop} {s next : Connection State Call}

theorem reader_inv_connect (lawful : endpoint.Lawful quiet)
    (tracked : endpoint.Tracked calls tracks) :
    (⟨endpoint.connect, 0⟩ : Reader State Call).Inv endpoint calls tracks where
  handles := inv_connect lawful
  tracked := tracked.init
  closed closes := by simp [Closes, firstCalls] at closes
  last index before := by simp at before

/-! ## What a step does to the state -/

/-- What a step other than an `async_read` can do to the state of the endpoint. -/
inductive Endpoint.Changes (endpoint : Endpoint State Call) (s t : State) : Label Call → Prop
  | stays (label : Label Call) (same : t = s) : endpoint.Changes s t label
  | advances (taken : endpoint.advance s = some t) : endpoint.Changes s t .goOn
  | closes (out in_ : Bool) (same : t = endpoint.close s) :
      endpoint.Changes s t (.event true out in_)
  | userCloses (taken : endpoint.userClose s = some t) : endpoint.Changes s t .userClose
  | requests (call : Call) (taken : endpoint.sendRequest s call = some t) :
      endpoint.Changes s t .task

theorem state_resumeRead (s : Connection State Call) : s.resumeRead.state = s.state := by
  unfold Connection.resumeRead
  dsimp only
  split <;> rfl

theorem changes_goOn (taken : endpoint.goOn s = some next) :
    endpoint.Changes s.state next.state .goOn := by
  rcases endpoint.goOn_cases taken with ⟨point, -, sends⟩ | ⟨-, ⟨point, -, receives⟩ |
    ⟨-, -, rfl⟩⟩
  · refine .stays _ ?_
    cases point with
    | top =>
        cases sends
        rfl
    | waitWrite =>
        simp only [Endpoint.sendFn] at sends
        split at sends <;> cases sends <;> rfl
    | asyncWrite => cases sends
  · cases point with
    | loop =>
        simp only [Endpoint.recvFn, Option.map_eq_some_iff] at receives
        obtain ⟨state, advanced, rfl⟩ := receives
        refine .advances ?_
        split
        · exact advanced
        · split
          · rwa [state_resumeWrite]
          · exact advanced
    | awaiting read =>
        refine .stays _ ?_
        simp only [Endpoint.recvFn] at receives
        split at receives <;> cases receives <;> rfl
  · exact .stays _ (state_resumeRead _)

theorem changes_of_step {label : Label Call} (taken : endpoint.step s label = some next)
    (other : ∀ call, label ≠ .read call) : endpoint.Changes s.state next.state label := by
  cases label with
  | callMethod call =>
      cases taken
      exact .stays _ rfl
  | userClose =>
      simp only [Endpoint.step, Option.ite_none_right_eq_some] at taken
      obtain ⟨state, closes, rfl⟩ := Option.map_eq_some_iff.mp taken.2
      exact .userCloses closes
  | task =>
      simp only [Endpoint.step] at taken
      cases tasks : s.tasks with
      | nil => simp [tasks] at taken
      | cons task rest =>
          simp only [tasks, Option.ite_none_right_eq_some] at taken
          replace taken := taken.2
          cases task with
          | sendFn | recvFn =>
              cases taken
              exact .stays _ rfl
          | sendRequest call =>
              simp only [Endpoint.runTask, Option.map_eq_some_iff] at taken
              obtain ⟨state, requested, rfl⟩ := taken
              rw [state_resumeWrite]
              exact .requests call requested
  | event hup out in_ =>
      simp only [Endpoint.step, Option.ite_none_right_eq_some, Option.some.injEq] at taken
      obtain ⟨-, rfl⟩ := taken
      unfold Endpoint.handle
      cases hup with
      | true => exact .closes out in_ rfl
      | false =>
          refine .stays _ ?_
          rw [if_neg Bool.false_ne_true]
          cases out with
          | false => rfl
          | true => exact state_resumeWrite _
  | read call => exact absurd rfl (other call)
  | write results =>
      simp only [Endpoint.step, Endpoint.write, Option.ite_none_right_eq_some] at taken
      obtain ⟨outcome, -, rfl⟩ := Option.map_eq_some_iff.mp taken.2
      refine .stays _ ?_
      split <;> rfl
  | goOn => exact changes_goOn taken

/-- A closed connection stays closed. -/
theorem Endpoint.Changes.closed (lawful : endpoint.Lawful quiet) {s t : State}
    {label : Label Call} (changes : endpoint.Changes s t label)
    (closed : endpoint.closed s = true) : endpoint.closed t = true := by
  cases changes with
  | stays _ same => rwa [same]
  | advances taken => rw [lawful.advance_closed taken, closed, Bool.true_or]
  | closes out in_ same => rw [same, lawful.close_closed]
  | userCloses taken => exact lawful.userClose_closed taken
  | requests call taken => rwa [lawful.sendRequest_closed taken]

/-- The state stays that of the calls. -/
theorem Endpoint.Changes.keepsTrack (tracked : endpoint.Tracked calls tracks) {s t : State}
    {count : Nat} {label : Label Call} (changes : endpoint.Changes s t label)
    (ended : ∀ out in_, label = .event true out in_ → endpoint.ended s = true)
    (holds : tracks s count) : tracks t count := by
  cases changes with
  | stays _ same => rwa [same]
  | advances taken => exact tracked.advance holds taken
  | closes out in_ same =>
      rw [same]
      exact tracked.close holds (ended out in_ rfl)
  | userCloses taken => exact tracked.userClose holds taken
  | requests call taken => exact tracked.sendRequest holds taken

/-! ## The invariant -/

theorem underway_goOn (taken : endpoint.goOn s = some next)
    (closed : endpoint.closed s.state = true) (underway : s.recv.Underway) :
    next.recv.Underway := by
  rcases endpoint.goOn_cases taken with ⟨point, -, sends⟩ | ⟨-, ⟨point, running, receives⟩ |
    ⟨still, -, rfl⟩⟩
  · have same : next.recv = s.recv := by
      cases point with
      | top =>
          cases sends
          rfl
      | waitWrite =>
          simp only [Endpoint.sendFn] at sends
          split at sends <;> cases sends <;> rfl
      | asyncWrite => cases sends
    rwa [same]
  · cases point with
    | loop =>
        simp only [Endpoint.recvFn, Option.map_eq_some_iff] at receives
        obtain ⟨state, -, rfl⟩ := receives
        split
        · exact .inr rfl
        · split
          · rwa [recv_resumeWrite]
          · exact underway
    | awaiting read =>
        simp only [Endpoint.recvFn, closed, ↓reduceIte, Option.some.injEq] at receives
        subst receives
        exact .inl rfl
  · have finished : s.recv = .finished := underway.resolve_left (by simp [still])
    simp only [Connection.resumeRead, finished]
    exact .inr rfl

/-- Once the connection is closed, `recv_fn` does not suspend any more. -/
theorem underway_of_step {label : Label Call} (taken : endpoint.step s label = some next)
    (closed : endpoint.closed s.state = true) (underway : s.recv.Underway) :
    next.recv.Underway := by
  cases label with
  | callMethod call =>
      cases taken
      exact underway
  | userClose =>
      simp only [Endpoint.step, Option.ite_none_right_eq_some] at taken
      obtain ⟨state, -, rfl⟩ := Option.map_eq_some_iff.mp taken.2
      exact underway
  | task =>
      simp only [Endpoint.step] at taken
      cases tasks : s.tasks with
      | nil => simp [tasks] at taken
      | cons task rest =>
          simp only [tasks, Option.ite_none_right_eq_some] at taken
          replace taken := taken.2
          cases task with
          | sendFn =>
              cases taken
              exact underway
          | recvFn =>
              cases taken
              exact .inl rfl
          | sendRequest call =>
              simp only [Endpoint.runTask, Option.map_eq_some_iff] at taken
              obtain ⟨state, -, rfl⟩ := taken
              rwa [recv_resumeWrite]
  | event hup out in_ =>
      simp only [Endpoint.step, Option.ite_none_right_eq_some, Option.some.injEq] at taken
      obtain ⟨-, rfl⟩ := taken
      unfold Endpoint.handle
      split
      · exact underway
      · cases out with
        | false => exact underway
        | true =>
            have same : ({ s with armed := false } : Connection State Call).resumeWrite.recv =
                s.recv := recv_resumeWrite _
            change RecvState.Underway (Connection.resumeWrite { s with armed := false }).recv
            rwa [same]
  | read call =>
      simp only [Endpoint.step, Option.ite_none_right_eq_some, Option.some.injEq] at taken
      obtain ⟨-, rfl⟩ := taken
      unfold Endpoint.read
      dsimp only
      split
      · rw [recv_resumeWrite]
        exact .inl rfl
      · exact .inl rfl
  | write results =>
      simp only [Endpoint.step, Endpoint.write, Option.ite_none_right_eq_some] at taken
      obtain ⟨outcome, -, rfl⟩ := Option.map_eq_some_iff.mp taken.2
      split <;> exact underway
  | goOn => exact underway_goOn taken closed underway

namespace Reader.Inv

variable {r after : Reader State Call}

/-- Where `recv_fn` calls `async_read`, its connection is open. -/
theorem opened (tracked : endpoint.Tracked calls tracks) (inv : r.Inv endpoint calls tracks)
    (inLoop : r.connection.recv = .running .loop)
    (awaits : endpoint.advance r.connection.state = none) :
    endpoint.closed r.connection.state = false := by
  have running : endpoint.ended r.connection.state = false := by
    simpa [inLoop] using inv.handles.ended
  exact tracked.opened inv.tracked running awaits

/-- A step that the run heeds is a timely one. -/
theorem timely (tracked : endpoint.Tracked calls tracks) (inv : r.Inv endpoint calls tracks)
    {label : Label Call} (heeds : endpoint.Heeds calls quiet r label)
    (taken : endpoint.step r.connection label = some next) :
    endpoint.Timely quiet r.connection label := by
  cases label with
  | event hup out in_ => exact heeds.2
  | task => exact heeds
  | callMethod call | userClose | write results => trivial
  | read call =>
      simp only [Endpoint.step, Option.ite_none_right_eq_some, Option.isNone_iff_eq_none] at taken
      intro _ inLoop closed
      simp [inv.opened tracked inLoop taken.1.2.2] at closed
  | goOn =>
      intro still inLoop closed
      apply heeds still inLoop closed
      rcases endpoint.goOn_cases taken with ⟨point, sends, -⟩ | ⟨-, ⟨point, running, receives⟩ |
        ⟨idle, -, -⟩⟩
      · simp [sends, SendState.isRunning] at still
      · obtain rfl : point = .loop := by simpa [inLoop] using running.symm
        obtain ⟨state, advanced, -⟩ := Option.map_eq_some_iff.mp receives
        rw [advanced, Option.isSome_some]
      · simp [inLoop, RecvState.isRunning] at idle

/-- **One `async_read`** of the stream. -/
theorem read (lawful : endpoint.Lawful quiet) (tracked : endpoint.Tracked calls tracks)
    (inv : r.Inv endpoint calls tracks) {call : ReadCall}
    (heeds : endpoint.Heeds calls quiet r (.read call))
    (taken : endpoint.step r.connection (.read call) = some next) :
    (⟨next, r.count + 1⟩ : Reader State Call).Inv endpoint calls tracks := by
  have handles := inv.handles.step lawful (inv.timely tracked heeds taken) taken
  obtain rfl : call = calls r.count := heeds
  simp only [Endpoint.step, Option.ite_none_right_eq_some, Option.some.injEq,
    Option.isNone_iff_eq_none] at taken
  obtain ⟨⟨-, inLoop, awaits⟩, rfl⟩ := taken
  have opened := inv.opened tracked inLoop awaits
  have running : endpoint.ended r.connection.state = false := by
    simpa [inLoop] using inv.handles.ended
  have quietly : ∀ index < r.count, (calls index).outcome.closes = false := by
    intro index before
    by_contra closes
    have closed := (inv.closed (closes_firstCalls.mpr ⟨index, before, by simpa using closes⟩)).1
    rw [opened] at closed
    cases closed
  have state : (endpoint.read r.connection (calls r.count)).state =
      endpoint.deliver r.connection.state (calls r.count) := by
    unfold Endpoint.read
    dsimp only
    split
    · rw [state_resumeWrite]
    · rfl
  have recv : (endpoint.read r.connection (calls r.count)).recv.isRunning = true := by
    unfold Endpoint.read
    dsimp only
    split
    · rw [recv_resumeWrite]
      rfl
    · rfl
  refine ⟨handles, ?_, fun closes => ⟨?_, .inl recv⟩, fun index before => ?_⟩
  · dsimp only
    rw [state]
    exact tracked.deliver inv.tracked running awaits
  · obtain ⟨index, before, closing⟩ := closes_firstCalls.mp closes
    dsimp only
    rw [state, lawful.deliver_closed]
    rcases Nat.lt_succ_iff_lt_or_eq.mp before with earlier | rfl
    · simp [quietly index earlier] at closing
    · rw [closing, Bool.or_true]
  · exact quietly index (Nat.lt_of_succ_lt_succ before)

/-- **One step** keeps the invariant. -/
theorem step (lawful : endpoint.Lawful quiet) (tracked : endpoint.Tracked calls tracks)
    (inv : r.Inv endpoint calls tracks) {label : Label Call}
    (heeds : endpoint.Heeds calls quiet r label)
    (taken : readerStep endpoint.step r label = some after) :
    after.Inv endpoint calls tracks := by
  obtain ⟨next, moved, rfl⟩ := Option.map_eq_some_iff.mp taken
  by_cases reads : ∃ call, label = .read call
  · obtain ⟨call, rfl⟩ := reads
    exact inv.read lawful tracked heeds moved
  · have other : ∀ call, label ≠ .read call := fun call same => reads ⟨call, same⟩
    have none_ : label.reads = 0 := by
      cases label with
      | read call => exact absurd rfl (other call)
      | _ => rfl
    have changes := changes_of_step moved other
    have ended : ∀ out in_, label = .event true out in_ →
        endpoint.ended r.connection.state = true := by
      rintro out in_ rfl
      exact heeds.1 rfl
    rw [none_, Nat.add_zero]
    refine ⟨inv.handles.step lawful (inv.timely tracked heeds moved) moved,
      changes.keepsTrack tracked ended inv.tracked, fun closes => ?_, inv.last⟩
    obtain ⟨closed, underway⟩ := inv.closed closes
    exact ⟨changes.closed lawful closed, underway_of_step moved closed underway⟩

/-- No more calls are made than the first that finds the end. -/
theorem count_le (inv : r.Inv endpoint calls tracks) {found : Nat}
    (closes : (calls found).outcome.closes = true) : r.count ≤ found + 1 := by
  by_contra more
  have open_ := inv.last found (by omega)
  rw [closes] at open_
  cases open_

/-- Where the thread is idle behind the end of the stream, `recv_fn` has finished. -/
theorem finished (inv : r.Inv endpoint calls tracks) (closes : Closes (firstCalls calls r.count))
    (idle : r.connection.Idle) : r.connection.recv = .finished :=
  (inv.closed closes).2.resolve_left (by simp [idle.2.1])

end Reader.Inv

end Drpc.Net
