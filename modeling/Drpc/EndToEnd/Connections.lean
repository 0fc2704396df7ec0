import Drpc.EndToEnd.Resumption
import Drpc.Net.PendingOutput
import Drpc.Net.Teardown

/-! # The life of a connection

What `Net.PendingOutput` and `Net.Teardown` say of an endpoint, for the connections of the
server and of the client. Output is never stranded on either side (`never_stranded`).
Teardown is complete where `async_read` finds the end of a stream of accepted frames
(`torn_down`); `EPOLLHUP` takes the descriptor out of epoll and leaves both coroutines
suspended (`left_by_hup`).
-/

namespace Drpc.Server

open Net Proto

variable {Method Message : Type} (server : RpcServer Method Message)

/-- What is written is a response. -/
theorem output_proceed (s : Receiver Method Message) :
    (server.proceed s).output = s.output ∨
      s.dispatched.length < (server.proceed s).dispatched.length := by
  rcases silent_or_request server s with silent | ⟨header, service, method, requestLen, phase⟩
  · exact .inl silent.2
  · simp only [RpcServer.proceed, phase, RpcServer.readRequest]
    split
    · exact .inl rfl
    · right
      rw [List.length_append]
      exact Nat.lt_succ_self _

theorem endpoint_silent : server.endpoint.Silent where
  init_output := rfl
  advance_closed := (endpoint_lawful server).advance_closed
  advance_output := by
    intro s t taken silent
    have short : ¬ s.dispatched.length < t.dispatched.length := of_decide_eq_false silent
    obtain ⟨-, ⟨-, rfl⟩ | ⟨-, -, rfl⟩⟩ := advance_cases server taken
    · exact (output_proceed server s).resolve_right short
    · rfl
  deliver_closed s call := rfl
  deliver_output s call := rfl
  close_closed s := Bool.or_true _
  close_output s := rfl
  userClose_closed taken := nomatch taken
  userClose_output taken := nomatch taken
  sendRequest_closed {_ call _} _ := nomatch call

/-- Where `recv_fn` stands in front of a part of a frame, it accepts that part. -/
def RpcServer.Admits (s : Receiver Method Message) : Prop :=
  match s.phase with
  | .header headerLen =>
      ∃ header ∈ server.protobuf.parseHeader (s.queue.content.take headerLen),
        header.magic = magicNum ∧ header.version = version
  | .requestLen header =>
      ∃ service ∈ server.serviceRegistry header.service,
        (service.findMethodByName header.method).isSome = true
  | .request _ _ method requestLen =>
      (server.protobuf.parseRequest method (s.queue.content.take requestLen)).isSome = true
  | .headerLen | .stopped _ => True

instance decidableAdmits (s : Receiver Method Message) : Decidable (server.Admits s) :=
  match s with
  | ⟨_, _, .header _, _, _⟩ => inferInstanceAs (Decidable (∃ _ ∈ _, _))
  | ⟨_, _, .requestLen _, _, _⟩ => inferInstanceAs (Decidable (∃ _ ∈ _, _))
  | ⟨_, _, .request .., _, _⟩ => inferInstanceAs (Decidable (_ = true))
  | ⟨_, _, .headerLen, _, _⟩ | ⟨_, _, .stopped _, _, _⟩ => .isTrue trivial

/-- On an open connection `recv_fn` stays in its loop with what it accepts. -/
theorem running_of_admits {s t : Receiver Method Message} (opened : s.closed = false)
    (admits : server.Admits s) (taken : server.advance s = some t) : ¬ t.Ended := by
  obtain ⟨running, enough, rfl⟩ := (advance_open server opened).mp taken
  obtain ⟨queue, closed, phase, dispatched, output⟩ := s
  cases phase with
  | headerLen =>
      simp only [RpcServer.proceed, readHeaderLen, readWord_eq enough]
      exact id
  | header headerLen =>
      obtain ⟨header, found, magic, current⟩ := admits
      have parsed := LimitedQueue.parse_some queue (show headerLen ≤ queue.size from enough)
        (Option.mem_def.mp found) server.protobuf.partway
      simp only [RpcServer.proceed, RpcServer.readHeader, parsed, magic, current, ne_eq,
        not_true_eq_false, ↓reduceIte]
      exact id
  | requestLen header =>
      obtain ⟨service, registered, named⟩ := admits
      obtain ⟨method, found⟩ := Option.isSome_iff_exists.mp named
      have known : server.serviceRegistry header.service = some service := registered
      simp only [RpcServer.proceed, RpcServer.readRequestLen, readWord_eq enough, known, found]
      exact id
  | request header service method requestLen =>
      obtain ⟨request, found⟩ := Option.isSome_iff_exists.mp admits
      have parsed := LimitedQueue.parse_some queue (show requestLen ≤ queue.size from enough)
        found server.protobuf.partway
      simp only [RpcServer.proceed, RpcServer.readRequest, parsed]
      exact id
  | stopped reason => exact absurd trivial running

end Drpc.Server

namespace Drpc.Client

open Net Proto

variable {Method Message : Type} (protobuf : Protobuf Method Message)

/-- `recv_fn` of the client writes nothing. -/
theorem output_proceed (s : ClientChannel Method Message) :
    (proceed protobuf s).output = s.output := by
  unfold proceed
  split
  · unfold readHeaderLen
    split <;> rfl
  · unfold readHeader
    split <;> rfl
  · unfold readResponseLen
    split <;> rfl
  · unfold readResponse
    split
    · rfl
    · dsimp only
      split <;> rfl
  · rfl

theorem endpoint_silent : (endpoint protobuf).Silent where
  init_output := rfl
  advance_closed := (endpoint_lawful protobuf).advance_closed
  advance_output := by
    intro s t taken _
    obtain ⟨-, ⟨-, rfl⟩ | ⟨-, -, rfl⟩⟩ := advance_cases protobuf taken
    · exact output_proceed protobuf s
    · rfl
  deliver_closed s call := rfl
  deliver_output s call := rfl
  close_closed s := rfl
  close_output s := rfl
  userClose_closed := (endpoint_lawful protobuf).userClose_closed
  userClose_output taken := by cases taken; rfl
  sendRequest_closed := (endpoint_lawful protobuf).sendRequest_closed

/-- Where `recv_fn` stands in front of a header, the header parses. -/
def Admits (s : ClientChannel Method Message) : Prop :=
  match s.phase with
  | .header headerLen => (protobuf.parseHeader (s.queue.content.take headerLen)).isSome = true
  | .headerLen | .responseLen _ | .response .. | .stopped _ => True

instance decidableAdmits (s : ClientChannel Method Message) : Decidable (Admits protobuf s) :=
  match s with
  | ⟨_, _, .header _, _, _, _, _, _, _⟩ => inferInstanceAs (Decidable (_ = true))
  | ⟨_, _, .headerLen, _, _, _, _, _, _⟩ | ⟨_, _, .responseLen _, _, _, _, _, _, _⟩
  | ⟨_, _, .response .., _, _, _, _, _, _⟩ | ⟨_, _, .stopped _, _, _, _, _, _, _⟩ =>
      .isTrue trivial

/-- On an open connection `recv_fn` stays in its loop with headers that parse. -/
theorem running_of_admits {s t : ClientChannel Method Message} (opened : s.closed = false)
    (admits : Admits protobuf s) (taken : advance protobuf s = some t) : ¬ t.Ended := by
  obtain ⟨running, ⟨enough, rfl⟩ | ⟨closed, -⟩⟩ := advance_cases protobuf taken
  · obtain ⟨queue, closed, phase, registry, requestId, output, issued, handled, tops⟩ := s
    cases phase with
    | headerLen =>
        simp only [proceed, readHeaderLen, readWord_eq enough]
        exact id
    | header headerLen =>
        obtain ⟨header, found⟩ := Option.isSome_iff_exists.mp admits
        have parsed := LimitedQueue.parse_some queue (show headerLen ≤ queue.size from enough)
          found protobuf.partway
        simp only [proceed, readHeader, parsed]
        exact id
    | responseLen header =>
        simp only [proceed, readResponseLen, readWord_eq enough]
        exact id
    | response header responseLen =>
        simp only [proceed, readResponse]
        split
        · exact id
        · split <;> exact id
    | stopped reason => exact absurd trivial running
  · simp [opened] at closed

end Drpc.Client

namespace Drpc.EndToEnd

open Net Proto Transition Server

variable {Method Message : Type}

/-- **Output is never stranded**, on a connection of the server and on one of the client, in
every run, also of events that come late or without cause: while the thread is idle and
the connection open, output that is left has a `send_fn` that waits for an armed
`EPOLLOUT`, and a `send_fn` that waits for output has none. -/
theorem never_stranded (server : RpcServer Method Message) (protobuf : Protobuf Method Message) :
    (∀ (labels : List (Label Empty)) (final : Connection (Receiver Method Message) Empty),
      exec server.endpoint.lateStep server.endpoint.connect labels = some final →
        final.Idle → final.state.closed = false →
          (0 < server.endpoint.toWriteBytes final →
            final.send = .suspended .write ∧ final.writeHandle = true ∧ final.armed = true) ∧
          (final.send = .suspended .waitWrite → server.endpoint.toWriteBytes final = 0)) ∧
    ∀ (labels : List (Label (Client.Call Method Message)))
      (final : Connection (Client.ClientChannel Method Message) (Client.Call Method Message)),
      exec (Client.endpoint protobuf).lateStep (Client.endpoint protobuf).connect labels =
          some final →
        final.Idle → final.state.closed = false →
          (0 < (Client.endpoint protobuf).toWriteBytes final →
            final.send = .suspended .write ∧ final.writeHandle = true ∧ final.armed = true) ∧
          (final.send = .suspended .waitWrite →
            (Client.endpoint protobuf).toWriteBytes final = 0) :=
  ⟨fun _ _ run idle opened => (attended_of_run (endpoint_silent server) run).pending idle opened,
    fun _ _ run idle opened =>
      (attended_of_run (Client.endpoint_silent protobuf) run).pending idle opened⟩

/-- A response and a request that the socket takes in two parts, the one behind an event
without cause. -/
theorem never_stranded_of_short :
    (∃ final, exec Example.echoServer.endpoint.lateStep Example.echoServer.endpoint.connect
        (serverStarts ++ [.read ⟨8, [.again]⟩, .goOn, .event false true true, .write [], .goOn,
          .goOn, .goOn, .read (.ofBytes Example.hiRequest), .goOn, .goOn, .goOn, .goOn, .goOn,
          .write [.accepted 9, .again], .read ⟨8, [.again]⟩, .goOn]) = some final ∧
      final.send = .suspended .write ∧ final.armed = true) ∧
    ∃ final, exec (Client.endpoint Example.protobuf).lateStep
        (Client.endpoint Example.protobuf).connect
        (clientStarts ++ [.callMethod Client.hiCall, .task, .write [.accepted 9, .again]]) =
          some final ∧
      final.send = .suspended .write ∧ final.armed = true := by
  constructor
  · obtain ⟨final, run, idle, opened, left⟩ := show ∃ final ∈ exec
        Example.echoServer.endpoint.lateStep Example.echoServer.endpoint.connect
        (serverStarts ++ [.read ⟨8, [.again]⟩, .goOn, .event false true true, .write [], .goOn,
          .goOn, .goOn, .read (.ofBytes Example.hiRequest), .goOn, .goOn, .goOn, .goOn, .goOn,
          .write [.accepted 9, .again], .read ⟨8, [.again]⟩, .goOn]),
        final.Idle ∧ final.state.closed = false ∧
          0 < Example.echoServer.endpoint.toWriteBytes final by decide +kernel
    obtain ⟨waits, -, armed⟩ :=
      ((never_stranded Example.echoServer Example.protobuf).1 _ final run idle opened).1 left
    exact ⟨final, run, waits, armed⟩
  · obtain ⟨final, run, idle, opened, left⟩ := show ∃ final ∈ exec
        (Client.endpoint Example.protobuf).lateStep (Client.endpoint Example.protobuf).connect
        (clientStarts ++ [.callMethod Client.hiCall, .task, .write [.accepted 9, .again]]),
        final.Idle ∧ final.state.closed = false ∧
          0 < (Client.endpoint Example.protobuf).toWriteBytes final by decide +kernel
    obtain ⟨waits, -, armed⟩ :=
      ((never_stranded Example.echoServer Example.protobuf).2 _ final run idle opened).1 left
    exact ⟨final, run, waits, armed⟩

/-- **Teardown is complete** on a connection of the server and on one of the client, in every
run that is timely, without an `EPOLLHUP`, without a close of an open connection by the
user, and without a frame that `recv_fn` rejects while the connection is open. -/
theorem torn_down (server : RpcServer Method Message) (protobuf : Protobuf Method Message) :
    (∀ (labels : List (Label Empty)) (final : Connection (Receiver Method Message) Empty),
      exec server.endpoint.step server.endpoint.connect labels = some final →
        Along server.endpoint.step (server.endpoint.Orderly server.Rejects server.Admits)
            server.endpoint.connect labels →
          final.Idle → final.TornDown) ∧
    ∀ (labels : List (Label (Client.Call Method Message)))
      (final : Connection (Client.ClientChannel Method Message) (Client.Call Method Message)),
      exec (Client.endpoint protobuf).step (Client.endpoint protobuf).connect labels = some final →
        Along (Client.endpoint protobuf).step
            ((Client.endpoint protobuf).Orderly (fun _ => True) (Client.Admits protobuf))
            (Client.endpoint protobuf).connect labels →
          final.Idle → final.TornDown :=
  ⟨fun _ _ run orderly idle => tornDown_of_orderly (endpoint_lawful server) rfl
      (fun opened admits taken => decide_eq_false (running_of_admits server opened admits taken))
      run orderly idle,
    fun _ _ run orderly idle => tornDown_of_orderly (Client.endpoint_lawful protobuf) rfl
      (fun opened admits taken =>
        decide_eq_false (Client.running_of_admits protobuf opened admits taken))
      run orderly idle⟩

/-- The end of the stream behind one call on the server, and behind none on the client. -/
theorem torn_down_of_eof :
    (∃ final, exec Example.echoServer.endpoint.step Example.echoServer.endpoint.connect
        (serverStarts ++ [.read (.ofBytes Example.hiRequest), .goOn, .goOn, .goOn, .goOn, .goOn,
          .write [.accepted 29], .goOn, .goOn, .read ⟨8, [.again]⟩, .goOn, .event false false true,
          .goOn, .read .ofEof, .write [], .goOn, .goOn, .goOn]) = some final ∧
      final.TornDown) ∧
    ∃ final, exec (Client.endpoint Example.protobuf).step
        (Client.endpoint Example.protobuf).connect
        (clientStarts ++ [.event false false true, .goOn, .read .ofEof, .write [], .goOn, .goOn,
          .goOn]) = some final ∧
      final.TornDown := by
  constructor
  · obtain ⟨final, run, idle⟩ := show ∃ final ∈ exec Example.echoServer.endpoint.step
        Example.echoServer.endpoint.connect
        (serverStarts ++ [.read (.ofBytes Example.hiRequest), .goOn, .goOn, .goOn, .goOn, .goOn,
          .write [.accepted 29], .goOn, .goOn, .read ⟨8, [.again]⟩, .goOn, .event false false true,
          .goOn, .read .ofEof, .write [], .goOn, .goOn, .goOn]), final.Idle by decide +kernel
    exact ⟨final, run, (torn_down Example.echoServer Example.protobuf).1 _ final run
      (by decide +kernel) idle⟩
  · obtain ⟨final, run, idle⟩ := show ∃ final ∈ exec (Client.endpoint Example.protobuf).step
        (Client.endpoint Example.protobuf).connect
        (clientStarts ++ [.event false false true, .goOn, .read .ofEof, .write [], .goOn, .goOn,
          .goOn]), final.Idle by decide +kernel
    exact ⟨final, run, (torn_down Example.echoServer Example.protobuf).2 _ final run
      (by decide +kernel) idle⟩

/-- `EPOLLHUP` comes while `recv_fn` waits for bytes: the descriptor is taken out of epoll,
and both coroutines stay suspended. -/
theorem left_by_hup :
    ¬ ∀ (labels : List (Label Empty))
        (final : Connection (Receiver Example.EchoMethod Example.EchoMessage) Empty),
      exec Example.echoServer.endpoint.step Example.echoServer.endpoint.connect labels =
          some final → final.Idle → final.TornDown := by
  intro always
  obtain ⟨final, run, idle, left⟩ := show ∃ final ∈ exec Example.echoServer.endpoint.step
      Example.echoServer.endpoint.connect
      (serverStarts ++ [.read ⟨8, [.again]⟩, .goOn, .event true false false]),
      final.Idle ∧ ¬ final.TornDown by decide +kernel
  exact left (always _ final run idle)

end Drpc.EndToEnd
