import Drpc.Net.Coroutines
import Drpc.Server.Receive
import Drpc.EndToEnd.Agreement

/-! # Resumed only while suspended

The connections of the server and of the client as endpoints of `Net.Coroutines`.
On both sides every `resume_read` and `resume_write` finds a set handle and a
suspended coroutine in every timely run (`resumed_while_suspended`). Without it
the server resumes a finished `send_fn` when the end of the stream is read
together with a complete request (`resumed_after_eof`).
-/

namespace Drpc.Server

open Net Proto

variable {Method Message : Type} (server : RpcServer Method Message)

/-- A connection of the server, with ideal queues for its buffers. -/
def RpcServer.endpoint : Endpoint (Receiver Method Message) Empty where
  init := .init
  advance := server.advance
  deliver := Receiver.deliver
  ended s := decide s.Ended
  closed := Receiver.closed
  close s := s.close true
  userClose _ := none
  sendRequest _ call := nomatch call
  answers s t := decide (s.dispatched.length < t.dispatched.length)
  output := Receiver.output

/-- Where `recv_fn` waits for a request, the request is there and does not parse: it
is neither read further nor answered. -/
def RpcServer.Rejects (s : Receiver Method Message) : Prop :=
  match s.phase with
  | .request _ _ method requestLen =>
      requestLen ≤ s.queue.size ∧
        server.protobuf.parseRequest method (s.queue.content.take requestLen) = none
  | .headerLen | .header _ | .requestLen _ | .stopped _ => True

instance decidableRejects (s : Receiver Method Message) : Decidable (server.Rejects s) :=
  match s with
  | ⟨_, _, .request .., _, _⟩ => inferInstanceAs (Decidable (_ ∧ _))
  | ⟨_, _, .headerLen, _, _⟩ | ⟨_, _, .header _, _, _⟩ | ⟨_, _, .requestLen _, _, _⟩
  | ⟨_, _, .stopped _, _, _⟩ => .isTrue trivial

/-- Only a request is dispatched and answered. -/
theorem silent_or_request (s : Receiver Method Message) :
    ((server.proceed s).dispatched = s.dispatched ∧ (server.proceed s).output = s.output) ∨
      ∃ header service method requestLen,
        s.phase = .request header service method requestLen := by
  obtain ⟨queue, closed, phase, dispatched, output⟩ := s
  cases phase with
  | headerLen =>
      left
      simp only [RpcServer.proceed, readHeaderLen]
      split <;> exact ⟨rfl, rfl⟩
  | header headerLen =>
      left
      simp only [RpcServer.proceed, RpcServer.readHeader]
      split
      · exact ⟨rfl, rfl⟩
      · split
        · exact ⟨rfl, rfl⟩
        · split <;> exact ⟨rfl, rfl⟩
  | requestLen header =>
      left
      simp only [RpcServer.proceed, RpcServer.readRequestLen]
      split
      · exact ⟨rfl, rfl⟩
      · split
        · exact ⟨rfl, rfl⟩
        · split <;> exact ⟨rfl, rfl⟩
  | request header service method requestLen => exact .inr ⟨_, _, _, _, rfl⟩
  | stopped reason => exact .inl ⟨rfl, rfl⟩

theorem dispatched_proceed {s : Receiver Method Message} (rejects : server.Rejects s) :
    (server.proceed s).dispatched = s.dispatched := by
  rcases silent_or_request server s with silent | ⟨header, service, method, requestLen, reads⟩
  · exact silent.1
  · obtain ⟨queue, closed, phase, dispatched, output⟩ := s
    cases reads
    obtain ⟨taken, left, failed⟩ := queue.parse_none rejects.2 server.protobuf.partway
    simp only [RpcServer.proceed, RpcServer.readRequest, failed]
    rfl

/-- On a closed connection the coroutine gives up on missing bytes, save on those of a
request. -/
theorem advance_of_short {s : Receiver Method Message} (running : ¬ s.Ended)
    (closed : s.closed = true) (rejects : server.Rejects s)
    (short : ¬ s.phase.needs ≤ s.queue.size) :
    server.advance s = some (s.stop .closed) := by
  have less := Nat.lt_of_not_le short
  unfold RpcServer.advance
  cases phase : s.phase with
  | stopped reason => simp [Receiver.Ended, phase] at running
  | request header service method requestLen =>
      simp only [RpcServer.Rejects, phase] at rejects
      simp only [phase, Phase.needs] at short
      exact absurd rejects.1 short
  | headerLen | header length | requestLen header =>
      simp only [phase, Phase.needs] at less
      simp only [closed, less, Bool.true_eq_false, and_false, and_self, ↓reduceIte]

theorem endpoint_lawful : server.endpoint.Lawful server.Rejects where
  init_running := decide_eq_false id
  advance_closed := by
    intro s t taken
    change t.closed = (s.closed || decide t.Ended)
    rcases advance_closed server taken with ⟨same, running⟩ | ⟨ended, closed⟩
    · simp only [same, running, decide_false, Bool.or_false]
    · simp only [closed, ended, decide_true, Bool.or_true]
  advance_quiet := by
    intro s closed rejects running
    have open_ : ¬ s.Ended := of_decide_eq_false running
    by_cases enough : s.phase.needs ≤ s.queue.size
    · refine ⟨_, advance_of_enough server open_ enough, .inr ?_⟩
      change decide (s.dispatched.length < (server.proceed s).dispatched.length) = false
      rw [dispatched_proceed server rejects]
      simp
    · exact ⟨_, advance_of_short server open_ closed rejects enough, .inl (decide_eq_true trivial)⟩
  deliver_closed s call := rfl
  deliver_ended s call := rfl
  close_ended s := rfl
  close_closed s := Bool.or_true _
  userClose_ended taken := nomatch taken
  userClose_closed taken := nomatch taken
  sendRequest_ended {_ call _} _ := nomatch call
  sendRequest_closed {_ call _} _ := nomatch call

end Drpc.Server

namespace Drpc.Client

open Net Proto

variable {Method Message : Type} (protobuf : Protobuf Method Message)

/-- The connection of a channel, with ideal queues for its buffers. -/
def endpoint : Endpoint (ClientChannel Method Message) (Call Method Message) where
  init := .init
  advance := advance protobuf
  deliver := ClientChannel.deliver
  ended s := decide s.Ended
  closed := ClientChannel.closed
  close s := { s with closed := true }
  userClose s := some { s with closed := true }
  sendRequest := sendRequest protobuf
  answers _ _ := false
  output := ClientChannel.output

/-- The client neither reads on a closed connection nor answers. -/
theorem endpoint_lawful : (endpoint protobuf).Lawful fun _ => True where
  init_running := decide_eq_false id
  advance_closed := by
    intro s t taken
    change t.closed = (s.closed || decide t.Ended)
    rcases advance_closed protobuf taken with ⟨same, running⟩ | ⟨ended, closed⟩
    · simp only [same, running, decide_false, Bool.or_false]
    · simp only [closed, ended, decide_true, Bool.or_true]
  advance_quiet := by
    intro s closed _ running
    have taken := advance_eq protobuf s
    rw [if_neg (of_decide_eq_false running)] at taken
    split at taken
    next => exact ⟨_, taken, .inr rfl⟩
    next =>
      rw [if_pos (show s.closed = true from closed)] at taken
      exact ⟨_, taken, .inl (decide_eq_true trivial)⟩
  deliver_closed s call := rfl
  deliver_ended s call := rfl
  close_ended s := rfl
  close_closed s := rfl
  userClose_ended taken := by cases taken; rfl
  userClose_closed taken := by cases taken; rfl
  sendRequest_ended {s call t} taken := by
    change sendRequest protobuf s call = some t at taken
    unfold sendRequest at taken
    split at taken
    · cases taken
    · cases taken
      rfl
  sendRequest_closed {s call t} taken := by
    change sendRequest protobuf s call = some t at taken
    unfold sendRequest at taken
    split at taken
    · cases taken
    · cases taken
      rfl

end Drpc.Client

namespace Drpc.EndToEnd

open Net Proto Transition Server

variable {Method Message : Type}

/-- **Coroutines are resumed only while suspended**, on a connection of the server
and on one of the client, in every run in which no `EPOLLIN` comes for a `recv_fn`
that has left its loop, no closure of `CallMethod` runs on a closed connection, and
the server does not come to a request on a closed connection, unless it rejects it. -/
theorem resumed_while_suspended (server : RpcServer Method Message)
    (protobuf : Protobuf Method Message) :
    (∀ (labels : List (Label Empty)) (final : Connection (Receiver Method Message) Empty),
      exec server.endpoint.step server.endpoint.connect labels = some final →
        Along server.endpoint.step (server.endpoint.Timely server.Rejects)
            server.endpoint.connect labels →
          ∀ resume ∈ final.resumed, resume.Sound) ∧
    ∀ (labels : List (Label (Client.Call Method Message)))
      (final : Connection (Client.ClientChannel Method Message) (Client.Call Method Message)),
      exec (Client.endpoint protobuf).step (Client.endpoint protobuf).connect labels = some final →
        Along (Client.endpoint protobuf).step ((Client.endpoint protobuf).Timely fun _ => True)
            (Client.endpoint protobuf).connect labels →
          ∀ resume ∈ final.resumed, resume.Sound :=
  ⟨fun _ _ run timely => resumed_sound (endpoint_lawful server) run timely,
    fun _ _ run timely => resumed_sound (Client.endpoint_lawful protobuf) run timely⟩

/-- The server from its two tasks on: both coroutines have come to their first await. -/
def serverStarts : List (Label Empty) := [.task, .goOn, .goOn, .task]

/-- The client from its two tasks on, up to the first event. -/
def clientStarts : List (Label (Client.Call Example.EchoMethod Example.EchoMessage)) :=
  [.task, .goOn, .goOn, .task, .read ⟨8, []⟩, .goOn]

/-- One call and its answer, on the server with the end of the stream behind it, and on
the client with a close of the user. -/
theorem resumed_while_suspended_of_call :
    (∃ final, exec Example.echoServer.endpoint.step Example.echoServer.endpoint.connect
        (serverStarts ++ [.read (.ofBytes Example.hiRequest), .goOn, .goOn, .goOn, .goOn, .goOn,
          .write [.accepted 29], .goOn, .goOn, .read ⟨8, [.again]⟩, .goOn, .event false false true,
          .goOn, .read .ofEof, .write [], .goOn, .goOn, .goOn]) = some final ∧
      ∀ resume ∈ final.resumed, resume.Sound) ∧
    ∃ final, exec (Client.endpoint Example.protobuf).step
        (Client.endpoint Example.protobuf).connect
        (clientStarts ++ [.callMethod Client.hiCall, .task, .write [.accepted 9, .again],
          .event false true false, .goOn, .goOn, .write [.accepted 32], .goOn, .goOn,
          .userClose, .event false false true, .goOn, .goOn]) = some final ∧
      ∀ resume ∈ final.resumed, resume.Sound := by
  constructor
  · obtain ⟨final, run⟩ := Option.isSome_iff_exists.mp (show (exec
        Example.echoServer.endpoint.step Example.echoServer.endpoint.connect
        (serverStarts ++ [.read (.ofBytes Example.hiRequest), .goOn, .goOn, .goOn, .goOn, .goOn,
          .write [.accepted 29], .goOn, .goOn, .read ⟨8, [.again]⟩, .goOn, .event false false true,
          .goOn, .read .ofEof, .write [], .goOn, .goOn, .goOn])).isSome = true by decide +kernel)
    exact ⟨final, run, (resumed_while_suspended Example.echoServer Example.protobuf).1 _ final run
      (by decide +kernel)⟩
  · obtain ⟨final, run⟩ := Option.isSome_iff_exists.mp (show (exec
        (Client.endpoint Example.protobuf).step (Client.endpoint Example.protobuf).connect
        (clientStarts ++ [.callMethod Client.hiCall, .task, .write [.accepted 9, .again],
          .event false true false, .goOn, .goOn, .write [.accepted 32], .goOn, .goOn,
          .userClose, .event false false true, .goOn, .goOn])).isSome = true by decide +kernel)
    exact ⟨final, run, (resumed_while_suspended Example.echoServer Example.protobuf).2 _ final run
      (by decide +kernel)⟩

/-- The end of the stream is read together with a request: `async_read` resumes
`send_fn`, which finishes, and `recv_fn` resumes it once more behind its response. -/
theorem resumed_after_eof :
    ¬ ∀ (labels : List (Label Empty))
        (final : Connection (Receiver Example.EchoMethod Example.EchoMessage) Empty),
      exec Example.echoServer.endpoint.step Example.echoServer.endpoint.connect labels =
          some final → ∀ resume ∈ final.resumed, resume.Sound := by
  intro always
  have runs : ∃ final ∈ exec Example.echoServer.endpoint.step Example.echoServer.endpoint.connect
      (serverStarts ++ [.read ⟨64, [.data Example.hiRequest, .eof]⟩, .write [], .goOn, .goOn,
        .goOn, .goOn, .goOn, .goOn]),
      (⟨true, false⟩ : Resume) ∈ final.resumed := by
    decide +kernel
  obtain ⟨final, run, found⟩ := runs
  cases (always _ final run _ found).2

end Drpc.EndToEnd
