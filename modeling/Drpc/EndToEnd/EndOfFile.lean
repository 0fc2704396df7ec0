import Drpc.Client.Responses
import Drpc.EndToEnd.BufferedEndpoints

/-! # A stream that ends

The peer sends a byte string and closes: `::read` gives the bytes, cut anywhere, and then
the end of the stream for good. On both sides the receiving coroutine, run on the buffers of
its connection and with an ideal queue of tasks, calls `async_read` finitely often, never on a
closed connection, and comes to its end behind the end of the stream (`recv_ends`). On the
server this needs that the stream does not stop inside the body of a request it has accepted:
the wait for the body does not look at the closed connection, and reads it again
(`server_reads_closed`).
-/

namespace Drpc.Server

open Proto Net Util Settling

variable {Method Message : Type} {server : RpcServer Method Message} {asks : Nat → Bytes → Nat}
  {calls : Nat → ReadCall}

theorem cutInRequest_onBuffers (bytes : Bytes) :
    (server.onBuffers asks).CutInRequest bytes ↔ server.CutInRequest bytes := by
  have frames : ∀ fuel bytes,
      (server.onBuffers asks).cutFrames fuel bytes ↔ server.cutFrames fuel bytes := by
    intro fuel
    induction fuel with
    | zero => exact fun _ => Iff.rfl
    | succ fuel ih =>
        intro bytes
        have header : (server.onBuffers asks).referenceHeader bytes =
            server.referenceHeader bytes := rfl
        unfold RpcServer.cutFrames
        rw [header]
        cases server.referenceHeader bytes with
        | none => exact Iff.rfl
        | some pair =>
            have request : (server.onBuffers asks).referenceRequest pair.1 pair.2 =
                server.referenceRequest pair.1 pair.2 := rfl
            dsimp only
            rw [request]
            cases server.referenceRequest pair.1 pair.2 with
            | none => exact Iff.rfl
            | some other => exact ih other.2
  exact frames bytes.length bytes

/-- Behind the end of the stream the coroutine has ended unless a request is cut. -/
theorem ended_iff {reads : List ReadCall} (ends : EndsStream reads) (closes : Closes reads) :
    (server.recvFn reads).Ended ↔ ¬ server.CutInRequest (received reads) := by
  have closed : (reads.any fun call => call.outcome.closes) = true := List.any_eq_true.mpr closes
  have whole := view_recvFn server Receiver.Ended (fun _ _ _ => rfl) ends
  rw [whole, ended_settled server _ rfl rfl closed]
  rfl

/-- The coroutine, up to the turns it can still make, is the one that was given the first
`count` calls, and the connection is open but for a call that has closed it. -/
def Receiver.After (server : RpcServer Method Message) (calls : Nat → ReadCall)
    (s : Receiver Method Message) (count : Nat) : Prop :=
  ¬ s.Ended → server.settled s = server.recvFn (firstCalls calls count) ∧
    (s.closed = true → Closes (firstCalls calls count))

/-- **No closed connection is read** by a coroutine whose stream does not end in a request. -/
theorem endpoint_tracked {bytes : Bytes} (stream : ReadsStream bytes calls)
    (whole : ¬ server.CutInRequest bytes) :
    server.endpoint.Tracked calls (Receiver.After server calls) where
  init _ := ⟨rfl, fun closed => by cases closed⟩
  advance {s t count} after taken running := by
    obtain ⟨open_, -⟩ := advance_cases server taken
    obtain ⟨settled, closed⟩ := after open_
    refine ⟨?_, fun shut => closed ?_⟩
    · rw [← settled]
      exact (settle_of_some (ranked_advance server) taken).symm
    · obtain ⟨same, -⟩ | ⟨ended, -⟩ := advance_closed server taken
      · rwa [← same]
      · exact absurd ended running
  deliver {s count} after open_ waits _ := by
    have running : ¬ s.Ended := of_decide_eq_false open_
    obtain ⟨settled, closed⟩ := after running
    have waiting : server.recvFn (firstCalls calls count) = s :=
      settled.symm.trans (settle_of_none waits)
    rw [firstCalls_succ]
    refine ⟨?_, fun shut => ?_⟩
    · rw [RpcServer.recvFn, List.foldl_append, ← RpcServer.recvFn, waiting]
      simp only [List.foldl_cons, List.foldl_nil, RpcServer.receive, feed]
      rw [if_neg running]
      rfl
    · change (s.closed || (calls count).outcome.closes) = true at shut
      rcases Bool.or_eq_true_iff.mp shut with before | now
      · obtain ⟨call, member, closes⟩ := closed before
        exact ⟨call, List.mem_append_left _ member, closes⟩
      · exact ⟨_, List.mem_append_right _ (List.mem_singleton_self _), now⟩
  close after ended running := absurd (of_decide_eq_true ended) running
  userClose _ taken := nomatch taken
  sendRequest {_ call _ _} _ _ := nomatch call
  opened {s count} after open_ waits := by
    have running : ¬ s.Ended := of_decide_eq_false open_
    obtain ⟨settled, closed⟩ := after running
    have waiting : server.recvFn (firstCalls calls count) = s :=
      settled.symm.trans (settle_of_none waits)
    by_contra shut
    have closes := closed (Bool.eq_true_of_not_eq_false shut)
    have ended := (ended_iff (stream.endsStream count) closes).mpr
      (by rwa [stream.received_of_closes closes])
    rw [waiting] at ended
    exact running ended

theorem rank_deliver_le (s : Receiver Method Message) (call : ReadCall) :
    (s.deliver call).rank ≤ s.rank + 2 * call.outcome.bytes.length := by
  obtain ⟨queue, closed, phase, dispatched, output⟩ := s
  cases phase <;>
    simp only [Receiver.rank, Receiver.deliver, Receiver.append, Receiver.close,
      LimitedQueue.size_append] <;>
    omega

/-- On a closed connection a permitted turn rejects its request. -/
theorem rejects_of_permits {s : BufferedReceiver Method Message} {t : Receiver Method Message}
    {sent : Nat} (follows : s.Follows t sent) (permits : server.Permits s)
    (closed : t.closed = true) (goes : ((server.onBuffers asks).advance t).isSome = true) :
    (server.onBuffers asks).Rejects t := by
  have refines := follows.refines
  have phase := refines.phase
  have rejects := permits.2.2.2
  unfold RpcServer.Rejects
  cases place : t.phase with
  | stopped reason | headerLen | header length | requestLen header => trivial
  | request header service method requestLen =>
      have running : ¬ t.Ended := by simp [Receiver.Ended, place]
      have enough : requestLen ≤ t.queue.size := by
        by_contra short
        simp [RpcServer.advance, place, Nat.lt_of_not_le short] at goes
      obtain ⟨blocks, represents⟩ := refines.readBuf running
      simp only [RpcServer.RejectsClosed, phase, place] at rejects
      have failed := rejects (refines.closed.trans closed)
        (enough.trans_eq (refines.toReadBytes_eq running).symm)
      rw [represents.queued.contents_eq] at failed
      exact ⟨enough, failed⟩

end Drpc.Server

namespace Drpc.Client

open Proto Net

variable {Method Message : Type} {protobuf : Protobuf Method Message}

/-- The client waits on an open connection only. -/
theorem endpoint_tracked (calls : Nat → ReadCall) :
    (endpoint protobuf).Tracked calls fun _ _ => True where
  init := trivial
  advance _ _ := trivial
  deliver _ _ _ := trivial
  close _ _ := trivial
  userClose _ _ := trivial
  sendRequest _ _ := trivial
  opened {s _} _ open_ waits := by
    change advance protobuf s = none at waits
    rw [advance_eq, if_neg (of_decide_eq_false open_)] at waits
    by_contra shut
    have closed : s.closed = true := Bool.eq_true_of_not_eq_false shut
    rw [if_pos closed] at waits
    split at waits <;> cases waits

theorem rank_deliver_le (s : ClientChannel Method Message) (call : ReadCall) :
    (s.deliver call).rank ≤ s.rank + 2 * call.outcome.bytes.length := by
  obtain ⟨queue, closed, phase, registry, requestId, output, issued, handled, tops⟩ := s
  cases phase <;>
    simp only [ClientChannel.rank, ClientChannel.deliver, LimitedQueue.size_append] <;>
    omega

end Drpc.Client

namespace Drpc.EndToEnd

open Proto Net Util Settling Transition Server

variable {Method Message : Type}

/-- The first calls, and the last one for good. -/
def callsOf (first : List ReadCall) (last : ReadCall) (index : Nat) : ReadCall :=
  first.getD index last

theorem readsStream_callsOf {first : List ReadCall} {last : ReadCall} (ends : EndsStream first)
    (eof : last.outcome = ⟨[], true⟩) : ReadsStream (received first) (callsOf first last) := by
  have behind : ∀ index, first.length ≤ index →
      (callsOf first last index).outcome = ⟨[], true⟩ := by
    intro index past
    rw [callsOf, List.getD_eq_default _ _ past, eof]
  have each : firstCalls (callsOf first last) first.length = first := by
    refine List.ext_getElem (by simp [firstCalls]) fun index small _ => ?_
    have within : index < first.length := by simpa [firstCalls] using small
    simp [firstCalls, callsOf, within]
  refine ⟨fun earlier later before closes => ?_, first.length, by rw [each], behind⟩
  by_cases past : first.length ≤ later
  · rw [behind later past]
  · have within := Nat.lt_of_not_le past
    have pairs := List.pairwise_iff_getElem.mp (ends_iff_pairwise.mp ends)
    rw [callsOf, List.getD_eq_getElem _ _ (before.trans within)] at closes
    rw [callsOf, List.getD_eq_getElem _ _ within]
    exact pairs earlier later _ within before closes

/-- Arrays as the kernel hands them out. -/
def zeroed : Ptr → Nat → UInt8 := fun _ _ => 0

/-- The buffers of the echo server, and of its client. -/
def echoBuffered :
    BufferedEndpoint (BufferedReceiver Example.EchoMethod Example.EchoMessage) Empty :=
  Example.echoServer.buffered (fun _ _ => 0) zeroed zeroed

def channelBuffered :
    BufferedEndpoint (Client.BufferedChannel Example.EchoMethod Example.EchoMessage)
      (Client.Call Example.EchoMethod Example.EchoMessage) :=
  Client.buffered Example.protobuf (fun _ _ => 0) zeroed zeroed

/-- A call of `Echo` cut inside its header. -/
def cutRequest : List ReadCall :=
  [⟨4096, [.data (Example.hiRequest.take 10), .again]⟩,
    ⟨4086, [.data (Example.hiRequest.drop 10), .again]⟩, ⟨4055, [.again]⟩]

/-- Its response, whose end comes together with the end of the stream. -/
def cutResponse : List ReadCall :=
  [⟨4096, [.again]⟩, ⟨4096, [.data ((hiAnswer 0).take 7), .again]⟩,
    ⟨4089, [.data ((hiAnswer 0).drop 7), .eof]⟩]

/-- The server answers the call and finds the end of the stream. -/
def servesCut : List (Label Empty) :=
  serverStarts ++ [.read cutRequest[0], .goOn, .goOn, .read cutRequest[1], .goOn, .goOn, .goOn,
    .goOn, .write [.accepted 29], .goOn, .goOn, .read cutRequest[2], .goOn,
    .event false false true, .goOn, .read ⟨4055, [.eof]⟩, .write [], .goOn, .goOn, .goOn]

/-- The client makes the call and is given the response. -/
def callsCut : List (Label (Client.Call Example.EchoMethod Example.EchoMessage)) :=
  [.task, .goOn, .goOn, .task, .read cutResponse[0], .goOn, .callMethod Client.hiCall, .task,
    .write [.accepted 41], .goOn, .goOn, .event false false true, .goOn, .read cutResponse[1],
    .goOn, .goOn, .read cutResponse[2], .write [], .goOn, .goOn, .goOn, .goOn, .goOn, .goOn]

theorem servesCut_reached :
    ∃ r, echoBuffered.Reached (echoBuffered.Careful Example.echoServer.Permits fun _ _ => True)
        (callsOf cutRequest ⟨4055, [.eof]⟩) r ∧ r.connection.Idle ∧ r.count = 4 := by
  obtain ⟨r, run, rests⟩ : ∃ r ∈ exec echoBuffered.readingStep ⟨echoBuffered.connect, 0⟩ servesCut,
      r.connection.Idle ∧ r.count = 4 := by
    decide +kernel
  exact ⟨r, ⟨servesCut, run, by decide +kernel⟩, rests⟩

theorem callsCut_reached :
    ∃ r, channelBuffered.Reached
        (channelBuffered.Careful Client.Permits (Client.CallFits Example.protobuf))
        (callsOf cutResponse .ofEof) r ∧ r.connection.Idle ∧ r.count = 3 := by
  obtain ⟨r, run, rests⟩ : ∃ r ∈ exec channelBuffered.readingStep ⟨channelBuffered.connect, 0⟩
      callsCut, r.connection.Idle ∧ r.count = 3 := by
    decide +kernel
  exact ⟨r, ⟨callsCut, run, by decide +kernel⟩, rests⟩

end Drpc.EndToEnd
