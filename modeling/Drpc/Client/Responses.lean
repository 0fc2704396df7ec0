import Drpc.Client.Channel
import Drpc.Example.Echo

/-! # A stream of response frames

The responses a peer sends are frames, but a frame may name a session the client
does not have, or carry a body that does not parse. The client returns to the top
of its loop after each of them. It stands at the start of the next frame exactly
as long as it had, for every frame, a session and a body that parses, or no
session and an empty body (`recv_undisturbed_iff`).
-/

namespace Drpc.Client

open Proto Net Settling

variable {Method Message : Type} (protobuf : Protobuf Method Message)

/-- A length-delimited frame whose header parses. -/
structure ResponseFrame where
  headerBytes : Bytes
  header : Header
  body : Bytes
  header_parses : protobuf.parseHeader headerBytes = some header
  header_fits : headerBytes.length < 2 ^ 32
  body_fits : body.length < 2 ^ 32

variable {protobuf}

/-- The frame on the wire. -/
def ResponseFrame.bytes (response : ResponseFrame protobuf) : Bytes :=
  frame response.headerBytes response.body

/-- The position in the stream and the limit at each top of the loop, when the
coroutine takes one whole frame in each turn. -/
def frameStarts : Nat → List (ResponseFrame protobuf) → List (Nat × Option Nat)
  | start, [] => [(start, none)]
  | start, response :: rest =>
      (start, none) :: frameStarts (start + response.bytes.length) rest

/-- The deliveries of the good frames, as if the bad ones were absent: a frame
without a session, or with a body that does not parse, is passed over. -/
def goodDeliveries (registry : Int64 → Option (Session Method)) :
    List (ResponseFrame protobuf) → List (Delivery Method Message)
  | [] => []
  | response :: rest =>
      let requestId := response.header.requestId
      match registry requestId with
      | none => goodDeliveries registry rest
      | some session =>
          match protobuf.parseResponse session.method response.body with
          | none => goodDeliveries registry rest
          | some message =>
              ⟨requestId, session, response.body, message⟩ ::
                goodDeliveries (Function.update registry requestId none) rest

/-- The bad frames have not disturbed the others: each top of the loop was at the
start of a frame and without a limit, and the good frames were delivered. -/
def Undisturbed (s : ClientChannel Method Message) (registry : Int64 → Option (Session Method))
    (responses : List (ResponseFrame protobuf)) : Prop :=
  s.tops = frameStarts 0 responses ∧ s.deliveries = goodDeliveries registry responses

/-- Every frame has a session and a body that parses, or no session and an empty
body. -/
def Harmless (registry : Int64 → Option (Session Method)) :
    List (ResponseFrame protobuf) → Prop
  | [] => True
  | response :: rest =>
      match registry response.header.requestId with
      | none => response.body = [] ∧ Harmless registry rest
      | some session =>
          (protobuf.parseResponse session.method response.body).isSome = true ∧
            Harmless (Function.update registry response.header.requestId none) rest

variable (protobuf)

/-- `recv_fn` on a channel with the sessions `registry`, over the calls of
`async_read` it makes. -/
def recvFn (registry : Int64 → Option (Session Method)) (calls : List ReadCall) :
    ClientChannel Method Message :=
  calls.foldl (feed (advance protobuf) ClientChannel.rank ClientChannel.Ended ClientChannel.deliver)
    { ClientChannel.init with sessionRegistry := registry }

/-! ## One frame -/

/-- The coroutine, run until it waits or ends. -/
def settled (s : ClientChannel Method Message) : ClientChannel Method Message :=
  settle (advance protobuf) ClientChannel.rank s

theorem settled_of_enough {s : ClientChannel Method Message} (running : ¬ s.Ended)
    (enough : s.phase.needs ≤ s.queue.size) :
    settled protobuf s = settled protobuf (proceed protobuf s) :=
  settle_of_some (ranked_advance protobuf) (advance_of_enough protobuf running enough)

/-- With bytes missing the coroutine waits or gives up, and does nothing else. -/
theorem log_settled_of_short {s : ClientChannel Method Message}
    (short : s.queue.size < s.phase.needs) : (settled protobuf s).log = s.log := by
  cases taken : advance protobuf s with
  | none => rw [settled, settle_of_none taken]
  | some t =>
      obtain ⟨-, ⟨enough, -⟩ | ⟨-, -, rfl⟩⟩ := advance_cases protobuf taken
      · omega
      · have stopped : settled protobuf s = s.stop .closed :=
          (settle_of_some (ranked_advance protobuf) taken).trans
            (settle_of_none (advance_of_ended protobuf (s := s.stop .closed) trivial))
        rw [stopped]
        rfl

/-- The tops of the loop are only ever added to. -/
theorem tops_prefix_settled (s : ClientChannel Method Message) :
    s.tops <+: (settled protobuf s).tops := by
  suffices kept : ∀ t u : ClientChannel Method Message, s.tops <+: t.tops →
      advance protobuf t = some u → s.tops <+: u.tops from
    settle_invariant (ranked_advance protobuf) kept s (List.prefix_refl _)
  intro t u before taken
  apply before.trans
  obtain ⟨-, ⟨-, rfl⟩ | ⟨-, -, rfl⟩⟩ := advance_cases protobuf taken
  · unfold proceed
    split
    · unfold readHeaderLen
      split <;> exact List.prefix_refl _
    · unfold readHeader
      split <;> exact List.prefix_refl _
    · unfold readResponseLen
      split
      · exact List.prefix_append ..
      · exact List.prefix_refl _
    · unfold readResponse
      split
      · exact List.prefix_append ..
      · dsimp only
        split <;> exact List.prefix_append ..
    · exact List.prefix_refl _
  · exact List.prefix_refl _

/-- The coroutine at the top of its loop, at the start of `bytes`. -/
def ClientChannel.AtTop (s : ClientChannel Method Message) (bytes : Bytes) : Prop :=
  s.phase = .headerLen ∧ s.queue.limit = none ∧ s.queue.content = bytes

/-- The coroutine in front of the body of a frame, both lengths and the header
taken. -/
def ClientChannel.atBody (s : ClientChannel Method Message) (response : ResponseFrame protobuf)
    (rest : Bytes) : ClientChannel Method Message :=
  { s with
    queue := ⟨response.body ++ rest, s.queue.consumed + (8 + response.headerBytes.length), none⟩
    phase := .response response.header response.body.length }

/-- From the top of the loop the coroutine comes to the body of the frame. -/
theorem settled_frame {s : ClientChannel Method Message} (response : ResponseFrame protobuf)
    (rest : Bytes) (top : s.AtTop (response.bytes ++ rest)) :
    settled protobuf s = settled protobuf (readResponse protobuf (s.atBody protobuf response rest)
      response.header response.body.length) := by
  obtain ⟨⟨content, consumed, limit⟩, closed, phase', registry, requestId, output, issued, handled,
    tops⟩ := s
  obtain ⟨rfl, rfl, rfl⟩ := top
  obtain ⟨headerBytes, header, body, parses, headerFits, bodyFits⟩ := response
  simp only [ResponseFrame.bytes, frame, List.append_assoc]
  rw [settled_of_enough protobuf (by simp [ClientChannel.Ended])
    (by simp [Phase.needs, LimitedQueue.size])]
  simp only [proceed, readHeaderLen]
  rw [readWord_encode headerFits rfl]
  rw [settled_of_enough protobuf (by simp [ClientChannel.Ended])
    (by simp [Phase.needs, LimitedQueue.size])]
  simp only [proceed]
  rw [readHeader_front protobuf rfl parses]
  rw [settled_of_enough protobuf (by simp [ClientChannel.Ended])
    (by simp [Phase.needs, LimitedQueue.size])]
  simp only [proceed]
  rw [readResponseLen_encode bodyFits rfl]
  rw [settled_of_enough protobuf (by simp [ClientChannel.Ended])
    (by simp [Phase.needs, LimitedQueue.size])]
  simp only [proceed]
  have position : consumed + 4 + headerBytes.length + 4 = consumed + (8 + headerBytes.length) := by
    omega
  rw [position, ClientChannel.atBody]

/-! ## Every frame -/

/-- The first top is where the frames start. -/
theorem frameStarts_eq_cons (start : Nat) (responses : List (ResponseFrame protobuf)) :
    ∃ rest, frameStarts start responses = (start, none) :: rest := by
  cases responses with
  | nil => exact ⟨_, rfl⟩
  | cons response rest => exact ⟨_, rfl⟩

/-- A coroutine that has come to the top of its loop in the wrong place, or with
a limit, does not make up for it. -/
private theorem not_tops_of_astray {s : ClientChannel Method Message}
    {before : List (Nat × Option Nat)} {start position : Nat} {limit : Option Nat}
    (tops : s.tops = before ++ [(start, none), (position, limit)])
    (response : ResponseFrame protobuf) (rest : List (ResponseFrame protobuf))
    (astray : (position, limit) ≠ (start + response.bytes.length, none)) :
    (settled protobuf s).tops ≠ before ++ frameStarts start (response :: rest) := by
  intro same
  obtain ⟨later, next⟩ := frameStarts_eq_cons protobuf (start + response.bytes.length) rest
  have added := tops_prefix_settled protobuf s
  rw [same, tops, List.prefix_append_right_inj, frameStarts, next] at added
  simp only [List.cons_prefix_cons] at added
  exact astray added.2.1

/-- What remains to be shown from the top of the loop, over the buffered frames. -/
private def UndisturbedFrom (s : ClientChannel Method Message) (before : List (Nat × Option Nat))
    (responses : List (ResponseFrame protobuf)) : Prop :=
  (settled protobuf s).tops = before ++ frameStarts s.queue.consumed responses ∧
    (settled protobuf s).deliveries = s.deliveries ++ goodDeliveries s.sessionRegistry responses

/-- **Over every sequence of frames**, by induction on the frames: a harmless one
leads to the top of the loop at the next frame, another one leads astray. -/
private theorem undisturbedFrom_iff (responses : List (ResponseFrame protobuf))
    (s : ClientChannel Method Message) (before : List (Nat × Option Nat))
    (top : s.AtTop (responses.flatMap ResponseFrame.bytes))
    (tops : s.tops = before ++ [(s.queue.consumed, none)]) :
    UndisturbedFrom protobuf s before responses ↔ Harmless s.sessionRegistry responses := by
  unfold UndisturbedFrom
  induction responses generalizing s before with
  | nil =>
      have short : s.queue.size < s.phase.needs := by
        simp [LimitedQueue.size, top.1, top.2.2, Phase.needs]
      have log := log_settled_of_short protobuf short
      simp only [ClientChannel.log, Prod.mk.injEq] at log
      simp [frameStarts, goodDeliveries, Harmless, ClientChannel.deliveries, log, tops]
  | cons response rest ih =>
      have size : response.bytes.length =
          8 + response.headerBytes.length + response.body.length := length_frame ..
      rw [settled_frame protobuf response (rest.flatMap ResponseFrame.bytes) top]
      simp only [Harmless, goodDeliveries]
      cases live : s.sessionRegistry response.header.requestId with
      | none =>
          have skipped : readResponse protobuf (s.atBody protobuf response
              (rest.flatMap ResponseFrame.bytes)) response.header response.body.length =
                (s.atBody protobuf response (rest.flatMap ResponseFrame.bytes)).next
                  (.sessionNotFound response.header.requestId) := by
            simp only [readResponse, ClientChannel.atBody, live]
          rw [skipped]
          by_cases empty : response.body = []
          · have turn := ih ((s.atBody protobuf response (rest.flatMap ResponseFrame.bytes)).next
                (.sessionNotFound response.header.requestId)) (before ++ [(s.queue.consumed, none)])
              ⟨rfl, rfl, by simp [ClientChannel.next, ClientChannel.atBody, empty]⟩
              (by simp [ClientChannel.next, ClientChannel.atBody, tops])
            simpa [ClientChannel.next, ClientChannel.atBody, frameStarts, size, empty,
              ClientChannel.deliveries] using turn
          · have reached : ((s.atBody protobuf response (rest.flatMap ResponseFrame.bytes)).next
                (.sessionNotFound response.header.requestId)).tops =
                  before ++ [(s.queue.consumed, none),
                    (s.queue.consumed + (8 + response.headerBytes.length), none)] := by
              simp [ClientChannel.next, ClientChannel.atBody, tops]
            have behind := List.length_pos_iff.mpr empty
            have astray := not_tops_of_astray protobuf reached response rest (by simp [size]; omega)
            simp only [astray, false_and, empty]
      | some session =>
          dsimp only
          cases parsed : protobuf.parseResponse session.method response.body with
          | none =>
              have failed : protobuf.parseResponse session.method
                  ((response.body ++ rest.flatMap ResponseFrame.bytes).take response.body.length) =
                    none := by
                rw [List.take_left, parsed]
              obtain ⟨taken, left, unparsed⟩ := LimitedQueue.parse_none
                ⟨response.body ++ rest.flatMap ResponseFrame.bytes,
                  s.queue.consumed + (8 + response.headerBytes.length), none⟩
                failed protobuf.partway
              have reached : (readResponse protobuf (s.atBody protobuf response
                  (rest.flatMap ResponseFrame.bytes)) response.header response.body.length).tops =
                    before ++ [(s.queue.consumed, none),
                      (s.queue.consumed + (8 + response.headerBytes.length) + taken,
                        some left)] := by
                simp [readResponse, ClientChannel.atBody, live, unparsed, ClientChannel.next, tops]
              have astray := not_tops_of_astray protobuf reached response rest (by simp)
              simp only [astray, false_and, Option.isSome_none, Bool.false_eq_true]
          | some message =>
              rw [readResponse_front protobuf (s := s.atBody protobuf response
                (rest.flatMap ResponseFrame.bytes)) live rfl parsed]
              have turn := ih (ClientChannel.next
                  { s.atBody protobuf response (rest.flatMap ResponseFrame.bytes) with
                    sessionRegistry :=
                      Function.update s.sessionRegistry response.header.requestId none
                    queue := ⟨rest.flatMap ResponseFrame.bytes,
                      s.queue.consumed + (8 + response.headerBytes.length) + response.body.length,
                      none⟩ }
                  (.completed ⟨response.header.requestId, session, response.body, message⟩))
                (before ++ [(s.queue.consumed, none)]) ⟨rfl, rfl, rfl⟩
                (by simp [ClientChannel.next, ClientChannel.atBody, tops])
              simpa [ClientChannel.next, ClientChannel.atBody, frameStarts, size,
                ClientChannel.deliveries, Nat.add_assoc] using turn

/-- All deliveries together commit the received bytes. -/
private theorem foldl_deliver (calls : List ReadCall) (s : ClientChannel Method Message) :
    ∃ closed, calls.foldl ClientChannel.deliver s =
      { s with queue := s.queue.append (received calls), closed } := by
  induction calls generalizing s with
  | nil => exact ⟨s.closed, by simp [received]⟩
  | cons call rest ih =>
      obtain ⟨closed, same⟩ := ih (s.deliver call)
      refine ⟨closed, ?_⟩
      rw [List.foldl_cons, same]
      simp [ClientChannel.deliver, received]

/-- **When bad responses do not disturb the others.** For every sequence of frames
and every way their bytes arrive: each top of the loop is at the start of a frame
and without a limit, and the good frames are delivered to their sessions, exactly
when every frame has a session and a body that parses, or no session and an empty
body. -/
theorem recv_undisturbed_iff (registry : Int64 → Option (Session Method))
    (responses : List (ResponseFrame protobuf)) (calls : List ReadCall) (ends : EndsStream calls)
    (whole : received calls = responses.flatMap ResponseFrame.bytes) :
    Undisturbed (recvFn protobuf registry calls) registry responses ↔
      Harmless registry responses := by
  have waits : advance protobuf
      { ClientChannel.init with sessionRegistry := registry } = none := by
    simp [advance, ClientChannel.init, LimitedQueue.empty, LimitedQueue.size]
  have once := (feeding protobuf).view_foldl_feed (ranked_advance protobuf)
    { ClientChannel.init with sessionRegistry := registry } (.inl rfl) waits ends
  obtain ⟨closed, delivered⟩ := foldl_deliver calls
    { (ClientChannel.init : ClientChannel Method Message) with sessionRegistry := registry }
  have frames := undisturbedFrom_iff protobuf responses
    { (ClientChannel.init : ClientChannel Method Message) with
      sessionRegistry := registry, queue := LimitedQueue.empty.append (received calls), closed } []
    ⟨rfl, rfl, whole⟩ rfl
  rw [delivered] at once
  simp only [ClientChannel.log, Prod.mk.injEq] at once
  unfold Undisturbed ClientChannel.deliveries recvFn
  rw [once.1, once.2]
  simpa [UndisturbedFrom, ClientChannel.deliveries, ClientChannel.init, settled,
    LimitedQueue.empty] using frames

/-- A response to `requestId` with the fields `body`, as the echo server frames it. -/
def echoResponse (requestId : Int64) (body : Bytes) (body_fits : body.length < 2 ^ 32)
    (header_fits :
      (Example.protobuf.serializeHeader (Server.responseHeader requestId)).length < 2 ^ 32) :
    ResponseFrame Example.protobuf where
  headerBytes := Example.protobuf.serializeHeader (Server.responseHeader requestId)
  header := Server.responseHeader requestId
  body := body
  header_parses := Example.parseHeader_serializeHeader flatRuntime_lawful
    (Header.readable_of_unnamed rfl rfl)
  header_fits := header_fits
  body_fits := body_fits

/-- The first call of `Echo` waits for its response. -/
def echoPending : Int64 → Option (Session Example.EchoMethod) :=
  Function.update (fun _ => none) 0 (some ⟨0, .echo, some 0⟩)

/-- The response with the message `"hi"` to the call that waits. -/
def hiResponse : ResponseFrame Example.protobuf :=
  echoResponse 0 (Example.protobuf.serialize Example.hi) (by decide) (by decide)

/-- The same response to a call that does not exist. -/
def strayResponse : ResponseFrame Example.protobuf :=
  echoResponse 1 (Example.protobuf.serialize Example.hi) (by decide) (by decide)

/-- A response cut inside its header, behind an empty one to no call. -/
theorem recv_undisturbed_iff_of_cut :
    Undisturbed
      (recvFn Example.protobuf echoPending
        [.ofBytes ((echoResponse 1 [] (by decide) (by decide)).bytes ++ hiResponse.bytes.take 9),
          .ofBytes (hiResponse.bytes.drop 9)])
      echoPending [echoResponse 1 [] (by decide) (by decide), hiResponse] := by
  refine (recv_undisturbed_iff Example.protobuf echoPending _ _ ?_ ?_).mpr ?_
  · simp [EndsStream, Ends]
  · simp [received]
  · have parses :
        (Example.protobuf.parseResponse .echo
          (Example.protobuf.serialize Example.hi)).isSome = true := by
      decide
    have unknown : (1 : Int64) ≠ 0 := by decide
    simp [Harmless, echoPending, hiResponse, echoResponse, Server.responseHeader, parses, unknown]

/-- A response to no call, in front of the response to the call that waits: the
body of the first is read as the length of a header, and the second response is
not delivered. -/
theorem recv_disturbed :
    ¬ Undisturbed
      (recvFn Example.protobuf echoPending [.ofBytes (strayResponse.bytes ++ hiResponse.bytes)])
      echoPending [strayResponse, hiResponse] := by
  intro all
  obtain ⟨-, delivered⟩ := all
  revert delivered
  decide +kernel

end Drpc.Client
