import Drpc.Proto.Message

/-! # The write loop of a connection

`Connection::async_write` offers the blocks of the write buffer to `::writev`
until everything that was buffered at its start has been accepted, the socket is
full or an error ends it. It collects the blocks anew in each turn, but commits
what was accepted only after the loop: a turn that follows a short write offers
the same bytes again.
-/

namespace Drpc.Net

/-- What one `::writev` can give. -/
inductive WriteResult where
  /-- `n` of the offered bytes were accepted. -/
  | accepted (n : Nat)
  /-- `EAGAIN` or `EWOULDBLOCK`. -/
  | again
  /-- `EINTR`. -/
  | interrupted
  /-- Any other error. -/
  | failed
  deriving DecidableEq, Repr

/-- What the loop leaves: the bytes that went on the wire, and their number as the
loop counts it. -/
structure WriteOutcome where
  bytes : Bytes
  written : Nat
  deriving DecidableEq, Repr

/-- The number of bytes to write, converted from `size_t` to `int`. -/
def needWrite (size : Nat) : Int := Int.bmod size (2 ^ 32)

/-- The loop of `Connection::async_write`, over what `::writev` gives. The blocks
do not change in the loop, so every turn offers the same bytes. Where the results
end before the loop does, the socket is full. The sum of the accepted bytes is an
`int`; past its range the addition is undefined, and the model keeps the sum. -/
def writeLoop (offered : Bytes) (needWrite : Int) : Nat → List WriteResult → WriteOutcome
  | written, [] => ⟨[], written⟩
  | written, result :: rest =>
      if (written : Int) < needWrite then
        match result with
        | .accepted n =>
            let after := writeLoop offered needWrite (written + n) rest
            ⟨offered.take n ++ after.bytes, after.written⟩
        | .interrupted => writeLoop offered needWrite written rest
        | .again | .failed => ⟨[], written⟩
      else ⟨[], written⟩

/-- The kernel accepts no more than it was offered. -/
def Accepts (offered : Bytes) (results : List WriteResult) : Prop :=
  ∀ result ∈ results, match result with
    | .accepted n => n ≤ offered.length
    | .again | .interrupted | .failed => True

instance (offered : Bytes) (results : List WriteResult) : Decidable (Accepts offered results) := by
  unfold Accepts
  refine @List.decidableBAll _ _ (fun result => ?_) results
  cases result <;> dsimp only <;> infer_instance

/-- `IOV_MAX` blocks of `BlockSize` bytes are offered at most. -/
def maxOffered : Nat := 1024 * 4096

/-- What `async_write` puts on the wire for the content of a write buffer. A call
that counts more than the buffer holds does not return from `commit_send`. -/
def asyncWrite (content : Bytes) (results : List WriteResult) : Option WriteOutcome :=
  let offered := content.take maxOffered
  let outcome := writeLoop offered (needWrite content.length) 0 results
  if Accepts offered results ∧ outcome.written ≤ content.length then some outcome else none

/-- No byte is accepted in the rest of the call. -/
def NoMore : List WriteResult → Prop
  | .interrupted :: rest => NoMore rest
  | .accepted _ :: _ => False
  | _ => True

/-- After a short write, nothing more is accepted in the same call. -/
def ShortWriteEnds (needWrite : Int) : List WriteResult → Prop
  | .interrupted :: rest => ShortWriteEnds needWrite rest
  | .accepted n :: rest => (n : Int) < needWrite → NoMore rest
  | _ => True

instance decidableNoMore : ∀ results, Decidable (NoMore results)
  | .interrupted :: rest => decidableNoMore rest
  | .accepted _ :: _ => isFalse id
  | [] | .again :: _ | .failed :: _ => isTrue trivial

instance decidableShortWriteEnds (needWrite : Int) : ∀ results,
    Decidable (ShortWriteEnds needWrite results)
  | .interrupted :: rest => decidableShortWriteEnds needWrite rest
  | .accepted n :: rest => inferInstanceAs (Decidable ((n : Int) < needWrite → NoMore rest))
  | [] | .again :: _ | .failed :: _ => isTrue trivial

theorem writeLoop_of_noMore {offered : Bytes} {needWrite : Int} {written : Nat}
    {results : List WriteResult} (noMore : NoMore results) :
    writeLoop offered needWrite written results = ⟨[], written⟩ := by
  induction results with
  | nil => rfl
  | cons result rest ih =>
      cases result with
      | accepted n => exact noMore.elim
      | interrupted =>
          simp only [writeLoop, ih noMore, ite_self]
      | again => simp only [writeLoop, ite_self]
      | failed => simp only [writeLoop, ite_self]

/-- **What a call puts on the wire**, when a short write ends it: a front part of
the offered bytes, and it counts them right. -/
theorem writeLoop_of_shortWriteEnds {offered : Bytes} {needWrite : Int}
    {results : List WriteResult} (accepts : Accepts offered results)
    (ends : ShortWriteEnds needWrite results) :
    ∃ n ≤ offered.length, writeLoop offered needWrite 0 results = ⟨offered.take n, n⟩ := by
  induction results with
  | nil => exact ⟨0, Nat.zero_le _, rfl⟩
  | cons result rest ih =>
      have restAccepts : Accepts offered rest := fun result member =>
        accepts result (List.mem_cons_of_mem _ member)
      by_cases more : (0 : Int) < needWrite
      · cases result with
        | accepted n =>
            refine ⟨n, accepts _ (List.mem_cons_self ..), ?_⟩
            have after : writeLoop offered needWrite n rest = ⟨[], n⟩ := by
              by_cases short : (n : Int) < needWrite
              · exact writeLoop_of_noMore (ends short)
              · cases rest with
                | nil => rfl
                | cons result rest => simp [writeLoop, short]
            simp [writeLoop, more, after]
        | interrupted => simpa [writeLoop, more] using ih restAccepts ends
        | again => exact ⟨0, Nat.zero_le _, by simp [writeLoop]⟩
        | failed => exact ⟨0, Nat.zero_le _, by simp [writeLoop]⟩
      · exact ⟨0, Nat.zero_le _, by simp [writeLoop, more]⟩

end Drpc.Net
