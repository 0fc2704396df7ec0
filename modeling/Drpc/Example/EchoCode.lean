import Drpc.Proto.HeaderCode

/-! # The generated code of the echo messages

`echo.pb.cc` for `EchoRequest` and `EchoResponse`, which are one string each, and what the
generated code reads back of a header and of an echo message that it has written.
-/

namespace Drpc.Example

open Proto

variable {Unknown : Type}

/-- The `switch` of `EchoRequest::_InternalParse` and `EchoResponse::_InternalParse`. -/
def echoField (runtime : Runtime Unknown) (tag : UInt32) : Option (Items.Reader UInt8 Bytes) :=
  match tag.toNat / 8 with
  | 1 => if tag.toUInt8 = 10 then some (fieldCase runtime.readText fun _ text => text) else none
  | _ => none

/-- `EchoRequest::_InternalSerialize`, and `EchoResponse::_InternalSerialize`. -/
def echoSerialize (runtime : Runtime Unknown) (message : Bytes) : Bytes :=
  if message ≠ [] then runtime.writeStringMaybeAliased 1 message else []

/-- `EchoRequest::ByteSizeLong`, and `EchoResponse::ByteSizeLong`. -/
def echoByteSize (runtime : Runtime Unknown) (message : Bytes) : Nat :=
  if message ≠ [] then 1 + runtime.stringSize message else 0

/-- `EchoRequest::MergeImpl`, and `EchoResponse::MergeImpl`. -/
def echoMerge (toMsg fromMsg : Bytes) : Bytes := if fromMsg ≠ [] then fromMsg else toMsg

/-- The generated code of `EchoRequest`, and of `EchoResponse`. -/
def echoCode (runtime : Runtime Unknown) : Generated Unknown Bytes where
  runtime := runtime
  cleared := []
  field := echoField runtime
  serialize := echoSerialize runtime
  byteSize := echoByteSize runtime
  merge := echoMerge

/-- An echo message that can be read back. The empty one is not written. -/
def EchoReadable (runtime : Runtime Unknown) (message : Bytes) : Prop :=
  message ≠ [] → runtime.ReadableText message

instance (runtime : Runtime Unknown) (message : Bytes) : Decidable (EchoReadable runtime message) :=
  inferInstanceAs (Decidable (_ → _))

section Code

variable {runtime : Runtime Unknown} (sound : runtime.Lawful)

include sound

theorem echoField_cases {tag : UInt32} {read : Items.Reader UInt8 Bytes}
    (known : echoField runtime tag = some read) :
    Generated.Case (EchoReadable runtime) read := by
  unfold echoField at known
  split at known
  · split at known
    · cases known
      apply Generated.Case.of_delimited sound.readText
      intro _ text bytes rest _ found _
      exact sound.readable_of_readText found
    · cases known
  · cases known

theorem echoCode_lawful : (echoCode runtime).Lawful (EchoReadable runtime) where
  runtime := sound
  cases := echoField_cases sound
  cleared := fun nonempty => (nonempty rfl).elim
  written := by
    intro message readable toMsg
    have chunks : Items.Lawful (echoCode runtime).knownField :=
      Generated.knownField_lawful sound (echoField_cases sound)
    change Items.readAll _ toMsg (echoSerialize runtime message) = some (echoMerge toMsg message)
    by_cases empty : message = []
    · simp [echoSerialize, echoMerge, empty]
    · have written := sound.holds_text (by decide : FieldNumber 1) (readable empty)
      rw [echoSerialize, if_pos empty, echoMerge, if_pos empty,
        ← List.append_nil (runtime.writeStringMaybeAliased 1 message)]
      exact Generated.readAll_field chunks rfl written []
  merge_cleared := by
    intro message
    change echoMerge [] message = message
    by_cases empty : message = [] <;> simp [echoMerge, empty]
  size := by
    intro message readable
    change echoByteSize runtime message = (echoSerialize runtime message).length
    by_cases empty : message = []
    · simp [echoByteSize, echoSerialize, empty]
    · have small : message.length ≤ maxMessage :=
        (readable empty).1.trans (by norm_num [maxText, maxMessage])
      rw [echoByteSize, if_pos empty, echoSerialize, if_pos empty,
        sound.stringSize (by decide : ShortNumber 1) small]

/-- An echo message is not much longer than its text. -/
theorem echoByteSize_le (message : Bytes) : echoByteSize runtime message ≤ 6 + message.length := by
  have size := sound.stringSize_le message
  unfold echoByteSize
  split <;> omega

/-- **An echo message is read back if and only if it is readable.** -/
theorem echo_parse_eq {message : Bytes} (fits : echoByteSize runtime message ≤ maxMessage) :
    (echoCode runtime).parseFromZeroCopyStream (echoSerialize runtime message) =
      if EchoReadable runtime message then some ⟨message, []⟩ else none := by
  have lawful := echoCode_lawful sound
  by_cases readable : EchoReadable runtime message
  · have back := lawful.readAll_serialize readable (echoCode runtime).clear
    rw [if_pos readable, lawful.parseFromZeroCopyStream_eq]
    refine back.trans ?_
    exact congrArg (fun fields => some (Parsed.mk fields [])) (lawful.merge_cleared message)
  · obtain ⟨nonempty, unreadable⟩ := Classical.not_imp.mp readable
    have small : message.length ≤ maxMessage := by
      have size := sound.le_stringSize message
      rw [echoByteSize, if_pos nonempty] at fits
      omega
    have refused := lawful.parseFromZeroCopyStream_unreadable
      (by decide : FieldNumber 1) rfl unreadable small
      (Items.readAll_nil _) []
    rw [if_neg readable, echoSerialize, if_pos nonempty]
    rwa [List.nil_append, List.append_nil] at refused

end Code

/-- **What the generated code reads back** of a header and of an echo message without unknown
fields: all of it when the texts are readable and the size can be announced, else nothing. -/
theorem generated_reads_back_iff {runtime : Runtime Unknown} (sound : runtime.Lawful)
    (header : Header) (message : Bytes) :
    ((headerCode runtime).serializeToZeroCopyStream ⟨header, []⟩).bind
        (headerCode runtime).parseFromZeroCopyStream =
      (if header.Readable runtime ∧ header.byteSize runtime ≤ maxMessage then
        some ⟨header, []⟩ else none) ∧
    ((echoCode runtime).serializeToZeroCopyStream ⟨message, []⟩).bind
        (echoCode runtime).parseFromZeroCopyStream =
      if EchoReadable runtime message ∧ echoByteSize runtime message ≤ maxMessage then
        some ⟨message, []⟩ else none := by
  constructor
  · rw [(headerCode_lawful sound).serializeToZeroCopyStream_eq]
    change (if header.byteSize runtime ≤ maxMessage then
      some (header.serialize runtime ++ []) else none).bind _ = _
    by_cases fits : header.byteSize runtime ≤ maxMessage
    · rw [if_pos fits, Option.bind_some, List.append_nil, Header.parse_eq sound fits]
      simp only [fits, and_true]
    · simp only [fits, and_false, ↓reduceIte, Option.bind_none]
  · rw [(echoCode_lawful sound).serializeToZeroCopyStream_eq]
    change (if echoByteSize runtime message ≤ maxMessage then
      some (echoSerialize runtime message ++ []) else none).bind _ = _
    by_cases fits : echoByteSize runtime message ≤ maxMessage
    · rw [if_pos fits, Option.bind_some, List.append_nil, echo_parse_eq sound fits]
      simp only [fits, and_true]
    · simp only [fits, and_false, ↓reduceIte, Option.bind_none]

/-- `"hi"` is read back, and a lone continuation byte is not. -/
theorem generated_reads_back_iff_of_hi :
    ((echoCode flatRuntime).serializeToZeroCopyStream ⟨[104, 105], []⟩).bind
        (echoCode flatRuntime).parseFromZeroCopyStream = some ⟨[104, 105], []⟩ ∧
      ((echoCode flatRuntime).serializeToZeroCopyStream ⟨[128], []⟩).bind
        (echoCode flatRuntime).parseFromZeroCopyStream = none := by
  constructor
  · exact (generated_reads_back_iff flatRuntime_lawful .blank [104, 105]).2.trans (by decide)
  · exact (generated_reads_back_iff flatRuntime_lawful .blank [128]).2.trans (by decide)

end Drpc.Example
