import Drpc.Library.Items
import Drpc.Proto.Message

/-! # The protobuf runtime

The code generated from `message.proto` and `echo.proto` calls a runtime that is not part of
this repository. It is a parameter (`Runtime`), and what its documentation promises are the
fields of `Runtime.Lawful`: where a value ends, what is read back of a field that was written,
how long it is, which texts and messages are refused, and what is kept of a field that a
message does not know.
-/

namespace Drpc.Proto

/-- `INT_MAX - kSlopBytes`: the length of the longest text that is read. -/
def maxText : Nat := 2 ^ 31 - 17

/-- `INT_MAX`: the size of the largest message that is written. -/
def maxMessage : Nat := 2 ^ 31 - 1

/-- What generated code takes from the protobuf runtime. A reader gives a value and what
follows it, or `none` for the null pointer. -/
structure Runtime (Unknown : Type) where
  /-- `ParseContext::Done`, in front of these bytes -/
  done : Bytes → Bool
  /-- `ParseContext::EndedAtEndOfStream`, by which `ParseFromZeroCopyStream` accepts; `some`
  where `SetLastTag` was called -/
  endedAtEndOfStream : Option UInt32 → Bool
  /-- `ReadTag` -/
  readTag : Bytes → Option (UInt32 × Bytes)
  /-- `ReadVarint64` -/
  readVarint64 : Bytes → Option (UInt64 × Bytes)
  /-- `ReadVarint32` -/
  readVarint32 : Bytes → Option (UInt32 × Bytes)
  /-- `InlineGreedyStringParser` -/
  inlineGreedyStringParser : Bytes → Option (Bytes × Bytes)
  /-- `VerifyUTF8` -/
  verifyUtf8 : Bytes → Bool
  /-- `UnknownFieldParse`, behind the tag -/
  unknownFieldParse : UInt32 → Bytes → Option (Unknown × Bytes)
  /-- `WireFormatLite::WriteUInt64ToArray`, of a field number and a value -/
  writeUInt64ToArray : Nat → UInt64 → Bytes
  /-- `WireFormatLite::WriteInt32ToArray` -/
  writeInt32ToArray : Nat → Int32 → Bytes
  /-- `WireFormatLite::WriteEnumToArray` -/
  writeEnumToArray : Nat → Int32 → Bytes
  /-- `WireFormatLite::WriteInt64ToArray` -/
  writeInt64ToArray : Nat → Int64 → Bytes
  /-- `EpsCopyOutputStream::WriteStringMaybeAliased` -/
  writeStringMaybeAliased : Nat → Bytes → Bytes
  /-- `InternalSerializeUnknownFieldsToArray`, for one field -/
  serializeUnknown : Unknown → Bytes
  /-- `WireFormatLite::UInt64SizePlusOne` -/
  uInt64SizePlusOne : UInt64 → Nat
  /-- `WireFormatLite::Int32SizePlusOne` -/
  int32SizePlusOne : Int32 → Nat
  /-- `WireFormatLite::EnumSize` -/
  enumSize : Int32 → Nat
  /-- `WireFormatLite::Int64SizePlusOne` -/
  int64SizePlusOne : Int64 → Nat
  /-- `WireFormatLite::StringSize` -/
  stringSize : Bytes → Nat
  /-- `ComputeUnknownFieldsSize`, for one field -/
  unknownSize : Unknown → Nat
  /-- `SerializeToZeroCopyStream`, of what `ByteSizeLong` gives and `_InternalSerialize` writes -/
  serializeToZeroCopyStream : Nat → Bytes → Option Bytes

variable {Unknown Value : Type}

/-- `WireFormatLite::MakeTag` -/
def makeTag (number wireType : Nat) : UInt32 := .ofNat (8 * number + wireType)

/-- The field numbers of protobuf. -/
def FieldNumber (number : Nat) : Prop := 0 < number ∧ number < 2 ^ 29

/-- The field numbers whose tag is one byte. -/
def ShortNumber (number : Nat) : Prop := 0 < number ∧ number < 16

instance decidableFieldNumber (number : Nat) : Decidable (FieldNumber number) :=
  inferInstanceAs (Decidable (_ ∧ _))

instance decidableShortNumber (number : Nat) : Decidable (ShortNumber number) :=
  inferInstanceAs (Decidable (_ ∧ _))

namespace Runtime

variable (runtime : Runtime Unknown)

/-- A text field: `InlineGreedyStringParser` and `VerifyUTF8`. -/
def readText (bytes : Bytes) : Option (Bytes × Bytes) :=
  (runtime.inlineGreedyStringParser bytes).filter fun pair => runtime.verifyUtf8 pair.1

/-- A text that a parse accepts. -/
def ReadableText (text : Bytes) : Prop :=
  text.length ≤ maxText ∧ runtime.verifyUtf8 text = true

instance (text : Bytes) : Decidable (runtime.ReadableText text) :=
  inferInstanceAs (Decidable (_ ∧ _))

/-- The bytes are one field: a tag, and behind it the value. -/
def Holds (tag : UInt32) (read : Bytes → Option (Value × Bytes)) (value : Value) (bytes : Bytes) :
    Prop :=
  ∃ body, runtime.readTag bytes = some (tag, body) ∧ read body = some (value, [])

/-- What the runtime is documented to do. -/
structure Lawful : Prop where
  /-- The loop of `_InternalParse` ends with the bytes, and a parse that does not end there is
  not accepted. -/
  done : ∀ bytes, runtime.done bytes = true ↔ bytes = []
  endedAtEndOfStream : runtime.endedAtEndOfStream none = true
  endedAtTag : ∀ tag : UInt32, tag = 0 ∨ tag &&& 7 = 4 →
    runtime.endedAtEndOfStream (some tag) = false
  /-- A value takes a byte at least and does not depend on what follows it. -/
  readTag : Items.Delimited runtime.readTag
  readVarint64 : Items.Delimited runtime.readVarint64
  readVarint32 : Items.Delimited runtime.readVarint32
  inlineGreedyStringParser : Items.Delimited runtime.inlineGreedyStringParser
  unknownFieldParse : ∀ tag, Items.Delimited (runtime.unknownFieldParse tag)
  /-- A field that was written is a tag and its value; a signed number is extended to 64 bits. -/
  writeUInt64ToArray : ∀ {number : Nat}, FieldNumber number → ∀ value,
    runtime.Holds (makeTag number 0) runtime.readVarint64 value
      (runtime.writeUInt64ToArray number value)
  writeInt32ToArray : ∀ {number : Nat}, FieldNumber number → ∀ value : Int32,
    runtime.Holds (makeTag number 0) runtime.readVarint32 value.toUInt32
      (runtime.writeInt32ToArray number value)
  writeEnumToArray : ∀ {number : Nat}, FieldNumber number → ∀ value : Int32,
    runtime.Holds (makeTag number 0) runtime.readVarint64 value.toInt64.toUInt64
      (runtime.writeEnumToArray number value)
  writeInt64ToArray : ∀ {number : Nat}, FieldNumber number → ∀ value : Int64,
    runtime.Holds (makeTag number 0) runtime.readVarint64 value.toUInt64
      (runtime.writeInt64ToArray number value)
  writeStringMaybeAliased : ∀ {number : Nat}, FieldNumber number → ∀ {text : Bytes},
    text.length ≤ maxText → runtime.Holds (makeTag number 2) runtime.inlineGreedyStringParser text
      (runtime.writeStringMaybeAliased number text)
  /-- A longer text is refused by who reads it. -/
  maxText : ∀ {bytes text rest : Bytes},
    runtime.inlineGreedyStringParser bytes = some (text, rest) → text.length ≤ maxText
  refused : ∀ {number : Nat}, FieldNumber number → ∀ {text : Bytes},
    Proto.maxText < text.length → text.length ≤ maxMessage →
      ∃ body, runtime.readTag (runtime.writeStringMaybeAliased number text) =
          some (makeTag number 2, body) ∧
        ∀ more, runtime.inlineGreedyStringParser (body ++ more) = none
  /-- What is kept of an unknown field is written behind its tag, and kept again. -/
  serializeUnknown : ∀ {tag : UInt32} {bytes rest : Bytes} {field : Unknown},
    runtime.unknownFieldParse tag bytes = some (field, rest) →
      runtime.Holds tag (runtime.unknownFieldParse tag) field (runtime.serializeUnknown field)
  /-- The sizes are those of what is written, with a tag of one byte. -/
  uInt64SizePlusOne : ∀ {number : Nat}, ShortNumber number → ∀ value,
    (runtime.writeUInt64ToArray number value).length = runtime.uInt64SizePlusOne value
  int32SizePlusOne : ∀ {number : Nat}, ShortNumber number → ∀ value,
    (runtime.writeInt32ToArray number value).length = runtime.int32SizePlusOne value
  enumSize : ∀ {number : Nat}, ShortNumber number → ∀ value,
    (runtime.writeEnumToArray number value).length = 1 + runtime.enumSize value
  int64SizePlusOne : ∀ {number : Nat}, ShortNumber number → ∀ value,
    (runtime.writeInt64ToArray number value).length = runtime.int64SizePlusOne value
  stringSize : ∀ {number : Nat}, ShortNumber number → ∀ {text : Bytes},
    text.length ≤ maxMessage →
      (runtime.writeStringMaybeAliased number text).length = 1 + runtime.stringSize text
  unknownSize : ∀ {tag : UInt32} {bytes rest : Bytes} {field : Unknown},
    runtime.unknownFieldParse tag bytes = some (field, rest) →
      (runtime.serializeUnknown field).length = runtime.unknownSize field
  /-- A number is at most ten bytes, and the length of a text at most five. -/
  uInt64SizePlusOne_le : ∀ value, runtime.uInt64SizePlusOne value ≤ 11
  int32SizePlusOne_le : ∀ value, runtime.int32SizePlusOne value ≤ 11
  enumSize_le : ∀ value, runtime.enumSize value ≤ 10
  int64SizePlusOne_le : ∀ value, runtime.int64SizePlusOne value ≤ 11
  le_stringSize : ∀ text, text.length ≤ runtime.stringSize text
  stringSize_le : ∀ text, runtime.stringSize text ≤ 5 + text.length
  /-- A message above `INT_MAX` bytes is not written. -/
  serializeToZeroCopyStream : ∀ size bytes, runtime.serializeToZeroCopyStream size bytes =
    if size ≤ maxMessage then some bytes else none

end Runtime

namespace Runtime

variable {runtime : Runtime Unknown}

theorem Lawful.readText (sound : runtime.Lawful) : Items.Delimited runtime.readText :=
  sound.inlineGreedyStringParser.filter runtime.verifyUtf8

/-- What is read as a text is readable. -/
theorem Lawful.readable_of_readText (sound : runtime.Lawful) {bytes text rest : Bytes}
    (found : runtime.readText bytes = some (text, rest)) : runtime.ReadableText text := by
  obtain ⟨taken, valid⟩ := Option.filter_eq_some_iff.mp found
  exact ⟨sound.maxText taken, valid⟩

/-- A readable text is read back. -/
theorem Lawful.holds_text (sound : runtime.Lawful) {number : Nat} (named : FieldNumber number)
    {text : Bytes} (readable : runtime.ReadableText text) :
    runtime.Holds (makeTag number 2) runtime.readText text
      (runtime.writeStringMaybeAliased number text) := by
  obtain ⟨body, tagged, taken⟩ := sound.writeStringMaybeAliased named readable.1
  exact ⟨body, tagged, Option.filter_eq_some_iff.mpr ⟨taken, readable.2⟩⟩

/-- A text that is not readable is refused, whatever follows it. -/
theorem Lawful.refused_text (sound : runtime.Lawful) {number : Nat} (named : FieldNumber number)
    {text : Bytes} (unreadable : ¬ runtime.ReadableText text) (small : text.length ≤ maxMessage) :
    ∃ body, runtime.readTag (runtime.writeStringMaybeAliased number text) =
        some (makeTag number 2, body) ∧ ∀ more, runtime.readText (body ++ more) = none := by
  by_cases short : text.length ≤ Proto.maxText
  · obtain ⟨body, tagged, taken⟩ := sound.writeStringMaybeAliased named short
    refine ⟨body, tagged, fun more => ?_⟩
    have invalid : ¬ runtime.verifyUtf8 text = true := fun valid => unreadable ⟨short, valid⟩
    rw [Runtime.readText, sound.inlineGreedyStringParser.append taken more]
    simp [invalid]
  · obtain ⟨body, tagged, refused⟩ := sound.refused named (Nat.lt_of_not_le short) small
    refine ⟨body, tagged, fun more => ?_⟩
    rw [Runtime.readText, refused more]
    rfl

end Runtime

end Drpc.Proto
