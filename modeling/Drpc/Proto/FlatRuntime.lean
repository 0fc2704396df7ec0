import Drpc.Library.Varint
import Drpc.Proto.Generated

/-! # A runtime

The wire format of protobuf, but for groups, which are refused: a runtime on which messages
are evaluated, and which is lawful (`flatRuntime_lawful`).
-/

namespace Drpc.Proto

/-- An unknown field: its tag, and its bytes behind the tag. -/
structure UnknownField where
  tag : UInt32
  body : Bytes
  deriving DecidableEq, Repr

namespace FlatRuntime

/-- A varint of at most ten bytes, of which 64 bits count. -/
def readNumber (bytes : Bytes) : Option (UInt64 × Bytes) :=
  (Varint.decode 10 bytes).map (Prod.map UInt64.ofNat id)

/-- A varint of at most five bytes, of which 32 bits count. -/
def readTag (bytes : Bytes) : Option (UInt32 × Bytes) :=
  (Varint.decode 5 bytes).map (Prod.map UInt32.ofNat id)

/-- All 64 bits. -/
def writeNumber (value : UInt64) : Bytes := Varint.encode 10 value.toNat

/-- All 32 bits. -/
def writeTag (tag : UInt32) : Bytes := Varint.encode 5 tag.toNat

/-- As many bytes, of any content. -/
def readFixed (width : Nat) (bytes : Bytes) : Option (Bytes × Bytes) :=
  if width ≤ bytes.length then some (bytes.take width, bytes.drop width) else none

/-- A length that is not above the limit. -/
def readSize (bytes : Bytes) : Option (Nat × Bytes) :=
  (Varint.decode 5 bytes).filter fun pair => decide (pair.1 ≤ maxText)

/-- A length and as many bytes. -/
def readText (bytes : Bytes) : Option (Bytes × Bytes) :=
  (readSize bytes).bind fun (size, rest) => readFixed size rest

/-- The length counts 32 bits. -/
def writeText (text : Bytes) : Bytes := Varint.encode 5 (text.length % 2 ^ 32) ++ text

/-- The body of a field of each wire type but a group, as it is kept: a varint, eight bytes, a
length and as many bytes, four bytes. -/
def readBody : Nat → Bytes → Option (Bytes × Bytes)
  | 0, bytes => (readNumber bytes).map (Prod.map writeNumber id)
  | 1, bytes => readFixed 8 bytes
  | 2, bytes => (readText bytes).map (Prod.map writeText id)
  | 5, bytes => readFixed 4 bytes
  | _, _ => none

end FlatRuntime

open FlatRuntime

/-- A runtime that refuses groups. -/
def flatRuntime : Runtime UnknownField where
  done bytes := bytes.isEmpty
  endedAtEndOfStream lastTag := lastTag.isNone
  readTag := readTag
  readVarint64 := readNumber
  readVarint32 bytes := (readNumber bytes).map (Prod.map UInt64.toUInt32 id)
  inlineGreedyStringParser := readText
  verifyUtf8 bytes := (ByteArray.mk bytes.toArray).validateUTF8
  unknownFieldParse tag bytes :=
    if tag.toNat / 8 = 0 then none
    else (readBody (tag.toNat % 8) bytes).map (Prod.map (UnknownField.mk tag) id)
  writeUInt64ToArray number value := writeTag (makeTag number 0) ++ writeNumber value
  writeInt32ToArray number value :=
    writeTag (makeTag number 0) ++ writeNumber value.toInt64.toUInt64
  writeEnumToArray number value :=
    writeTag (makeTag number 0) ++ writeNumber value.toInt64.toUInt64
  writeInt64ToArray number value := writeTag (makeTag number 0) ++ writeNumber value.toUInt64
  writeStringMaybeAliased number text := writeTag (makeTag number 2) ++ writeText text
  serializeUnknown field := writeTag field.tag ++ field.body
  uInt64SizePlusOne value := Varint.size value.toNat + 1
  int32SizePlusOne value := Varint.size value.toInt64.toUInt64.toNat + 1
  enumSize value := Varint.size value.toInt64.toUInt64.toNat
  int64SizePlusOne value := Varint.size value.toUInt64.toNat + 1
  stringSize text := Varint.size (text.length % 2 ^ 32) + text.length
  unknownSize field := Varint.size field.tag.toNat + field.body.length
  serializeToZeroCopyStream size bytes := if size ≤ maxMessage then some bytes else none

namespace FlatRuntime

/-- A tag says where it ends. -/
theorem readTag_delimited : Items.Delimited readTag := (Varint.decode_delimited 5).map _

/-- So does a number. -/
theorem readNumber_delimited : Items.Delimited readNumber := (Varint.decode_delimited 10).map _

/-- A tag is read back. -/
theorem readTag_writeTag (tag : UInt32) (rest : Bytes) :
    readTag (writeTag tag ++ rest) = some (tag, rest) := by
  have fits : tag.toNat < 128 ^ (4 + 1) := tag.toNat_lt.trans (by norm_num)
  rw [readTag, writeTag, Varint.decode_encode_append (by decide), if_pos fits]
  simp

/-- So is a number. -/
theorem readNumber_writeNumber (value : UInt64) (rest : Bytes) :
    readNumber (writeNumber value ++ rest) = some (value, rest) := by
  have fits : value.toNat < 128 ^ (9 + 1) := value.toNat_lt.trans (by norm_num)
  rw [readNumber, writeNumber, Varint.decode_encode_append (by decide), if_pos fits]
  simp

/-- Fixed bytes are a prefix. -/
theorem readFixed_eq_some {width : Nat} {bytes body rest : Bytes} :
    readFixed width bytes = some (body, rest) ↔ body.length = width ∧ bytes = body ++ rest := by
  unfold readFixed
  constructor
  · intro found
    split at found
    · rename_i enough
      cases found
      exact ⟨List.length_take_of_le enough, (List.take_append_drop width bytes).symm⟩
    · cases found
  · rintro ⟨rfl, rfl⟩
    simp

/-- More bytes may come behind them. -/
theorem readFixed_append {width : Nat} {bytes body rest : Bytes}
    (found : readFixed width bytes = some (body, rest)) (more : Bytes) :
    readFixed width (bytes ++ more) = some (body, rest ++ more) := by
  obtain ⟨same, rfl⟩ := readFixed_eq_some.mp found
  exact readFixed_eq_some.mpr ⟨same, List.append_assoc ..⟩

/-- They are as many as were asked for. -/
theorem length_readFixed {width : Nat} {bytes body rest : Bytes}
    (found : readFixed width bytes = some (body, rest)) :
    rest.length + width = bytes.length := by
  obtain ⟨rfl, rfl⟩ := readFixed_eq_some.mp found
  rw [List.length_append, Nat.add_comm]

/-- A text says where it ends. -/
theorem readText_delimited : Items.Delimited readText := by
  have sized : Items.Delimited readSize :=
    (Varint.decode_delimited 5).filter fun size => decide (size ≤ maxText)
  change Items.Delimited fun bytes =>
    (readSize bytes).bind fun (size, rest) => readFixed size rest
  exact sized.bind (fun _ {_ _ _} found => readFixed_append found)
    fun _ {_ _ _} found => Nat.le.intro (length_readFixed found)

/-- The length of a text that can be written counts whole. -/
theorem writeText_eq {text : Bytes} (small : text.length ≤ maxMessage) :
    writeText text = Varint.encode 5 text.length ++ text := by
  have fits : text.length < 2 ^ 32 := small.trans_lt (by norm_num [maxMessage])
  rw [writeText, Nat.mod_eq_of_lt fits]

/-- The length of a text is refused above the limit. -/
theorem readSize_writeText {text : Bytes} (small : text.length ≤ maxMessage) (rest : Bytes) :
    readSize (writeText text ++ rest) =
      if text.length ≤ maxText then some (text.length, text ++ rest) else none := by
  have fits : text.length < 128 ^ (4 + 1) := small.trans_lt (by norm_num [maxMessage])
  rw [readSize, writeText_eq small, List.append_assoc, Varint.decode_encode_append (by decide),
    if_pos fits]
  by_cases short : text.length ≤ maxText
  · simp [short]
  · simp only [Option.filter_some, short, decide_false, Bool.false_eq_true, ↓reduceIte]

/-- A text within the limit is read back. -/
theorem readText_writeText {text : Bytes} (short : text.length ≤ maxText) (rest : Bytes) :
    readText (writeText text ++ rest) = some (text, rest) := by
  have small : text.length ≤ maxMessage := short.trans (by norm_num [maxText, maxMessage])
  rw [readText, readSize_writeText small, if_pos short]
  exact readFixed_eq_some.mpr ⟨rfl, rfl⟩

/-- Every text that is read is within it. -/
theorem length_readText {bytes text rest : Bytes}
    (found : readText bytes = some (text, rest)) : text.length ≤ maxText := by
  obtain ⟨⟨size, behind⟩, sized, fixed⟩ := Option.bind_eq_some_iff.mp found
  obtain ⟨-, short⟩ := Option.filter_eq_some_iff.mp sized
  rw [(readFixed_eq_some.mp fixed).1]
  exact of_decide_eq_true short

/-- A body that is kept is kept again. -/
theorem readBody_kept {wire : Nat} {bytes body rest : Bytes}
    (found : readBody wire bytes = some (body, rest)) : readBody wire body = some (body, []) := by
  have fixed : ∀ width, readFixed width bytes = some (body, rest) →
      readFixed width body = some (body, []) := by
    intro width taken
    exact readFixed_eq_some.mpr ⟨(readFixed_eq_some.mp taken).1, (List.append_nil body).symm⟩
  unfold readBody at found ⊢
  split at found
  · obtain ⟨⟨value, behind⟩, -, same⟩ := Option.map_eq_some_iff.mp found
    cases same
    have again := readNumber_writeNumber value []
    rw [List.append_nil] at again
    simp only [again, Option.map_some, Prod.map_apply, id_eq]
  · exact fixed 8 found
  · obtain ⟨⟨text, behind⟩, taken, same⟩ := Option.map_eq_some_iff.mp found
    cases same
    have again := readText_writeText (length_readText taken) []
    rw [List.append_nil] at again
    simp only [again, Option.map_some, Prod.map_apply, id_eq]
  · exact fixed 4 found
  · cases found

/-- A body says where it ends. -/
theorem readBody_delimited (wire : Nat) : Items.Delimited (readBody wire) := by
  have fixed : ∀ {width}, 0 < width → Items.Delimited (readFixed width) := by
    intro width some_
    refine ⟨readFixed_append, fun found => ?_⟩
    have whole := length_readFixed found
    omega
  have number := readNumber_delimited.map writeNumber
  have text := readText_delimited.map writeText
  match wire with
  | 0 => exact number
  | 1 => exact fixed (by decide)
  | 2 => exact text
  | 5 => exact fixed (by decide)
  | 3 | 4 | _ + 6 =>
      constructor
      all_goals
        intro value bytes rest found
        cases found

/-- A number that fits in some room is not written in more. -/
theorem size_le {room value : Nat} (fits : value < 128 ^ (room + 1)) :
    Varint.size value ≤ room + 1 := by
  rw [← Varint.length_encode fits]
  exact Varint.length_encode_le _ _

/-- `size` counts the bytes of a number. -/
theorem length_writeNumber (value : UInt64) :
    (writeNumber value).length = Varint.size value.toNat :=
  Varint.length_encode (value.toNat_lt.trans (by norm_num))

/-- And those of a tag. -/
theorem length_writeTag (tag : UInt32) : (writeTag tag).length = Varint.size tag.toNat :=
  Varint.length_encode (tag.toNat_lt.trans (by norm_num))

/-- The tag of one of the first fifteen fields is one byte. -/
theorem length_shortTag {number wireType : Nat} (short : ShortNumber number)
    (typed : wireType < 8) : (writeTag (makeTag number wireType)).length = 1 := by
  have few : 8 * number + wireType < 128 := by
    have less := short.2
    omega
  have same : (makeTag number wireType).toNat = 8 * number + wireType := by
    simp only [makeTag, UInt32.toNat_ofNat']
    omega
  rw [writeTag, same, Varint.encode_of_lt few, List.length_singleton]

/-- A number on its own. -/
theorem readNumber_writeNumber_self (value : UInt64) :
    readNumber (writeNumber value) = some (value, []) := by
  have back := readNumber_writeNumber value []
  rwa [List.append_nil] at back

/-- A text on its own. -/
theorem readText_writeText_self {text : Bytes} (short : text.length ≤ maxText) :
    readText (writeText text) = some (text, []) := by
  have back := readText_writeText short []
  rwa [List.append_nil] at back

/-- The low bits of a number that was extended by its sign are the number. -/
theorem toUInt32_extended (value : Int32) :
    value.toInt64.toUInt64.toUInt32 = value.toUInt32 := by
  apply UInt32.toBitVec_inj.mp
  simp only [UInt64.toBitVec_toUInt32, Int64.toBitVec_toUInt64, Int32.toBitVec_toInt64,
    Int32.toBitVec_toUInt32]
  ext i small
  rw [BitVec.getElem_setWidth, BitVec.getLsbD_signExtend]
  have wide : i < 64 := by omega
  simp [small, wide]

/-- The size of a field with a number. -/
theorem length_numberField {number : Nat} (short : ShortNumber number) (value : UInt64) :
    (writeTag (makeTag number 0) ++ writeNumber value).length = Varint.size value.toNat + 1 := by
  rw [List.length_append, length_shortTag short (by decide), length_writeNumber, Nat.add_comm]

/-- A number has at most ten bytes. -/
theorem size_number_le (value : UInt64) : Varint.size value.toNat ≤ 10 :=
  size_le (value.toNat_lt.trans (by norm_num))

/-- The length word of a text fits in five bytes. -/
theorem length_lt (text : Bytes) : text.length % 2 ^ 32 < 128 ^ (4 + 1) :=
  (Nat.mod_lt _ (by norm_num)).trans (by norm_num)

end FlatRuntime

open FlatRuntime

/-- What is read from a body is held by the field with the tag in front. -/
theorem flatRuntime_holds {Value : Type} {tag : UInt32} {read : Bytes → Option (Value × Bytes)}
    {value : Value} {body : Bytes} (taken : read body = some (value, [])) :
    flatRuntime.Holds tag read value (writeTag tag ++ body) :=
  ⟨body, readTag_writeTag tag body, taken⟩

/-- A number that was extended by its sign is truncated again. -/
theorem flatRuntime_truncates (value : Int32) :
    flatRuntime.readVarint32 (writeNumber value.toInt64.toUInt64) =
      some (value.toUInt32, []) := by
  change (readNumber _).map _ = _
  rw [readNumber_writeNumber_self, Option.map_some, Prod.map_apply, toUInt32_extended]
  rfl

/-- An unknown field keeps its tag and the body behind it. -/
theorem flatRuntime_unknown {tag : UInt32} {bytes rest : Bytes} {field : UnknownField}
    (found : flatRuntime.unknownFieldParse tag bytes = some (field, rest)) :
    tag.toNat / 8 ≠ 0 ∧ field.tag = tag ∧
      readBody (tag.toNat % 8) bytes = some (field.body, rest) := by
  simp only [flatRuntime, Option.ite_none_left_eq_some, Option.map_eq_some_iff] at found
  obtain ⟨numbered, ⟨body, behind⟩, taken, same⟩ := found
  cases same
  exact ⟨numbered, rfl, taken⟩

/-- An unknown field says where it ends. -/
theorem flatRuntime_unknown_delimited (tag : UInt32) :
    Items.Delimited (flatRuntime.unknownFieldParse tag) := by
  have body := (readBody_delimited (tag.toNat % 8)).map (UnknownField.mk tag)
  simp only [flatRuntime]
  by_cases unnumbered : tag.toNat / 8 = 0
  · simp only [unnumbered, ↓reduceIte]
    constructor
    all_goals
      intro value bytes rest found
      cases found
  · simp only [unnumbered, ↓reduceIte]
    exact body

/-- **It keeps to the documentation.** -/
theorem flatRuntime_lawful : flatRuntime.Lawful := by
  constructor
  case done => simp [flatRuntime]
  case endedAtEndOfStream => rfl
  case endedAtTag => exact fun _ _ => rfl
  case readTag => exact readTag_delimited
  case readVarint64 => exact readNumber_delimited
  case readVarint32 => exact readNumber_delimited.map _
  case inlineGreedyStringParser => exact readText_delimited
  case unknownFieldParse => exact flatRuntime_unknown_delimited
  case writeUInt64ToArray =>
    exact fun _ value => flatRuntime_holds (readNumber_writeNumber_self value)
  case writeInt32ToArray => exact fun _ value => flatRuntime_holds (flatRuntime_truncates value)
  case writeEnumToArray => exact fun _ _ => flatRuntime_holds (readNumber_writeNumber_self _)
  case writeInt64ToArray => exact fun _ _ => flatRuntime_holds (readNumber_writeNumber_self _)
  case writeStringMaybeAliased =>
    exact fun _ _ short => flatRuntime_holds (readText_writeText_self short)
  case maxText => exact length_readText
  case refused =>
    intro number_ _ text long small
    refine ⟨_, readTag_writeTag _ _, fun more => ?_⟩
    change readText _ = none
    rw [readText, readSize_writeText small, if_neg (Nat.not_le_of_lt long), Option.bind_none]
  case serializeUnknown =>
    intro tag bytes rest field found
    obtain ⟨numbered, rfl, taken⟩ := flatRuntime_unknown found
    apply flatRuntime_holds
    simp only [flatRuntime, if_neg numbered, readBody_kept taken, Option.map_some]
    rfl
  case uInt64SizePlusOne => exact fun short value => length_numberField short value
  case int32SizePlusOne => exact fun short value => length_numberField short _
  case enumSize =>
    exact fun short value => (length_numberField short _).trans (Nat.add_comm ..)
  case int64SizePlusOne => exact fun short value => length_numberField short _
  case stringSize =>
    intro number_ short text small
    simp only [flatRuntime, List.length_append, length_shortTag short (by decide : 2 < 8),
      writeText, Varint.length_encode (length_lt text)]
  case unknownSize =>
    intro tag bytes rest field _
    simp only [flatRuntime, List.length_append, length_writeTag]
  case uInt64SizePlusOne_le => exact fun value => Nat.succ_le_succ (size_number_le value)
  case int32SizePlusOne_le => exact fun value => Nat.succ_le_succ (size_number_le _)
  case enumSize_le => exact fun value => size_number_le _
  case int64SizePlusOne_le => exact fun value => Nat.succ_le_succ (size_number_le _)
  case le_stringSize => exact fun text => Nat.le_add_left _ _
  case stringSize_le => exact fun text => Nat.add_le_add_right (size_le (length_lt text)) _
  case serializeToZeroCopyStream => exact fun _ _ => rfl

end Drpc.Proto
