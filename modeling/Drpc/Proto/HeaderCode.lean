import Drpc.Proto.FlatRuntime

/-! # The generated code of the header

`message.pb.cc` for the message `Header`: the cases of its `switch`, what it writes, its size
and its merge, over any runtime of protobuf.
-/

namespace Drpc.Proto

variable {Unknown : Type}

/-- The number of a message type. -/
def MessageType.number : MessageType → Int32
  | .unspecified => 0
  | .request => 1
  | .response => 2
  | .unknown value _ => value

/-- `static_cast<MessageType>` -/
def MessageType.ofNumber (value : Int32) : MessageType :=
  if value = 0 then .unspecified
  else if value = 1 then .request
  else if value = 2 then .response
  else if unnamed : value ∉ [0, 1, 2] then .unknown value unnamed
  else .unspecified

/-- A header with every field at its default. -/
def Header.blank : Header where
  magic := 0
  version := 0
  messageType := .unspecified
  requestId := 0
  serviceName := none
  methodName := none

/-- The `switch` of `Header::_InternalParse`. -/
def Header.field (runtime : Runtime Unknown) (tag : UInt32) :
    Option (Items.Reader UInt8 Header) :=
  match tag.toNat / 8 with
  | 1 =>
      if tag.toUInt8 = 8 then
        some (fieldCase runtime.readVarint64 fun header value => { header with magic := value })
      else none
  | 2 =>
      if tag.toUInt8 = 16 then
        some (fieldCase runtime.readVarint32 fun header value =>
          { header with version := value.toInt32 })
      else none
  | 3 =>
      if tag.toUInt8 = 24 then
        some (fieldCase runtime.readVarint64 fun header value =>
          { header with messageType := .ofNumber value.toUInt32.toInt32 })
      else none
  | 4 =>
      if tag.toUInt8 = 32 then
        some (fieldCase runtime.readVarint64 fun header value =>
          { header with requestId := value.toInt64 })
      else none
  | 5 =>
      if tag.toUInt8 = 42 then
        some (fieldCase runtime.readText fun header text =>
          { header with serviceName := some text })
      else none
  | 6 =>
      if tag.toUInt8 = 50 then
        some (fieldCase runtime.readText fun header text => { header with methodName := some text })
      else none
  | _ => none

/-- `Header::_InternalSerialize`, before the unknown fields: a number that is not zero, and a
name that is present. -/
def Header.serialize (runtime : Runtime Unknown) (header : Header) : Bytes :=
  (if header.magic ≠ 0 then runtime.writeUInt64ToArray 1 header.magic else []) ++
    ((if header.version ≠ 0 then runtime.writeInt32ToArray 2 header.version else []) ++
      ((if header.messageType.number ≠ 0 then
          runtime.writeEnumToArray 3 header.messageType.number
        else []) ++
        ((if header.requestId ≠ 0 then runtime.writeInt64ToArray 4 header.requestId else []) ++
          (header.serviceName.elim [] (runtime.writeStringMaybeAliased 5) ++
            header.methodName.elim [] (runtime.writeStringMaybeAliased 6)))))

/-- `Header::ByteSizeLong`, before the unknown fields -/
def Header.byteSize (runtime : Runtime Unknown) (header : Header) : Nat :=
  header.serviceName.elim 0 (fun text => 1 + runtime.stringSize text) +
    header.methodName.elim 0 (fun text => 1 + runtime.stringSize text) +
    (if header.magic ≠ 0 then runtime.uInt64SizePlusOne header.magic else 0) +
    (if header.version ≠ 0 then runtime.int32SizePlusOne header.version else 0) +
    (if header.messageType.number ≠ 0 then 1 + runtime.enumSize header.messageType.number
      else 0) +
    (if header.requestId ≠ 0 then runtime.int64SizePlusOne header.requestId else 0)

/-- `Header::MergeImpl`, before the unknown fields -/
def Header.merge (toMsg fromMsg : Header) : Header where
  serviceName := fromMsg.serviceName.or toMsg.serviceName
  methodName := fromMsg.methodName.or toMsg.methodName
  magic := if fromMsg.magic ≠ 0 then fromMsg.magic else toMsg.magic
  version := if fromMsg.version ≠ 0 then fromMsg.version else toMsg.version
  messageType :=
    if fromMsg.messageType.number ≠ 0 then fromMsg.messageType else toMsg.messageType
  requestId := if fromMsg.requestId ≠ 0 then fromMsg.requestId else toMsg.requestId

/-- The generated code of `Header`. -/
def headerCode (runtime : Runtime Unknown) : Generated Unknown Header where
  runtime := runtime
  cleared := .blank
  field := Header.field runtime
  serialize := Header.serialize runtime
  byteSize := Header.byteSize runtime
  merge := Header.merge

@[simp] theorem MessageType.ofNumber_number (messageType : MessageType) :
    MessageType.ofNumber messageType.number = messageType := by
  cases messageType with
  | unspecified => rfl
  | request => rfl
  | response => rfl
  | unknown value unnamed =>
      have different := unnamed
      simp only [List.mem_cons, List.not_mem_nil, or_false, not_or] at different
      simp only [number, ofNumber, different, ↓reduceIte, unnamed, not_false_eq_true, ↓reduceDIte]

theorem MessageType.number_eq_zero (messageType : MessageType) :
    messageType.number = 0 ↔ messageType = .unspecified := by
  constructor
  · intro zero
    have back := MessageType.ofNumber_number messageType
    rw [zero] at back
    exact back.symm
  · rintro rfl
    rfl

/-- The lower half of a sign-extended number. -/
theorem truncate_extend (value : Int32) :
    value.toInt64.toUInt64.toUInt32.toInt32 = value := by
  apply Int32.toBitVec_inj.mp
  simp only [UInt32.toBitVec_toInt32, UInt64.toBitVec_toUInt32, Int64.toBitVec_toUInt64,
    Int32.toBitVec_toInt64]
  ext i small
  rw [BitVec.getElem_setWidth, BitVec.getLsbD_signExtend]
  have wide : i < 64 := by omega
  simp [small, wide]

/-- Both names can be read back. -/
structure Header.Readable (runtime : Runtime Unknown) (header : Header) : Prop where
  service : ∀ text ∈ header.serviceName, runtime.ReadableText text
  method : ∀ text ∈ header.methodName, runtime.ReadableText text

instance (runtime : Runtime Unknown) (header : Header) : Decidable (header.Readable runtime) :=
  decidable_of_iff
    ((∀ text ∈ header.serviceName, runtime.ReadableText text) ∧
      ∀ text ∈ header.methodName, runtime.ReadableText text)
    ⟨fun both => ⟨both.1, both.2⟩, fun readable => ⟨readable.service, readable.method⟩⟩

section Code

variable {runtime : Runtime Unknown}

/-- A header without names is readable. -/
theorem Header.readable_of_unnamed {header : Header} (service : header.serviceName = none)
    (method : header.methodName = none) : header.Readable runtime where
  service := by simp [service]
  method := by simp [method]

/-- Each case of the `switch` keeps the names readable. -/
theorem Header.field_cases (sound : runtime.Lawful) {tag : UInt32}
    {read : Items.Reader UInt8 Header} (known : Header.field runtime tag = some read) :
    Generated.Case (Header.Readable runtime) read := by
  unfold Header.field at known
  split at known
  case h_7 => cases known
  all_goals
    split at known
    case isFalse => cases known
    cases known
  · exact .of_delimited sound.readVarint64 fun readable _ => ⟨readable.service, readable.method⟩
  · exact .of_delimited sound.readVarint32 fun readable _ => ⟨readable.service, readable.method⟩
  · exact .of_delimited sound.readVarint64 fun readable _ => ⟨readable.service, readable.method⟩
  · exact .of_delimited sound.readVarint64 fun readable _ => ⟨readable.service, readable.method⟩
  · apply Generated.Case.of_delimited sound.readText
    intro header text bytes rest readable found
    exact ⟨fun other same => Option.some.inj same ▸ sound.readable_of_readText found,
      readable.method⟩
  · apply Generated.Case.of_delimited sound.readText
    intro header text bytes rest readable found
    exact ⟨readable.service,
      fun other same => Option.some.inj same ▸ sound.readable_of_readText found⟩

/-- What is read on top of a message is merged into it. -/
theorem Header.written (sound : runtime.Lawful) {fromMsg : Header}
    (readable : fromMsg.Readable runtime) (toMsg : Header) :
    Items.readAll (headerCode runtime).knownField toMsg (fromMsg.serialize runtime) =
      some (Header.merge toMsg fromMsg) := by
  have chunks : Items.Lawful (headerCode runtime).knownField :=
    Generated.knownField_lawful sound (Header.field_cases sound)
  obtain ⟨magic, version, messageType, requestId, serviceName, methodName⟩ := fromMsg
  rw [Header.serialize, ← List.append_nil (Option.elim methodName _ _)]
  rw [Generated.readAll_implicit chunks rfl
    (sound.writeUInt64ToArray (by decide : FieldNumber 1) magic)
    { toMsg with magic := if magic ≠ 0 then magic else toMsg.magic }]
  rw [Generated.readAll_implicit chunks rfl
    (sound.writeInt32ToArray (by decide : FieldNumber 2) version)
    { toMsg with
      magic := if magic ≠ 0 then magic else toMsg.magic
      version := if version ≠ 0 then version else toMsg.version }]
  rw [Generated.readAll_implicit chunks rfl
    (sound.writeEnumToArray (by decide : FieldNumber 3) messageType.number)
    { toMsg with
      magic := if magic ≠ 0 then magic else toMsg.magic
      version := if version ≠ 0 then version else toMsg.version
      messageType := if messageType.number ≠ 0 then messageType else toMsg.messageType }]
  rw [Generated.readAll_implicit chunks rfl
    (sound.writeInt64ToArray (by decide : FieldNumber 4) requestId)
    { Header.merge toMsg ⟨magic, version, messageType, requestId, none, none⟩ with
      serviceName := toMsg.serviceName
      methodName := toMsg.methodName }]
  rw [Generated.readAll_optional chunks rfl
    (fun text name => sound.holds_text (by decide : FieldNumber 5) (readable.service text name))
    { Header.merge toMsg ⟨magic, version, messageType, requestId, serviceName, none⟩ with
      methodName := toMsg.methodName }]
  rw [Generated.readAll_optional chunks rfl
    (fun text name => sound.holds_text (by decide : FieldNumber 6) (readable.method text name))
    (Header.merge toMsg ⟨magic, version, messageType, requestId, serviceName, methodName⟩)]
  · rfl
  -- each field is set, or left alone when it is absent
  all_goals
    intros
    simp_all [Header.merge, truncate_extend]

/-- What is written of a header that can be read back. -/
theorem Header.length_serialize (sound : runtime.Lawful) {header : Header}
    (readable : header.Readable runtime) :
    (header.serialize runtime).length = header.byteSize runtime := by
  obtain ⟨magic, version, messageType, requestId, serviceName, methodName⟩ := header
  have text : ∀ {number : Nat}, ShortNumber number → ∀ name : Option Bytes,
      (∀ text ∈ name, runtime.ReadableText text) →
        (name.elim [] (runtime.writeStringMaybeAliased number)).length =
          name.elim 0 fun text => 1 + runtime.stringSize text := by
    intro number short name valid
    cases name with
    | none => rfl
    | some text =>
        exact sound.stringSize short ((valid text rfl).1.trans (by norm_num [maxText, maxMessage]))
  have number : ∀ {present : Prop} [Decidable present] {field : Bytes} {size : Nat},
      field.length = size → (if present then field else []).length = if present then size else 0 :=
    fun {present} _ {_ _} same => by split <;> simp [same]
  simp only [serialize, byteSize, List.length_append,
    number (sound.uInt64SizePlusOne (by decide : ShortNumber 1) magic),
    number (sound.int32SizePlusOne (by decide : ShortNumber 2) version),
    number (sound.enumSize (by decide : ShortNumber 3) messageType.number),
    number (sound.int64SizePlusOne (by decide : ShortNumber 4) requestId),
    text (by decide : ShortNumber 5) serviceName readable.service,
    text (by decide : ShortNumber 6) methodName readable.method]
  omega

/-- A header is not much longer than the names in it. -/
theorem Header.byteSize_le (sound : runtime.Lawful) (header : Header) :
    header.byteSize runtime ≤ 56 + header.service.length + header.method.length := by
  obtain ⟨magic, version, messageType, requestId, serviceName, methodName⟩ := header
  have text : ∀ name : Option Bytes,
      (name.elim 0 fun text => 1 + runtime.stringSize text) ≤ 6 + (name.getD []).length := by
    intro name
    cases name with
    | none => exact Nat.zero_le _
    | some text =>
        have size := sound.stringSize_le text
        change 1 + runtime.stringSize text ≤ 6 + text.length
        omega
  have number : ∀ {present : Prop} [Decidable present] {size bound : Nat}, size ≤ bound →
      (if present then size else 0) ≤ bound :=
    fun {present} _ {_ _} small => by split <;> omega
  have magic_ : (if magic ≠ 0 then runtime.uInt64SizePlusOne magic else 0) ≤ 11 :=
    number (sound.uInt64SizePlusOne_le magic)
  have version_ : (if version ≠ 0 then runtime.int32SizePlusOne version else 0) ≤ 11 :=
    number (sound.int32SizePlusOne_le version)
  have type_ : (if messageType.number ≠ 0 then 1 + runtime.enumSize messageType.number else 0) ≤
      11 := by
    have size := sound.enumSize_le messageType.number
    exact number (by omega)
  have id_ : (if requestId ≠ 0 then runtime.int64SizePlusOne requestId else 0) ≤ 11 :=
    number (sound.int64SizePlusOne_le requestId)
  have service := text serviceName
  have method := text methodName
  simp only [byteSize, Header.service, Header.method]
  omega

theorem headerCode_lawful (sound : runtime.Lawful) :
    (headerCode runtime).Lawful (Header.Readable runtime) where
  runtime := sound
  cases := Header.field_cases sound
  cleared := Header.readable_of_unnamed rfl rfl
  written := Header.written sound
  merge_cleared := by
    intro header
    obtain ⟨magic, version, messageType, requestId, serviceName, methodName⟩ := header
    simp only [headerCode, Header.merge, Header.blank, Option.or_none, Header.mk.injEq, and_true]
    refine ⟨?_, ?_, ?_, ?_⟩
    all_goals
      split
      · rfl
      · rename_i zero
        simp_all [MessageType.number_eq_zero]
  size := fun readable => (Header.length_serialize sound readable).symm

/-- The texts of a header whose size can be announced. -/
theorem Header.text_le_of_byteSize (sound : runtime.Lawful) {header : Header}
    (fits : header.byteSize runtime ≤ maxMessage) :
    (∀ text ∈ header.serviceName, text.length ≤ maxMessage) ∧
      ∀ text ∈ header.methodName, text.length ≤ maxMessage := by
  unfold Header.byteSize at fits
  constructor
  · intro text name
    have size := sound.le_stringSize text
    rw [name] at fits
    simp only [Option.elim_some] at fits
    omega
  · intro text name
    have size := sound.le_stringSize text
    rw [name] at fits
    simp only [Option.elim_some] at fits
    omega

/-- **A header is read back if and only if its names are readable.** -/
theorem Header.parse_eq (sound : runtime.Lawful) {header : Header}
    (fits : header.byteSize runtime ≤ maxMessage) :
    (headerCode runtime).parseFromZeroCopyStream (header.serialize runtime) =
      if header.Readable runtime then some ⟨header, []⟩ else none := by
  have lawful := headerCode_lawful sound
  by_cases readable : header.Readable runtime
  · have back := lawful.readAll_serialize readable (headerCode runtime).clear
    rw [if_pos readable, lawful.parseFromZeroCopyStream_eq]
    refine back.trans ?_
    exact congrArg (fun fields => some (Parsed.mk fields [])) (lawful.merge_cleared header)
  · rw [if_neg readable]
    have small := Header.text_le_of_byteSize sound fits
    obtain ⟨magic, version, messageType, requestId, serviceName, methodName⟩ := header
    by_cases service : ∀ text ∈ serviceName, runtime.ReadableText text
    · -- the service name is read, the method name is not
      obtain ⟨text, rfl, unreadable⟩ : ∃ text, methodName = some text ∧
          ¬ runtime.ReadableText text := by
        by_contra every
        exact readable ⟨service, fun text name => by_contra fun wrong => every ⟨text, name, wrong⟩⟩
      have front : Header.Readable runtime
          ⟨magic, version, messageType, requestId, serviceName, none⟩ :=
        ⟨service, fun _ absent => (Option.not_mem_none _ absent).elim⟩
      have refused := lawful.parseFromZeroCopyStream_unreadable
        (by decide : FieldNumber 6) rfl unreadable
        (small.2 text rfl) (lawful.readAll_serialize front (headerCode runtime).clear) []
      simpa only [headerCode, Header.serialize, Option.elim_none, Option.elim_some,
        List.append_assoc, List.append_nil] using refused
    · obtain ⟨text, rfl, unreadable⟩ : ∃ text, serviceName = some text ∧
          ¬ runtime.ReadableText text := by
        by_contra every
        exact service fun text name => by_contra fun wrong => every ⟨text, name, wrong⟩
      have front : Header.Readable runtime
          ⟨magic, version, messageType, requestId, none, none⟩ :=
        Header.readable_of_unnamed rfl rfl
      have refused := lawful.parseFromZeroCopyStream_unreadable
        (by decide : FieldNumber 5) rfl unreadable
        (small.1 text rfl) (lawful.readAll_serialize front (headerCode runtime).clear)
        (methodName.elim [] (runtime.writeStringMaybeAliased 6))
      simpa only [headerCode, Header.serialize, Option.elim_none, Option.elim_some,
        List.append_assoc, List.append_nil, List.nil_append] using refused

end Code

/-- **What a header writes is merged by who reads it**, whatever follows, unknown fields
included, and the length announced for it is the number of its bytes. -/
theorem header_merges {runtime : Runtime Unknown} (sound : runtime.Lawful)
    {fromMsg : Parsed Unknown Header}
    (wellFormed : (headerCode runtime).WellFormed (Header.Readable runtime) fromMsg)
    (toMsg : Parsed Unknown Header) (more : Bytes) :
    (headerCode runtime).internalParse toMsg
        ((headerCode runtime).internalSerialize fromMsg ++ more) =
        (headerCode runtime).internalParse ((headerCode runtime).mergeImpl toMsg fromMsg) more ∧
      (headerCode runtime).byteSizeLong fromMsg =
        ((headerCode runtime).internalSerialize fromMsg).length := by
  have lawful := headerCode_lawful sound
  constructor
  · apply lawful.internalParse_append
    exact lawful.readAll_internalSerialize wellFormed toMsg
  · exact lawful.byteSizeLong_eq wellFormed

/-- A header that keeps a field 7, `"x"`, without knowing it. -/
def sentOn : Parsed UnknownField Header where
  fields := { Header.blank with magic := magicNum, serviceName := some [104, 105] }
  unknown := [⟨58, [1, 120]⟩]

theorem sentOn_wellFormed :
    (headerCode flatRuntime).WellFormed (Header.Readable flatRuntime) sentOn := by
  refine ⟨by decide, ?_⟩
  intro field member
  obtain rfl := List.mem_singleton.mp member
  exact ⟨58, [1, 120], [], rfl, by decide, by decide⟩

/-- It is merged into a header with another service name, whose request id stays. -/
theorem header_merges_of_sentOn :
    (headerCode flatRuntime).internalParse
        ⟨{ Header.blank with requestId := 7, serviceName := some [111] }, []⟩
        ((headerCode flatRuntime).internalSerialize sentOn ++ []) =
      some (⟨{ sentOn.fields with requestId := 7 }, sentOn.unknown⟩, none) :=
  (header_merges flatRuntime_lawful sentOn_wellFormed _ []).1.trans (by decide)

/-- **Every header that was accepted can be sent on**: it is well formed, is read back from
what it writes in the length it announces, and reading on behind it is reading on top of it. -/
theorem header_reparses {runtime : Runtime Unknown} (sound : runtime.Lawful) {bytes : Bytes}
    {parsed : Parsed Unknown Header}
    (accepted : (headerCode runtime).parseFromZeroCopyStream bytes = some parsed) :
    (headerCode runtime).WellFormed (Header.Readable runtime) parsed ∧
      (headerCode runtime).parseFromZeroCopyStream
        ((headerCode runtime).internalSerialize parsed) = some parsed ∧
      (headerCode runtime).byteSizeLong parsed =
        ((headerCode runtime).internalSerialize parsed).length ∧
      ∀ more, (headerCode runtime).internalParse (headerCode runtime).clear (bytes ++ more) =
        (headerCode runtime).internalParse parsed more := by
  have lawful := headerCode_lawful sound
  rw [lawful.parseFromZeroCopyStream_eq] at accepted
  have wellFormed := lawful.readAll_wellFormed lawful.clear_wellFormed accepted
  refine ⟨wellFormed, ?_, lawful.byteSizeLong_eq wellFormed, ?_⟩
  · exact lawful.parseFromZeroCopyStream_internalSerialize wellFormed
  · exact lawful.internalParse_append accepted

/-- The same header as a peer may write it: the magic number twice, the unknown field between. -/
def foreignHeader : Bytes := [8, 5, 58, 1, 120, 8, 0x9b, 0x95, 0xe3, 0x87, 3, 42, 2, 104, 105]

theorem header_reparses_of_foreign :
    (headerCode flatRuntime).parseFromZeroCopyStream foreignHeader = some sentOn ∧
      (headerCode flatRuntime).byteSizeLong sentOn =
        ((headerCode flatRuntime).internalSerialize sentOn).length := by
  have accepted :
      (headerCode flatRuntime).parseFromZeroCopyStream foreignHeader = some sentOn := by
    decide +kernel
  exact ⟨accepted, (header_reparses flatRuntime_lawful accepted).2.2.1⟩

end Drpc.Proto
