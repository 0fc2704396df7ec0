import Drpc.Proto.Runtime
import Mathlib.Algebra.GroupWithZero.Nat

/-! # Generated message code

`message.pb.cc` and `echo.pb.cc` are written by one generator: every message has the
same loop over its fields, the same treatment of fields it does not know, and the same
way of measuring, writing and merging. What differs from message to message is a
`Generated`. A parse refuses text that is not UTF-8 and keeps the fields it does not know.
-/

namespace Drpc.Proto

/-- A message, and the fields in its `UnknownFieldSet`. -/
structure Parsed (Unknown Message : Type) where
  fields : Message
  unknown : List Unknown
  deriving DecidableEq, Repr

/-- What the generator writes for one message, over a runtime. -/
structure Generated (Unknown Message : Type) where
  runtime : Runtime Unknown
  /-- The message after `Clear`. -/
  cleared : Message
  /-- The `switch` of `_InternalParse`: how the field with this tag is read, or `none` for
  `handle_unusual`. -/
  field : UInt32 → Option (Items.Reader UInt8 Message)
  /-- `_InternalSerialize`, before the unknown fields -/
  serialize : Message → Bytes
  /-- `ByteSizeLong`, before the unknown fields -/
  byteSize : Message → Nat
  /-- `MergeImpl`, before the unknown fields -/
  merge : Message → Message → Message

variable {Unknown Message Value : Type}

/-- A case of the `switch`: a value is read, and set in the message. -/
def fieldCase (read : Bytes → Option (Value × Bytes)) (set : Message → Value → Message) :
    Items.Reader UInt8 Message :=
  fun message bytes => (read bytes).map (Prod.map (set message) id)

/-- What a round of the loop of `_InternalParse` comes to. -/
inductive Round (Unknown Message : Type) where
  | goesOn (parsed : Parsed Unknown Message) (rest : Bytes)
  /-- `SetLastTag`, and `message_done` -/
  | messageDone (lastTag : UInt32)

namespace Generated

variable (code : Generated Unknown Message)

/-- One round of the loop of `_InternalParse`, or `none` for `failure`. -/
def round (parsed : Parsed Unknown Message) (bytes : Bytes) : Option (Round Unknown Message) :=
  (code.runtime.readTag bytes).bind fun (tag, rest) =>
    match code.field tag with
    | some read =>
        (read parsed.fields rest).map fun (fields, rest) => .goesOn { parsed with fields } rest
    | none =>
        if tag = 0 ∨ tag &&& 7 = 4 then some (.messageDone tag)
        else
          (code.runtime.unknownFieldParse tag rest).map fun (field, rest) =>
            .goesOn { parsed with unknown := parsed.unknown ++ [field] } rest

/-- The loop of `_InternalParse`, with the tag that has ended it, if one has. -/
def parseLoop : Nat → Parsed Unknown Message → Bytes →
    Option (Parsed Unknown Message × Option UInt32)
  | 0, _, _ => none
  | fuel + 1, parsed, bytes =>
      if code.runtime.done bytes then some (parsed, none)
      else
        match code.round parsed bytes with
        | none => none
        | some (.messageDone lastTag) => some (parsed, some lastTag)
        | some (.goesOn parsed rest) => parseLoop fuel parsed rest

/-- `_InternalParse`. A round takes a byte at least, so that the loop comes to its end. -/
def internalParse (parsed : Parsed Unknown Message) (bytes : Bytes) :
    Option (Parsed Unknown Message × Option UInt32) :=
  code.parseLoop (bytes.length + 1) parsed bytes

/-- `Clear` -/
def clear : Parsed Unknown Message := ⟨code.cleared, []⟩

/-- `ParseFromZeroCopyStream`, on exactly these bytes: `Clear`, `_InternalParse`, and whether
the runtime accepts where that has ended. -/
def parseFromZeroCopyStream (bytes : Bytes) : Option (Parsed Unknown Message) :=
  (code.internalParse code.clear bytes).bind fun (parsed, lastTag) =>
    if code.runtime.endedAtEndOfStream lastTag then some parsed else none

/-- `_InternalSerialize` -/
def internalSerialize (parsed : Parsed Unknown Message) : Bytes :=
  code.serialize parsed.fields ++ parsed.unknown.flatMap code.runtime.serializeUnknown

/-- `ByteSizeLong` -/
def byteSizeLong (parsed : Parsed Unknown Message) : Nat :=
  code.byteSize parsed.fields + (parsed.unknown.map code.runtime.unknownSize).sum

/-- `SerializeToZeroCopyStream` -/
def serializeToZeroCopyStream (parsed : Parsed Unknown Message) : Option Bytes :=
  code.runtime.serializeToZeroCopyStream (code.byteSizeLong parsed) (code.internalSerialize parsed)

/-- `MergeImpl` -/
def mergeImpl (toMsg fromMsg : Parsed Unknown Message) : Parsed Unknown Message where
  fields := code.merge toMsg.fields fromMsg.fields
  unknown := toMsg.unknown ++ fromMsg.unknown

/-- `CopyFrom`, from another message: what was there does not matter. -/
def copyFrom (fromMsg : Parsed Unknown Message) : Parsed Unknown Message :=
  code.mergeImpl code.clear fromMsg

/-- The rounds with which the loop goes on. -/
def parseField : Items.Reader UInt8 (Parsed Unknown Message) := fun parsed bytes =>
  (code.round parsed bytes).bind fun
    | .goesOn parsed rest => some (parsed, rest)
    | .messageDone _ => none

/-- The known fields alone. -/
def knownField : Items.Reader UInt8 Message := fun message bytes =>
  (code.runtime.readTag bytes).bind fun (tag, rest) =>
    (code.field tag).bind fun read => read message rest

/-- A case of the `switch` reads a field, which does not depend on what follows it, and
keeps the texts of the message readable. -/
structure Case (Readable : Message → Prop) (read : Items.Reader UInt8 Message) : Prop where
  append : ∀ {message next : Message} {bytes rest : Bytes},
    read message bytes = some (next, rest) →
      ∀ more, read message (bytes ++ more) = some (next, rest ++ more)
  shorter : ∀ {message next : Message} {bytes rest : Bytes},
    read message bytes = some (next, rest) → rest.length < bytes.length
  readable : ∀ {message next : Message} {bytes rest : Bytes}, Readable message →
    read message bytes = some (next, rest) → Readable next

/-- What holds of the code of every message, for the texts it can read back. -/
structure Lawful (Readable : Message → Prop) : Prop where
  runtime : code.runtime.Lawful
  cases : ∀ {tag : UInt32} {read : Items.Reader UInt8 Message}, code.field tag = some read →
    Case Readable read
  cleared : Readable code.cleared
  written : ∀ {fromMsg : Message}, Readable fromMsg → ∀ toMsg,
    Items.readAll code.knownField toMsg (code.serialize fromMsg) =
      some (code.merge toMsg fromMsg)
  merge_cleared : ∀ message, code.merge code.cleared message = message
  size : ∀ {message : Message}, Readable message →
    code.byteSize message = (code.serialize message).length

/-- A field that a message of this type keeps without knowing it. -/
def Keeps (field : Unknown) : Prop :=
  ∃ tag bytes rest, code.field tag = none ∧ ¬ (tag = 0 ∨ tag &&& 7 = 4) ∧
    code.runtime.unknownFieldParse tag bytes = some (field, rest)

/-- What a parse can have built. -/
structure WellFormed (Readable : Message → Prop) (parsed : Parsed Unknown Message) : Prop where
  fields : Readable parsed.fields
  unknown : ∀ field ∈ parsed.unknown, code.Keeps field

/-! ## Fields -/

variable {code} {Readable : Message → Prop} {parsed next : Parsed Unknown Message}
  {bytes rest : Bytes}

/-- A message without unknown fields. -/
theorem WellFormed.of_known {fields : Message} (readable : Readable fields) :
    code.WellFormed Readable ⟨fields, []⟩ :=
  ⟨readable, fun _ member => (List.not_mem_nil member).elim⟩

/-- The case of a value that says where it ends. -/
theorem Case.of_delimited {read : Bytes → Option (Value × Bytes)}
    {set : Message → Value → Message} (delimited : Items.Delimited read)
    (keeps : ∀ {message value bytes rest}, Readable message →
      read bytes = some (value, rest) → Readable (set message value)) :
    Case Readable (fieldCase read set) where
  append {message _ _ _} found more := (delimited.map (set message)).append found more
  shorter {message _ _ _} found := (delimited.map (set message)).shorter found
  readable start found := by
    obtain ⟨⟨value, behind⟩, taken, same⟩ := Option.map_eq_some_iff.mp found
    cases same
    exact keeps start taken

/-- What one round reads when the loop goes on: a field of the message, or one it does not
know. -/
theorem parseField_cases (found : code.parseField parsed bytes = some (next, rest)) :
    ∃ tag behind, code.runtime.readTag bytes = some (tag, behind) ∧
      ((∃ read fields, code.field tag = some read ∧
          read parsed.fields behind = some (fields, rest) ∧ next = { parsed with fields }) ∨
        (∃ field, code.field tag = none ∧ ¬ (tag = 0 ∨ tag &&& 7 = 4) ∧
          code.runtime.unknownFieldParse tag behind = some (field, rest) ∧
          next = { parsed with unknown := parsed.unknown ++ [field] })) := by
  obtain ⟨turn, taken, continues⟩ := Option.bind_eq_some_iff.mp found
  obtain ⟨⟨tag, behind⟩, tagged, taken⟩ := Option.bind_eq_some_iff.mp taken
  refine ⟨tag, behind, tagged, ?_⟩
  cases known : code.field tag with
  | some read =>
      simp only [known] at taken
      obtain ⟨⟨fields, after⟩, read_, rfl⟩ := Option.map_eq_some_iff.mp taken
      cases continues
      exact .inl ⟨read, fields, rfl, read_, rfl⟩
  | none =>
      simp only [known] at taken
      split at taken
      next =>
        cases taken
        cases continues
      next usual =>
        obtain ⟨⟨field, after⟩, kept, rfl⟩ := Option.map_eq_some_iff.mp taken
        cases continues
        exact .inr ⟨field, rfl, usual, kept, rfl⟩

theorem parseField_known {tag : UInt32} {behind : Bytes} {read : Items.Reader UInt8 Message}
    {fields : Message} (tagged : code.runtime.readTag bytes = some (tag, behind))
    (known : code.field tag = some read)
    (taken : read parsed.fields behind = some (fields, rest)) :
    code.parseField parsed bytes = some ({ parsed with fields }, rest) := by
  simp only [parseField, round, tagged, Option.bind_some, known, taken, Option.map_some]

theorem parseField_unknown {tag : UInt32} {behind : Bytes} {field : Unknown}
    (tagged : code.runtime.readTag bytes = some (tag, behind)) (unusual : code.field tag = none)
    (usual : ¬ (tag = 0 ∨ tag &&& 7 = 4))
    (kept : code.runtime.unknownFieldParse tag behind = some (field, rest)) :
    code.parseField parsed bytes =
      some ({ parsed with unknown := parsed.unknown ++ [field] }, rest) := by
  simp only [parseField, round, tagged, Option.bind_some, unusual, if_neg usual, kept,
    Option.map_some]

/-- The known fields can be read one behind the other. -/
theorem knownField_lawful (sound : code.runtime.Lawful)
    (cases : ∀ {tag : UInt32} {read : Items.Reader UInt8 Message}, code.field tag = some read →
      Case Readable read) :
    Items.Lawful code.knownField := by
  constructor
  · intro message next bytes rest found more
    obtain ⟨⟨tag, behind⟩, tagged, taken⟩ := Option.bind_eq_some_iff.mp found
    obtain ⟨read, known, taken⟩ := Option.bind_eq_some_iff.mp taken
    simp only [knownField, sound.readTag.append tagged, Option.bind_some, known]
    exact (cases known).append taken more
  · intro message next bytes rest found
    obtain ⟨⟨tag, behind⟩, tagged, taken⟩ := Option.bind_eq_some_iff.mp found
    obtain ⟨read, known, taken⟩ := Option.bind_eq_some_iff.mp taken
    exact ((cases known).shorter taken).trans (sound.readTag.shorter tagged)

section Fields

variable (chunks : Items.Lawful code.knownField) {tag : UInt32}
  {read : Bytes → Option (Value × Bytes)} {set : Message → Value → Message}
  (known : code.field tag = some (fieldCase read set)) {message : Message}

include chunks known

/-- A field in front is set. -/
theorem readAll_field {value : Value} {field : Bytes}
    (written : code.runtime.Holds tag read value field) (rest : Bytes) :
    Items.readAll code.knownField message (field ++ rest) =
      Items.readAll code.knownField (set message value) rest := by
  apply chunks.readAll_item
  obtain ⟨body, tagged, taken⟩ := written
  simp only [knownField, tagged, Option.bind_some, known, fieldCase, taken]
  rfl

/-- A field with presence, or its absence, gives the message `merged`. -/
theorem readAll_optional {value : Option Value} {write : Value → Bytes}
    (written : ∀ present ∈ value, code.runtime.Holds tag read present (write present))
    (merged : Message) (sets : ∀ present ∈ value, set message present = merged)
    (absent : value = none → message = merged) (rest : Bytes) :
    Items.readAll code.knownField message (value.elim [] write ++ rest) =
      Items.readAll code.knownField merged rest := by
  cases value with
  | none =>
      rw [absent rfl]
      rfl
  | some value =>
      rw [← sets value rfl]
      exact readAll_field chunks known (written value rfl) rest

/-- A field without presence, or its absence, gives the message `merged`. -/
theorem readAll_implicit {present : Prop} [Decidable present] {value : Value} {field : Bytes}
    (written : code.runtime.Holds tag read value field) (merged : Message)
    (sets : present → set message value = merged) (absent : ¬ present → message = merged)
    (rest : Bytes) :
    Items.readAll code.knownField message ((if present then field else []) ++ rest) =
      Items.readAll code.knownField merged rest := by
  split
  next holds =>
    rw [← sets holds]
    exact readAll_field chunks known written rest
  next absence =>
    rw [absent absence]
    rfl

end Fields

namespace Lawful

variable (lawful : code.Lawful Readable)

include lawful

theorem parseField_lawful : Items.Lawful code.parseField := by
  have sound := lawful.runtime
  constructor
  · intro parsed next bytes rest found more
    obtain ⟨tag, behind, tagged, ⟨read, fields, known, taken, rfl⟩ |
      ⟨field, unusual, usual, kept, rfl⟩⟩ := parseField_cases found
    · exact parseField_known (sound.readTag.append tagged more) known
        ((lawful.cases known).append taken more)
    · exact parseField_unknown (sound.readTag.append tagged more) unusual usual
        ((sound.unknownFieldParse tag).append kept more)
  · intro parsed next bytes rest found
    obtain ⟨tag, behind, tagged, ⟨read, fields, known, taken, rfl⟩ |
      ⟨field, unusual, usual, kept, rfl⟩⟩ := parseField_cases found
    · exact ((lawful.cases known).shorter taken).trans (sound.readTag.shorter tagged)
    · exact ((sound.unknownFieldParse tag).shorter kept).trans (sound.readTag.shorter tagged)

/-! ## The loop -/

/-- A round with which the loop goes on takes a byte. -/
theorem round_shorter (goes : code.round parsed bytes = some (.goesOn next rest)) :
    rest.length < bytes.length := by
  have found : code.parseField parsed bytes = some (next, rest) := by
    rw [parseField, goes, Option.bind_some]
  exact lawful.parseField_lawful.shorter found

/-- Fuel beyond the number of bytes is not used. -/
theorem parseLoop_eq {fuel : Nat} (enough : bytes.length < fuel) :
    code.parseLoop fuel parsed bytes = code.internalParse parsed bytes := by
  suffices agree : ∀ (first second : Nat) (bytes : Bytes) (parsed : Parsed Unknown Message),
      bytes.length < first → bytes.length < second →
        code.parseLoop first parsed bytes = code.parseLoop second parsed bytes from
    agree _ _ bytes parsed enough (Nat.lt_succ_self _)
  intro first
  induction first with
  | zero =>
      intro second bytes parsed none_ _
      exact absurd none_ (Nat.not_lt_zero _)
  | succ first ih =>
      intro second bytes parsed firstEnough secondEnough
      obtain ⟨second, rfl⟩ : ∃ fuel, second = fuel + 1 := ⟨second - 1, by omega⟩
      simp only [parseLoop]
      split
      next => rfl
      next =>
        split
        next => rfl
        next => rfl
        next next rest goes =>
          have less := lawful.round_shorter goes
          exact ih second rest next (by omega) (by omega)

theorem internalParse_nil (parsed : Parsed Unknown Message) :
    code.internalParse parsed [] = some (parsed, none) := by
  rw [internalParse, parseLoop, if_pos ((lawful.runtime.done []).mpr rfl)]

/-- One round, then the others. -/
theorem internalParse_eq (some_left : bytes ≠ []) :
    code.internalParse parsed bytes =
      match code.round parsed bytes with
      | none => none
      | some (.messageDone lastTag) => some (parsed, some lastTag)
      | some (.goesOn parsed rest) => code.internalParse parsed rest := by
  have more : code.runtime.done bytes = false :=
    Bool.eq_false_of_not_eq_true (mt (lawful.runtime.done bytes).mp some_left)
  rw [internalParse, parseLoop, more]
  simp only [Bool.false_eq_true, ↓reduceIte]
  split
  next => rfl
  next => rfl
  next next rest goes => exact lawful.parseLoop_eq (lawful.round_shorter goes)

/-- What was read goes on with what follows it. -/
theorem internalParse_append (found : Items.readAll code.parseField parsed bytes = some next)
    (more : Bytes) :
    code.internalParse parsed (bytes ++ more) = code.internalParse next more := by
  have fields := lawful.parseField_lawful
  have reads := fields.readAll_eq_some.mp found
  clear found
  induction reads with
  | nothing parsed => rfl
  | item taken tail ih =>
      obtain ⟨turn, goes, continues⟩ := Option.bind_eq_some_iff.mp (fields.append taken more)
      rw [lawful.internalParse_eq (by simp [fields.nonempty taken]), goes]
      cases turn with
      | messageDone lastTag => cases continues
      | goesOn parsed rest =>
          cases continues
          exact ih

/-- **A parse is accepted** when its rounds read all bytes. -/
theorem accepted_eq (parsed : Parsed Unknown Message) (bytes : Bytes) :
    ((code.internalParse parsed bytes).bind fun (parsed, lastTag) =>
        if code.runtime.endedAtEndOfStream lastTag then some parsed else none) =
      Items.readAll code.parseField parsed bytes := by
  have fields := lawful.parseField_lawful
  induction size : bytes.length using Nat.strongRecOn generalizing parsed bytes with
  | ind count ih =>
      by_cases empty : bytes = []
      · subst empty
        rw [lawful.internalParse_nil, Option.bind_some, Items.readAll_nil]
        exact if_pos lawful.runtime.endedAtEndOfStream
      · rw [lawful.internalParse_eq empty, fields.readAll_eq empty, parseField]
        cases taken : code.round parsed bytes with
        | none => rfl
        | some turn =>
            cases turn with
            | goesOn next rest =>
                have less := lawful.round_shorter taken
                exact ih rest.length (size ▸ less) next rest rfl
            | messageDone lastTag =>
                -- the loop sets a last tag only where the runtime does not accept it
                have refused : code.runtime.endedAtEndOfStream (some lastTag) = false := by
                  apply lawful.runtime.endedAtTag
                  obtain ⟨⟨tag, behind⟩, -, stops⟩ := Option.bind_eq_some_iff.mp taken
                  dsimp only at stops
                  split at stops
                  · simp at stops
                  · split at stops
                    · cases stops
                      assumption
                    · simp at stops
                simp [refused]

theorem parseFromZeroCopyStream_eq (bytes : Bytes) :
    code.parseFromZeroCopyStream bytes = Items.readAll code.parseField code.clear bytes :=
  lawful.accepted_eq code.clear bytes

/-! ## Reading what was written -/

/-- The known fields of a message are merged. -/
theorem readAll_serialize {fromMsg : Message} (readable : Readable fromMsg)
    (toMsg : Parsed Unknown Message) :
    Items.readAll code.parseField toMsg (code.serialize fromMsg) =
      some { toMsg with fields := code.merge toMsg.fields fromMsg } := by
  apply (knownField_lawful lawful.runtime lawful.cases).readAll_answered lawful.parseField_lawful
    (fun fields => { toMsg with fields }) ?_ (lawful.written readable toMsg.fields)
  intro message next bytes rest found
  obtain ⟨⟨tag, behind⟩, tagged, taken⟩ := Option.bind_eq_some_iff.mp found
  obtain ⟨read, known, taken⟩ := Option.bind_eq_some_iff.mp taken
  exact parseField_known tagged known taken

/-- A kept field is kept again. -/
theorem parseField_serializeUnknown {field : Unknown} (keeps : code.Keeps field)
    (parsed : Parsed Unknown Message) :
    code.parseField parsed (code.runtime.serializeUnknown field) =
      some ({ parsed with unknown := parsed.unknown ++ [field] }, []) := by
  obtain ⟨tag, bytes, rest, unusual, usual, kept⟩ := keeps
  obtain ⟨body, tagged, again⟩ := lawful.runtime.serializeUnknown kept
  exact parseField_unknown tagged unusual usual again

theorem readAll_unknown {fields : List Unknown} (keeps : ∀ field ∈ fields, code.Keeps field)
    (parsed : Parsed Unknown Message) :
    Items.readAll code.parseField parsed (fields.flatMap code.runtime.serializeUnknown) =
      some { parsed with unknown := parsed.unknown ++ fields } := by
  induction fields generalizing parsed with
  | nil => simp
  | cons field fields ih =>
      have first := lawful.parseField_serializeUnknown (keeps field (by simp)) parsed
      have others := ih (fun other member => keeps other (by simp [member]))
        { parsed with unknown := parsed.unknown ++ [field] }
      simp only [List.append_assoc, List.cons_append, List.nil_append] at others
      rw [List.flatMap_cons, lawful.parseField_lawful.readAll_item first]
      exact others

/-- **Reading what was written merges it** into the message that reads. -/
theorem readAll_internalSerialize {fromMsg : Parsed Unknown Message}
    (wellFormed : code.WellFormed Readable fromMsg) (toMsg : Parsed Unknown Message) :
    Items.readAll code.parseField toMsg (code.internalSerialize fromMsg) =
      some (code.mergeImpl toMsg fromMsg) := by
  have known := lawful.readAll_serialize wellFormed.fields toMsg
  rw [internalSerialize, lawful.parseField_lawful.readAll_append known]
  exact lawful.readAll_unknown wellFormed.unknown _

/-- A parse builds well-formed messages only. -/
theorem readAll_wellFormed (start : code.WellFormed Readable parsed)
    (found : Items.readAll code.parseField parsed bytes = some next) :
    code.WellFormed Readable next := by
  apply lawful.parseField_lawful.readAll_keeps ?_ start found
  intro parsed next bytes rest start found
  obtain ⟨tag, behind, tagged, ⟨read, fields, known, taken, rfl⟩ |
    ⟨field, unusual, usual, kept, rfl⟩⟩ := parseField_cases found
  · exact ⟨(lawful.cases known).readable start.fields taken, start.unknown⟩
  · refine ⟨start.fields, fun other member => ?_⟩
    rcases List.mem_append.mp member with before | here
    · exact start.unknown other before
    · obtain rfl := List.mem_singleton.mp here
      exact ⟨tag, behind, rest, unusual, usual, kept⟩

theorem clear_wellFormed : code.WellFormed Readable code.clear :=
  .of_known lawful.cleared

/-- **The measured size is the number of bytes written.** -/
theorem byteSizeLong_eq (wellFormed : code.WellFormed Readable parsed) :
    code.byteSizeLong parsed = (code.internalSerialize parsed).length := by
  have sizes : parsed.unknown.map code.runtime.unknownSize =
      parsed.unknown.map (fun field => (code.runtime.serializeUnknown field).length) := by
    apply List.map_congr_left
    intro field member
    obtain ⟨tag, bytes, rest, unusual, usual, kept⟩ := wellFormed.unknown field member
    exact (lawful.runtime.unknownSize kept).symm
  rw [byteSizeLong, internalSerialize, List.length_append, List.length_flatMap, sizes,
    lawful.size wellFormed.fields]

/-- A copy is the message it was made from. -/
theorem copyFrom_eq (fromMsg : Parsed Unknown Message) : code.copyFrom fromMsg = fromMsg := by
  simp only [copyFrom, mergeImpl, clear, lawful.merge_cleared, List.nil_append]

/-- A message is read back from what it has written. -/
theorem parseFromZeroCopyStream_internalSerialize (wellFormed : code.WellFormed Readable parsed) :
    code.parseFromZeroCopyStream (code.internalSerialize parsed) = some parsed := by
  rw [lawful.parseFromZeroCopyStream_eq, lawful.readAll_internalSerialize wellFormed]
  exact congrArg some (lawful.copyFrom_eq parsed)

/-- A text that is not readable ends the parse behind the fields in front of it. -/
theorem parseFromZeroCopyStream_unreadable {number : Nat} (named : FieldNumber number)
    {set : Message → Bytes → Message}
    (known : code.field (makeTag number 2) = some (fieldCase code.runtime.readText set))
    {text : Bytes} (unreadable : ¬ code.runtime.ReadableText text)
    (small : text.length ≤ maxMessage) {front : Bytes}
    (read : Items.readAll code.parseField code.clear front = some next) (more : Bytes) :
    code.parseFromZeroCopyStream
      (front ++ (code.runtime.writeStringMaybeAliased number text ++ more)) = none := by
  obtain ⟨body, tagged, refused⟩ := lawful.runtime.refused_text named unreadable small
  have behind := lawful.runtime.readTag.append tagged more
  have some_left : code.runtime.writeStringMaybeAliased number text ++ more ≠ [] := by
    intro empty
    have less := lawful.runtime.readTag.shorter behind
    rw [empty] at less
    exact Nat.not_lt_zero _ less
  rw [lawful.parseFromZeroCopyStream_eq, lawful.parseField_lawful.readAll_append read,
    lawful.parseField_lawful.readAll_eq some_left]
  simp only [parseField, round, behind, Option.bind_some, known, fieldCase, refused,
    Option.map_none, Option.bind_none]

/-- A message with a size that can be announced is written. -/
theorem serializeToZeroCopyStream_eq (parsed : Parsed Unknown Message) :
    code.serializeToZeroCopyStream parsed =
      if code.byteSizeLong parsed ≤ maxMessage then some (code.internalSerialize parsed)
      else none :=
  lawful.runtime.serializeToZeroCopyStream _ _

end Lawful

end Generated

end Drpc.Proto
