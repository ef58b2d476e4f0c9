import Mathlib.Data.List.Chain
import IronSbe.Schema.Parser

/-!
# Schema validation

`validate_schema` checks the type definitions, the ids and names of the messages,
and the root fields of every message.  It works on the field lengths that the
parser filled in.  Of the fields of a group it checks only that their types exist.

* `ordered_of_validateFields`: root fields that pass follow each other, if their ends
  do not overflow and a field without a length comes behind the field before it.
* `validateMessageFields_of_mem`: in a valid schema every message has passed.
* `checked_of_validateSchema`: and so has every type.
-/

namespace IronSbe.Schema

/-! ## The validator -/

/-- `SchemaError`, with the variants that the validator returns. -/
inductive SchemaError where
  | typeNotFound (name : String)
  | invalidOffset (field : String) (offset : Nat)
  | blockLengthMismatch (message : String) (declared calculated : UInt16)
  | validation (message : String)
  deriving DecidableEq, Repr

/-- The loop of `validate_composite`, from `expected_offset` on. -/
def validateMembers : Nat → List CompositeField → Except SchemaError Unit
  | _, [] => .ok ()
  | expectedOffset, field :: rest =>
    match field.offset with
    | some offset =>
      if offset < expectedOffset then .error (.invalidOffset field.name offset)
      else validateMembers (usizeAdd offset field.encodedLength) rest
    | none => validateMembers (usizeAdd expectedOffset field.encodedLength) rest

/-- `validate_composite`. -/
def validateComposite (composite : CompositeDef) : Except SchemaError Unit :=
  validateMembers 0 composite.fields

/-- The loop of `validate_enum`, with the names and values seen so far. -/
def validateValues (enumName : String) (seenNames seenValues : List String) :
    List EnumValue → Except SchemaError Unit
  | [] => .ok ()
  | v :: rest =>
    if v.name ∈ seenNames then
      .error (.validation
        ("Duplicate enum value name '" ++ v.name ++ "' in enum '" ++ enumName ++ "'"))
    else if v.value ∈ seenValues then
      .error (.validation ("Duplicate enum value '" ++ v.value ++ "' in enum '" ++ enumName ++ "'"))
    else validateValues enumName (v.name :: seenNames) (v.value :: seenValues) rest

/-- `validate_enum`. -/
def validateEnum (enumDef : EnumDef) : Except SchemaError Unit :=
  validateValues enumDef.name [] [] enumDef.validValues

/-- The loop of `validate_set`, with the positions seen so far. -/
def validateChoices (setName : String) (maxBits : Nat) (seenPositions : List UInt8) :
    List SetChoice → Except SchemaError Unit
  | [] => .ok ()
  | c :: rest =>
    if maxBits ≤ c.bitPosition.toNat then
      .error (.validation ("Bit position " ++ toString c.bitPosition ++ " exceeds maximum " ++
        toString (maxBits - 1) ++ " for set '" ++ setName ++ "'"))
    else if c.bitPosition ∈ seenPositions then
      .error (.validation
        ("Duplicate bit position " ++ toString c.bitPosition ++ " in set '" ++ setName ++ "'"))
    else validateChoices setName maxBits (c.bitPosition :: seenPositions) rest

/-- `validate_set`. -/
def validateSet (setDef : SetDef) : Except SchemaError Unit :=
  validateChoices setDef.name (setDef.encodingType.size * 8) [] setDef.choices

/-- `validate_types`. -/
def validateTypes : List TypeDef → Except SchemaError Unit
  | [] => .ok ()
  | typeDef :: rest => do
    match typeDef with
    | .composite composite => validateComposite composite
    | .enum enumDef => validateEnum enumDef
    | .set setDef => validateSet setDef
    | .primitive _ => .ok ()
    validateTypes rest

/-- The type of a field is declared or builtin. -/
def validateFieldType (schema : Schema) (typeName : String) : Except SchemaError Unit :=
  if !schema.hasType typeName && (PrimitiveType.fromSbeName typeName).isNone then
    .error (.typeNotFound typeName)
  else .ok ()

/-- The loop of `validate_message_fields`, from `max_offset` to its last value. -/
def validateFields (schema : Schema) : Nat → List FieldDef → Except SchemaError Nat
  | maxOffset, [] => .ok maxOffset
  | maxOffset, field :: rest => do
    validateFieldType schema field.typeName
    if field.offset < maxOffset ∧ 0 < field.encodedLength then
      .error (.invalidOffset field.name field.offset)
    else validateFields schema (usizeAdd field.offset field.encodedLength) rest

/-- The types of the fields of a group. -/
def validateFieldTypes (schema : Schema) : List FieldDef → Except SchemaError Unit
  | [] => .ok ()
  | field :: rest => do
    validateFieldType schema field.typeName
    validateFieldTypes schema rest

mutual

/-- `validate_group_fields`. -/
def validateGroupFields (schema : Schema) : GroupDef → Except SchemaError Unit
  | ⟨_, _, _, _, _, _, _, fields, nestedGroups, _⟩ => do
    validateFieldTypes schema fields
    validateGroups schema nestedGroups

/-- The groups of a message or of a group. -/
def validateGroups (schema : Schema) : List GroupDef → Except SchemaError Unit
  | [] => .ok ()
  | group :: rest => do
    validateGroupFields schema group
    validateGroups schema rest

end

/-- `validate_message_fields`. -/
def validateMessageFields (schema : Schema) (msg : MessageDef) : Except SchemaError Unit := do
  let maxOffset ← validateFields schema 0 msg.fields
  if msg.blockLength.toNat < maxOffset then
    .error (.blockLengthMismatch msg.name msg.blockLength (.ofNat maxOffset))
  else validateGroups schema msg.groups

/-- `validate_messages`, with the ids and names seen so far. -/
def validateMessages (schema : Schema) (seenIds : List UInt16) (seenNames : List String) :
    List MessageDef → Except SchemaError Unit
  | [] => .ok ()
  | msg :: rest => do
    if msg.id ∈ seenIds then
      .error (.validation
        ("Duplicate message ID " ++ toString msg.id ++ " for message '" ++ msg.name ++ "'"))
    else if msg.name ∈ seenNames then
      .error (.validation ("Duplicate message name '" ++ msg.name ++ "'"))
    else do
      validateMessageFields schema msg
      validateMessages schema (msg.id :: seenIds) (msg.name :: seenNames) rest

/-- `validate_schema`. -/
def validateSchema (schema : Schema) : Except SchemaError Unit := do
  validateTypes schema.types
  validateMessages schema [] [] schema.messages

/-! ## What the validator checks -/

/-- The end of a field definition. -/
def FieldDef.stop (f : FieldDef) : Nat := f.offset + f.encodedLength

variable {schema : Schema}

/-- Fields that pass the loop follow each other, from the start value of `max_offset` to its
last value, if no sum wraps and no field without a length sets `max_offset` back. -/
theorem ordered_of_validateFields {maxOffset last : Nat} {fields : List FieldDef}
    (hstops : ∀ f ∈ fields, f.stop < 2 ^ 64)
    (hfirst : ∀ f ∈ fields.head?, f.encodedLength = 0 → maxOffset ≤ f.offset)
    (hempty : fields.IsChain fun f g => g.encodedLength = 0 → f.stop ≤ g.offset)
    (h : validateFields schema maxOffset fields = .ok last) :
    maxOffset ≤ last ∧ (∀ f ∈ fields, maxOffset ≤ f.offset ∧ f.stop ≤ last) ∧
      fields.Pairwise fun f g => f.stop ≤ g.offset := by
  induction fields generalizing maxOffset with
  | nil =>
    cases h
    exact ⟨Nat.le_refl _, by simp, .nil⟩
  | cons field rest ih =>
    rw [List.forall_mem_cons] at hstops
    have hstop : usizeAdd field.offset field.encodedLength = field.stop :=
      Nat.mod_eq_of_lt hstops.1
    obtain ⟨-, -, h⟩ := Lib.Fallible.bind_eq_ok h
    split_ifs at h with hoverlap
    rw [hstop] at h
    rw [List.isChain_cons] at hempty
    obtain ⟨hle, hrest, hpair⟩ := ih hstops.2 hempty.1 hempty.2 h
    have hstart : maxOffset ≤ field.offset := by
      have hzero := hfirst field rfl
      omega
    have hfield : field.offset ≤ field.stop := Nat.le_add_right _ _
    refine ⟨by omega, ?_, List.pairwise_cons.mpr ⟨fun g hg => (hrest g hg).1, hpair⟩⟩
    rw [List.forall_mem_cons]
    refine ⟨⟨hstart, hle⟩, fun g hg => ?_⟩
    have := hrest g hg
    omega

theorem validateFields_of_validateMessageFields {msg : MessageDef}
    (h : validateMessageFields schema msg = .ok ()) :
    ∃ last, validateFields schema 0 msg.fields = .ok last ∧ last ≤ msg.blockLength.toNat := by
  obtain ⟨last, hfields, h⟩ := Lib.Fallible.bind_eq_ok h
  split_ifs at h with hlen
  exact ⟨last, hfields, by omega⟩

/-- Every message of a valid schema passes its own check. -/
theorem validateMessageFields_of_mem {seenIds : List UInt16} {seenNames : List String}
    {messages : List MessageDef} (h : validateMessages schema seenIds seenNames messages = .ok ()) :
    ∀ msg ∈ messages, validateMessageFields schema msg = .ok () := by
  induction messages generalizing seenIds seenNames with
  | nil => simp
  | cons msg rest ih =>
    rw [validateMessages] at h
    split_ifs at h
    obtain ⟨⟨⟩, hmsg, h⟩ := Lib.Fallible.bind_eq_ok h
    rw [List.forall_mem_cons]
    exact ⟨hmsg, ih h⟩

/-- The check of one type definition. -/
def TypeDef.Checked : TypeDef → Prop
  | .composite c => validateComposite c = .ok ()
  | .enum e => validateEnum e = .ok ()
  | .set s => validateSet s = .ok ()
  | .primitive _ => True

/-- Every type of a valid schema passes its own check. -/
theorem checked_of_validateTypes {types : List TypeDef} (h : validateTypes types = .ok ()) :
    ∀ t ∈ types, t.Checked := by
  induction types with
  | nil => simp
  | cons t rest ih =>
    rw [List.forall_mem_cons]
    cases t with
    | primitive p => exact ⟨trivial, ih h⟩
    | composite _ | enum _ | set _ =>
      obtain ⟨⟨⟩, hfirst, hrest⟩ := Lib.Fallible.bind_eq_ok h
      exact ⟨hfirst, ih hrest⟩

theorem checked_of_validateSchema (h : validateSchema schema = .ok ()) {t : TypeDef}
    (ht : t ∈ schema.types) : t.Checked := by
  obtain ⟨⟨⟩, htypes, -⟩ := Lib.Fallible.bind_eq_ok h
  exact checked_of_validateTypes htypes t ht

theorem validateMessages_of_validateSchema (h : validateSchema schema = .ok ()) :
    validateMessages schema [] [] schema.messages = .ok () := by
  obtain ⟨-, -, hmessages⟩ := Lib.Fallible.bind_eq_ok h
  exact hmessages

end IronSbe.Schema
