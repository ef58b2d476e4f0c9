import IronSbe.Lib.Accumulate
import IronSbe.Schema.Sources
import IronSbe.Schema.Validation

/-!
# What the validator accepts

The checks of `validate_schema` as conditions on the definitions, with the ends of members
and fields as plain numbers.  The loops of the validator add up numbers of `usize`; they
check these conditions as long as the ends are below `2 ^ 64`.

* `validateMembers_eq_ok_iff`, `validateFields_eq_ok_iff`: the loops over members and fields
  are loops that add up.
* `TypeDef.checked_iff_sound`, `validateMessageFields_eq_ok_iff`: one type and one message.
* `validateSchema_eq_ok_iff`: the whole schema.
-/

namespace IronSbe.Schema

open Lib.Accumulate List

/-! ## Types -/

theorem bind_eq_ok_unit_iff {x y : Except SchemaError Unit} :
    (x >>= fun _ => y) = .ok () ↔ x = .ok () ∧ y = .ok () := by
  cases x with
  | error e => exact iff_of_false (by rintro ⟨⟩) (by rintro ⟨⟨⟩, -⟩)
  | ok u => exact (and_iff_right rfl).symm

/-- The member does not start before the end of the member before it. -/
def memberGoes (expectedOffset : Nat) (f : CompositeField) : Prop :=
  expectedOffset ≤ f.offset.getD expectedOffset

instance (expectedOffset : Nat) (f : CompositeField) : Decidable (memberGoes expectedOffset f) :=
  inferInstanceAs (Decidable (_ ≤ _))

/-- The end of a member that has its own offset or follows the member before it. -/
def memberEnd (expectedOffset : Nat) (f : CompositeField) : Nat :=
  f.offset.getD expectedOffset + f.encodedLength

theorem validateMembers_eq_ok_iff {expectedOffset : Nat} {fields : List CompositeField} :
    validateMembers expectedOffset fields = .ok () ↔
      Passes (· % 2 ^ 64) memberGoes memberEnd expectedOffset fields := by
  induction fields generalizing expectedOffset with
  | nil => exact iff_of_true rfl trivial
  | cons f rest ih =>
    rw [validateMembers, Passes, memberGoes, memberEnd]
    cases f.offset with
    | none =>
      rw [← ih]
      exact (and_iff_right (Nat.le_refl _)).symm
    | some offset =>
      rw [← ih]
      show (if offset < expectedOffset then _ else _) = _ ↔ expectedOffset ≤ offset ∧ _
      split_ifs with hlt
      · exact iff_of_false (by rintro ⟨⟩) fun h => absurd h.1 (by omega)
      · exact (and_iff_right (by omega)).symm

theorem validateValues_eq_ok_iff {enumName : String} {seenNames seenValues : List String}
    {values : List EnumValue} :
    validateValues enumName seenNames seenValues values = .ok () ↔
      Fresh (·.name) seenNames values ∧ Fresh (·.value) seenValues values := by
  induction values generalizing seenNames seenValues with
  | nil => exact iff_of_true rfl ⟨fresh_nil, fresh_nil⟩
  | cons v rest ih =>
    rw [validateValues, fresh_cons_iff, fresh_cons_iff]
    split_ifs with hname hvalue
    · exact iff_of_false (by rintro ⟨⟩) fun h => h.1.1 hname
    · exact iff_of_false (by rintro ⟨⟩) fun h => h.2.1 hvalue
    · rw [ih, and_iff_right hname, and_iff_right hvalue]

theorem validateChoices_eq_ok_iff {setName : String} {maxBits : Nat} {seen : List UInt8}
    {choices : List SetChoice} :
    validateChoices setName maxBits seen choices = .ok () ↔
      (∀ c ∈ choices, c.bitPosition.toNat < maxBits) ∧ Fresh (·.bitPosition) seen choices := by
  induction choices generalizing seen with
  | nil => exact iff_of_true rfl ⟨by rintro c ⟨⟩, fresh_nil⟩
  | cons c rest ih =>
    rw [validateChoices, fresh_cons_iff, forall_mem_cons]
    split_ifs with hmax hseen
    · exact iff_of_false (by rintro ⟨⟩) fun h => absurd h.1.1 (by omega)
    · exact iff_of_false (by rintro ⟨⟩) fun h => h.2.1 hseen
    · rw [ih, and_iff_right hseen, and_iff_right (show c.bitPosition.toNat < maxBits by omega)]

namespace TypeDef

/-- The conditions on a type. -/
def Sound : TypeDef → Prop
  | .composite c => Passes (fun n => n) memberGoes memberEnd 0 c.fields
  | .enum e => (e.validValues.map (·.name)).Nodup ∧ (e.validValues.map (·.value)).Nodup
  | .set s => (∀ c ∈ s.choices, c.bitPosition.toNat < s.encodingType.size * 8) ∧
      (s.choices.map (·.bitPosition)).Nodup
  | .primitive _ => True

/-- The ends of the members of a composite, up to the first one that starts too early. -/
def memberEnds : TypeDef → List Nat
  | .composite c => sums (fun n => n) memberGoes memberEnd 0 c.fields
  | .enum _ | .set _ | .primitive _ => []

theorem checked_iff_sound {t : TypeDef} (h : ∀ n ∈ t.memberEnds, n < 2 ^ 64) :
    t.Checked ↔ t.Sound := by
  cases t with
  | primitive p => rfl
  | composite c => exact validateMembers_eq_ok_iff.trans (passes_iff h)
  | enum e =>
    rw [Sound, ← fresh_empty_iff, ← fresh_empty_iff]
    exact validateValues_eq_ok_iff
  | set s =>
    rw [Sound, ← fresh_empty_iff]
    exact validateChoices_eq_ok_iff

end TypeDef

theorem validateTypes_eq_ok_iff {types : List TypeDef} :
    validateTypes types = .ok () ↔ ∀ t ∈ types, t.Checked := by
  refine ⟨checked_of_validateTypes, fun h => ?_⟩
  induction types with
  | nil => rfl
  | cons t rest ih =>
    rw [forall_mem_cons] at h
    obtain ⟨hfirst, hrest⟩ := h
    cases t with
    | primitive p => exact ih hrest
    | composite _ | enum _ | set _ => exact bind_eq_ok_unit_iff.mpr ⟨hfirst, ih hrest⟩

/-! ## Messages -/

/-- The type is declared or builtin. -/
def TypeKnown (schema : Schema) (name : String) : Prop :=
  schema.hasType name = true ∨ (PrimitiveType.fromSbeName name).isSome = true

instance (schema : Schema) (name : String) : Decidable (TypeKnown schema name) :=
  inferInstanceAs (Decidable (_ ∨ _))

variable {schema : Schema} {fields : List FieldDef}

theorem validateFieldType_eq_ok_iff {name : String} :
    validateFieldType schema name = .ok () ↔ TypeKnown schema name := by
  unfold validateFieldType TypeKnown
  cases schema.hasType name <;> cases PrimitiveType.fromSbeName name <;> simp

/-- The field has a type and does not start before the end of the field before it, unless it
takes no bytes. -/
def fieldGoes (schema : Schema) (maxOffset : Nat) (f : FieldDef) : Prop :=
  TypeKnown schema f.typeName ∧ ¬ (f.offset < maxOffset ∧ 0 < f.encodedLength)

instance (schema : Schema) (maxOffset : Nat) (f : FieldDef) :
    Decidable (fieldGoes schema maxOffset f) := inferInstanceAs (Decidable (_ ∧ _))

theorem validateFields_eq_ok_iff {maxOffset last : Nat} :
    validateFields schema maxOffset fields = .ok last ↔
      Passes (· % 2 ^ 64) (fieldGoes schema) (fun _ f => f.stop) maxOffset fields ∧
        final (· % 2 ^ 64) (fun _ f => f.stop) maxOffset fields = last := by
  induction fields generalizing maxOffset with
  | nil => exact ⟨fun h => ⟨trivial, Except.ok.inj h⟩, fun h => congrArg Except.ok h.2⟩
  | cons f rest ih =>
    rw [Passes, final, and_assoc, ← ih, validateFields, fieldGoes]
    cases hknown : validateFieldType schema f.typeName with
    | error e =>
      refine iff_of_false (by rintro ⟨⟩) fun h => ?_
      rw [validateFieldType_eq_ok_iff.mpr h.1.1] at hknown
      cases hknown
    | ok u =>
      rw [and_iff_right (validateFieldType_eq_ok_iff.mp hknown)]
      split_ifs with hearly
      · exact iff_of_false (by rintro ⟨⟩) fun h => h.1 hearly
      · exact (and_iff_right hearly).symm

/-- The fields pass, with their ends as plain numbers. -/
def FieldsOrdered (schema : Schema) (fields : List FieldDef) : Prop :=
  Passes (fun n => n) (fieldGoes schema) (fun _ f => f.stop) 0 fields

/-- The end of the last field. -/
def lastStop (fields : List FieldDef) : Nat := (fields.getLast?.map FieldDef.stop).getD 0

theorem final_stop (acc : Nat) (fields : List FieldDef) :
    final (fun n => n) (fun _ f => f.stop) acc fields =
      (fields.getLast?.map FieldDef.stop).getD acc := by
  induction fields generalizing acc with
  | nil => rfl
  | cons f rest ih =>
    rw [final, ih, getLast?_cons]
    cases rest.getLast? <;> rfl

/-- The sums of the loop over the fields are ends of fields. -/
theorem mem_sums_stop {wrap : Nat → Nat} {acc n : Nat}
    (h : n ∈ sums wrap (fieldGoes schema) (fun _ f => f.stop) acc fields) :
    ∃ f ∈ fields, f.stop = n := by
  induction fields generalizing acc with
  | nil => cases h
  | cons f rest ih =>
    rw [sums] at h
    split_ifs at h
    · rcases mem_cons.mp h with rfl | h
      · exact ⟨f, mem_cons_self, rfl⟩
      · obtain ⟨g, hg, heq⟩ := ih h
        exact ⟨g, mem_cons_of_mem _ hg, heq⟩
    · cases h

section Message

variable {schema : Schema}

variable {fields : List FieldDef}

/-- The loop over fields that end below `2 ^ 64`. -/
theorem validateFields_eq_ok_iff_ordered {last : Nat} (h : ∀ f ∈ fields, f.stop < 2 ^ 64) :
    validateFields schema 0 fields = .ok last ↔
      FieldsOrdered schema fields ∧ lastStop fields = last := by
  have hsums : ∀ n ∈ sums (fun n => n) (fieldGoes schema) (fun _ f => f.stop) 0 fields,
      n < 2 ^ 64 := by
    intro n hn
    obtain ⟨f, hf, rfl⟩ := mem_sums_stop hn
    exact h f hf
  rw [validateFields_eq_ok_iff, passes_iff hsums]
  refine and_congr_right fun hpass => ?_
  rw [final_eq hsums hpass, final_stop]
  rfl

theorem validateFieldTypes_eq_ok_iff :
    validateFieldTypes schema fields = .ok () ↔ ∀ f ∈ fields, TypeKnown schema f.typeName := by
  induction fields with
  | nil => exact iff_of_true rfl (by rintro f ⟨⟩)
  | cons f rest ih =>
    rw [forall_mem_cons, ← ih, ← validateFieldType_eq_ok_iff, validateFieldTypes]
    cases validateFieldType schema f.typeName with
    | error e => exact iff_of_false (by rintro ⟨⟩) (by rintro ⟨⟨⟩, -⟩)
    | ok u => exact (and_iff_right rfl).symm

/-- The types of the fields of all groups, nested ones included. -/
def GroupsKnown (schema : Schema) (groups : List GroupDef) : Prop :=
  ∀ g, GroupDef.Within groups g → ∀ f ∈ g.fields, TypeKnown schema f.typeName

theorem groupsKnown_cons_iff {g : GroupDef} {groups : List GroupDef} :
    GroupsKnown schema (g :: groups) ↔
      ((∀ f ∈ g.fields, TypeKnown schema f.typeName) ∧ GroupsKnown schema g.nestedGroups) ∧
        GroupsKnown schema groups := by
  constructor
  · intro h
    refine ⟨⟨h g (.here mem_cons_self), fun g' hg' => ?_⟩, fun g' hg' => ?_⟩
    · exact h g' (.inside mem_cons_self hg')
    · apply h g'
      cases hg' with
      | here hmem => exact .here (mem_cons_of_mem _ hmem)
      | inside hmem hin => exact .inside (mem_cons_of_mem _ hmem) hin
  · rintro ⟨⟨hfields, hnested⟩, hgroups⟩ g' hg'
    cases hg' with
    | here hmem =>
      rcases mem_cons.mp hmem with rfl | hmem
      · exact hfields
      · exact hgroups g' (.here hmem)
    | inside hmem hin =>
      rcases mem_cons.mp hmem with rfl | hmem
      · exact hnested g' hin
      · exact hgroups g' (.inside hmem hin)

mutual

theorem validateGroupFields_eq_ok_iff : ∀ g : GroupDef,
    validateGroupFields schema g = .ok () ↔
      (∀ f ∈ g.fields, TypeKnown schema f.typeName) ∧ GroupsKnown schema g.nestedGroups
  | ⟨_, _, _, _, _, _, _, fields, nestedGroups, _⟩ => by
    rw [validateGroupFields, bind_eq_ok_unit_iff, validateFieldTypes_eq_ok_iff,
      validateGroups_eq_ok_iff nestedGroups]

theorem validateGroups_eq_ok_iff : ∀ groups : List GroupDef,
    validateGroups schema groups = .ok () ↔ GroupsKnown schema groups
  | [] => by
    refine iff_of_true rfl ?_
    rintro g (⟨⟨⟩⟩ | ⟨⟨⟩, -⟩)
  | g :: rest => by
    rw [validateGroups, bind_eq_ok_unit_iff, validateGroupFields_eq_ok_iff g,
      validateGroups_eq_ok_iff rest, groupsKnown_cons_iff]

end

/-- The conditions on a message. -/
structure MessageSound (schema : Schema) (m : MessageDef) : Prop where
  ordered : FieldsOrdered schema m.fields
  fits : lastStop m.fields ≤ m.blockLength.toNat
  groups : GroupsKnown schema m.groups

theorem validateMessageFields_eq_ok_iff {m : MessageDef} (h : ∀ f ∈ m.fields, f.stop < 2 ^ 64) :
    validateMessageFields schema m = .ok () ↔ MessageSound schema m := by
  rw [validateMessageFields]
  cases hfields : validateFields schema 0 m.fields with
  | error e =>
    refine iff_of_false (by rintro ⟨⟩) fun hsound => ?_
    rw [(validateFields_eq_ok_iff_ordered h).mpr ⟨hsound.ordered, rfl⟩] at hfields
    cases hfields
  | ok last =>
    obtain ⟨hordered, rfl⟩ := (validateFields_eq_ok_iff_ordered h).mp hfields
    show (if _ then _ else _) = _ ↔ _
    split_ifs with hlong
    · exact iff_of_false (by rintro ⟨⟩) fun hsound => absurd hsound.fits (by omega)
    · rw [validateGroups_eq_ok_iff]
      exact ⟨fun hgroups => ⟨hordered, by omega, hgroups⟩, fun hsound => hsound.groups⟩

/-! ## The schema -/

theorem validateMessages_eq_ok_iff {seenIds : List UInt16} {seenNames : List String}
    {messages : List MessageDef} (h : ∀ m ∈ messages, ∀ f ∈ m.fields, f.stop < 2 ^ 64) :
    validateMessages schema seenIds seenNames messages = .ok () ↔
      (Fresh (·.id) seenIds messages ∧ Fresh (·.name) seenNames messages) ∧
        ∀ m ∈ messages, MessageSound schema m := by
  induction messages generalizing seenIds seenNames with
  | nil => exact iff_of_true rfl ⟨⟨fresh_nil, fresh_nil⟩, by rintro m ⟨⟩⟩
  | cons m rest ih =>
    rw [forall_mem_cons] at h
    rw [validateMessages, fresh_cons_iff, fresh_cons_iff, forall_mem_cons]
    split_ifs with hid hname
    · exact iff_of_false (by rintro ⟨⟩) fun h => h.1.1.1 hid
    · exact iff_of_false (by rintro ⟨⟩) fun h => h.1.2.1 hname
    · rw [bind_eq_ok_unit_iff, validateMessageFields_eq_ok_iff h.1, ih h.2, and_iff_right hid,
        and_iff_right hname, and_left_comm]

/-- The conditions on a schema. -/
structure Sound (schema : Schema) : Prop where
  types : ∀ t ∈ schema.types, t.Sound
  ids : (schema.messages.map (·.id)).Nodup
  names : (schema.messages.map (·.name)).Nodup
  messages : ∀ m ∈ schema.messages, MessageSound schema m

theorem validateSchema_eq_ok_iff
    (htypes : (∀ t ∈ schema.types, t.Checked) ↔ ∀ t ∈ schema.types, t.Sound)
    (hstops : ∀ m ∈ schema.messages, ∀ f ∈ m.fields, f.stop < 2 ^ 64) :
    validateSchema schema = .ok () ↔ Sound schema := by
  rw [validateSchema, bind_eq_ok_unit_iff, validateTypes_eq_ok_iff, htypes,
    validateMessages_eq_ok_iff hstops, fresh_empty_iff, fresh_empty_iff]
  constructor
  · rintro ⟨ht, ⟨hids, hnames⟩, hmessages⟩
    exact ⟨ht, hids, hnames, hmessages⟩
  · intro hsound
    exact ⟨hsound.types, ⟨hsound.ids, hsound.names⟩, hsound.messages⟩

end Message

end IronSbe.Schema
