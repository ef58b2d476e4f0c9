import IronSbe.Codegen.Accessor

/-!
# Accessors of a block

`generateFieldGetter`, `generateFieldSetter` and `generateEntryFieldSetter`
follow the branches of the generator.  The two setter generators differ only in
the position they write at, and share `fieldSetter`.

* `Supported`: the field kinds that the codec is made for.
* `Supported.layout`: their setters write where their getters read, inside the
  field and apart from each other.
* `SupportedKinds.laid`: so do the accessors of a whole block of such fields, if its
  layout is sound.
-/

namespace IronSbe.Codegen

open IronSbe.Core IronSbe.Schema Lib.Slice Lib.Record List

/-- A generated getter or setter: a view at an offset of the block. -/
structure Accessor where
  offset : Nat
  view : View
  deriving DecidableEq, Repr

namespace Accessor

/-- The getter's call on a decoder whose block starts at `base`. -/
def get (a : Accessor) (buf : Buffer) (base : Nat) : Option FieldValue :=
  a.view.get buf (base + a.offset)

/-- The setter's call on an encoder at `base`. -/
def set (a : Accessor) (buf : Buffer) (base : Nat) (value : FieldValue) : Option Buffer :=
  a.view.set buf (base + a.offset) value

/-- The accessor `n` bytes further on. -/
def shift (n : Nat) (a : Accessor) : Accessor := ⟨n + a.offset, a.view⟩

/-- The accessor as a slot of the block. -/
def slot (a : Accessor) : Slot UInt8 FieldValue := ⟨a.offset, a.view.codec⟩

theorem stop_slot (a : Accessor) : a.slot.stop = a.offset + a.view.width := rfl

theorem get_eq_read (a : Accessor) (buf : Buffer) (base : Nat) :
    a.get buf base = a.slot.read buf base := by
  rw [get, View.get_eq, Nat.add_assoc]
  rfl

theorem set_eq_apply {a : Accessor} {value : FieldValue} (h : a.view.Accepts value) (buf : Buffer)
    (base : Nat) : a.set buf base value = (a.slot.write base value).apply buf :=
  View.set_eq h buf _

theorem set_shift (a : Accessor) (n : Nat) (buf : Buffer) (base : Nat) (value : FieldValue) :
    (a.shift n).set buf base value = a.set buf (base + n) value := by
  rw [set, set, shift, Nat.add_assoc]

end Accessor

/-! ## The generators -/

/-- `MessageGenerator::generate_field_getter`. -/
def generateFieldGetter (ir : SchemaIr) (field : ResolvedField) : List Accessor :=
  if field.isArray then
    let elemType := (field.primitiveType.map PrimitiveType.rustType).getD .u8
    let len := field.arrayLength.getD 1
    if elemType = .u8 then [⟨field.offset, .bytes len⟩]
    else [⟨field.offset, .bytes field.encodedLength⟩]
  else
    match (ir.getType field.typeName).map ResolvedType.kind with
    | some (.enum encoding variants) => [⟨field.offset, .enumeration encoding variants⟩]
    | some (.set encoding _) => [⟨field.offset, .bitset encoding⟩]
    | some (.composite members) =>
      members.map fun m => ⟨field.offset + m.offset, .scalar (some m.primitiveType)⟩
    | _ => [⟨field.offset, .scalar field.primitiveType⟩]

/-- The body that the two setter generators have in common, for a setter that
writes at `fieldOffset`. -/
def fieldSetter (ir : SchemaIr) (field : ResolvedField) (fieldOffset : Nat) : List Accessor :=
  if field.isArray then
    let len := field.arrayLength.getD field.encodedLength
    [⟨fieldOffset, .bytes len⟩]
  else
    match (ir.getType field.typeName).map ResolvedType.kind with
    | some (.enum encoding variants) => [⟨fieldOffset, .enumeration encoding variants⟩]
    | some (.set encoding _) => [⟨fieldOffset, .bitset encoding⟩]
    | some (.composite members) =>
      members.map fun m => ⟨fieldOffset + m.offset, .scalar (some m.primitiveType)⟩
    | _ => [⟨fieldOffset, .scalar field.primitiveType⟩]

/-- `MessageGenerator::generate_field_setter`. -/
def generateFieldSetter (ir : SchemaIr) (field : ResolvedField) : List Accessor :=
  fieldSetter ir field (MessageHeader.encodedLength + field.offset)

/-- `MessageGenerator::generate_entry_field_setter`. -/
def generateEntryFieldSetter (ir : SchemaIr) (field : ResolvedField) : List Accessor :=
  fieldSetter ir field field.offset

/-- A message setter writes as the entry setter does, behind the header. -/
theorem generateFieldSetter_eq (ir : SchemaIr) (field : ResolvedField) :
    generateFieldSetter ir field =
      (generateEntryFieldSetter ir field).map (.shift MessageHeader.encodedLength) := by
  unfold generateFieldSetter generateEntryFieldSetter fieldSetter
  split
  · rfl
  · split
    · rfl
    · rfl
    · simp [Accessor.shift, Function.comp_def, Nat.add_assoc]
    · rfl

/-! ## The supported fields -/

/-- The types that the codec is made for: scalars, arrays of one-byte elements or of
none, enums of different integers of the encoding, sets over an integer, and
composites of scalars, with a length that has not wrapped. -/
def SupportedType (rt : ResolvedType) : Prop :=
  match rt.kind with
  | .primitive p => rt.isArray = false ∨ p.size = 1 ∨ rt.arrayLength = some 0
  | .enum encoding variants => (View.enumeration encoding variants).WellFormed
  | .set encoding _ => encoding.rustType.isInteger = true
  | .composite members => ∀ m ∈ members,
    m.encodedLength = m.primitiveType.size ∧ m.offset + m.encodedLength ≤ rt.encodedLength

instance : DecidablePred SupportedType := fun rt =>
  match rt with
  | ⟨_, .primitive _, _, _, _⟩ => inferInstanceAs (Decidable (_ ∨ _))
  | ⟨_, .enum _ _, _, _, _⟩ => inferInstanceAs (Decidable (_ ∧ _ ∧ _))
  | ⟨_, .set _ _, _, _, _⟩ => inferInstanceAs (Decidable (_ = true))
  | ⟨_, .composite _, _, _, _⟩ => inferInstanceAs (Decidable (∀ _ ∈ _, _))

/-- The field's type is one that the codec is made for. -/
def Supported (ir : SchemaIr) (field : ResolvedField) : Prop :=
  match resolveType ir.types field.typeName with
  | some rt => SupportedType rt
  | none => False

instance (ir : SchemaIr) (field : ResolvedField) : Decidable (Supported ir field) :=
  match h : resolveType ir.types field.typeName with
  | some rt => decidable_of_iff (SupportedType rt) (by rw [Supported, h])
  | none => isFalse (by rw [Supported, h]; exact id)

/-- The setters of the field write where its getters read, inside the field
and apart from each other, and lose nothing. -/
structure FieldLayout (ir : SchemaIr) (field : ResolvedField) : Prop where
  setters_eq : generateEntryFieldSetter ir field = generateFieldGetter ir field
  within : ∀ a ∈ generateFieldGetter ir field,
    field.offset ≤ a.offset ∧ a.slot.stop ≤ field.stop
  disjoint : ((generateFieldGetter ir field).map Accessor.slot).Pairwise Slot.Disjoint
  wellFormed : ∀ a ∈ generateFieldGetter ir field, a.view.WellFormed

/-- The field has one accessor, and it takes the whole field. -/
structure SingleView (ir : SchemaIr) (field : ResolvedField) (view : View) : Prop where
  getter : generateFieldGetter ir field = [⟨field.offset, view⟩]
  setter : ∀ fieldOffset, fieldSetter ir field fieldOffset = [⟨fieldOffset, view⟩]
  width : view.width = field.encodedLength

section Layout

variable {ir : SchemaIr} {field : ResolvedField} {rt : ResolvedType} {view : View}

theorem SingleView.layout (h : SingleView ir field view) (hview : view.WellFormed) :
    FieldLayout ir field := by
  refine ⟨(h.setter _).trans h.getter.symm, ?_, ?_, ?_⟩ <;> rw [h.getter]
  · intro a ha
    obtain rfl := mem_singleton.mp ha
    rw [Accessor.stop_slot, h.width]
    exact ⟨Nat.le_refl _, Nat.le_refl _⟩
  · exact pairwise_singleton _ _
  · intro a ha
    obtain rfl := mem_singleton.mp ha
    exact hview

variable {p encoding : PrimitiveType} (htype : field.HasType rt)
include htype

/-- A scalar field, of a declared type or a builtin. -/
theorem singleView_scalar (harray : rt.isArray = false) (hkind : rt.kind = .primitive p)
    (hlen : rt.encodedLength = p.size)
    (hlookup : ir.getType field.typeName = some rt ∨ ir.getType field.typeName = none) :
    SingleView ir field (.scalar (some p)) := by
  have hf : field.isArray = false := htype.isArray_eq.trans harray
  have hp : field.primitiveType = some p := htype.primitiveType_eq p hkind
  refine ⟨?_, fun fieldOffset => ?_, ?_⟩
  · rcases hlookup with h | h <;> simp [generateFieldGetter, hf, h, hp, hkind]
  · rcases hlookup with h | h <;> simp [fieldSetter, hf, h, hp, hkind]
  · rw [htype.encodedLength_eq, hlen]
    exact p.size_rustType

/-- An array with as many bytes as elements.  The getter of the unsigned ones takes the
declared length and that of `int8` takes the encoded length; they agree. -/
theorem singleView_array {len : Nat} (harray : rt.isArray = true) (hkind : rt.kind = .primitive p)
    (hrt : rt.arrayLength = some len) (hlen : field.encodedLength = len) :
    SingleView ir field (.bytes len) := by
  have hf : field.isArray = true := htype.isArray_eq.trans harray
  have hp : field.primitiveType = some p := htype.primitiveType_eq p hkind
  have hflen : field.arrayLength = some len := htype.arrayLength_eq.trans hrt
  refine ⟨?_, fun fieldOffset => ?_, hlen.symm⟩
  · simp [generateFieldGetter, hf, hp, hflen, hlen]
  · simp [fieldSetter, hf, hflen]

theorem singleView_enum {variants : List EnumVariant} (harray : rt.isArray = false)
    (hkind : rt.kind = .enum encoding variants) (hlen : rt.encodedLength = encoding.size)
    (hlookup : ir.getType field.typeName = some rt) :
    SingleView ir field (.enumeration encoding variants) := by
  have hf : field.isArray = false := htype.isArray_eq.trans harray
  refine ⟨?_, fun fieldOffset => ?_, (htype.encodedLength_eq.trans hlen).symm⟩
  · simp [generateFieldGetter, hf, hlookup, hkind]
  · simp [fieldSetter, hf, hlookup, hkind]

theorem singleView_set {choices : List SetVariant} (harray : rt.isArray = false)
    (hkind : rt.kind = .set encoding choices) (hlen : rt.encodedLength = encoding.size)
    (hlookup : ir.getType field.typeName = some rt) :
    SingleView ir field (.bitset encoding) := by
  have hf : field.isArray = false := htype.isArray_eq.trans harray
  refine ⟨?_, fun fieldOffset => ?_, (htype.encodedLength_eq.trans hlen).symm⟩
  · simp [generateFieldGetter, hf, hlookup, hkind]
  · simp [fieldSetter, hf, hlookup, hkind]

/-- A composite field of scalars: one accessor for each member. -/
theorem layout_of_composite {fields : List CompositeField} (harray : rt.isArray = false)
    (hkind : rt.kind = .composite (ResolvedType.members 0 fields))
    (hlookup : ir.getType field.typeName = some rt)
    (hscalar : ∀ m ∈ ResolvedType.members 0 fields,
      m.encodedLength = m.primitiveType.size ∧ m.offset + m.encodedLength ≤ rt.encodedLength) :
    FieldLayout ir field := by
  have hf : field.isArray = false := htype.isArray_eq.trans harray
  have hget : generateFieldGetter ir field = (ResolvedType.members 0 fields).map
      fun m => ⟨field.offset + m.offset, .scalar (some m.primitiveType)⟩ := by
    simp [generateFieldGetter, hf, hlookup, hkind]
  have hset : generateEntryFieldSetter ir field = generateFieldGetter ir field := by
    rw [hget]
    simp [generateEntryFieldSetter, fieldSetter, hf, hlookup, hkind]
  have hwidth : ∀ m ∈ ResolvedType.members 0 fields,
      (View.scalar (some m.primitiveType)).width = m.encodedLength := by
    intro m hm
    rw [(hscalar m hm).1]
    exact m.primitiveType.size_rustType
  refine ⟨hset, ?_, ?_, ?_⟩ <;> rw [hget]
  · intro a ha
    obtain ⟨m, hm, rfl⟩ := mem_map.mp ha
    have hinside := (hscalar m hm).2
    refine ⟨Nat.le_add_right _ _, ?_⟩
    rw [Accessor.stop_slot, hwidth m hm, ResolvedField.stop, htype.encodedLength_eq]
    show field.offset + m.offset + m.encodedLength ≤ _
    omega
  · rw [map_map, pairwise_map]
    refine (ResolvedType.pairwise_members 0 fields).imp_of_mem fun {m n} hm _ h => apart_of_le ?_
    show field.offset + m.offset + (View.scalar (some m.primitiveType)).width ≤
      field.offset + n.offset
    rw [hwidth m hm]
    omega
  · intro a ha
    obtain ⟨m, -, rfl⟩ := mem_map.mp ha
    trivial

end Layout

/-- The layout of a supported field. -/
theorem Supported.layout {schema : Schema} {d : FieldDef}
    (h : Supported (.fromSchema schema) (.fromFieldDef d (SchemaIr.fromSchema schema).types)) :
    FieldLayout (.fromSchema schema) (.fromFieldDef d (SchemaIr.fromSchema schema).types) := by
  rw [Supported, ResolvedField.typeName_fromFieldDef] at h
  cases hrt : resolveType (SchemaIr.fromSchema schema).types d.typeName with
  | none =>
    rw [hrt] at h
    exact absurd h id
  | some rt =>
    rw [hrt] at h
    have htype := ResolvedField.fromFieldDef_hasType hrt
    have hlookup := SchemaIr.resolveType_cases hrt
    rw [← ResolvedField.typeName_fromFieldDef d (SchemaIr.fromSchema schema).types] at hlookup
    rcases hlookup with ⟨t, -, hlookup, rfl⟩ | ⟨p, hlookup, rfl⟩
    · cases t with
      | primitive p =>
        by_cases harray : p.isArray = true
        · obtain ⟨len, hlength⟩ := PrimitiveDef.exists_length harray
          have hrt : (ResolvedType.fromTypeDef (.primitive p)).arrayLength = some len.toNat := by
            rw [ResolvedType.fromTypeDef, hlength, Option.map_some]
          have hbytes : p.primitiveType.size = 1 ∨ len.toNat = 0 := by
            rcases h with hscalar | hsize | hzero
            · exact absurd (harray.symm.trans hscalar) (by decide)
            · exact .inl hsize
            · exact .inr (Option.some_inj.mp (hrt.symm.trans hzero))
          refine (singleView_array htype harray rfl hrt ?_).layout trivial
          rw [htype.encodedLength_eq]
          exact (PrimitiveDef.encodedLength_eq_iff hlength).mpr hbytes
        · rw [Bool.not_eq_true] at harray
          have hview := singleView_scalar htype harray rfl
            (PrimitiveDef.encodedLength_of_not_isArray harray) (.inl hlookup)
          exact hview.layout trivial
      | composite c => exact layout_of_composite htype rfl rfl hlookup h
      | enum e => exact (singleView_enum htype rfl rfl rfl hlookup).layout h
      | set s => exact (singleView_set htype rfl rfl rfl hlookup).layout trivial
    · exact (singleView_scalar htype rfl rfl rfl (.inr hlookup)).layout trivial

/-! ## Blocks -/

/-- The getters of a block. -/
def getters (ir : SchemaIr) (fields : List ResolvedField) : List Accessor :=
  fields.flatMap (generateFieldGetter ir)

/-- The setters of a root block, on the encoder. -/
def setters (ir : SchemaIr) (fields : List ResolvedField) : List Accessor :=
  fields.flatMap (generateFieldSetter ir)

/-- The setters of an entry. -/
def entrySetters (ir : SchemaIr) (fields : List ResolvedField) : List Accessor :=
  fields.flatMap (generateEntryFieldSetter ir)

/-- The setters of a root block are those of an entry, behind the header. -/
theorem setters_eq (ir : SchemaIr) (fields : List ResolvedField) :
    setters ir fields = (entrySetters ir fields).map (.shift MessageHeader.encodedLength) := by
  rw [setters, entrySetters, map_flatMap]
  congr 1
  funext f
  exact generateFieldSetter_eq ir f

/-- The fields of a block are of supported kinds. -/
def SupportedKinds (ir : SchemaIr) (fields : List ResolvedField) : Prop :=
  ∀ f ∈ fields, Supported ir f

instance (ir : SchemaIr) (fields : List ResolvedField) : Decidable (SupportedKinds ir fields) :=
  inferInstanceAs (Decidable (∀ f ∈ fields, Supported ir f))

/-- The accessors are disjoint and inside the `size` bytes of the block, and
lose nothing. -/
structure Laid (accessors : List Accessor) (size : Nat) : Prop where
  disjoint : (accessors.map Accessor.slot).Pairwise Slot.Disjoint
  within : ∀ s ∈ accessors.map Accessor.slot, s.stop ≤ size
  wellFormed : ∀ a ∈ accessors, a.view.WellFormed

section Block

variable {schema : Schema} {fields : List ResolvedField} {size : Nat}

/-- The fields are resolved from definitions of the schema. -/
def ResolvedIn (schema : Schema) (fields : List ResolvedField) : Prop :=
  ∀ f ∈ fields, ∃ d, f = .fromFieldDef d (SchemaIr.fromSchema schema).types

section

variable (hkinds : SupportedKinds (.fromSchema schema) fields) (hfields : ResolvedIn schema fields)
include hkinds hfields

theorem SupportedKinds.fieldLayout {f : ResolvedField} (hf : f ∈ fields) :
    FieldLayout (.fromSchema schema) f := by
  obtain ⟨d, rfl⟩ := hfields f hf
  exact Supported.layout (hkinds _ hf)

/-- The setters of the block write where the getters read. -/
theorem SupportedKinds.entrySetters_eq :
    entrySetters (.fromSchema schema) fields = getters (.fromSchema schema) fields :=
  flatMap_congr fun _ hf => (hkinds.fieldLayout hfields hf).setters_eq

theorem SupportedKinds.laid (h : BlockSound fields size) :
    Laid (getters (.fromSchema schema) fields) size := by
  refine ⟨?_, ?_, ?_⟩
  · rw [getters, map_flatMap, pairwise_flatMap]
    refine ⟨fun f hf => (hkinds.fieldLayout hfields hf).disjoint, ?_⟩
    -- accessors of different fields lie inside of fields that are apart
    refine (pairwise_map.mp h.apart).imp_of_mem fun {f g} hf hg hapart s hs t ht => ?_
    obtain ⟨a, ha, rfl⟩ := mem_map.mp hs
    obtain ⟨b, hb, rfl⟩ := mem_map.mp ht
    exact hapart.mono ((hkinds.fieldLayout hfields hf).within a ha)
      ((hkinds.fieldLayout hfields hg).within b hb)
  · intro s hs
    obtain ⟨a, ha, rfl⟩ := mem_map.mp hs
    obtain ⟨f, hf, ha⟩ := mem_flatMap.mp ha
    exact Nat.le_trans ((hkinds.fieldLayout hfields hf).within a ha).2 (h.inside f hf)
  · intro a ha
    obtain ⟨f, hf, ha⟩ := mem_flatMap.mp ha
    exact (hkinds.fieldLayout hfields hf).wellFormed a ha

end

end Block

end IronSbe.Codegen
