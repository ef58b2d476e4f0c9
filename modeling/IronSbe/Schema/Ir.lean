import IronSbe.Lib.Slice
import IronSbe.Schema.Types

/-!
# The intermediate representation

`SchemaIr::from_schema` resolves every type definition and every field of every
message.  A field is resolved by the name of its type: a declared type first
(the last one of that name), then a builtin primitive; the offset is that of
the field definition and the length is that of the resolved type.

* `ResolvedType.pairwise_members`, `ResolvedType.mem_members`: the members of
  a resolved composite follow each other inside its encoded length.
* `SchemaIr.field_of_mem`: a field of a resolved message is the resolution of
  a field definition, and so is every field of its groups.
-/

namespace IronSbe.Schema

open List

/-! ## Types -/

/-- `EnumVariant`. -/
structure EnumVariant where
  name : String
  value : Int
  deriving DecidableEq, Repr

/-- `SetVariant`. -/
structure SetVariant where
  name : String
  bitPosition : UInt8
  deriving DecidableEq, Repr

/-- `CompositeFieldInfo`. -/
structure CompositeFieldInfo where
  name : String
  primitiveType : PrimitiveType
  offset : Nat
  encodedLength : Nat
  deriving DecidableEq, Repr

/-- `TypeKind`. -/
inductive TypeKind where
  | primitive (p : PrimitiveType)
  | composite (fields : List CompositeFieldInfo)
  | enum (encoding : PrimitiveType) (variants : List EnumVariant)
  | set (encoding : PrimitiveType) (choices : List SetVariant)
  deriving DecidableEq, Repr

/-- `ResolvedType`. -/
structure ResolvedType where
  name : String
  kind : TypeKind
  encodedLength : Nat
  isArray : Bool
  arrayLength : Option Nat
  deriving DecidableEq, Repr

namespace ResolvedType

/-- The members of a composite: each one starts where the one before ends, and
those without a primitive type are left out. -/
def members : Nat → List CompositeField → List CompositeFieldInfo
  | _, [] => []
  | offset, f :: rest =>
    match f.primitiveType with
    | some prim =>
      ⟨f.name, prim, offset, f.encodedLength⟩ :: members (offset + f.encodedLength) rest
    | none => members (offset + f.encodedLength) rest

/-- `u64 as i64`. -/
def asI64 (n : Nat) : Int := if n < 2 ^ 63 then n else (n : Int) - 2 ^ 64

/-- The number of an enum value, read as the signedness of the encoding says. -/
def variantValue (encoding : PrimitiveType) (v : EnumValue) : Option Int :=
  if encoding.isSigned then v.asI64 else v.asU64.map asI64

/-- `ResolvedType::from_type_def`. -/
def fromTypeDef : TypeDef → ResolvedType
  | .primitive p =>
    ⟨p.name, .primitive p.primitiveType, p.encodedLength, p.isArray, p.length.map UInt64.toNat⟩
  | .composite c => ⟨c.name, .composite (members 0 c.fields), c.encodedLength, false, none⟩
  | .enum e =>
    let variants := e.validValues.filterMap fun v =>
      (variantValue e.encodingType v).map fun value => ⟨v.name, value⟩
    ⟨e.name, .enum e.encodingType variants, e.encodingType.size, false, none⟩
  | .set s =>
    let choices := s.choices.map fun c => ⟨c.name, c.bitPosition⟩
    ⟨s.name, .set s.encodingType choices, s.encodingType.size, false, none⟩

/-- `ResolvedType::from_primitive`. -/
def fromPrimitive (prim : PrimitiveType) : ResolvedType :=
  ⟨prim.sbeName, .primitive prim, prim.size, false, none⟩

/-- A member lies between the start of the composite and its end. -/
theorem mem_members {offset : Nat} {fields : List CompositeField} {m : CompositeFieldInfo}
    (h : m ∈ members offset fields) :
    offset ≤ m.offset ∧
      m.offset + m.encodedLength ≤ offset + (fields.map (·.encodedLength)).sum := by
  induction fields generalizing offset with
  | nil => exact absurd h not_mem_nil
  | cons f rest ih =>
    rw [members] at h
    rw [map_cons, sum_cons]
    cases hprim : f.primitiveType with
    | none =>
      rw [hprim] at h
      have := ih h
      omega
    | some prim =>
      rw [hprim] at h
      rcases mem_cons.mp h with rfl | h
      · simp
      · have := ih h
        omega

/-- The members of a composite follow each other. -/
theorem pairwise_members (offset : Nat) (fields : List CompositeField) :
    (members offset fields).Pairwise fun m n => m.offset + m.encodedLength ≤ n.offset := by
  induction fields generalizing offset with
  | nil => exact List.Pairwise.nil
  | cons f rest ih =>
    rw [members]
    cases f.primitiveType with
    | none => exact ih _
    | some prim =>
      refine pairwise_cons.mpr ⟨fun m hm => ?_, ih _⟩
      exact (mem_members hm).1

end ResolvedType

/-! ## Fields, groups and messages -/

/-- `HashMap<String, ResolvedType>`. -/
abbrev TypeTable := List (String × ResolvedType)

/-- The type that a field name stands for. -/
def resolveType (types : TypeTable) (name : String) : Option ResolvedType :=
  (types.lookup name).or ((PrimitiveType.fromSbeName name).map ResolvedType.fromPrimitive)

/-- `ResolvedField`. -/
structure ResolvedField where
  name : String
  id : UInt16
  typeName : String
  offset : Nat
  encodedLength : Nat
  isOptional : Bool
  isArray : Bool
  arrayLength : Option Nat
  primitiveType : Option PrimitiveType
  deriving DecidableEq, Repr

namespace ResolvedField

/-- The first offset after the field. -/
def stop (f : ResolvedField) : Nat := f.offset + f.encodedLength

/-- The bytes of the field. -/
def span (f : ResolvedField) : Nat × Nat := (f.offset, f.stop)

/-- `ResolvedField::from_field_def`. -/
def fromFieldDef (field : FieldDef) (types : TypeTable) : ResolvedField :=
  let common (encodedLength : Nat) (isArray : Bool) (arrayLength : Option Nat)
      (primitiveType : Option PrimitiveType) : ResolvedField :=
    { name := field.name
      id := field.id
      typeName := field.typeName
      offset := field.offset
      encodedLength := encodedLength
      isOptional := field.presence == .optional
      isArray := isArray
      arrayLength := arrayLength
      primitiveType := primitiveType }
  match resolveType types field.typeName with
  | some rt =>
    let primitiveType := match rt.kind with
      | .primitive p => some p
      | _ => none
    common rt.encodedLength rt.isArray rt.arrayLength primitiveType
  | none => common field.encodedLength false none none

/-- The data that a resolved field takes over from its type. -/
structure HasType (f : ResolvedField) (rt : ResolvedType) : Prop where
  encodedLength_eq : f.encodedLength = rt.encodedLength
  isArray_eq : f.isArray = rt.isArray
  arrayLength_eq : f.arrayLength = rt.arrayLength
  primitiveType_eq : ∀ p, rt.kind = .primitive p → f.primitiveType = some p

theorem fromFieldDef_hasType {field : FieldDef} {types : TypeTable} {rt : ResolvedType}
    (h : resolveType types field.typeName = some rt) : HasType (fromFieldDef field types) rt := by
  unfold fromFieldDef
  rw [h]
  refine ⟨rfl, rfl, rfl, fun p hp => ?_⟩
  simp only [hp]

@[simp] theorem typeName_fromFieldDef (field : FieldDef) (types : TypeTable) :
    (fromFieldDef field types).typeName = field.typeName := by
  unfold fromFieldDef
  split <;> rfl

@[simp] theorem offset_fromFieldDef (field : FieldDef) (types : TypeTable) :
    (fromFieldDef field types).offset = field.offset := by
  unfold fromFieldDef
  split <;> rfl

end ResolvedField

/-- The fields of a block have no byte in common and end inside its `size` bytes. -/
structure BlockSound (fields : List ResolvedField) (size : Nat) : Prop where
  apart : (fields.map ResolvedField.span).Pairwise Lib.Slice.Apart
  inside : ∀ f ∈ fields, f.stop ≤ size

instance (fields : List ResolvedField) (size : Nat) : Decidable (BlockSound fields size) :=
  decidable_of_iff ((fields.map ResolvedField.span).Pairwise Lib.Slice.Apart ∧
      ∀ f ∈ fields, f.stop ≤ size)
    ⟨fun h => ⟨h.1, h.2⟩, fun h => ⟨h.apart, h.inside⟩⟩

/-- `ResolvedVarData`. -/
structure ResolvedVarData where
  name : String
  id : UInt16
  typeName : String
  deriving DecidableEq, Repr

/-- A data field of the schema. -/
def ResolvedVarData.fromDataFieldDef (d : DataFieldDef) : ResolvedVarData :=
  ⟨d.name, d.id, d.typeName⟩

/-- `ResolvedGroup`. -/
structure ResolvedGroup where
  name : String
  id : UInt16
  blockLength : UInt16
  fields : List ResolvedField
  nestedGroups : List ResolvedGroup
  varData : List ResolvedVarData

mutual

/-- `ResolvedGroup::from_group_def`. -/
def ResolvedGroup.fromGroupDef (types : TypeTable) : GroupDef → ResolvedGroup
  | ⟨name, id, blockLength, _, _, _, _, fields, nestedGroups, dataFields⟩ =>
    { name := name
      id := id
      blockLength := blockLength
      fields := fields.map fun f => .fromFieldDef f types
      nestedGroups := fromGroupDefs types nestedGroups
      varData := dataFields.map .fromDataFieldDef }

/-- The groups of a message or of a group. -/
def ResolvedGroup.fromGroupDefs (types : TypeTable) : List GroupDef → List ResolvedGroup
  | [] => []
  | g :: rest => fromGroupDef types g :: fromGroupDefs types rest

end

/-- `ResolvedMessage`. -/
structure ResolvedMessage where
  name : String
  templateId : UInt16
  blockLength : UInt16
  fields : List ResolvedField
  groups : List ResolvedGroup
  varData : List ResolvedVarData

/-- `ResolvedMessage::from_message_def`. -/
def ResolvedMessage.fromMessageDef (msg : MessageDef) (types : TypeTable) : ResolvedMessage :=
  { name := msg.name
    templateId := msg.id
    blockLength := msg.blockLength
    fields := msg.fields.map fun f => .fromFieldDef f types
    groups := ResolvedGroup.fromGroupDefs types msg.groups
    varData := msg.dataFields.map .fromDataFieldDef }

theorem ResolvedGroup.fromGroupDefs_eq_map (types : TypeTable) (groups : List GroupDef) :
    fromGroupDefs types groups = groups.map (fromGroupDef types) := by
  induction groups with
  | nil => rfl
  | cons g rest ih => rw [fromGroupDefs, ih, map_cons]

theorem ResolvedGroup.fields_fromGroupDef (types : TypeTable) (g : GroupDef) :
    (fromGroupDef types g).fields = g.fields.map fun f => .fromFieldDef f types := by
  cases g
  rfl

/-! ## The whole schema -/

/-- `SchemaIr`. -/
structure SchemaIr where
  package : String
  schemaId : UInt16
  schemaVersion : UInt16
  types : TypeTable
  messages : List ResolvedMessage

namespace SchemaIr

/-- The table of the resolved types. -/
def resolvedTypes (types : List TypeDef) : TypeTable :=
  types.foldl (fun table t =>
    let resolved := ResolvedType.fromTypeDef t
    (resolved.name, resolved) :: table) []

/-- `SchemaIr::from_schema`. -/
def fromSchema (schema : Schema) : SchemaIr :=
  let types := resolvedTypes schema.types
  { package := schema.package
    schemaId := schema.id
    schemaVersion := schema.version
    types := types
    messages := schema.messages.map fun msg => .fromMessageDef msg types }

/-- `SchemaIr::get_type`. -/
def getType (ir : SchemaIr) (name : String) : Option ResolvedType := ir.types.lookup name

variable {schema : Schema}

/-- The table has the resolved types, the last definition first. -/
theorem resolvedTypes_eq (types : List TypeDef) :
    resolvedTypes types =
      (types.map fun t => ((ResolvedType.fromTypeDef t).name, .fromTypeDef t)).reverse := by
  have hgen : ∀ table : TypeTable,
      types.foldl (fun table t =>
        ((ResolvedType.fromTypeDef t).name, ResolvedType.fromTypeDef t) :: table) table =
      (types.map fun t => ((ResolvedType.fromTypeDef t).name, .fromTypeDef t)).reverse ++
        table := by
    induction types with
    | nil => exact fun table => rfl
    | cons t rest ih =>
      intro table
      rw [foldl_cons, ih, map_cons, reverse_cons, append_assoc]
      rfl
  exact (hgen []).trans (append_nil _)

/-- Every entry of the table is the resolution of a type definition. -/
theorem mem_of_lookup {types : List TypeDef} {name : String} {rt : ResolvedType}
    (h : (resolvedTypes types).lookup name = some rt) : ∃ t ∈ types, rt = .fromTypeDef t := by
  obtain ⟨_, _, hsplit, -⟩ := lookup_eq_some_iff.mp h
  have hmem : (name, rt) ∈ resolvedTypes types := by
    rw [hsplit]
    exact mem_append_right _ mem_cons_self
  rw [resolvedTypes_eq, mem_reverse, mem_map] at hmem
  obtain ⟨t, ht, heq⟩ := hmem
  exact ⟨t, ht, (Prod.mk.inj heq).2.symm⟩

/-- A resolved type is a declared type or a builtin primitive. -/
theorem resolveType_cases {name : String} {rt : ResolvedType}
    (h : resolveType (fromSchema schema).types name = some rt) :
    (∃ t ∈ schema.types, (fromSchema schema).getType name = some rt ∧ rt = .fromTypeDef t) ∨
      (∃ p, (fromSchema schema).getType name = none ∧ rt = .fromPrimitive p) := by
  unfold resolveType at h
  rw [getType]
  cases hlookup : (fromSchema schema).types.lookup name with
  | some found =>
    rw [hlookup, Option.some_or] at h
    cases h
    obtain ⟨t, ht, hrt⟩ := mem_of_lookup hlookup
    exact .inl ⟨t, ht, rfl, hrt⟩
  | none =>
    rw [hlookup, Option.none_or] at h
    obtain ⟨p, -, hp⟩ := Option.map_eq_some_iff.mp h
    exact .inr ⟨p, rfl, hp.symm⟩

/-- The fields of the message and of its groups. -/
def FieldOf (m : ResolvedMessage) (f : ResolvedField) : Prop :=
  f ∈ m.fields ∨ ∃ g ∈ m.groups, f ∈ g.fields

/-- A field of a resolved message is the resolution of a field definition. -/
theorem field_of_mem {m : ResolvedMessage} (hm : m ∈ (fromSchema schema).messages)
    {f : ResolvedField} (hf : FieldOf m f) :
    ∃ d, f = .fromFieldDef d (fromSchema schema).types := by
  obtain ⟨msg, -, rfl⟩ := mem_map.mp hm
  rcases hf with hf | ⟨g, hg, hf⟩
  · obtain ⟨d, -, rfl⟩ := mem_map.mp hf
    exact ⟨d, rfl⟩
  · rw [ResolvedMessage.fromMessageDef, ResolvedGroup.fromGroupDefs_eq_map] at hg
    obtain ⟨def', -, rfl⟩ := mem_map.mp hg
    rw [ResolvedGroup.fields_fromGroupDef] at hf
    obtain ⟨d, -, rfl⟩ := mem_map.mp hf
    exact ⟨d, rfl⟩

end SchemaIr

end IronSbe.Schema
