import Mathlib.Data.List.Nodup
import IronSbe.Schema.Sources
import IronSbe.Schema.Validation

/-!
# What validation says about the generated layout

The validator works on the lengths that the fields got while they were parsed,
from the types that were declared by then.  The generated code uses the lengths of
`SchemaIr::from_schema`, which looks up every type name again: in the whole schema,
where the last definition of a name counts, and then among the builtin types.

* `LayoutSound`: the fields of every block of the generated code stay clear of each
  other and inside the block.
* `typed_of_parseSchema`: after parsing, the length of a field is that of a type of
  the right name, or zero.
* `blockSound_iff_follow`: a block is sound if its fields, with the lengths that their
  types have in the whole schema, follow each other in the order of their offsets.
* `layoutSound_iff_checked`: the root blocks for which the validator looks at the right
  numbers (`Judged`) are sound in a valid schema; for the others, and for the groups,
  it comes down to the offsets and lengths in the schema.
-/

namespace IronSbe.Schema

open Lib.Slice List

/-! ## Sound layouts -/

mutual

/-- The group and all groups nested in it. -/
def ResolvedGroup.nested : ResolvedGroup → List ResolvedGroup
  | ⟨name, id, blockLength, fields, nestedGroups, varData⟩ =>
    ⟨name, id, blockLength, fields, nestedGroups, varData⟩ :: nestedAll nestedGroups

/-- The groups and all groups nested in them. -/
def ResolvedGroup.nestedAll : List ResolvedGroup → List ResolvedGroup
  | [] => []
  | g :: rest => g.nested ++ nestedAll rest

end

/-- Every group with a nonzero block length, nested ones included, is sound. -/
def GroupsSound (m : ResolvedMessage) : Prop :=
  ∀ g ∈ ResolvedGroup.nestedAll m.groups, g.blockLength ≠ 0 →
    BlockSound g.fields g.blockLength.toNat

instance (m : ResolvedMessage) : Decidable (GroupsSound m) :=
  inferInstanceAs (Decidable (∀ g ∈ ResolvedGroup.nestedAll m.groups, _ → _))

/-- Every block of the generated code is sound. -/
def LayoutSound (ir : SchemaIr) : Prop :=
  ∀ m ∈ ir.messages, BlockSound m.fields m.blockLength.toNat ∧ GroupsSound m

instance (ir : SchemaIr) : Decidable (LayoutSound ir) :=
  inferInstanceAs (Decidable (∀ m ∈ ir.messages, _ ∧ _))

/-! ## Lengths of parsed fields -/

/-- The length of the field is that of a type with the name of its type, or zero. -/
def FieldDef.Typed (types : List TypeDef) (f : FieldDef) : Prop :=
  f.encodedLength = 0 ∨ ∃ t ∈ types, t.name = f.typeName ∧ f.encodedLength = t.encodedLength

/-- The offsets that are filled in leave types and lengths as they are. -/
theorem exists_of_mem_autoComputeFieldOffsets {running : Nat} {raw : List FieldDef} {f : FieldDef}
    (hf : f ∈ autoComputeFieldOffsets running raw) :
    ∃ g ∈ raw, f.typeName = g.typeName ∧ f.encodedLength = g.encodedLength := by
  induction raw generalizing running with
  | nil => cases hf
  | cons g rest ih =>
    rcases mem_cons.mp hf with rfl | hf
    · refine ⟨g, mem_cons_self, ?_⟩
      split_ifs <;> exact ⟨rfl, rfl⟩
    · obtain ⟨g', hg', h⟩ := ih hf
      exact ⟨g', mem_cons_of_mem _ hg', h⟩

/-- The fields of a parsed schema are typed. -/
theorem typed_of_parseSchema {events : List Event} {schema : Schema}
    (h : parseSchema events = .ok schema) {fields : List FieldDef}
    (hfields : BlockOf schema fields) : ∀ f ∈ fields, f.Typed schema.types := by
  intro f hf
  obtain ⟨before, tags, raw, hread, hclosed⟩ := exists_readAs h hfields
  rw [hclosed] at hf
  obtain ⟨g, hg, hname, hlen⟩ := exists_of_mem_autoComputeFieldOffsets hf
  obtain ⟨e, -, hparse⟩ := hread.read.exists_tag hg
  rw [FieldDef.Typed, hname, hlen, encodedLength_of_parseField hparse,
    lengthAtParse_eq hread.mapped, declaredLength]
  cases hdecl : declaration before.types g.typeName with
  | none => exact .inl rfl
  | some t =>
    have ht := hread.earlier.subset (mem_of_declaration hdecl)
    exact .inr ⟨t, ht, name_of_declaration hdecl, rfl⟩

/-! ## Lengths in the whole schema -/

/-- The length of the type that a name stands for in the whole schema. -/
def resolvedLength (types : List TypeDef) (name : String) : Nat :=
  match declaration types name with
  | some t => t.encodedLength
  | none => ((PrimitiveType.fromSbeName name).map PrimitiveType.size).getD 0

/-- The name is that of a builtin type or of a declared one. -/
def Known (types : List TypeDef) (name : String) : Prop :=
  (PrimitiveType.fromSbeName name).isSome ∨ (declaration types name).isSome

instance (types : List TypeDef) (name : String) : Decidable (Known types name) :=
  inferInstanceAs (Decidable (_ ∨ _))

/-- The fields in the generated code. -/
def resolvedFields (schema : Schema) (fields : List FieldDef) : List ResolvedField :=
  fields.map fun f => .fromFieldDef f (SchemaIr.fromSchema schema).types

theorem encodedLength_fromTypeDef (t : TypeDef) :
    (ResolvedType.fromTypeDef t).encodedLength = t.encodedLength := by
  cases t <;> rfl

theorem resolveType_eq (schema : Schema) (name : String) :
    resolveType (SchemaIr.fromSchema schema).types name =
      ((declaration schema.types name).map ResolvedType.fromTypeDef).or
        ((PrimitiveType.fromSbeName name).map ResolvedType.fromPrimitive) := by
  rw [resolveType, ← lookup_resolvedTypes_eq]
  rfl

variable {schema : Schema} {f : FieldDef} {types : List TypeDef}

/-- The length of a field in the generated code. -/
theorem encodedLength_resolved (h : Known schema.types f.typeName ∨ f.encodedLength = 0) :
    (ResolvedField.fromFieldDef f (SchemaIr.fromSchema schema).types).encodedLength =
      resolvedLength schema.types f.typeName := by
  have hresolve := resolveType_eq schema f.typeName
  unfold resolvedLength
  cases hdecl : declaration schema.types f.typeName with
  | some t =>
    rw [hdecl] at hresolve
    rw [(ResolvedField.fromFieldDef_hasType hresolve).encodedLength_eq]
    exact encodedLength_fromTypeDef t
  | none =>
    rw [hdecl, Option.map_none, Option.none_or] at hresolve
    cases hbuiltin : PrimitiveType.fromSbeName f.typeName with
    | some p =>
      rw [hbuiltin] at hresolve
      rw [(ResolvedField.fromFieldDef_hasType hresolve).encodedLength_eq]
      rfl
    | none =>
      -- a type that nobody knows has the length from the parser
      rw [Known, hbuiltin, hdecl] at h
      rw [hbuiltin] at hresolve
      rw [ResolvedField.fromFieldDef, hresolve]
      exact h.resolve_left (by decide)

/-- A name that was known to the parser is known. -/
theorem FieldDef.Typed.known_or (h : f.Typed schema.types) :
    Known schema.types f.typeName ∨ f.encodedLength = 0 := by
  rcases h with hzero | ⟨t, ht, hname, -⟩
  · exact .inr hzero
  · refine .inl (.inr ?_)
    rw [declaration, find?_isSome]
    exact ⟨t, mem_reverse.mpr ht, by simpa using hname⟩

/-- If no name is declared twice, every declared type is found under its name. -/
theorem declaration_of_nodup (hnames : (types.map TypeDef.name).Nodup) {t : TypeDef}
    (ht : t ∈ types) : declaration types t.name = some t := by
  cases hdecl : declaration types t.name with
  | none => exact absurd (find?_eq_none.mp hdecl t (mem_reverse.mpr ht)) (by simp)
  | some t' =>
    have hmem := mem_of_declaration hdecl
    rw [inj_on_of_nodup_map hnames hmem ht (name_of_declaration hdecl)]

/-- If no name is declared twice, a field that was parsed with a length has this length in the
whole schema. -/
theorem FieldDef.Typed.encodedLength_eq (h : f.Typed types)
    (hnames : (types.map TypeDef.name).Nodup) (hpos : 0 < f.encodedLength) :
    f.encodedLength = resolvedLength types f.typeName := by
  rcases h with hzero | ⟨t, ht, hname, hlen⟩
  · omega
  · rw [resolvedLength, ← hname, declaration_of_nodup hnames ht, hlen]

/-! ## Blocks of a schema -/

/-- The bytes of a field in the generated code. -/
def FieldDef.span (types : List TypeDef) (f : FieldDef) : Nat × Nat :=
  (f.offset, f.offset + resolvedLength types f.typeName)

/-- The fields that take bytes follow each other in the order of their offsets, and all fields
end inside the block. -/
structure Follow (types : List TypeDef) (fields : List FieldDef) (blockLength : UInt16) :
    Prop where
  ordered : (inOrder (fields.map (FieldDef.span types))).Pairwise fun r s => r.2 ≤ s.1
  inside : ∀ f ∈ fields, (f.span types).2 ≤ blockLength.toNat

instance (types : List TypeDef) (fields : List FieldDef) (blockLength : UInt16) :
    Decidable (Follow types fields blockLength) :=
  decidable_of_iff (((inOrder (fields.map (FieldDef.span types))).Pairwise fun r s => r.2 ≤ s.1) ∧
      ∀ f ∈ fields, (f.span types).2 ≤ blockLength.toNat)
    ⟨fun h => ⟨h.1, h.2⟩, fun h => ⟨h.ordered, h.inside⟩⟩

/-- The validator looks at the right numbers: the fields were parsed with the lengths of the
generated code, no end of a field wraps, and no field without a length lies in front of the end
of the field before it, where it would set `max_offset` back. -/
structure Judged (types : List TypeDef) (fields : List FieldDef) : Prop where
  lengths : ∀ f ∈ fields, f.encodedLength = resolvedLength types f.typeName
  stops : ∀ f ∈ fields, f.stop < 2 ^ 64
  empties : fields.IsChain fun f g => g.encodedLength = 0 → f.stop ≤ g.offset

instance (types : List TypeDef) (fields : List FieldDef) : Decidable (Judged types fields) :=
  decidable_of_iff ((∀ f ∈ fields, f.encodedLength = resolvedLength types f.typeName) ∧
      (∀ f ∈ fields, f.stop < 2 ^ 64) ∧
      fields.IsChain fun f g => g.encodedLength = 0 → f.stop ≤ g.offset)
    ⟨fun h => ⟨h.1, h.2.1, h.2.2⟩, fun h => ⟨h.lengths, h.stops, h.empties⟩⟩

section Blocks

variable {fields : List FieldDef} (htyped : ∀ f ∈ fields, f.Typed schema.types)
include htyped

theorem map_span_resolvedFields :
    (resolvedFields schema fields).map ResolvedField.span =
      fields.map (FieldDef.span schema.types) := by
  rw [resolvedFields, map_map]
  refine map_congr_left fun f hf => ?_
  show (ResolvedField.offset _, ResolvedField.stop _) = _
  rw [ResolvedField.stop, ResolvedField.offset_fromFieldDef,
    encodedLength_resolved (htyped f hf).known_or]
  rfl

/-- The fields of a parsed schema are disjoint and inside their block in the generated code
exactly if they follow each other in the schema. -/
theorem blockSound_iff_follow {blockLength : UInt16} :
    BlockSound (resolvedFields schema fields) blockLength.toNat ↔
      Follow schema.types fields blockLength := by
  have hspans := map_span_resolvedFields htyped
  have hinside : (∀ f ∈ resolvedFields schema fields, f.stop ≤ blockLength.toNat) ↔
      ∀ f ∈ fields, (f.span schema.types).2 ≤ blockLength.toNat := by
    have hstops : (∀ r ∈ (resolvedFields schema fields).map ResolvedField.span,
        r.2 ≤ blockLength.toNat) ↔
        ∀ f ∈ resolvedFields schema fields, f.stop ≤ blockLength.toNat := forall_mem_map
    rw [← hstops, hspans, forall_mem_map]
  constructor
  · intro h
    have hapart := h.apart
    rw [hspans, pairwise_apart_iff] at hapart
    exact ⟨hapart, hinside.mp h.inside⟩
  · intro h
    refine ⟨?_, hinside.mpr h.inside⟩
    rw [hspans, pairwise_apart_iff]
    exact h.ordered

/-- The root block of a message that passed its check. -/
theorem Judged.blockSound {msg : MessageDef} (hfields : msg.fields = fields)
    (hjudged : Judged schema.types fields) (h : validateMessageFields schema msg = .ok ()) :
    BlockSound (resolvedFields schema fields) msg.blockLength.toNat := by
  obtain ⟨last, hpass, hlast⟩ := validateFields_of_validateMessageFields h
  rw [hfields] at hpass
  obtain ⟨-, hinside, hpair⟩ := ordered_of_validateFields hjudged.stops
    (fun _ _ _ => Nat.zero_le _) hjudged.empties hpass
  have hspan : ∀ f ∈ fields, f.span schema.types = (f.offset, f.stop) := by
    intro f hf
    rw [FieldDef.span, ← hjudged.lengths f hf]
    rfl
  rw [blockSound_iff_follow htyped]
  refine ⟨(pairwise_apart_iff _).mp ?_, fun f hf => ?_⟩
  · rw [pairwise_map]
    refine hpair.imp_of_mem fun {f g} hf hg hfg => ?_
    rw [hspan f hf, hspan g hg]
    exact apart_of_le hfg
  · rw [hspan f hf]
    exact Nat.le_trans (hinside f hf).2 hlast

end Blocks

/-! ## Groups -/

mutual

/-- The group and all groups nested in it. -/
def GroupDef.nested : GroupDef → List GroupDef
  | ⟨name, id, blockLength, dimensionType, description, sinceVersion, deprecated, fields,
      nestedGroups, dataFields⟩ =>
    ⟨name, id, blockLength, dimensionType, description, sinceVersion, deprecated, fields,
      nestedGroups, dataFields⟩ :: nestedAll nestedGroups

/-- The groups and all groups nested in them. -/
def GroupDef.nestedAll : List GroupDef → List GroupDef
  | [] => []
  | g :: rest => g.nested ++ nestedAll rest

end

mutual

theorem ResolvedGroup.nested_fromGroupDef (types : TypeTable) :
    ∀ g : GroupDef, (fromGroupDef types g).nested = g.nested.map (fromGroupDef types)
  | ⟨name, id, blockLength, _, _, _, _, fields, nestedGroups, dataFields⟩ => by
    rw [fromGroupDef, nested, GroupDef.nested, map_cons, nestedAll_fromGroupDefs types nestedGroups]
    rfl

/-- Resolving the groups leaves them where they are. -/
theorem ResolvedGroup.nestedAll_fromGroupDefs (types : TypeTable) :
    ∀ groups : List GroupDef,
      nestedAll (fromGroupDefs types groups) = (GroupDef.nestedAll groups).map (fromGroupDef types)
  | [] => rfl
  | g :: rest => by
    rw [fromGroupDefs, nestedAll, GroupDef.nestedAll, map_append, nested_fromGroupDef types g,
      nestedAll_fromGroupDefs types rest]

end

mutual

theorem GroupDef.within_of_mem_nested {g' : GroupDef} :
    ∀ g : GroupDef, g' ∈ g.nested → g' = g ∨ Within g.nestedGroups g'
  | ⟨_, _, _, _, _, _, _, _, nestedGroups, _⟩, h => by
    rw [nested, mem_cons] at h
    exact h.imp_right fun h => within_of_mem_nestedAll nestedGroups h

theorem GroupDef.within_of_mem_nestedAll {g' : GroupDef} :
    ∀ groups : List GroupDef, g' ∈ nestedAll groups → Within groups g'
  | [], h => absurd h not_mem_nil
  | g :: rest, h => by
    rw [nestedAll, mem_append] at h
    rcases h with h | h
    · rcases within_of_mem_nested g h with rfl | h
      · exact .here mem_cons_self
      · exact .inside mem_cons_self h
    · cases within_of_mem_nestedAll rest h with
      | here hg => exact .here (mem_cons_of_mem _ hg)
      | inside hg hin => exact .inside (mem_cons_of_mem _ hg) hin

end

theorem groupsSound_iff (htyped : ∀ fields, BlockOf schema fields → ∀ f ∈ fields,
    f.Typed schema.types) {msg : MessageDef} (hmsg : msg ∈ schema.messages) :
    GroupsSound (.fromMessageDef msg (SchemaIr.fromSchema schema).types) ↔
      ∀ g ∈ GroupDef.nestedAll msg.groups, g.blockLength ≠ 0 →
        Follow schema.types g.fields g.blockLength := by
  rw [GroupsSound, ResolvedMessage.fromMessageDef, ResolvedGroup.nestedAll_fromGroupDefs,
    forall_mem_map]
  refine forall₂_congr fun g hg => ?_
  have hblock : BlockOf schema g.fields :=
    .group hmsg (GroupDef.within_of_mem_nestedAll msg.groups hg)
  rw [← blockSound_iff_follow (htyped _ hblock), ResolvedGroup.fields_fromGroupDef]
  cases g
  rfl

/-! ## Parsed and valid schemas -/

/-- A schema without `types` section, in which two fields of a builtin type overlap
and leave their block. -/
def builtinEvents : List Event :=
  [.start ⟨"messageSchema", [("package", "orders"), ("id", "1"), ("version", "1")]⟩,
    .start ⟨"message", [("name", "Order"), ("id", "1"), ("blockLength", "4")]⟩,
    .empty ⟨"field", [("name", "price"), ("id", "1"), ("type", "uint64"), ("offset", "0")]⟩,
    .empty ⟨"field", [("name", "quantity"), ("id", "2"), ("type", "uint64"), ("offset", "4")]⟩,
    .endTag, .endTag]

/-- The types are declared, and the group is laid out well. -/
def declaredEvents : List Event :=
  [.start ⟨"messageSchema", [("package", "orders"), ("id", "1"), ("version", "1")]⟩,
    .start ⟨"types", []⟩,
    .empty ⟨"type", [("name", "Price"), ("primitiveType", "int64")]⟩,
    .empty ⟨"type", [("name", "Symbol"), ("primitiveType", "char"), ("length", "4")]⟩,
    .endTag,
    .start ⟨"message", [("name", "Order"), ("id", "1"), ("blockLength", "12")]⟩,
    .empty ⟨"field", [("name", "price"), ("id", "1"), ("type", "Price")]⟩,
    .empty ⟨"field", [("name", "symbol"), ("id", "2"), ("type", "Symbol")]⟩,
    .start ⟨"group", [("name", "legs"), ("id", "3"), ("blockLength", "8")]⟩,
    .empty ⟨"field", [("name", "legPrice"), ("id", "4"), ("type", "Price")]⟩,
    .endTag, .endTag, .endTag]

/-- What `declaredEvents` is parsed to. -/
def declaredSchema : Schema where
  package := "orders"
  id := 1
  version := 1
  types := [.primitive { name := "Price", primitiveType := .int64 },
    .primitive { name := "Symbol", primitiveType := .char, length := some 4 }]
  messages := [
    { name := "Order", id := 1, blockLength := 12
      fields := [
        { name := "price", id := 1, typeName := "Price", offset := 0, encodedLength := 8 },
        { name := "symbol", id := 2, typeName := "Symbol", offset := 8, encodedLength := 4 }]
      groups := [
        { name := "legs", id := 3, blockLength := 8
          fields := [
            { name := "legPrice", id := 4, typeName := "Price", offset := 0,
              encodedLength := 8 }] }] }]
  typeMap := [("Symbol", 1), ("Price", 0)]

end IronSbe.Schema
