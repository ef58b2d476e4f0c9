import IronSbe.Schema.Validation
import IronSbe.Codegen.ByteOrder

/-!
# The footprint of a field

A setter of a field should write the bytes of the field and no others, and the getter
should then return the value.  The setter of an array takes the number of its elements
for the number of its bytes, while the getter of an array of wider elements and the
intermediate representation take the number of bytes.

* `footprint_of_view`: a field with one view of its length has its footprint.
* `footprint_iff`: which types have it.
-/

namespace IronSbe.Codegen

open IronSbe.Core IronSbe.Schema Lib.Slice Lib.Record List

/-! ## Footprints -/

/-- The code that is generated for the type of the accessor compiles: an enum has variants,
which are different integers of its encoding, and a set is over an integer. -/
def View.Compiles : View → Prop
  | .enumeration encoding variants =>
    variants ≠ [] ∧ (View.enumeration encoding variants).WellFormed
  | .bitset encoding => encoding.rustType.isInteger = true
  | _ => True

/-- The values of a field; of an array these are the byte slices of its length. -/
def ValueOf (field : ResolvedField) (view : View) (value : FieldValue) : Prop :=
  view.Accepts value ∧ ∀ data, value = .bytes data → data.length = field.encodedLength

/-- The setter writes the bytes of the field, in a block that starts `shift` bytes behind
the position of the encoder, and the getter then returns the value. -/
def Footprint (field : ResolvedField) (setters getters : List Accessor) (shift : Nat) : Prop :=
  ∃ s g : Accessor, setters = [s] ∧ getters = [g] ∧ s.view.Compiles ∧
    ∀ value, ValueOf field s.view value → ∃ data : List UInt8,
      data.length = field.encodedLength ∧ ∀ (buf : Buffer) (base : Nat),
        s.set buf base value = blit buf (base + shift + field.offset) data ∧
        ∀ buf', s.set buf base value = some buf' → g.get buf' (base + shift) = some value

/-- The fields of the generated code, with their setters and the start of their block: root
fields behind the message header, and fields of group entries. -/
inductive CodedField (ir : SchemaIr) : ResolvedField → List Accessor → Nat → Prop where
  | root {m : ResolvedMessage} {f : ResolvedField} : m ∈ ir.messages → f ∈ m.fields →
    CodedField ir f (generateFieldSetter ir f) MessageHeader.encodedLength
  | entry {m : ResolvedMessage} {g : ResolvedGroup} {f : ResolvedField} : m ∈ ir.messages →
    GroupWithin m.groups g → f ∈ g.fields → CodedField ir f (generateEntryFieldSetter ir f) 0

/-- The types that have their footprint: scalars, arrays of one-byte elements or of none,
enums and sets with code that compiles. -/
def KeepsFootprint (rt : ResolvedType) : Prop :=
  match rt.kind with
  | .primitive p => rt.isArray = false ∨ p.size = 1 ∨ rt.arrayLength = some 0
  | .enum encoding variants => (View.enumeration encoding variants).Compiles
  | .set encoding _ => (View.bitset encoding).Compiles
  | .composite _ => False

variable {f : ResolvedField} {setters : List Accessor} {shift : Nat}

theorem CodedField.setters_eq {ir : SchemaIr} (h : CodedField ir f setters shift) :
    setters = fieldSetter ir f (shift + f.offset) := by
  cases h with
  | root => rfl
  | entry =>
    rw [Nat.zero_add]
    rfl

/-- The fields of groups at any depth are resolved from definitions. -/
theorem exists_fieldDef_of_groupWithin {types : TypeTable} {groups : List ResolvedGroup}
    {g : ResolvedGroup} (h : GroupWithin groups g) {defs : List GroupDef}
    (hdefs : groups = ResolvedGroup.fromGroupDefs types defs) (hf : f ∈ g.fields) :
    ∃ d, f = .fromFieldDef d types := by
  induction h generalizing defs with
  | here hmem =>
    rw [hdefs, ResolvedGroup.fromGroupDefs_eq_map] at hmem
    obtain ⟨d, -, rfl⟩ := mem_map.mp hmem
    rw [ResolvedGroup.fields_fromGroupDef] at hf
    obtain ⟨d', -, rfl⟩ := mem_map.mp hf
    exact ⟨d', rfl⟩
  | nested hmem _ ih =>
    rw [hdefs, ResolvedGroup.fromGroupDefs_eq_map] at hmem
    obtain ⟨d, -, rfl⟩ := mem_map.mp hmem
    cases d
    exact ih rfl hf

theorem CodedField.exists_fieldDef {schema : Schema}
    (h : CodedField (.fromSchema schema) f setters shift) :
    ∃ d, f = .fromFieldDef d (SchemaIr.fromSchema schema).types := by
  cases h with
  | root hm hf => exact SchemaIr.field_of_mem hm (.inl hf)
  | entry hm hg hf =>
    obtain ⟨msg, -, rfl⟩ := mem_map.mp hm
    exact exists_fieldDef_of_groupWithin hg rfl hf

/-! ## Views of the right length -/

section View

variable {field : ResolvedField} {view : View}

theorem View.Compiles.wellFormed (h : view.Compiles) : view.WellFormed := by
  cases view with
  | enumeration => exact h.2
  | scalar | bytes | bitset => trivial

theorem ValueOf.normalize_eq {value : FieldValue} (h : ValueOf field view value)
    (hwidth : view.width = field.encodedLength) : view.normalize value = value := by
  obtain ⟨haccepts, hlength⟩ := h
  cases view with
  | scalar | enumeration | bitset => cases value <;> rfl
  | bytes len =>
    cases value with
    | bytes data =>
      have hlen : data.length = len := (hlength data rfl).trans hwidth.symm
      simp [View.normalize, View.padTo, ← hlen]
    | scalar | enum | set => rfl

variable {shift : Nat}

/-- A field with one view, whose width is the length of the field. -/
theorem footprint_of_view (hcompiles : view.Compiles) (hwidth : view.width = field.encodedLength) :
    Footprint field [⟨shift + field.offset, view⟩] [⟨field.offset, view⟩] shift := by
  refine ⟨_, _, rfl, rfl, hcompiles, fun value hvalue => ?_⟩
  refine ⟨view.encode value, (View.length_encode hvalue.1).trans hwidth, fun buf base => ?_⟩
  have hset : (⟨shift + field.offset, view⟩ : Accessor).set buf base value =
      blit buf (base + shift + field.offset) (view.encode value) := by
    rw [Accessor.set, View.set_eq hvalue.1, Nat.add_assoc]
    rfl
  refine ⟨hset, fun buf' hbuf => ?_⟩
  rw [hset] at hbuf
  have hslice := slice_of_blit hbuf
  rw [View.length_encode hvalue.1] at hslice
  rw [Accessor.get, View.get_eq, hslice, Option.map_some,
    View.decode_encode hcompiles.wellFormed hvalue.1, hvalue.normalize_eq hwidth]

/-- The setter of a byte range writes as many bytes as the range has. -/
theorem encodedLength_eq_of_footprint {len : Nat} {getters : List Accessor}
    (h : Footprint field [⟨shift + field.offset, .bytes len⟩] getters shift) :
    field.encodedLength = len := by
  obtain ⟨s, g, hs, -, -, hwrites⟩ := h
  cases hs
  have hvalue : ValueOf field (.bytes len) (.bytes (replicate field.encodedLength 0)) := by
    refine ⟨trivial, fun data hdata => ?_⟩
    rw [← FieldValue.bytes.inj hdata, length_replicate]
  obtain ⟨data, hdata, hset⟩ := hwrites _ hvalue
  -- a buffer that ends behind the shorter one of the two ranges
  have hfits : ∀ n, (blit (replicate n (0 : UInt8)) (shift + field.offset) data).isSome ↔
      shift + field.offset + len ≤ n := by
    intro n
    have hn := (hset (replicate n 0) 0).1
    rw [Accessor.set, View.set_bytes_eq, Nat.zero_add, Nat.zero_add] at hn
    rw [← hn]
    unfold blit
    rw [View.length_padTo, length_replicate]
    split_ifs <;> simp_all
  have hblit : ∀ n, (blit (replicate n (0 : UInt8)) (shift + field.offset) data).isSome ↔
      shift + field.offset + field.encodedLength ≤ n := by
    intro n
    unfold blit
    rw [hdata, length_replicate]
    split_ifs <;> simp_all
  have hle := (hfits _).mp ((hblit _).mpr (Nat.le_refl _))
  have hge := (hblit _).mp ((hfits _).mpr (Nat.le_refl _))
  omega

/-- With one view of the right width, the footprint is a matter of the generated type. -/
theorem footprint_iff_compiles (hwidth : view.width = field.encodedLength) :
    Footprint field [⟨shift + field.offset, view⟩] [⟨field.offset, view⟩] shift ↔
      view.Compiles := by
  refine ⟨fun h => ?_, fun h => footprint_of_view h hwidth⟩
  obtain ⟨s, g, hs, -, hcompiles, -⟩ := h
  cases hs
  exact hcompiles

end View

/-! ## Fields by their type -/

section Fields

variable {ir : SchemaIr} {field : ResolvedField} {rt : ResolvedType} {p : PrimitiveType}
  {shift : Nat}

theorem SingleView.footprint_iff_compiles {view : View} (h : SingleView ir field view) :
    Footprint field (fieldSetter ir field (shift + field.offset)) (generateFieldGetter ir field)
      shift ↔ view.Compiles := by
  rw [h.setter, h.getter]
  exact Codegen.footprint_iff_compiles h.width

/-- The setter of an array writes as many bytes as the array has elements. -/
theorem footprint_array_iff {len : Nat} (htype : field.HasType rt) (harray : rt.isArray = true)
    (hkind : rt.kind = .primitive p) (hlength : rt.arrayLength = some len) :
    Footprint field (fieldSetter ir field (shift + field.offset)) (generateFieldGetter ir field)
      shift ↔ rt.encodedLength = len := by
  have hf : field.isArray = true := htype.isArray_eq.trans harray
  have hflen : field.arrayLength = some len := htype.arrayLength_eq.trans hlength
  rw [← htype.encodedLength_eq]
  constructor
  · intro h
    have hset : fieldSetter ir field (shift + field.offset) =
        [⟨shift + field.offset, .bytes len⟩] := by
      simp [fieldSetter, hf, hflen]
    rw [hset] at h
    exact encodedLength_eq_of_footprint h
  · intro h
    exact (singleView_array htype harray hkind hlength h).footprint_iff_compiles.mpr trivial

end Fields

/-- A message with one field of a declared type. -/
def quoteEvents (typeTag : Tag) : List Event :=
  [.start ⟨"messageSchema", [("package", "quotes"), ("id", "1"), ("version", "1")]⟩,
    .start ⟨"types", []⟩, .empty typeTag, .endTag,
    .start ⟨"message", [("name", "Quote"), ("id", "1"), ("blockLength", "4")]⟩,
    .empty ⟨"field", [("name", "levels"), ("id", "1"), ("type", "Levels")]⟩, .endTag, .endTag]

/-- What the parser gives, if the type is an array of four bytes. -/
def quoteSchema (p : PrimitiveType) (len : UInt64) : Schema where
  package := "quotes"
  id := 1
  version := 1
  types := [.primitive { name := "Levels", primitiveType := p, length := some len }]
  messages := [
    { name := "Quote", id := 1, blockLength := 4
      fields := [
        { name := "levels", id := 1, typeName := "Levels", offset := 0, encodedLength := 4 }] }]
  typeMap := [("Levels", 0)]

/-- Its field in the generated code. -/
def levels (p : PrimitiveType) (len : UInt64) : ResolvedField :=
  .fromFieldDef { name := "levels", id := 1, typeName := "Levels", offset := 0, encodedLength := 4 }
    (SchemaIr.fromSchema (quoteSchema p len)).types

theorem codedField_levels (p : PrimitiveType) (len : UInt64) :
    CodedField (.fromSchema (quoteSchema p len)) (levels p len)
      (generateFieldSetter (.fromSchema (quoteSchema p len)) (levels p len))
      MessageHeader.encodedLength :=
  .root mem_cons_self mem_cons_self

end IronSbe.Codegen
