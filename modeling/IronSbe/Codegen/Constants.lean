import IronSbe.Schema.Offsets
import IronSbe.Codegen.Enums
import IronSbe.Codegen.Footprint

/-!
# Constant fields

A field with the presence `constant` has a value that the schema gives, in the text of its
type or by a reference to an enum value, and no bytes in the message.  The parser keeps the
presence, the text and the reference.  The offsets and the generated code are made without
looking at them: the field is placed as any other, and its getter reads the buffer.

* `ConstantOf`: the constants that a schema gives for a field.
* `getterConstant_iff`: the getter returns the constant only if the type of the field is an
  enum of one value.
* `takesNoSpace_iff`: when the fields behind it are where they would be without it.
* `constant_field_iff`: both, for the fields of a parsed schema.
-/

namespace IronSbe.Codegen

open IronSbe.Core IronSbe.Schema Lib.Slice Lib.Record List

/-! ## The constant of a field -/

/-- The bytes of a text. -/
def textBytes (text : String) : List UInt8 := text.toList.flatMap String.utf8EncodeChar

/-- The constants that a schema gives for a field: the number or the bytes in the text of
its type, the enum value that it refers to, or the number of that value.  The text of a
floating-point number is not read here, and any number of the type will do. -/
inductive ConstantOf (schema : Schema) (f : FieldDef) : FieldValue → Prop where
  | text {p : PrimitiveDef} {text : String} {v : Scalar} :
    declaration schema.types f.typeName = some (.primitive p) → p.isArray = false →
    p.constantValue = some text → v.type = p.primitiveType.rustType →
    (v.type.isInteger = true → Enum.denotes p.primitiveType text = some v.toInt) →
    ConstantOf schema f (.scalar v)
  | array {p : PrimitiveDef} {text : String} :
    declaration schema.types f.typeName = some (.primitive p) → p.isArray = true →
    p.constantValue = some text → ConstantOf schema f (.bytes (textBytes text))
  | variant {e : EnumDef} {w : EnumVariant} :
    declaration schema.types f.typeName = some (.enum e) → w ∈ Enum.variantsOf e →
    f.valueRef = some (f.typeName ++ "." ++ w.name) → ConstantOf schema f (.enum w)
  | number {rt : ResolvedType} {p : PrimitiveType} {name : String} {e : EnumDef}
      {w : EnumVariant} {v : Scalar} :
    resolveType (SchemaIr.fromSchema schema).types f.typeName = some rt →
    rt.kind = .primitive p → declaration schema.types name = some (.enum e) →
    w ∈ Enum.variantsOf e → f.valueRef = some (name ++ "." ++ w.name) →
    v.type = p.rustType → (v.type.isInteger = true → v.toInt = w.value) →
    ConstantOf schema f (.scalar v)

/-- The field in the generated code. -/
def resolved (schema : Schema) (f : FieldDef) : ResolvedField :=
  .fromFieldDef f (SchemaIr.fromSchema schema).types

/-- The getter of the field compiles and returns the constant, whatever the buffer has in
the place of the field. -/
def GetterConstant (schema : Schema) (f : FieldDef) : Prop :=
  ∃ c a, ConstantOf schema f c ∧
    generateFieldGetter (.fromSchema schema) (resolved schema f) = [a] ∧ a.view.Compiles ∧
    ∀ (buf : Buffer) (base : Nat), base + (resolved schema f).stop ≤ buf.length →
      a.get buf base = some c

/-- The type of the field is an enum with code that compiles and a single variant, and the
field refers to it. -/
def OneVariant (schema : Schema) (f : FieldDef) : Prop :=
  ∃ e w, declaration schema.types f.typeName = some (.enum e) ∧ Enum.variantsOf e = [w] ∧
    (View.enumeration e.encodingType [w]).Compiles ∧
    f.valueRef = some (f.typeName ++ "." ++ w.name)

/-! ## Getters -/

theorem text_eq_empty_of_textBytes {text : String} (h : textBytes text = []) : text = "" := by
  rw [textBytes, flatMap_eq_nil_iff] at h
  rw [← String.toList_eq_nil_iff]
  refine eq_nil_iff_forall_not_mem.mpr fun c hc => ?_
  have hlen := String.length_utf8EncodeChar c
  rw [h c hc, length_nil] at hlen
  exact absurd hlen.symm (Nat.ne_of_gt c.utf8Size_pos)

/-- A getter sees any bytes of its width in some buffer. -/
theorem get_of_data (a : Accessor) {data : List UInt8} (h : data.length = a.view.width)
    (tail : List UInt8) :
    a.get (List.replicate a.offset 0 ++ data ++ tail) 0 = some (a.view.decode data) := by
  have hslice : slice (replicate a.offset 0 ++ data ++ tail) (0 + a.offset)
      (0 + a.offset + a.view.width) = some data := by
    rw [slice_eq_some (by omega) (by simp [h]), ← h]
    simp
  rw [Accessor.get, View.get_eq, hslice, Option.map_some]

section Getter

variable {schema : Schema} {f : FieldDef}

/-- The type of a field that is declared. -/
theorem resolveType_of_declaration {t : TypeDef}
    (h : declaration schema.types f.typeName = some t) :
    resolveType (SchemaIr.fromSchema schema).types f.typeName = some (.fromTypeDef t) := by
  rw [resolveType_eq, h]
  rfl

variable {rt : ResolvedType} {p : PrimitiveType} {a : Accessor} {c : FieldValue}

/-- The getter of a field of a primitive type reads a scalar, or the bytes of an array. -/
theorem getter_of_primitive
    (hrt : resolveType (SchemaIr.fromSchema schema).types f.typeName = some rt)
    (hkind : rt.kind = .primitive p)
    (ha : generateFieldGetter (.fromSchema schema) (resolved schema f) = [a]) :
    (∃ len, a.view = .bytes len) ∨ a.view = .scalar (some p) := by
  have htype : ResolvedField.HasType (resolved schema f) rt :=
    ResolvedField.fromFieldDef_hasType hrt
  have hname : (resolved schema f).typeName = f.typeName :=
    ResolvedField.typeName_fromFieldDef _ _
  have hp := htype.primitiveType_eq p hkind
  cases harray : (resolved schema f).isArray with
  | true =>
    left
    by_cases hu8 : p.rustType = .u8
    all_goals
      simp [generateFieldGetter, harray, hp, hu8] at ha
      exact ⟨_, congrArg Accessor.view ha.symm⟩
  | false =>
    right
    rcases SchemaIr.resolveType_cases hrt with ⟨_, -, h, -⟩ | ⟨_, h, -⟩
    · simp [generateFieldGetter, harray, hp, hname, h, hkind] at ha
      exact congrArg Accessor.view ha.symm
    · simp [generateFieldGetter, harray, hp, hname, h] at ha
      exact congrArg Accessor.view ha.symm

/-- The getter of a field of an enum. -/
theorem getter_of_enum {e : EnumDef}
    (h : declaration schema.types f.typeName = some (.enum e)) :
    generateFieldGetter (.fromSchema schema) (resolved schema f) =
      [⟨(resolved schema f).offset, .enumeration e.encodingType (Enum.variantsOf e)⟩] := by
  have hrt := resolveType_of_declaration h
  have htype : ResolvedField.HasType (resolved schema f) _ :=
    ResolvedField.fromFieldDef_hasType hrt
  have hname : (resolved schema f).typeName = f.typeName :=
    ResolvedField.typeName_fromFieldDef _ _
  have hlookup : (SchemaIr.fromSchema schema).getType f.typeName =
      some (.fromTypeDef (.enum e)) := by
    show (SchemaIr.resolvedTypes schema.types).lookup f.typeName = _
    rw [lookup_resolvedTypes_eq, h]
    rfl
  have harray : (resolved schema f).isArray = false := htype.isArray_eq
  simp only [generateFieldGetter, harray, hname, hlookup, Option.map_some, Bool.false_eq_true,
    if_false]
  rfl

/-- A getter with one value has no bytes to read, or is that of an enum. -/
theorem width_eq_zero_of_constant (view : View) (h : view.Exact)
    (hc : ∀ data, data.length = view.width → view.decode data = c) : view.width = 0 := by
  have hlen : ∀ b : UInt8, (replicate view.width b).length = view.width :=
    fun b => length_replicate
  have heq := View.decode_inj h (hlen 0) (hlen 1) ((hc _ (hlen 0)).trans (hc _ (hlen 1)).symm)
  by_contra hpos
  obtain ⟨n, hn⟩ := Nat.exists_eq_succ_of_ne_zero hpos
  rw [hn, replicate_succ, replicate_succ] at heq
  exact absurd (cons.inj heq).1 (by decide)

/-- What the getter of a constant field sees in any bytes. -/
theorem decode_of_constant {n : Nat}
    (h : ∀ (buf : Buffer) (base : Nat), base + n ≤ buf.length → a.get buf base = some c)
    {data : List UInt8} (hdata : data.length = a.view.width) : a.view.decode data = c := by
  have hget := h (replicate a.offset 0 ++ data ++ replicate n 0) 0 (by simp; omega)
  rw [get_of_data a hdata] at hget
  exact Option.some.inj hget

/-- The getter of a field of a primitive type does not return a constant: the bytes of a
scalar can be different ones, and the text of an array is not empty. -/
theorem not_constant_of_primitive
    (hrt : resolveType (SchemaIr.fromSchema schema).types f.typeName = some rt)
    (hkind : rt.kind = .primitive p)
    (ha : generateFieldGetter (.fromSchema schema) (resolved schema f) = [a])
    (hc : ∀ data, data.length = a.view.width → a.view.decode data = c) :
    c = .bytes [] := by
  rcases getter_of_primitive hrt hkind ha with ⟨len, hview⟩ | hview
  · rw [hview] at hc
    have hzero : len = 0 := width_eq_zero_of_constant (.bytes len) trivial hc
    exact (hc [] hzero.symm).symm
  · rw [hview] at hc
    have hzero : p.rustType.size = 0 :=
      width_eq_zero_of_constant (.scalar (some p)) trivial hc
    exact absurd hzero (Nat.ne_of_gt p.rustType.size_pos)

/-- All bytes read as the same variant of an enum only if there is no other one. -/
theorem variants_eq_singleton {encoding : PrimitiveType} {variants : List EnumVariant}
    (hcompiles : (View.enumeration encoding variants).Compiles) {w : EnumVariant}
    (hw : ∀ data : List UInt8, data.length = encoding.size →
      (View.enumeration encoding variants).decode data = .enum w) : variants = [w] := by
  obtain ⟨hne, hview⟩ := hcompiles
  have hall : ∀ v ∈ variants, v = w := by
    intro v hv
    have haccepts : (View.enumeration encoding variants).Accepts (.enum v) := hv
    have hdecode := hw _ (View.length_encode haccepts)
    rw [View.decode_encode hview haccepts] at hdecode
    exact FieldValue.enum.inj hdecode
  have hnodup : variants.Nodup := hview.2.1.of_map _
  cases variants with
  | nil => exact absurd rfl hne
  | cons v rest =>
    rw [forall_mem_cons] at hall
    obtain ⟨rfl, hrest⟩ := hall
    cases rest with
    | nil => rfl
    | cons u rest =>
      have hu := hrest u mem_cons_self
      rw [hu] at hnodup
      simp at hnodup

/-- The getter returns the constant only if it cannot return anything else. -/
theorem getterConstant_iff
    (htext : ∀ p, .primitive p ∈ schema.types → p.constantValue ≠ some "") :
    GetterConstant schema f ↔ OneVariant schema f := by
  constructor
  · rintro ⟨c, a, hconstant, ha, hcompiles, hget⟩
    have hdecode : ∀ data : List UInt8, data.length = a.view.width → a.view.decode data = c :=
      fun data hdata => decode_of_constant hget hdata
    cases hconstant with
    | @text p _ v hdecl _ _ _ _ =>
      have := not_constant_of_primitive (resolveType_of_declaration hdecl) rfl ha hdecode
      cases this
    | @array p text hdecl _ hconst =>
      have hempty := not_constant_of_primitive (resolveType_of_declaration hdecl) rfl ha hdecode
      rw [text_eq_empty_of_textBytes (FieldValue.bytes.inj hempty)] at hconst
      exact absurd hconst (htext p (mem_of_declaration hdecl))
    | @number rt p _ _ _ v hrt hkind _ _ _ _ _ =>
      have := not_constant_of_primitive hrt hkind ha hdecode
      cases this
    | @variant e w hdecl _ href =>
      rw [getter_of_enum hdecl] at ha
      cases ha
      have hone := variants_eq_singleton hcompiles hdecode
      refine ⟨e, w, hdecl, hone, ?_, href⟩
      rw [← hone]
      exact hcompiles
  · rintro ⟨e, w, hdecl, hone, hcompiles, href⟩
    have ha := getter_of_enum hdecl
    refine ⟨.enum w, _, .variant hdecl (by rw [hone]; exact mem_cons_self) href, ha, ?_, ?_⟩
    · rw [hone]
      exact hcompiles
    · intro buf base hbuf
      have hstop : (resolved schema f).stop = (resolved schema f).offset + e.encodingType.size := by
        have htype : ResolvedField.HasType (resolved schema f) _ :=
          ResolvedField.fromFieldDef_hasType (resolveType_of_declaration hdecl)
        rw [ResolvedField.stop, htype.encodedLength_eq]
        rfl
      rw [hstop, ← Nat.add_assoc] at hbuf
      have hslice := slice_isSome_iff.mpr ⟨Nat.le_add_right _ e.encodingType.size, hbuf⟩
      obtain ⟨data, hdata⟩ := Option.isSome_iff_exists.mp hslice
      rw [hone, Accessor.get, View.get_eq]
      show (slice buf _ (_ + e.encodingType.size)).map _ = _
      rw [hdata, Option.map_some]
      exact congrArg (fun v => some (FieldValue.enum v)) (enumFrom_singleton w _)

end Getter

/-! ## Offsets -/

/-- The running offset behind the fields. -/
def runningOffset (running : Nat) (raw : List FieldDef) : Nat := raw.foldl endOf running

theorem autoComputeFieldOffsets_append (running : Nat) (front rest : List FieldDef) :
    autoComputeFieldOffsets running (front ++ rest) =
      autoComputeFieldOffsets running front ++
        autoComputeFieldOffsets (runningOffset running front) rest := by
  induction front generalizing running with
  | nil => rfl
  | cons f front ih =>
    rw [cons_append, autoComputeFieldOffsets_cons, autoComputeFieldOffsets_cons, ih]
    rfl

@[simp] theorem length_autoComputeFieldOffsets (running : Nat) (raw : List FieldDef) :
    (autoComputeFieldOffsets running raw).length = raw.length := by
  induction raw generalizing running with
  | nil => rfl
  | cons f raw ih =>
    rw [autoComputeFieldOffsets_cons, length_cons, length_cons, ih]

theorem endOf_lt (running : Nat) (f : FieldDef) : endOf running f < 2 ^ 64 := usizeAdd_lt _ _

theorem runningOffset_lt {running : Nat} (h : running < 2 ^ 64) (raw : List FieldDef) :
    runningOffset running raw < 2 ^ 64 := by
  induction raw generalizing running with
  | nil => exact h
  | cons f raw ih => exact ih (endOf_lt running f)

variable {f : FieldDef} {r r' : Nat} {tags : List Tag} {rest : List FieldDef}

/-- A field without an offset keeps the distance of two running offsets. -/
theorem endOf_eq_iff (hf : f.offset = 0) (hr : r < 2 ^ 64) (hr' : r' < 2 ^ 64) :
    endOf r' f = endOf r f ↔ r' = r := by
  rw [endOf, endOf, placedAt_of_zero hf, placedAt_of_zero hf]
  unfold usizeAdd
  omega

/-- The offset of the field at a position of the list. -/
def offsetAt (fields : List FieldDef) (i : Nat) : Option Nat := fields[i]?.map FieldDef.offset

/-- The later fields without an offset attribute are where they are if the field at `i` is
deleted. -/
def TakesNoSpace (tags : List Tag) (raw : List FieldDef) (i : Nat) : Prop :=
  ∀ j e, i ≤ j → tags[j + 1]? = some e → e.number "offset" = none →
    offsetAt (autoComputeFieldOffsets 0 raw) (j + 1) =
      offsetAt (autoComputeFieldOffsets 0 (raw.eraseIdx i)) j

/-- The field ends where the fields before it end, or there are no fields without an offset
attribute before the next one that has an offset. -/
def NothingMoves (tags : List Tag) (raw : List FieldDef) (i : Nat) : Prop :=
  runningOffset 0 (raw.take (i + 1)) = runningOffset 0 (raw.take i) ∨
    ∀ p ∈ ((tags.drop (i + 1)).zip (raw.drop (i + 1))).takeWhile fun p => p.2.offset = 0,
      (p.1.number "offset").isSome

/-- A field without an offset, and those behind it. -/
theorem offsetAt_cons_iff {e : Tag} (hf : f.offset = 0) (r r' : Nat) :
    (∀ j e', (e :: tags)[j]? = some e' → e'.number "offset" = none →
      offsetAt (autoComputeFieldOffsets r' (f :: rest)) j =
        offsetAt (autoComputeFieldOffsets r (f :: rest)) j) ↔
    (e.number "offset" = none → r' = r) ∧
      ∀ j e', tags[j]? = some e' → e'.number "offset" = none →
        offsetAt (autoComputeFieldOffsets (endOf r' f) rest) j =
          offsetAt (autoComputeFieldOffsets (endOf r f) rest) j := by
  rw [autoComputeFieldOffsets_cons, autoComputeFieldOffsets_cons, placedAt_of_zero hf,
    placedAt_of_zero hf]
  constructor
  · intro h
    refine ⟨fun he => Option.some.inj (h 0 e rfl he), fun j e' he' hnone => ?_⟩
    exact h (j + 1) e' he' hnone
  · rintro ⟨hfirst, hrest⟩ j e' he' hnone
    cases j with
    | zero =>
      cases he'
      exact congrArg some (hfirst hnone)
    | succ j => exact hrest j e' he' hnone

/-- The fields behind two running offsets, by induction: up to the first one with an offset
they keep the distance. -/
theorem offsetAt_eq_iff (hlen : tags.length = rest.length) (hr : r < 2 ^ 64) (hr' : r' < 2 ^ 64) :
    (∀ j e, tags[j]? = some e → e.number "offset" = none →
      offsetAt (autoComputeFieldOffsets r' rest) j = offsetAt (autoComputeFieldOffsets r rest) j) ↔
    r' = r ∨ ∀ p ∈ (tags.zip rest).takeWhile fun p => p.2.offset = 0,
      (p.1.number "offset").isSome := by
  induction rest generalizing tags r r' with
  | nil => exact iff_of_true (fun j e _ _ => rfl) (.inr (by simp))
  | cons f rest ih =>
    cases tags with
    | nil => cases hlen
    | cons e tags =>
      have hlen' : tags.length = rest.length := Nat.succ.inj hlen
      rw [zip_cons_cons, takeWhile_cons]
      by_cases hf : f.offset = 0
      · rw [offsetAt_cons_iff hf, ih hlen' (endOf_lt r f) (endOf_lt r' f), endOf_eq_iff hf hr hr']
        simp only [hf, decide_true, if_true, forall_mem_cons, Option.isSome_iff_ne_none]
        by_cases heq : r' = r
        · exact iff_of_true ⟨fun _ => heq, .inl heq⟩ (.inl heq)
        · rw [or_iff_right heq, or_iff_right heq]
          exact and_congr_left fun _ => imp_congr_right fun _ => iff_false_intro heq
      · have hplaced : ∀ r, placedAt r f = f.offset := fun r => if_neg hf
        simp only [hf, decide_false, Bool.false_eq_true, if_false]
        refine iff_of_true (fun j e' _ _ => ?_) (.inr (by simp))
        rw [autoComputeFieldOffsets_cons, autoComputeFieldOffsets_cons, endOf, endOf, hplaced,
          hplaced]

theorem takesNoSpace_iff {raw : List FieldDef} (hlen : tags.length = raw.length) {i : Nat}
    (hi : i < raw.length) : TakesNoSpace tags raw i ↔ NothingMoves tags raw i := by
  have hzero : 0 < 2 ^ 64 := by decide
  have hdrop : (tags.drop (i + 1)).length = (raw.drop (i + 1)).length := by
    rw [length_drop, length_drop, hlen]
  have hkey := offsetAt_eq_iff hdrop (runningOffset_lt hzero (raw.take i))
    (runningOffset_lt hzero (raw.take (i + 1)))
  -- the fields from `i + 1` on, in the whole list and in the one without the field
  have hwhole : ∀ j, offsetAt (autoComputeFieldOffsets 0 raw) (i + 1 + j) =
      offsetAt (autoComputeFieldOffsets (runningOffset 0 (raw.take (i + 1)))
        (raw.drop (i + 1))) j := by
    intro j
    have hsplit := autoComputeFieldOffsets_append 0 (raw.take (i + 1)) (raw.drop (i + 1))
    rw [take_append_drop] at hsplit
    have hfront : (autoComputeFieldOffsets 0 (raw.take (i + 1))).length = i + 1 := by simp; omega
    rw [offsetAt, offsetAt, hsplit, getElem?_append_right (by omega), hfront,
      Nat.add_sub_cancel_left]
  have herased : ∀ j, offsetAt (autoComputeFieldOffsets 0 (raw.eraseIdx i)) (i + j) =
      offsetAt (autoComputeFieldOffsets (runningOffset 0 (raw.take i)) (raw.drop (i + 1))) j := by
    intro j
    have hfront : (autoComputeFieldOffsets 0 (raw.take i)).length = i := by simp; omega
    rw [offsetAt, offsetAt, eraseIdx_eq_take_drop_succ, autoComputeFieldOffsets_append,
      getElem?_append_right (by omega), hfront, Nat.add_sub_cancel_left]
  rw [NothingMoves, ← hkey]
  constructor
  · intro h j e he hnone
    rw [getElem?_drop] at he
    rw [← hwhole, ← herased, Nat.add_right_comm]
    exact h (i + j) e (Nat.le_add_right _ _) (by rwa [Nat.add_right_comm]) hnone
  · intro h j e hj he hnone
    obtain ⟨k, rfl⟩ := Nat.exists_eq_add_of_le hj
    rw [Nat.add_right_comm] at he ⊢
    rw [hwhole, herased]
    exact h k e (by rwa [getElem?_drop]) hnone

/-! ## Parsed schemas -/

/-- A constant field of a parsed schema is read as its constant and takes no space exactly
if its type is an enum of the one value that it refers to, and no field without an offset
attribute depends on its end. -/
theorem constant_field_iff {events : List Event} {schema : Schema}
    (hparse : parseSchema events = .ok schema) {fields : List FieldDef}
    (hfields : BlockOf schema fields) :
    (∃ before tags raw, ReadAs events schema before tags raw ∧
      fields = autoComputeFieldOffsets 0 raw) ∧
    ∀ before tags raw, ReadAs events schema before tags raw →
      fields = autoComputeFieldOffsets 0 raw →
      ∀ i f, fields[i]? = some f → f.presence = .constant →
        (GetterConstant schema f ∧ TakesNoSpace tags raw i ↔
          OneVariant schema f ∧ NothingMoves tags raw i) := by
  refine ⟨exists_readAs hparse hfields, fun before tags raw hread hclosed i f hf _ => ?_⟩
  have hi : i < raw.length := by
    rw [← length_autoComputeFieldOffsets 0 raw, ← hclosed]
    exact (List.getElem?_eq_some_iff.mp hf).1
  rw [getterConstant_iff fun p hp => (schemaFrom_of_parseSchema hparse).types _ hp,
    takesNoSpace_iff hread.read.length_eq hi]

/-- A message whose side is a constant. -/
def sideEvents (values : List Event) (fields : List Tag) : List Event :=
  [.start ⟨"messageSchema", [("package", "orders"), ("id", "1"), ("version", "1")]⟩,
    .start ⟨"types", []⟩,
    .start ⟨"enum", [("name", "Side"), ("encodingType", "uint8")]⟩] ++ values ++
    [.endTag, .empty ⟨"type", [("name", "Qty"), ("primitiveType", "uint32")]⟩, .endTag,
      .start ⟨"message", [("name", "Order"), ("id", "1"), ("blockLength", "5")]⟩] ++
    fields.map .empty ++ [.endTag, .endTag]

/-- The enum value `Sell`. -/
def sellValue : List Event := [.start ⟨"validValue", [("name", "Sell")]⟩, .text "2", .endTag]

/-- The enum value `Buy`. -/
def buyValue : List Event := [.start ⟨"validValue", [("name", "Buy")]⟩, .text "1", .endTag]

/-- A constant field that is `Sell`. -/
def sideTag : Tag :=
  ⟨"field", [("name", "side"), ("id", "1"), ("type", "Side"), ("presence", "constant"),
    ("valueRef", "Side.Sell")]⟩

/-- A field without an offset attribute. -/
def qtyTag : Tag := ⟨"field", [("name", "qty"), ("id", "2"), ("type", "Qty")]⟩

/-- The enum. -/
def sideEnum (values : List EnumValue) : EnumDef where
  name := "Side"
  encodingType := .uint8
  validValues := values

/-- What the parser gives. -/
def sideSchema (values : List EnumValue) (fields : List FieldDef) : Schema where
  package := "orders"
  id := 1
  version := 1
  types := [.enum (sideEnum values), .primitive { name := "Qty", primitiveType := .uint32 }]
  messages := [{ name := "Order", id := 1, blockLength := 5, fields := fields }]
  typeMap := [("Qty", 1), ("Side", 0)]

/-- The constant field, where it is placed. -/
def sideField (offset : Nat) : FieldDef :=
  { name := "side", id := 1, typeName := "Side", offset := offset, presence := .constant,
    valueRef := some "Side.Sell", encodedLength := 1 }

/-- The other field. -/
def qtyField (offset : Nat) : FieldDef :=
  { name := "qty", id := 2, typeName := "Qty", offset := offset, encodedLength := 4 }

/-- An enum of the one value. -/
def sellOnly : List EnumValue := [{ name := "Sell", value := "2" }]

/-- An enum of two values, the constant second. -/
def buyAndSell : List EnumValue :=
  [{ name := "Buy", value := "1" }, { name := "Sell", value := "2" }]

theorem mapped_sideSchema (values : List EnumValue) : Mapped (sideSchema values []) := by
  have hempty : Mapped { package := "orders", id := 1, version := 1 } := mapped_of_empty rfl rfl
  exact (hempty.addType (.enum (sideEnum values))).addType
    (.primitive { name := "Qty", primitiveType := .uint32 })

/-- The enum has the one value, and the field is the last one. -/
theorem constant_field_last :
    parseSchema (sideEvents sellValue [qtyTag, sideTag]) =
      .ok (sideSchema sellOnly [qtyField 0, sideField 4]) ∧
    GetterConstant (sideSchema sellOnly [qtyField 0, sideField 4]) (sideField 4) ∧
    TakesNoSpace [qtyTag, sideTag] [qtyField 0, sideField 0] 1 := by
  have hparse : parseSchema (sideEvents sellValue [qtyTag, sideTag]) =
      .ok (sideSchema sellOnly [qtyField 0, sideField 4]) := rfl
  refine ⟨hparse, ?_⟩
  refine ((constant_field_iff hparse (.message mem_cons_self)).2 (sideSchema sellOnly [])
    [qtyTag, sideTag] [qtyField 0, sideField 0] ⟨?_, prefix_rfl, mapped_sideSchema _,
      .cons rfl (.cons rfl .nil)⟩ rfl 1 (sideField 4) rfl rfl).mpr ⟨?_, .inr (by simp)⟩
  · simp [InText, sideEvents]
  · exact ⟨sideEnum sellOnly, ⟨"Sell", 2⟩, rfl, by decide,
      ⟨by decide, by decide, by decide, by decide⟩, rfl⟩

/-- The field refers to the second value, the getter returns the first one for a buffer of
ones, and the field behind it is moved by one byte. -/
theorem not_constant_field_sell :
    let schema := sideSchema buyAndSell [sideField 0, qtyField 1]
    parseSchema (sideEvents (buyValue ++ sellValue) [sideTag, qtyTag]) = .ok schema ∧
      validateSchema schema = .ok () ∧
      ConstantOf schema (sideField 0) (.enum ⟨"Sell", 2⟩) ∧
      (∃ a, generateFieldGetter (.fromSchema schema) (resolved schema (sideField 0)) = [a] ∧
        a.get [1, 1, 1, 1, 1] 0 = some (.enum ⟨"Buy", 1⟩)) ∧
      ¬ GetterConstant schema (sideField 0) ∧
      [sideField 0, qtyField 1] = autoComputeFieldOffsets 0 [sideField 0, qtyField 0] ∧
      ¬ TakesNoSpace [sideTag, qtyTag] [sideField 0, qtyField 0] 0 := by
  intro schema
  refine ⟨rfl, by decide, ?_, ⟨_, rfl, by decide⟩, fun h => ?_, rfl, fun h => ?_⟩
  · exact .variant (e := sideEnum buyAndSell) rfl (by decide) rfl
  · obtain ⟨e, w, hdecl, hone, -⟩ := (getterConstant_iff (by simp [schema, sideSchema])).mp h
    obtain rfl : sideEnum buyAndSell = e := TypeDef.enum.inj (Option.some.inj hdecl)
    have hlength : (Enum.variantsOf (sideEnum buyAndSell)).length = 1 := congrArg length hone
    exact absurd hlength (by decide)
  · exact absurd (h 0 qtyTag (Nat.le_refl _) rfl rfl) (by decide)

end IronSbe.Codegen
