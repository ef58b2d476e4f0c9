import IronSbe.Schema.Incremental
import IronSbe.Codegen.Fields

/-!
# Byte order

A schema text declares its byte order in an attribute of its root element.  The
parser keeps it in the schema; the intermediate representation has no place for it,
and every setter writes little-endian.

* `declaredOrder`: the byte order that a text declares.
* `byteOrder_of_parseSchema`: the parser keeps it.
* `written_iff`: when a setter writes a number in the declared order.
-/

namespace IronSbe.Codegen

open IronSbe.Core IronSbe.Schema Lib.Slice

/-! ## The declared order -/

/-- The attribute `byteOrder` of a tag; the default is little-endian. -/
def byteOrderOf (e : Tag) : ByteOrder :=
  e.attributes.foldl (fun order (key, value) =>
    if key = "byteOrder" then (ByteOrder.parse value).getD order else order) .littleEndian

/-- The tag of a schema element that the loop of `parse_schema` reads. -/
def schemaTag? : ParseLoop → Event → Option Tag
  | .schema _, .start e =>
    if e.name = "messageSchema" ∨ e.name = "sbe:messageSchema" then some e else none
  | _, _ => none

/-- The last tag of a schema element. -/
def declaringTag : ParseLoop → List Event → Option Tag
  | _, [] => none
  | loop, event :: rest => (declaringTag (loop.next event) rest).or (schemaTag? loop event)

/-- The byte order that a text declares. -/
def declaredOrder (events : List Event) : ByteOrder :=
  ((declaringTag (.schema false) events).map byteOrderOf).getD .littleEndian

/-! ## Parsing -/

variable {schema : Schema} {s : ParseState} {event : Event} {buf buf' : Buffer} {pos : Nat}

theorem byteOrder_of_parseMessageSchema {e : Tag} (h : parseMessageSchema e = .ok schema) :
    schema.byteOrder = byteOrderOf e := by
  refine Lib.Fallible.project_of_foldlM Schema.byteOrder (fun s attr s' hs => ?_) h
  obtain ⟨key, value⟩ := attr
  dsimp only at hs ⊢
  split at hs
  · cases hs
    rfl
  · obtain ⟨id, -, hs⟩ := Lib.Fallible.bind_eq_ok hs
    cases hs
    rfl
  · obtain ⟨version, -, hs⟩ := Lib.Fallible.bind_eq_ok hs
    cases hs
    rfl
  · cases hs
    rfl
  · cases hs
    rfl
  · obtain ⟨order, horder, hs⟩ := Lib.Fallible.bind_eq_ok hs
    cases hs
    rw [if_pos rfl, eq_some_of_orInvalid horder, Option.getD_some]
  · cases hs
    rfl
  · rename_i hother _
    cases hs
    rw [if_neg hother]

/-- The byte order of the schema that is being parsed. -/
def orderAt (s : ParseState) : Option ByteOrder := s.result.map Schema.byteOrder

theorem orderAt_close (s : ParseState) : orderAt s.close = orderAt s := by
  rw [orderAt, orderAt, ParseState.result_close]

theorem schemaTag?_eq_none
    (h : ∀ old e, s = .outside old → event = .start e →
      ¬ (e.name = "messageSchema" ∨ e.name = "sbe:messageSchema")) :
    schemaTag? s.loop event = none := by
  cases s with
  | outside old =>
    cases event with
    | start e => exact if_neg (h old e rfl rfl)
    | _ => rfl
  | _ => rfl

/-- Only the tag of a schema element changes the byte order. -/
theorem orderAt_of_moves {s' : ParseState} (h : s.Moves event s') :
    orderAt s' = ((schemaTag? s.loop event).map byteOrderOf).or (orderAt s) := by
  cases h with
  | skip hno =>
    rw [schemaTag?_eq_none hno]
    rfl
  | @openSchema old schema e hname hparse =>
    have htag : schemaTag? (ParseState.outside old).loop (.start e) = some e := if_pos hname
    rw [htag]
    exact congrArg some (byteOrder_of_parseMessageSchema hparse)
  | @openTypes schema e hname =>
    have htag : schemaTag? (ParseState.outside (some schema)).loop (.start e) = none :=
      if_neg (by rw [hname]; decide)
    rw [htag]
    rfl
  | @openMessage schema e m hname _ =>
    have htag : schemaTag? (ParseState.outside (some schema)).loop (.start e) = none := by
      refine if_neg ?_
      rcases hname with hname | hname <;> rw [hname] <;> decide
    rw [htag]
    rfl
  | close =>
    rw [schemaTag?_eq_none (by rintro _ _ _ ⟨⟩), orderAt_close]
    rfl
  | _ => rfl

theorem orderAt_of_foldlM {events : List Event} {s' : ParseState}
    (h : events.foldlM ParseState.step s = .ok s') :
    orderAt s' = ((declaringTag s.loop events).map byteOrderOf).or (orderAt s) := by
  induction events generalizing s with
  | nil =>
    cases h
    rfl
  | cons event rest ih =>
    rw [List.foldlM_cons] at h
    obtain ⟨mid, hmid, hrest⟩ := Lib.Fallible.bind_eq_ok h
    rw [ih hrest, orderAt_of_moves (ParseState.moves_of_step hmid),
      (s.yields_step event).loop_eq mid hmid, declaringTag]
    cases declaringTag (s.loop.next event) rest with
    | none | some e => rfl

/-- The parser keeps the byte order that the text declares. -/
theorem byteOrder_of_parseSchema {events : List Event} (h : parseSchema events = .ok schema) :
    schema.byteOrder = declaredOrder events := by
  obtain ⟨s, hs, hresult⟩ := run_of_parseSchema h
  have horder := orderAt_of_foldlM hs
  have hnone : orderAt (.outside none) = none := rfl
  have hloop : (ParseState.outside none).loop = .schema false := rfl
  rw [orderAt, hresult, hnone, hloop, Option.or_none] at horder
  rw [declaredOrder, ← horder, Option.map_some, Option.getD_some]

/-! ## Setters -/

/-- The groups of a list and the groups nested in them. -/
inductive GroupWithin : List ResolvedGroup → ResolvedGroup → Prop where
  | here {groups : List ResolvedGroup} {g : ResolvedGroup} : g ∈ groups → GroupWithin groups g
  | nested {groups : List ResolvedGroup} {g g' : ResolvedGroup} : g ∈ groups →
    GroupWithin g.nestedGroups g' → GroupWithin groups g'

/-- The setters that are generated for a schema: of the root fields of its messages and of
the entry fields of their groups, and for composites of their members. -/
inductive Generated (schema : Schema) (a : Accessor) : Prop where
  | root {m : ResolvedMessage} {f : ResolvedField} : m ∈ (SchemaIr.fromSchema schema).messages →
    f ∈ m.fields → a ∈ generateFieldSetter (.fromSchema schema) f → Generated schema a
  | entry {m : ResolvedMessage} {g : ResolvedGroup} {f : ResolvedField} :
    m ∈ (SchemaIr.fromSchema schema).messages → GroupWithin m.groups g → f ∈ g.fields →
    a ∈ generateEntryFieldSetter (.fromSchema schema) f → Generated schema a

/-- The number that a setter writes for a value; arrays of bytes are not numbers. -/
def View.number : View → FieldValue → Option Scalar
  | .scalar _, .scalar v => some v
  | .enumeration encoding _, .enum v => some (.ofInt encoding.rustType v.value)
  | .bitset _, .set raw => some raw
  | _, _ => none

/-- The bytes of a number in a byte order. -/
def bytesIn (v : Scalar) : ByteOrder → List UInt8
  | .littleEndian => v.bytes
  | .bigEndian => v.bytes.reverse

theorem blit_of_putTyped {t : RustType} {v : Scalar} (h : putTyped t buf pos v = some buf') :
    blit buf pos v.bytes = some buf' := by
  unfold putTyped at h
  split_ifs at h
  exact h

/-- A setter writes the little-endian bytes of the number. -/
theorem View.blit_of_set {view : View} {value : FieldValue} {number : Scalar}
    (hset : view.set buf pos value = some buf') (hnumber : view.number value = some number) :
    blit buf pos number.bytes = some buf' := by
  cases view <;> cases value <;> simp only [View.number, Option.some.injEq, reduceCtorEq] at hnumber
  case scalar.scalar prim v =>
    subst hnumber
    rw [View.set, getWriteMethod_eq] at hset
    exact blit_of_putTyped hset
  case enumeration.enum encoding variants v =>
    subst hnumber
    rw [View.set, getWriteMethod_eq] at hset
    split_ifs at hset
    exact blit_of_putTyped hset
  case bitset.set encoding raw =>
    subst hnumber
    rw [View.set, getWriteMethod_eq] at hset
    exact blit_of_putTyped hset

theorem bytes_eq_bytesIn_iff (v : Scalar) (order : ByteOrder) :
    v.bytes = bytesIn v order ↔ order = .littleEndian ∨ v.bytes.reverse = v.bytes := by
  cases order with
  | littleEndian => exact iff_of_true rfl (.inl rfl)
  | bigEndian => exact ⟨fun h => .inr h.symm, fun h => (h.resolve_left nofun).symm⟩

/-- The parser keeps the byte order that a text declares, and a setter of a field of more
than one byte writes the bytes of a number in that order exactly if the order is
little-endian or the bytes are the same from both ends. -/
theorem written_iff {events : List Event} {schema : Schema} (h : parseSchema events = .ok schema) :
    schema.byteOrder = declaredOrder events ∧
      ∀ a : Accessor, Generated schema a → ∀ (value : FieldValue) (number : Scalar),
        a.view.number value = some number → 1 < number.type.size →
        ∀ (buf buf' : Buffer) (base : Nat), a.set buf base value = some buf' →
        (slice buf' (base + a.offset) (base + a.offset + number.type.size) =
            some (bytesIn number (declaredOrder events)) ↔
          declaredOrder events = .littleEndian ∨ number.bytes.reverse = number.bytes) := by
  refine ⟨byteOrder_of_parseSchema h, fun a _ value number hnumber _ buf buf' base hset => ?_⟩
  have hwritten := slice_of_blit (View.blit_of_set hset hnumber)
  rw [Scalar.length_bytes] at hwritten
  rw [hwritten, Option.some.injEq]
  exact bytes_eq_bytesIn_iff number _

/-- A message with one field of type `uint16`. -/
def priceDocument (byteOrder : String) : List Event :=
  [.start ⟨"messageSchema", [("byteOrder", byteOrder)]⟩, .start ⟨"message", [("blockLength", "2")]⟩,
    .empty ⟨"field", [("name", "price"), ("type", "uint16")]⟩, .endTag, .endTag]

/-- What the parser gives for it. -/
def priceSchema (byteOrder : ByteOrder) : Schema where
  package := ""
  id := 0
  version := 0
  byteOrder := byteOrder
  messages :=
    [{ name := "", id := 0, blockLength := 2,
       fields := [{ name := "price", id := 0, typeName := "uint16", offset := 0 }] }]

/-- The setter of its field. -/
def priceSetter : Accessor := ⟨8, .scalar (some .uint16)⟩

theorem generated_priceSetter (byteOrder : ByteOrder) :
    Generated (priceSchema byteOrder) priceSetter :=
  .root (List.mem_singleton.mpr rfl) (List.mem_singleton.mpr rfl)
    (by cases byteOrder <;> decide)

/-- If the text declares little-endian, the number is written in the declared order. -/
theorem written_price :
    let price : Scalar := .ofUInt16 258
    slice [0, 0, 0, 0, 0, 0, 0, 0, 2, 1] 8 10 =
      some (bytesIn price (declaredOrder (priceDocument "littleEndian"))) := by
  intro price
  have hparse : parseSchema (priceDocument "littleEndian") = .ok (priceSchema .littleEndian) := rfl
  exact ((written_iff hparse).2 priceSetter (generated_priceSetter _) (.scalar price) price rfl
    (by decide) (List.replicate 10 0) _ 0 (by decide)).mpr (.inl (by decide))

/-- The text declares big-endian, and the number 258 is written as 2, 1. -/
theorem written_little_endian :
    let price : Scalar := .ofUInt16 258
    parseSchema (priceDocument "bigEndian") = .ok (priceSchema .bigEndian) ∧
      declaredOrder (priceDocument "bigEndian") = .bigEndian ∧
      Generated (priceSchema .bigEndian) priceSetter ∧
      priceSetter.set (List.replicate 10 0) 0 (.scalar price) =
        some [0, 0, 0, 0, 0, 0, 0, 0, 2, 1] ∧
      bytesIn price .bigEndian = [1, 2] := by
  refine ⟨by rfl, by decide, generated_priceSetter _, by decide, by decide⟩

end IronSbe.Codegen
