import IronSbe.Lib.Fallible
import IronSbe.Schema.Types

/-!
# Elements of a schema text

What the parser reads off one tag.  The reader of the XML text delivers events;
a tag comes with its name and the attributes that could be read, with their
values as they stand in the text.  Every function here goes through the
attributes in order, so a later attribute overrides an earlier one of the same
name and the first value that does not parse is the error.
-/

namespace IronSbe.Schema

/-! ## Events -/

/-- An attribute, its key first. -/
abbrev Attribute := String × String

/-- `BytesStart`: an opening or self-closing tag. -/
structure Tag where
  name : String
  attributes : List Attribute
  deriving DecidableEq, Repr

/-- What the reader delivers.  `other` is an event that no loop looks at, such as
a comment or a declaration, and the end of the list is `Eof`. -/
inductive Event where
  | start (tag : Tag)
  | empty (tag : Tag)
  | endTag
  | text (content : String)
  | other
  | err (message : String)
  deriving DecidableEq, Repr

/-- `ParseError`, with the variants that the parser returns. -/
inductive ParseError where
  | xml (message : String)
  | missingAttribute (element attr : String)
  | invalidAttribute (element attr value : String)
  | invalidStructure (message : String)
  deriving DecidableEq, Repr

/-! ## Values of attributes -/

/-- `char::is_whitespace`. -/
def isWhitespace (c : Char) : Bool :=
  let n := c.toNat
  (0x09 ≤ n && n ≤ 0x0D) || n == 0x20 || n == 0x85 || n == 0xA0 || n == 0x1680 ||
    (0x2000 ≤ n && n ≤ 0x200A) || n == 0x2028 || n == 0x2029 || n == 0x202F || n == 0x205F ||
    n == 0x3000

/-- `str::trim`. -/
def trim (s : String) : String :=
  .ofList ((s.toList.dropWhile isWhitespace).reverse.dropWhile isWhitespace).reverse

/-- `str::to_lowercase`, for comparison with words of plain letters. -/
def toLowercase (s : String) : String := .ofList (s.toList.map Char.toLower)

/-- `ByteOrder::parse`. -/
def ByteOrder.parse (s : String) : Option ByteOrder :=
  match toLowercase s with
  | "littleendian" | "little-endian" | "le" => some .littleEndian
  | "bigendian" | "big-endian" | "be" => some .bigEndian
  | _ => none

/-- `Presence::parse`. -/
def Presence.parse (s : String) : Option Presence :=
  match toLowercase s with
  | "required" => some .required
  | "optional" => some .optional
  | "constant" => some .constant
  | _ => none

/-- `ParseError::invalid_attr` for a value that does not parse. -/
def orInvalid {α : Type} (element attr value : String) : Option α → Except ParseError α
  | some a => .ok a
  | none => .error (.invalidAttribute element attr value)

/-- `ParseError::missing_attr` for a value that was not given. -/
def orMissing {α : Type} (element attr : String) : Option α → Except ParseError α
  | some a => .ok a
  | none => .error (.missingAttribute element attr)

theorem eq_some_of_orInvalid {α : Type} {element attr value : String} {x : Option α} {a : α}
    (h : orInvalid element attr value x = .ok a) : x = some a := by
  cases x with
  | none => cases h
  | some b => rw [Except.ok.inj h]

theorem eq_some_of_orMissing {α : Type} {element attr : String} {x : Option α} {a : α}
    (h : orMissing element attr x = .ok a) : x = some a := by
  cases x with
  | none => cases h
  | some b => rw [Except.ok.inj h]

/-! ## The schema and its types -/

/-- `parse_message_schema`. -/
def parseMessageSchema (e : Tag) : Except ParseError Schema :=
  e.attributes.foldlM (fun s (key, value) =>
    match key with
    | "package" => .ok { s with package := value }
    | "id" => do .ok { s with id := ← orInvalid "messageSchema" "id" value (parseU16 value) }
    | "version" => do
      .ok { s with version := ← orInvalid "messageSchema" "version" value (parseU16 value) }
    | "semanticVersion" => .ok { s with semanticVersion := value }
    | "description" => .ok { s with description := some value }
    | "byteOrder" => do
      let order ← orInvalid "messageSchema" "byteOrder" value (ByteOrder.parse value)
      .ok { s with byteOrder := order }
    | "headerType" => .ok { s with headerType := value }
    | _ => .ok s) { package := "", id := 0, version := 0 }

/-- The local variables of `parse_primitive_type_empty`. -/
structure TypeAttributes where
  name : String := ""
  primitiveType : Option PrimitiveType := none
  length : Option UInt64 := none
  nullValue : Option String := none
  minValue : Option String := none
  maxValue : Option String := none
  characterEncoding : Option String := none
  semanticType : Option String := none
  description : Option String := none

/-- `parse_primitive_type_empty`. -/
def parsePrimitiveTypeEmpty (e : Tag) : Except ParseError PrimitiveDef := do
  let attrs ← e.attributes.foldlM (fun (t : TypeAttributes) (key, value) =>
    match key with
    | "name" => .ok { t with name := value }
    | "primitiveType" => do
      let prim ← orInvalid "type" "primitiveType" value (PrimitiveType.fromSbeName value)
      .ok { t with primitiveType := some prim }
    | "length" => do
      let length ← orInvalid "type" "length" value (parseUsize value)
      .ok { t with length := some (.ofNat length) }
    | "nullValue" => .ok { t with nullValue := some value }
    | "minValue" => .ok { t with minValue := some value }
    | "maxValue" => .ok { t with maxValue := some value }
    | "characterEncoding" => .ok { t with characterEncoding := some value }
    | "semanticType" => .ok { t with semanticType := some value }
    | "description" => .ok { t with description := some value }
    | _ => .ok t) {}
  let primitiveType ← orMissing "type" "primitiveType" attrs.primitiveType
  .ok
    { name := attrs.name
      primitiveType := primitiveType
      length := attrs.length
      nullValue := attrs.nullValue
      minValue := attrs.minValue
      maxValue := attrs.maxValue
      characterEncoding := attrs.characterEncoding
      semanticType := attrs.semanticType
      description := attrs.description }

/-- The attributes of `parse_composite`. -/
def parseCompositeAttributes (e : Tag) : CompositeDef :=
  e.attributes.foldl (fun c (key, value) =>
    match key with
    | "name" => { c with name := value }
    | "description" => { c with description := some value }
    | "semanticType" => { c with semanticType := some value }
    | _ => c) { name := "" }

/-- The local variables of `parse_composite_field`. -/
structure MemberAttributes where
  name : String := ""
  primitiveType : Option PrimitiveType := none
  offset : Option Nat := none
  semanticType : Option String := none
  description : Option String := none

/-- `parse_composite_field`. -/
def parseCompositeField (e : Tag) (defaultOffset : Nat) : Except ParseError CompositeField := do
  let attrs ← e.attributes.foldlM (fun (f : MemberAttributes) (key, value) =>
    match key with
    | "name" => .ok { f with name := value }
    | "primitiveType" => do
      let prim ← orInvalid "type" "primitiveType" value (PrimitiveType.fromSbeName value)
      .ok { f with primitiveType := some prim }
    | "offset" => do
      let offset ← orInvalid "type" "offset" value (parseUsize value)
      .ok { f with offset := some offset }
    | "semanticType" => .ok { f with semanticType := some value }
    | "description" => .ok { f with description := some value }
    | _ => .ok f) {}
  let prim ← orMissing "type" "primitiveType" attrs.primitiveType
  .ok
    { name := attrs.name
      typeName := prim.sbeName
      primitiveType := some prim
      offset := attrs.offset.or (some defaultOffset)
      encodedLength := prim.size
      semanticType := attrs.semanticType
      description := attrs.description }

/-- The local variables of `parse_enum`. -/
structure EnumAttributes where
  name : String := ""
  encodingType : Option PrimitiveType := none
  nullValue : Option String := none
  description : Option String := none

/-- The attributes of `parse_enum`. -/
def parseEnumAttributes (e : Tag) : Except ParseError EnumDef := do
  let attrs ← e.attributes.foldlM (fun (d : EnumAttributes) (key, value) =>
    match key with
    | "name" => .ok { d with name := value }
    | "encodingType" => do
      let prim ← orInvalid "enum" "encodingType" value (PrimitiveType.fromSbeName value)
      .ok { d with encodingType := some prim }
    | "nullValue" => .ok { d with nullValue := some value }
    | "description" => .ok { d with description := some value }
    | _ => .ok d) {}
  let encodingType ← orMissing "enum" "encodingType" attrs.encodingType
  .ok
    { name := attrs.name
      encodingType := encodingType
      nullValue := attrs.nullValue
      description := attrs.description }

/-- The attributes of `parse_enum_value`. -/
def parseEnumValueAttributes (e : Tag) : EnumValue :=
  e.attributes.foldl (fun v (key, value) =>
    match key with
    | "name" => { v with name := value }
    | "description" => { v with description := some value }
    | "sinceVersion" => { v with sinceVersion := parseU16 value }
    | "deprecated" => { v with deprecated := parseU16 value }
    | _ => v) { name := "", value := "" }

/-- The local variables of `parse_set`. -/
structure SetAttributes where
  name : String := ""
  encodingType : Option PrimitiveType := none
  description : Option String := none

/-- The attributes of `parse_set`. -/
def parseSetAttributes (e : Tag) : Except ParseError SetDef := do
  let attrs ← e.attributes.foldlM (fun (d : SetAttributes) (key, value) =>
    match key with
    | "name" => .ok { d with name := value }
    | "encodingType" => do
      let prim ← orInvalid "set" "encodingType" value (PrimitiveType.fromSbeName value)
      .ok { d with encodingType := some prim }
    | "description" => .ok { d with description := some value }
    | _ => .ok d) {}
  let encodingType ← orMissing "set" "encodingType" attrs.encodingType
  .ok { name := attrs.name, encodingType := encodingType, description := attrs.description }

/-- The attributes of `parse_set_choice`. -/
def parseSetChoiceAttributes (e : Tag) : SetChoice :=
  e.attributes.foldl (fun c (key, value) =>
    match key with
    | "name" => { c with name := value }
    | "description" => { c with description := some value }
    | "sinceVersion" => { c with sinceVersion := parseU16 value }
    | "deprecated" => { c with deprecated := parseU16 value }
    | _ => c) { name := "", bitPosition := 0 }

/-! ## Messages -/

/-- The attributes of `parse_message`. -/
def parseMessageAttributes (e : Tag) : Except ParseError MessageDef :=
  e.attributes.foldlM (fun m (key, value) =>
    match key with
    | "name" => .ok { m with name := value }
    | "id" => do .ok { m with id := ← orInvalid "message" "id" value (parseU16 value) }
    | "blockLength" => do
      .ok { m with blockLength := ← orInvalid "message" "blockLength" value (parseU16 value) }
    | "semanticType" => .ok { m with semanticType := some value }
    | "description" => .ok { m with description := some value }
    | "sinceVersion" => .ok { m with sinceVersion := parseU16 value }
    | "deprecated" => .ok { m with deprecated := parseU16 value }
    | _ => .ok m) { name := "", id := 0, blockLength := 0 }

/-- The attributes of `parse_group`. -/
def parseGroupAttributes (e : Tag) : Except ParseError GroupDef :=
  e.attributes.foldlM (fun g (key, value) =>
    match key with
    | "name" => .ok { g with name := value }
    | "id" => do .ok { g with id := ← orInvalid "group" "id" value (parseU16 value) }
    | "blockLength" => do
      .ok { g with blockLength := ← orInvalid "group" "blockLength" value (parseU16 value) }
    | "dimensionType" => .ok { g with dimensionType := value }
    | "description" => .ok { g with description := some value }
    | "sinceVersion" => .ok { g with sinceVersion := parseU16 value }
    | "deprecated" => .ok { g with deprecated := parseU16 value }
    | _ => .ok g) { name := "", id := 0, blockLength := 0 }

/-- The attributes of `parse_field`. -/
def parseFieldAttributes (e : Tag) : Except ParseError FieldDef :=
  e.attributes.foldlM (fun f (key, value) =>
    match key with
    | "name" => .ok { f with name := value }
    | "id" => do .ok { f with id := ← orInvalid "field" "id" value (parseU16 value) }
    | "type" => .ok { f with typeName := value }
    | "offset" => do
      .ok { f with offset := ← orInvalid "field" "offset" value (parseUsize value) }
    | "presence" => do
      .ok { f with presence := ← orInvalid "field" "presence" value (Presence.parse value) }
    | "semanticType" => .ok { f with semanticType := some value }
    | "description" => .ok { f with description := some value }
    | "sinceVersion" => .ok { f with sinceVersion := parseU16 value }
    | "deprecated" => .ok { f with deprecated := parseU16 value }
    | "valueRef" => .ok { f with valueRef := some value }
    | _ => .ok f) { name := "", id := 0, typeName := "", offset := 0 }

/-- The length that a field of type `name` gets while it is parsed. -/
def lengthAtParse (schema : Schema) (name : String) : Nat :=
  match schema.getType name with
  | some typeDef => typeDef.encodedLength
  | none => 0

/-- `parse_field`. -/
def parseField (e : Tag) (schema : Schema) : Except ParseError FieldDef := do
  let field ← parseFieldAttributes e
  .ok { field with encodedLength := lengthAtParse schema field.typeName }

/-- `parse_data_field`. -/
def parseDataField (e : Tag) : Except ParseError DataFieldDef :=
  e.attributes.foldlM (fun d (key, value) =>
    match key with
    | "name" => .ok { d with name := value }
    | "id" => do .ok { d with id := ← orInvalid "data" "id" value (parseU16 value) }
    | "type" => .ok { d with typeName := value }
    | "description" => .ok { d with description := some value }
    | "sinceVersion" => .ok { d with sinceVersion := parseU16 value }
    | "deprecated" => .ok { d with deprecated := parseU16 value }
    | _ => .ok d) { name := "", id := 0, typeName := "" }

/-- A field has the length that its type has while the field is parsed. -/
theorem encodedLength_of_parseField {e : Tag} {schema : Schema} {field : FieldDef}
    (h : parseField e schema = .ok field) :
    field.encodedLength = lengthAtParse schema field.typeName := by
  obtain ⟨f, -, hfield⟩ := Lib.Fallible.bind_eq_ok h
  cases hfield
  rfl

end IronSbe.Schema
