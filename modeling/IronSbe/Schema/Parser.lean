import IronSbe.Lib.EventLoop
import IronSbe.Schema.Xml

/-!
# The schema parser

`parse_schema` is a set of loops that call each other and share one reader.
Every loop looks at the next event and decides by the name of the tag; what it
does not know it passes over.  Which element an `End` event closes is not looked
at: it ends the loop that reads it.

The reader is the list of the events still to come.  A `do` block is a loop body
or a function of the source, `loop` is `loop { match reader.read_event_into … }`.
-/

namespace IronSbe.Schema

open Lib.EventLoop

/-- The shared reader. -/
abbrev XmlReader := Reader Event ParseError

/-! ## Types -/

/-- The loop of `parse_primitive_type`. -/
def primitiveTypeStep (t : PrimitiveDef) : Event → XmlReader (ForInStep PrimitiveDef)
  | .text content =>
    let text := trim content
    pure (.yield (if text = "" then t else { t with constantValue := some text }))
  | .endTag => pure (.done t)
  | .err message => throw (.xml message)
  | _ => pure (.yield t)

/-- `parse_primitive_type`. -/
def parsePrimitiveType (e : Tag) : XmlReader PrimitiveDef := do
  let typeDef ← parsePrimitiveTypeEmpty e
  loop primitiveTypeStep typeDef

/-- The loop of `parse_composite`, with `current_offset`. -/
def compositeStep (s : CompositeDef × Nat) : Event → XmlReader (ForInStep (CompositeDef × Nat))
  | .start e | .empty e =>
    if e.name = "type" then do
      let field ← parseCompositeField e s.2
      pure (.yield ({ s.1 with fields := s.1.fields ++ [field] }, s.2 + field.encodedLength))
    else pure (.yield s)
  | .endTag => pure (.done s)
  | .err message => throw (.xml message)
  | _ => pure (.yield s)

/-- `parse_composite`. -/
def parseComposite (e : Tag) : XmlReader CompositeDef := do
  let s ← loop compositeStep (parseCompositeAttributes e, 0)
  pure s.1

/-- The loop of `parse_enum_value`. -/
def enumValueStep (v : EnumValue) : Event → XmlReader (ForInStep EnumValue)
  | .text content => pure (.yield { v with value := trim content })
  | .endTag => pure (.done v)
  | .err message => throw (.xml message)
  | _ => pure (.yield v)

/-- `parse_enum_value`. -/
def parseEnumValue (e : Tag) : XmlReader EnumValue :=
  loop enumValueStep (parseEnumValueAttributes e)

/-- The loop of `parse_enum`. -/
def enumStep (d : EnumDef) : Event → XmlReader (ForInStep EnumDef)
  | .start e | .empty e =>
    if e.name = "validValue" then do
      let value ← parseEnumValue e
      pure (.yield { d with validValues := d.validValues ++ [value] })
    else pure (.yield d)
  | .endTag => pure (.done d)
  | .err message => throw (.xml message)
  | _ => pure (.yield d)

/-- `parse_enum`. -/
def parseEnum (e : Tag) : XmlReader EnumDef := do
  let enumDef ← parseEnumAttributes e
  loop enumStep enumDef

/-- The loop of `parse_set_choice`. -/
def setChoiceStep (c : SetChoice) : Event → XmlReader (ForInStep SetChoice)
  | .text content => do
    let text := trim content
    let bitPosition ← orInvalid "choice" "value" text (parseU8 text)
    pure (.yield { c with bitPosition := bitPosition })
  | .endTag => pure (.done c)
  | .err message => throw (.xml message)
  | _ => pure (.yield c)

/-- `parse_set_choice`. -/
def parseSetChoice (e : Tag) : XmlReader SetChoice :=
  loop setChoiceStep (parseSetChoiceAttributes e)

/-- The loop of `parse_set`. -/
def setStep (d : SetDef) : Event → XmlReader (ForInStep SetDef)
  | .start e | .empty e =>
    if e.name = "choice" then do
      let choice ← parseSetChoice e
      pure (.yield { d with choices := d.choices ++ [choice] })
    else pure (.yield d)
  | .endTag => pure (.done d)
  | .err message => throw (.xml message)
  | _ => pure (.yield d)

/-- `parse_set`. -/
def parseSet (e : Tag) : XmlReader SetDef := do
  let setDef ← parseSetAttributes e
  loop setStep setDef

/-- The loop of `parse_types`, with the number of open elements.  The functions
that it calls read the `End` of their element, so `depth` is left as it is. -/
def typesStep (s : Schema × Nat) : Event → XmlReader (ForInStep (Schema × Nat))
  | .start e =>
    match e.name with
    | "type" => do
      let typeDef ← parsePrimitiveType e
      pure (.yield (s.1.addType (.primitive typeDef), s.2))
    | "composite" => do
      let composite ← parseComposite e
      pure (.yield (s.1.addType (.composite composite), s.2))
    | "enum" => do
      let enumDef ← parseEnum e
      pure (.yield (s.1.addType (.enum enumDef), s.2))
    | "set" => do
      let setDef ← parseSet e
      pure (.yield (s.1.addType (.set setDef), s.2))
    | _ => pure (.yield (s.1, s.2 + 1))
  | .empty e =>
    if e.name = "type" then do
      let typeDef ← parsePrimitiveTypeEmpty e
      pure (.yield (s.1.addType (.primitive typeDef), s.2))
    else pure (.yield s)
  | .endTag =>
    let depth := s.2 - 1
    pure (if depth = 0 then .done (s.1, depth) else .yield (s.1, depth))
  | .err message => throw (.xml message)
  | _ => pure (.yield s)

/-- `parse_types`. -/
def parseTypes (schema : Schema) : XmlReader Schema := do
  let s ← loop typesStep (schema, 1)
  pure s.1

/-! ## Messages -/

/-- `auto_compute_field_offsets`, from `running_offset` on. -/
def autoComputeFieldOffsets : Nat → List FieldDef → List FieldDef
  | _, [] => []
  | running, field :: rest =>
    let field := if 0 < running ∧ field.offset = 0 then { field with offset := running } else field
    field :: autoComputeFieldOffsets (usizeAdd field.offset field.encodedLength) rest

/-- What `parse_message` and `parse_group` collect. -/
structure Block where
  fields : List FieldDef := []
  groups : List GroupDef := []
  dataFields : List DataFieldDef := []

namespace Block

/-- Append a field. -/
def addField (b : Block) (field : FieldDef) : Block := { b with fields := b.fields ++ [field] }

/-- Append a group. -/
def addGroup (b : Block) (group : GroupDef) : Block := { b with groups := b.groups ++ [group] }

/-- Append a data field. -/
def addDataField (b : Block) (data : DataFieldDef) : Block :=
  { b with dataFields := b.dataFields ++ [data] }

/-- The group with these contents. -/
def toGroup (b : Block) (g : GroupDef) : GroupDef :=
  { g with
    fields := autoComputeFieldOffsets 0 b.fields
    nestedGroups := b.groups
    dataFields := b.dataFields }

/-- The message with these contents. -/
def toMessage (b : Block) (m : MessageDef) : MessageDef :=
  { m with
    fields := autoComputeFieldOffsets 0 b.fields
    groups := b.groups
    dataFields := b.dataFields }

end Block

/-- The loop of `parse_message` and of `parse_group`. -/
def blockStep (schema : Schema) (parseGroup : Tag → XmlReader GroupDef) (b : Block) :
    Event → XmlReader (ForInStep Block)
  | .start e | .empty e =>
    if e.name = "field" then do
      let field ← parseField e schema
      pure (.yield (b.addField field))
    else if e.name = "group" then do
      let group ← parseGroup e
      pure (.yield (b.addGroup group))
    else if e.name = "data" then do
      let data ← parseDataField e
      pure (.yield (b.addDataField data))
    else pure (.yield b)
  | .endTag => pure (.done b)
  | .err message => throw (.xml message)
  | _ => pure (.yield b)

/-- `parse_group`, for groups nested at most `depth` deep; without events left
there is nothing to be nested. -/
def parseGroupN (schema : Schema) : Nat → Tag → XmlReader GroupDef
  | 0, e => do
    let group ← parseGroupAttributes e
    pure (Block.toGroup {} group)
  | depth + 1, e => do
    let group ← parseGroupAttributes e
    let b ← loop (blockStep schema (parseGroupN schema depth)) {}
    pure (b.toGroup group)

/-- `parse_group`. -/
def parseGroup (schema : Schema) (e : Tag) : XmlReader GroupDef :=
  fun events => parseGroupN schema events.length e events

/-- `parse_message`. -/
def parseMessage (schema : Schema) (e : Tag) : XmlReader MessageDef := do
  let msg ← parseMessageAttributes e
  let b ← loop (blockStep schema (parseGroup schema)) {}
  pure (b.toMessage msg)

/-! ## The schema -/

/-- The loop of `parse_schema`. -/
def schemaStep (schema : Option Schema) : Event → XmlReader (ForInStep (Option Schema))
  | .start e =>
    match e.name, schema with
    | "messageSchema", _ | "sbe:messageSchema", _ => do
      let schema ← parseMessageSchema e
      pure (.yield (some schema))
    | "types", some schema => do
      let schema ← parseTypes schema
      pure (.yield (some schema))
    | "message", some schema | "sbe:message", some schema => do
      let msg ← parseMessage schema e
      pure (.yield (some { schema with messages := schema.messages ++ [msg] }))
    | _, _ => pure (.yield schema)
  | .err message => throw (.xml message)
  | _ => pure (.yield schema)

/-- `parse_schema` on the events of the text. -/
def parseSchema (events : List Event) : Except ParseError Schema := do
  let (schema, _) ← loop schemaStep none events
  match schema with
  | some schema => .ok schema
  | none => .error (.invalidStructure "No messageSchema element found")

end IronSbe.Schema
