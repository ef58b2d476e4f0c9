import IronSbe.Schema.Incremental

/-!
# Schema documents

The element tree of a schema text, with the spelling of every childless element:
`<x/>` or `<x></x>`.  `Document.events` is what the reader delivers for it, and
`Document.schema` is what the tree says, whatever the spelling: all types, enum
values, choices, messages, groups and fields in order, each under its own parent.

The parser expects one spelling of every kind of element.

* `ElementKind.canonical`: this spelling.
* `Document.Follows`: all childless elements are spelled as a convention permits.
* `parseSchema_iff_canonical`: the parser reads all documents that follow a
  convention exactly when the convention permits no other spelling.
-/

namespace IronSbe.Schema

open Lib.Fallible ParseState List

/-! ## Elements -/

/-- The form of a childless element. -/
inductive Spelling where
  | selfClosing | paired
  deriving DecidableEq, Repr

/-- What the reader delivers for a childless element. -/
def Spelling.events (e : Tag) : Spelling → List Event
  | .selfClosing => [.empty e]
  | .paired => [.start e, .endTag]

/-- The kinds of childless elements that are spelled in two ways. -/
inductive ElementKind where
  | field | data | member | group | validValue | choice
  deriving DecidableEq, Repr

/-- An element without children: with a text, or empty. -/
inductive Content where
  | text (content : String)
  | childless (spelling : Spelling)
  deriving DecidableEq, Repr

/-- What the reader delivers for an element without child elements. -/
def Content.events (e : Tag) : Content → List Event
  | .text content => [.start e, .text content, .endTag]
  | .childless spelling => spelling.events e

/-- A type definition in a `types` section. -/
inductive TypeElement where
  | type (attributes : List Attribute) (content : Content)
  | composite (attributes : List Attribute) (members : List (List Attribute × Spelling))
  | enum (attributes : List Attribute) (values : List (List Attribute × Content))
  | set (attributes : List Attribute) (choices : List (List Attribute × Content))

/-- The contents of a message or a group, the first element first.  The spelling
of a group counts when it has no contents. -/
inductive Body where
  | nil
  | field (attributes : List Attribute) (spelling : Spelling) (rest : Body)
  | data (attributes : List Attribute) (spelling : Spelling) (rest : Body)
  | group (attributes : List Attribute) (inner : Body) (spelling : Spelling) (rest : Body)
  deriving DecidableEq

/-- A child of the root element.  A message may carry the `sbe` namespace. -/
inductive TopElement where
  | types (defs : List TypeElement)
  | message (qualified : Bool) (attributes : List Attribute) (body : Body)

/-- A schema text. -/
structure Document where
  qualified : Bool
  attributes : List Attribute
  elements : List TopElement

/-! ## What the reader delivers -/

/-- The tag of a type, also of a member of a composite. -/
def memberTag (attributes : List Attribute) : Tag := ⟨"type", attributes⟩

/-- The tag of an enum value. -/
def valueTag (attributes : List Attribute) : Tag := ⟨"validValue", attributes⟩

/-- The tag of a choice of a set. -/
def choiceTag (attributes : List Attribute) : Tag := ⟨"choice", attributes⟩

/-- The tag of a field. -/
def fieldTag (attributes : List Attribute) : Tag := ⟨"field", attributes⟩

/-- The tag of a data field. -/
def dataTag (attributes : List Attribute) : Tag := ⟨"data", attributes⟩

/-- The tag of a group. -/
def groupTag (attributes : List Attribute) : Tag := ⟨"group", attributes⟩

/-- The tag of a message. -/
def messageTag (qualified : Bool) (attributes : List Attribute) : Tag :=
  ⟨if qualified then "sbe:message" else "message", attributes⟩

/-- The tag of the root element. -/
def schemaTag (qualified : Bool) (attributes : List Attribute) : Tag :=
  ⟨if qualified then "sbe:messageSchema" else "messageSchema", attributes⟩

/-- An element with children. -/
def element (e : Tag) (children : List Event) : List Event := .start e :: (children ++ [.endTag])

/-- What the reader delivers for a type definition. -/
def TypeElement.events : TypeElement → List Event
  | .type attributes content => content.events (memberTag attributes)
  | .composite attributes members =>
    element ⟨"composite", attributes⟩ (members.flatMap fun m => m.2.events (memberTag m.1))
  | .enum attributes values =>
    element ⟨"enum", attributes⟩ (values.flatMap fun v => v.2.events (valueTag v.1))
  | .set attributes choices =>
    element ⟨"set", attributes⟩ (choices.flatMap fun c => c.2.events (choiceTag c.1))

/-- What the reader delivers for the contents of a message or a group. -/
def Body.events : Body → List Event
  | .nil => []
  | .field attributes spelling rest => spelling.events (fieldTag attributes) ++ rest.events
  | .data attributes spelling rest => spelling.events (dataTag attributes) ++ rest.events
  | .group attributes inner spelling rest =>
    (if inner = .nil then spelling.events (groupTag attributes)
      else element (groupTag attributes) inner.events) ++ rest.events

/-- What the reader delivers for a `types` section or a message. -/
def TopElement.events : TopElement → List Event
  | .types defs => element ⟨"types", []⟩ (defs.flatMap TypeElement.events)
  | .message qualified attributes body => element (messageTag qualified attributes) body.events

/-- What the reader delivers for the whole text. -/
def Document.events (d : Document) : List Event :=
  element (schemaTag d.qualified d.attributes) (d.elements.flatMap TopElement.events)

/-! ## What the document says -/

/-- A primitive type with its constant value. -/
def Content.primitiveDef (t : PrimitiveDef) : Content → PrimitiveDef
  | .text content =>
    if trim content = "" then t else { t with constantValue := some (trim content) }
  | .childless _ => t

/-- An enum value with its text, which is its number. -/
def Content.enumValue (v : EnumValue) : Content → EnumValue
  | .text content => { v with value := trim content }
  | .childless _ => v

/-- A choice with its text, which is its bit. -/
def Content.setChoice (c : SetChoice) : Content → Except ParseError SetChoice
  | .text content =>
    (orInvalid "choice" "value" (trim content) (parseU8 (trim content))).map fun bitPosition =>
      { c with bitPosition := bitPosition }
  | .childless _ => .ok c

/-- Add a member to a composite, at `offset` if it does not say where. -/
def addMember (c : CompositeDef × Nat) (m : List Attribute × Spelling) :
    Except ParseError (CompositeDef × Nat) := do
  let field ← parseCompositeField (memberTag m.1) c.2
  .ok ({ c.1 with fields := c.1.fields ++ [field] }, c.2 + field.encodedLength)

/-- Add a value to an enum. -/
def addValue (d : EnumDef) (v : List Attribute × Content) : EnumDef :=
  { d with
    validValues := d.validValues ++ [v.2.enumValue (parseEnumValueAttributes (valueTag v.1))] }

/-- Add a choice to a set. -/
def addChoice (d : SetDef) (c : List Attribute × Content) : Except ParseError SetDef := do
  let choice ← c.2.setChoice (parseSetChoiceAttributes (choiceTag c.1))
  .ok { d with choices := d.choices ++ [choice] }

/-- The type that an element defines. -/
def TypeElement.typeDef : TypeElement → Except ParseError TypeDef
  | .type attributes content =>
    ((parsePrimitiveTypeEmpty (memberTag attributes)).map content.primitiveDef).map .primitive
  | .composite attributes members =>
    ((members.foldlM addMember (parseCompositeAttributes ⟨"composite", attributes⟩, 0)).map
      Prod.fst).map .composite
  | .enum attributes values =>
    ((parseEnumAttributes ⟨"enum", attributes⟩).map (values.foldl addValue)).map .enum
  | .set attributes choices =>
    (parseSetAttributes ⟨"set", attributes⟩ >>= choices.foldlM addChoice).map .set

/-- A group with these contents. -/
def groupDef (attributes : List Attribute) (contents : Except ParseError Block) :
    Except ParseError GroupDef := do
  let group ← parseGroupAttributes (groupTag attributes)
  let b ← contents
  .ok (b.toGroup group)

/-- A message with these contents. -/
def messageDef (qualified : Bool) (attributes : List Attribute)
    (contents : Except ParseError Block) : Except ParseError MessageDef := do
  let msg ← parseMessageAttributes (messageTag qualified attributes)
  let b ← contents
  .ok (b.toMessage msg)

/-- Add the elements of a message or a group to a block; the lengths of the
fields are those of the types in `schema`. -/
def Body.addTo (schema : Schema) : Body → Block → Except ParseError Block
  | .nil, b => .ok b
  | .field attributes _ rest, b => do
    let field ← parseField (fieldTag attributes) schema
    rest.addTo schema (b.addField field)
  | .data attributes _ rest, b => do
    let data ← parseDataField (dataTag attributes)
    rest.addTo schema (b.addDataField data)
  | .group attributes inner _ rest, b => do
    let group ← groupDef attributes (inner.addTo schema {})
    rest.addTo schema (b.addGroup group)

/-- Add the type of an element to the schema. -/
def TypeElement.addTo (schema : Schema) (t : TypeElement) : Except ParseError Schema :=
  t.typeDef.map schema.addType

/-- Add a section of types or a message to the schema. -/
def TopElement.addTo (schema : Schema) : TopElement → Except ParseError Schema
  | .types defs => defs.foldlM TypeElement.addTo schema
  | .message qualified attributes body => do
    let msg ← messageDef qualified attributes (body.addTo schema {})
    .ok { schema with messages := schema.messages ++ [msg] }

/-- The schema of the document. -/
def Document.schema (d : Document) : Except ParseError Schema := do
  let schema ← parseMessageSchema (schemaTag d.qualified d.attributes)
  d.elements.foldlM TopElement.addTo schema

/-! ## Conventions -/

/-- The spellings that are permitted for every kind of element. -/
abbrev Convention := ElementKind → Spelling → Prop

/-- A childless element is spelled as its kind permits. -/
def Content.Follows (c : Convention) (kind : ElementKind) : Content → Prop
  | .text _ => True
  | .childless spelling => c kind spelling

/-- The parts of a type are spelled as permitted.  The spelling of a type itself is free. -/
def TypeElement.Follows (c : Convention) : TypeElement → Prop
  | .type _ _ => True
  | .composite _ members => ∀ m ∈ members, c .member m.2
  | .enum _ values => ∀ v ∈ values, v.2.Follows c .validValue
  | .set _ choices => ∀ ch ∈ choices, ch.2.Follows c .choice

/-- The fields, data fields and childless groups are spelled as permitted. -/
def Body.Follows (c : Convention) : Body → Prop
  | .nil => True
  | .field _ spelling rest => c .field spelling ∧ rest.Follows c
  | .data _ spelling rest => c .data spelling ∧ rest.Follows c
  | .group _ inner spelling rest =>
    (inner = .nil → c .group spelling) ∧ inner.Follows c ∧ rest.Follows c

/-- All elements of a section or a message are spelled as permitted. -/
def TopElement.Follows (c : Convention) : TopElement → Prop
  | .types defs => ∀ t ∈ defs, t.Follows c
  | .message _ _ body => body.Follows c

/-- Every childless element is spelled in a permitted way. -/
def Document.Follows (c : Convention) (d : Document) : Prop := ∀ e ∈ d.elements, e.Follows c

/-- The spelling that the parser expects. -/
def ElementKind.canonical : ElementKind → Spelling
  | .field | .data | .member => .selfClosing
  | .group | .validValue | .choice => .paired

/-! ## Reading the types -/

section Canonical

variable {c : Convention} (hc : ∀ kind spelling, c kind spelling → spelling = kind.canonical)
  (schema : Schema)

/-- An element with children is read through its start tag, its children and its end tag. -/
theorem foldlM_element (e : Tag) (children : List Event) (s : ParseState) :
    (element e children).foldlM step s =
      step s (.start e) >>= fun s => children.foldlM step s >>= fun s => step s .endTag := by
  rw [element, foldlM_cons]
  refine congrArg _ (funext fun s => ?_)
  rw [foldlM_append]
  refine congrArg _ (funext fun s => ?_)
  exact bind_pure (step s .endTag)

include hc

theorem foldlM_composite (attributes : List Attribute) {members : List (List Attribute × Spelling)}
    (h : ∀ m ∈ members, c .member m.2) :
    (TypeElement.composite attributes members).events.foldlM step (.types schema 1) =
      ((TypeElement.composite attributes members).addTo schema).map fun s => .types s 1 := by
  have hmember : ∀ m ∈ members, ∀ d, (m.2.events (memberTag m.1)).foldlM step
      (.composite schema 1 d) = (addMember d m).map (.composite schema 1) := by
    intro m hm d
    rw [hc .member m.2 (h m hm), addMember]
    show ((parseCompositeField (memberTag m.1) d.2).map _ >>= pure) = _
    cases parseCompositeField (memberTag m.1) d.2 with
    | error err | ok field => rfl
  rw [TypeElement.events, foldlM_element]
  show (foldlM step (.composite schema 1 (parseCompositeAttributes _, 0)) _ >>= _) = _
  rw [foldlM_flatMap hmember, TypeElement.addTo, TypeElement.typeDef]
  cases members.foldlM addMember (parseCompositeAttributes ⟨"composite", attributes⟩, 0) with
  | error err | ok d => rfl

theorem foldlM_enum (attributes : List Attribute) {values : List (List Attribute × Content)}
    (h : ∀ v ∈ values, v.2.Follows c .validValue) :
    (TypeElement.enum attributes values).events.foldlM step (.types schema 1) =
      ((TypeElement.enum attributes values).addTo schema).map fun s => .types s 1 := by
  have hvalue : ∀ v ∈ values, ∀ d, (v.2.events (valueTag v.1)).foldlM step (.enum schema 1 d) =
      (Except.ok (addValue d v)).map (.enum schema 1) := by
    rintro ⟨attributes, content⟩ hv d
    cases content with
    | text content => rfl
    | childless spelling =>
      cases hc .validValue spelling (h _ hv)
      rfl
  rw [TypeElement.events, foldlM_element, TypeElement.addTo, TypeElement.typeDef]
  show ((parseEnumAttributes ⟨"enum", attributes⟩).map _ >>= _) = _
  cases parseEnumAttributes ⟨"enum", attributes⟩ with
  | error err => rfl
  | ok d =>
    show (foldlM step (.enum schema 1 d) _ >>= _) = _
    have hpure : values.foldlM (fun d v => (.ok (addValue d v) : Except ParseError EnumDef)) d =
        .ok (values.foldl addValue d) := foldlM_pure
    rw [foldlM_flatMap hvalue, hpure]
    rfl

theorem foldlM_set (attributes : List Attribute) {choices : List (List Attribute × Content)}
    (h : ∀ ch ∈ choices, ch.2.Follows c .choice) :
    (TypeElement.set attributes choices).events.foldlM step (.types schema 1) =
      ((TypeElement.set attributes choices).addTo schema).map fun s => .types s 1 := by
  have hchoice : ∀ ch ∈ choices, ∀ d, (ch.2.events (choiceTag ch.1)).foldlM step
      (.set schema 1 d) = (addChoice d ch).map (.set schema 1) := by
    rintro ⟨attributes, content⟩ hch d
    cases content with
    | text content =>
      have hstart : step (.set schema 1 d) (.start (choiceTag attributes)) =
          pure (.choice schema 1 d (parseSetChoiceAttributes (choiceTag attributes))) := rfl
      have htext : ∀ ch, step (.choice schema 1 d ch) (.text content) =
          textChoice schema 1 d ch content := fun _ => rfl
      rw [Content.events, foldlM_cons, hstart, pure_bind, foldlM_cons, htext, textChoice, addChoice,
        Content.setChoice]
      cases orInvalid "choice" "value" (trim content) (parseU8 (trim content)) with
      | error err | ok bitPosition => rfl
    | childless spelling =>
      cases hc .choice spelling (h _ hch)
      rfl
  rw [TypeElement.events, foldlM_element, TypeElement.addTo, TypeElement.typeDef]
  show ((parseSetAttributes ⟨"set", attributes⟩).map _ >>= _) = _
  cases parseSetAttributes ⟨"set", attributes⟩ with
  | error err => rfl
  | ok d =>
    show (foldlM step (.set schema 1 d) _ >>= _) = Except.map _ (Except.map _ (Except.map _
      (choices.foldlM addChoice d)))
    rw [foldlM_flatMap hchoice]
    cases choices.foldlM addChoice d with
    | error err | ok d => rfl

/-- A type definition is read and added to the schema. -/
theorem foldlM_typeElement {t : TypeElement} (h : t.Follows c) :
    t.events.foldlM step (.types schema 1) = (t.addTo schema).map fun s => .types s 1 := by
  cases t with
  | type attributes content =>
    rw [TypeElement.addTo, TypeElement.typeDef]
    cases content with
    | text content =>
      show ((parsePrimitiveTypeEmpty (memberTag attributes)).map _ >>= _) = _
      cases parsePrimitiveTypeEmpty (memberTag attributes) with
      | error err | ok t => rfl
    | childless spelling =>
      cases spelling with
      | selfClosing | paired =>
        show ((parsePrimitiveTypeEmpty (memberTag attributes)).map _ >>= _) = _
        cases parsePrimitiveTypeEmpty (memberTag attributes) with
        | error err | ok t => rfl
  | composite attributes members => exact foldlM_composite hc schema attributes h
  | enum attributes values => exact foldlM_enum hc schema attributes h
  | set attributes choices => exact foldlM_set hc schema attributes h

/-! ## Reading messages and groups -/

omit schema in
/-- A group has a start and an end tag, with or without contents. -/
theorem Body.events_group {attributes : List Attribute} {inner rest : Body} {spelling : Spelling}
    (h : inner = .nil → c .group spelling) :
    (Body.group attributes inner spelling rest).events =
      element (groupTag attributes) inner.events ++ rest.events := by
  rw [Body.events]
  split_ifs with hnil
  · rw [hc .group spelling (h hnil), hnil]
    rfl
  · rfl

/-- The contents of a message or a group are read and added to the block. -/
theorem foldlM_body {body : Body} (h : body.Follows c) (m : MessageDef)
    (outer : List (Block × GroupDef)) (b : Block) :
    body.events.foldlM step (.block schema m outer b) =
      (body.addTo schema b).map (.block schema m outer) := by
  induction body generalizing outer b with
  | nil => rfl
  | field attributes spelling rest ih =>
    rw [Body.events, hc .field spelling h.1, foldlM_append, Body.addTo]
    show (((parseField (fieldTag attributes) schema).map _ >>= pure) >>= _) = _
    cases parseField (fieldTag attributes) schema with
    | error err => rfl
    | ok field => exact ih h.2 outer (b.addField field)
  | data attributes spelling rest ih =>
    rw [Body.events, hc .data spelling h.1, foldlM_append, Body.addTo]
    show (((parseDataField (dataTag attributes)).map _ >>= pure) >>= _) = _
    cases parseDataField (dataTag attributes) with
    | error err => rfl
    | ok data => exact ih h.2 outer (b.addDataField data)
  | group attributes inner spelling rest ihInner ihRest =>
    rw [Body.events_group hc h.1, foldlM_append, foldlM_element, Body.addTo, groupDef]
    show (((parseGroupAttributes (groupTag attributes)).map _ >>= _) >>= _) = _
    cases parseGroupAttributes (groupTag attributes) with
    | error err => rfl
    | ok group =>
      show ((foldlM step (.block schema m ((b, group) :: outer) {}) inner.events >>= _) >>= _) = _
      rw [ihInner h.2.1]
      cases inner.addTo schema {} with
      | error err => rfl
      | ok b' => exact ihRest h.2.2 outer (b.addGroup (b'.toGroup group))

/-! ## Reading the document -/

/-- A section or a message is read and added to the schema. -/
theorem foldlM_topElement {e : TopElement} (h : e.Follows c) :
    e.events.foldlM step (.outside (some schema)) =
      (e.addTo schema).map fun s => .outside (some s) := by
  cases e with
  | types defs =>
    have hdefs : (defs.flatMap TypeElement.events).foldlM step (.types schema 1) =
        (defs.foldlM TypeElement.addTo schema).map fun s => .types s 1 :=
      foldlM_flatMap (fun t ht s => foldlM_typeElement hc s (h t ht)) schema
    rw [TopElement.events, foldlM_element, TopElement.addTo]
    show (foldlM step (.types schema 1) _ >>= _) = _
    rw [hdefs]
    cases defs.foldlM TypeElement.addTo schema with
    | error err | ok s => rfl
  | message qualified attributes body =>
    have hstart : step (.outside (some schema)) (.start (messageTag qualified attributes)) =
        (parseMessageAttributes (messageTag qualified attributes)).map
          fun m => .block schema m [] {} := by
      cases qualified <;> rfl
    rw [TopElement.events, foldlM_element, TopElement.addTo, messageDef, hstart]
    cases parseMessageAttributes (messageTag qualified attributes) with
    | error err => rfl
    | ok m =>
      show (foldlM step (.block schema m [] {}) body.events >>= _) = _
      rw [foldlM_body hc schema h]
      cases body.addTo schema {} with
      | error err | ok b => rfl

omit schema in
/-- A document whose elements are spelled as the parser expects is parsed. -/
theorem parseSchema_of_follows {d : Document} (h : d.Follows c) :
    parseSchema d.events = d.schema := by
  have hstart : step (.outside none) (.start (schemaTag d.qualified d.attributes)) =
      (parseMessageSchema (schemaTag d.qualified d.attributes)).map fun s => .outside (some s) := by
    cases d.qualified <;> rfl
  rw [parseSchema_eq_run]
  show (d.events.foldlM step (.outside none) >>= finish) = _
  rw [Document.events, foldlM_element, Document.schema, hstart]
  cases parseMessageSchema (schemaTag d.qualified d.attributes) with
  | error err => rfl
  | ok s =>
    have helements : (d.elements.flatMap TopElement.events).foldlM step (.outside (some s)) =
        (d.elements.foldlM TopElement.addTo s).map fun s => .outside (some s) :=
      foldlM_flatMap (fun e he s => foldlM_topElement hc s (h e he)) s
    show ((foldlM step (.outside (some s)) _ >>= _) >>= finish) = _
    rw [helements]
    -- the end tag of the root element is passed over
    cases hfold : d.elements.foldlM TopElement.addTo s with
    | error err | ok schema => exact hfold.symm

end Canonical

/-! ## Other spellings -/

/-- A document in which an element of the kind is followed by another one. -/
def twoOf (kind : ElementKind) (spelling : Spelling) : Document where
  qualified := false
  attributes := []
  elements := match kind with
    | .field => [.message false [] (.field [] spelling (.field [] spelling .nil))]
    | .data => [.message false [] (.data [] spelling (.data [] spelling .nil))]
    | .group => [.message false [] (.group [] .nil spelling (.group [] .nil spelling .nil))]
    | .member =>
      let attributes := [("primitiveType", "uint8")]
      [.types [.composite [] [(attributes, spelling), (attributes, spelling)]]]
    | .validValue =>
      [.types [.enum [("encodingType", "uint8")] [([], .childless spelling),
        ([], .childless spelling)]]]
    | .choice =>
      [.types [.set [("encodingType", "uint8")] [([], .childless spelling),
        ([], .childless spelling)]]]

theorem twoOf_follows {c : Convention} {kind : ElementKind} {spelling : Spelling}
    (h : c kind spelling) : (twoOf kind spelling).Follows c := by
  cases kind with
  | field | data => exact List.forall_mem_singleton.mpr ⟨h, h, trivial⟩
  | group =>
    exact List.forall_mem_singleton.mpr
      ⟨fun _ => h, trivial, fun _ => h, trivial, trivial⟩
  | member | validValue | choice =>
    refine List.forall_mem_singleton.mpr (List.forall_mem_singleton.mpr ?_)
    exact List.forall_mem_cons.mpr ⟨h, List.forall_mem_singleton.mpr h⟩

/-- The types of a schema, and how many fields, groups and data fields its
messages have. -/
def inventory (s : Schema) : List TypeDef × List (Nat × Nat × Nat) :=
  (s.types, s.messages.map fun m => (m.fields.length, m.groups.length, m.dataFields.length))

/-- In the spelling that is not expected, the second element is lost or comes
under the wrong parent. -/
theorem parseSchema_twoOf_ne {kind : ElementKind} {spelling : Spelling}
    (h : spelling ≠ kind.canonical) :
    (parseSchema (twoOf kind spelling).events).map inventory ≠
      (twoOf kind spelling).schema.map inventory := by
  cases kind <;> cases spelling <;> first | exact absurd rfl h | decide

/-- The parser gives the schema of every document that follows a convention
exactly when the convention permits `<x/>` only for fields, data fields and
composite members, and `<x></x>` only for groups, enum values and choices. -/
theorem parseSchema_iff_canonical (c : Convention) :
    (∀ d : Document, d.Follows c → parseSchema d.events = d.schema) ↔
      ∀ kind spelling, c kind spelling → spelling = kind.canonical := by
  constructor
  · intro h kind spelling hpermitted
    by_contra hne
    exact parseSchema_twoOf_ne hne
      (congrArg (Except.map inventory) (h _ (twoOf_follows hpermitted)))
  · exact fun hc d hd => parseSchema_of_follows hc hd

/-- A message with two fields. -/
def orderDocument (spelling : Spelling) : Document where
  qualified := true
  attributes := [("package", "orders"), ("id", "1"), ("version", "1")]
  elements := [.message true [("name", "Order"), ("id", "1"), ("blockLength", "12")]
    (.field [("name", "price"), ("id", "1"), ("type", "uint64"), ("offset", "0")] spelling
      (.field [("name", "quantity"), ("id", "2"), ("type", "uint32"), ("offset", "8")] spelling
        .nil))]

/-- Written as `<field …></field>`, the first field ends the message and the
second is lost. -/
theorem parseSchema_order_paired :
    (parseSchema (orderDocument .selfClosing).events).map inventory = .ok ([], [(2, 0, 0)]) ∧
      (parseSchema (orderDocument .paired).events).map inventory = .ok ([], [(1, 0, 0)]) ∧
      parseSchema (orderDocument .paired).events ≠ (orderDocument .paired).schema := by
  refine ⟨by decide, by decide, fun h => ?_⟩
  have hinventory := congrArg (Except.map inventory) h
  exact absurd hinventory (by decide)

end IronSbe.Schema
