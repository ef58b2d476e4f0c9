import IronSbe.Lib.Incremental
import IronSbe.Schema.Parser

/-!
# The parser between two events

The loops of the parser as a machine.  A `ParseState` is the loop that reads the
next event, with what this loop and the loops around it have collected.  An `End`
event closes the loop, and so does the end of the text; the loops around it then
see the end of the text as well.

* `ParseState.step`: what the loop does with an event.
* `ParseState.moves_of_step`: the moves that a step can make; invariants go through them.
* `ParseState.result`: the schema if the text ends here.
* `parseSchema_eq_run`: `parse_schema` runs through these states.
* `fails_parseSchema_iff`: it fails if there is no schema element or an event is
  refused, and which events are refused is a matter of the loops alone (`ParseLoop`).
-/

namespace IronSbe.Schema

open Lib.EventLoop Lib.Incremental

/-- Where the parser is, by the loop that reads the next event.  In `block` the
message and its groups are open up to the innermost one, whose block is the last
argument; `outer` holds the blocks around it with the groups that are open in them. -/
inductive ParseState where
  | outside (schema : Option Schema)
  | types (schema : Schema) (depth : Nat)
  | primitiveType (schema : Schema) (depth : Nat) (t : PrimitiveDef)
  | composite (schema : Schema) (depth : Nat) (c : CompositeDef × Nat)
  | enum (schema : Schema) (depth : Nat) (d : EnumDef)
  | enumValue (schema : Schema) (depth : Nat) (d : EnumDef) (v : EnumValue)
  | set (schema : Schema) (depth : Nat) (d : SetDef)
  | choice (schema : Schema) (depth : Nat) (d : SetDef) (c : SetChoice)
  | block (schema : Schema) (m : MessageDef) (outer : List (Block × GroupDef)) (b : Block)

namespace ParseState

/-- The loop is over, and the loop around it takes what it has collected. -/
def close : ParseState → ParseState
  | .outside schema => .outside schema
  | .types schema _ => .outside (some schema)
  | .primitiveType schema depth t => .types (schema.addType (.primitive t)) depth
  | .composite schema depth c => .types (schema.addType (.composite c.1)) depth
  | .enum schema depth d => .types (schema.addType (.enum d)) depth
  | .enumValue schema depth d v =>
    .enum schema depth { d with validValues := d.validValues ++ [v] }
  | .set schema depth d => .types (schema.addType (.set d)) depth
  | .choice schema depth d c => .set schema depth { d with choices := d.choices ++ [c] }
  | .block schema m [] b =>
    .outside (some { schema with messages := schema.messages ++ [b.toMessage m] })
  | .block schema m ((b', g) :: outer) b => .block schema m outer (b'.addGroup (b.toGroup g))

/-- An opening tag in the loop of `parse_schema`. -/
def startOutside (schema : Option Schema) (e : Tag) : Except ParseError ParseState :=
  match e.name, schema with
  | "messageSchema", _ | "sbe:messageSchema", _ =>
    (parseMessageSchema e).map fun schema => .outside (some schema)
  | "types", some schema => .ok (.types schema 1)
  | "message", some schema | "sbe:message", some schema =>
    (parseMessageAttributes e).map fun m => .block schema m [] {}
  | _, _ => .ok (.outside schema)

/-- An opening tag in the loop of `parse_types`. -/
def startTypes (schema : Schema) (depth : Nat) (e : Tag) : Except ParseError ParseState :=
  match e.name with
  | "type" => (parsePrimitiveTypeEmpty e).map (.primitiveType schema depth)
  | "composite" => .ok (.composite schema depth (parseCompositeAttributes e, 0))
  | "enum" => (parseEnumAttributes e).map (.enum schema depth)
  | "set" => (parseSetAttributes e).map (.set schema depth)
  | _ => .ok (.types schema (depth + 1))

/-- A tag in the loop of `parse_composite`. -/
def tagComposite (schema : Schema) (depth : Nat) (c : CompositeDef × Nat) (e : Tag) :
    Except ParseError ParseState :=
  if e.name = "type" then
    (parseCompositeField e c.2).map fun field => .composite schema depth
      ({ c.1 with fields := c.1.fields ++ [field] }, c.2 + field.encodedLength)
  else .ok (.composite schema depth c)

/-- A text in the loop of `parse_set_choice`. -/
def textChoice (schema : Schema) (depth : Nat) (d : SetDef) (c : SetChoice) (content : String) :
    Except ParseError ParseState :=
  (orInvalid "choice" "value" (trim content) (parseU8 (trim content))).map fun bitPosition =>
    .choice schema depth d { c with bitPosition := bitPosition }

/-- A tag in the loop of `parse_message` or `parse_group`. -/
def tagBlock (schema : Schema) (m : MessageDef) (outer : List (Block × GroupDef)) (b : Block)
    (e : Tag) : Except ParseError ParseState :=
  if e.name = "field" then
    (parseField e schema).map fun field => .block schema m outer (b.addField field)
  else if e.name = "group" then
    (parseGroupAttributes e).map fun g => .block schema m ((b, g) :: outer) {}
  else if e.name = "data" then
    (parseDataField e).map fun data => .block schema m outer (b.addDataField data)
  else .ok (.block schema m outer b)

/-- What the loop does with the next event. -/
def step : ParseState → Event → Except ParseError ParseState
  | _, .err message => .error (.xml message)
  | .outside schema, .start e => startOutside schema e
  | .outside schema, _ => .ok (.outside schema)
  | .types schema depth, .start e => startTypes schema depth e
  | .types schema depth, .empty e =>
    if e.name = "type" then
      (parsePrimitiveTypeEmpty e).map fun t => .types (schema.addType (.primitive t)) depth
    else .ok (.types schema depth)
  | .types schema depth, .endTag =>
    .ok (if depth - 1 = 0 then .outside (some schema) else .types schema (depth - 1))
  | .primitiveType schema depth t, .text content =>
    .ok (.primitiveType schema depth
      (if trim content = "" then t else { t with constantValue := some (trim content) }))
  | .composite schema depth c, .start e | .composite schema depth c, .empty e =>
    tagComposite schema depth c e
  | .enum schema depth d, .start e | .enum schema depth d, .empty e =>
    .ok (if e.name = "validValue" then .enumValue schema depth d (parseEnumValueAttributes e)
      else .enum schema depth d)
  | .enumValue schema depth d v, .text content =>
    .ok (.enumValue schema depth d { v with value := trim content })
  | .set schema depth d, .start e | .set schema depth d, .empty e =>
    .ok (if e.name = "choice" then .choice schema depth d (parseSetChoiceAttributes e)
      else .set schema depth d)
  | .choice schema depth d c, .text content => textChoice schema depth d c content
  | .block schema m outer b, .start e | .block schema m outer b, .empty e =>
    tagBlock schema m outer b e
  | s, .endTag => .ok s.close
  | s, _ => .ok s

/-- Close all groups that are open, the innermost one first. -/
def closeGroups : List (Block × GroupDef) → Block → Block
  | [], b => b
  | (b', g) :: outer, b => closeGroups outer (b'.addGroup (b.toGroup g))

/-- The schema if there are no more events: every loop ends. -/
def result : ParseState → Option Schema
  | .outside schema => schema
  | .types schema _ => some schema
  | .primitiveType schema _ t => some (schema.addType (.primitive t))
  | .composite schema _ c => some (schema.addType (.composite c.1))
  | .enum schema _ d => some (schema.addType (.enum d))
  | .enumValue schema _ d v =>
    some (schema.addType (.enum { d with validValues := d.validValues ++ [v] }))
  | .set schema _ d => some (schema.addType (.set d))
  | .choice schema _ d c =>
    some (schema.addType (.set { d with choices := d.choices ++ [c] }))
  | .block schema m outer b =>
    some { schema with messages := schema.messages ++ [(closeGroups outer b).toMessage m] }

theorem result_close (s : ParseState) : s.close.result = s.result := by
  cases s with
  | block schema m outer b => cases outer <;> rfl
  | _ => rfl

/-- The end of `parse_schema`. -/
def finish (s : ParseState) : Except ParseError Schema :=
  match s.result with
  | some schema => .ok schema
  | none => .error (.invalidStructure "No messageSchema element found")

theorem finish_close (s : ParseState) : s.finish = s.close.finish := by
  rw [finish, finish, result_close]

end ParseState

/-! ## What a step does -/

/-- The loop that is in `s` goes on with `s'` after the event. -/
inductive ParseState.Moves : ParseState → Event → ParseState → Prop where
  /-- The loop passes over the event, which is not the tag of a schema. -/
  | skip {s : ParseState} {event : Event} :
    (∀ old e, s = .outside old → event = .start e →
      ¬ (e.name = "messageSchema" ∨ e.name = "sbe:messageSchema")) → Moves s event s
  | openSchema {old : Option Schema} {schema : Schema} {e : Tag} :
    e.name = "messageSchema" ∨ e.name = "sbe:messageSchema" → parseMessageSchema e = .ok schema →
    Moves (.outside old) (.start e) (.outside (some schema))
  | openTypes {schema : Schema} {e : Tag} : e.name = "types" →
    Moves (.outside (some schema)) (.start e) (.types schema 1)
  | openMessage {schema : Schema} {e : Tag} {m : MessageDef} :
    e.name = "message" ∨ e.name = "sbe:message" → parseMessageAttributes e = .ok m →
    Moves (.outside (some schema)) (.start e) (.block schema m [] {})
  | openType {schema : Schema} {depth : Nat} {e : Tag} {t : PrimitiveDef} :
    parsePrimitiveTypeEmpty e = .ok t →
    Moves (.types schema depth) (.start e) (.primitiveType schema depth t)
  | emptyType {schema : Schema} {depth : Nat} {e : Tag} {t : PrimitiveDef} :
    parsePrimitiveTypeEmpty e = .ok t →
    Moves (.types schema depth) (.empty e) (.types (schema.addType (.primitive t)) depth)
  | openComposite {schema : Schema} {depth : Nat} {e : Tag} :
    Moves (.types schema depth) (.start e)
      (.composite schema depth (parseCompositeAttributes e, 0))
  | openEnum {schema : Schema} {depth : Nat} {e : Tag} {d : EnumDef} :
    Moves (.types schema depth) (.start e) (.enum schema depth d)
  | openSet {schema : Schema} {depth : Nat} {e : Tag} {d : SetDef} :
    Moves (.types schema depth) (.start e) (.set schema depth d)
  /-- Other elements of a `types` section are counted. -/
  | count {schema : Schema} {depth depth' : Nat} {event : Event} :
    Moves (.types schema depth) event (.types schema depth')
  | member {schema : Schema} {depth : Nat} {c : CompositeDef × Nat} {event : Event} {e : Tag}
      {f : CompositeField} : event = .start e ∨ event = .empty e →
    parseCompositeField e c.2 = .ok f →
    Moves (.composite schema depth c) event
      (.composite schema depth ({ c.1 with fields := c.1.fields ++ [f] }, c.2 + f.encodedLength))
  | openValue {schema : Schema} {depth : Nat} {d : EnumDef} {v : EnumValue} {event : Event} :
    Moves (.enum schema depth d) event (.enumValue schema depth d v)
  | openChoice {schema : Schema} {depth : Nat} {d : SetDef} {c : SetChoice} {event : Event} :
    Moves (.set schema depth d) event (.choice schema depth d c)
  | field {schema : Schema} {m : MessageDef} {outer : List (Block × GroupDef)} {b : Block}
      {event : Event} {e : Tag} {f : FieldDef} : event = .start e ∨ event = .empty e →
    parseField e schema = .ok f →
    Moves (.block schema m outer b) event (.block schema m outer (b.addField f))
  | openGroup {schema : Schema} {m : MessageDef} {outer : List (Block × GroupDef)} {b : Block}
      {event : Event} {g : GroupDef} :
    Moves (.block schema m outer b) event (.block schema m ((b, g) :: outer) {})
  | data {schema : Schema} {m : MessageDef} {outer : List (Block × GroupDef)} {b : Block}
      {event : Event} {d : DataFieldDef} :
    Moves (.block schema m outer b) event (.block schema m outer (b.addDataField d))
  | typeText {schema : Schema} {depth : Nat} {t : PrimitiveDef} {content : String} :
    trim content ≠ "" →
    Moves (.primitiveType schema depth t) (.text content)
      (.primitiveType schema depth { t with constantValue := some (trim content) })
  | valueText {schema : Schema} {depth : Nat} {d : EnumDef} {v v' : EnumValue}
      {content : String} :
    Moves (.enumValue schema depth d v) (.text content) (.enumValue schema depth d v')
  | choiceText {schema : Schema} {depth : Nat} {d : SetDef} {c c' : SetChoice}
      {content : String} :
    Moves (.choice schema depth d c) (.text content) (.choice schema depth d c')
  | close {s : ParseState} : Moves s .endTag s.close

section Moves

open Lib.Fallible

variable {schema : Schema} {s' : ParseState}

namespace ParseState

variable {e : Tag} {depth : Nat} {event : Event}

theorem moves_of_startOutside {old : Option Schema} (h : startOutside old e = .ok s') :
    Moves (.outside old) (.start e) s' := by
  unfold startOutside at h
  split at h
  · rename_i hname
    obtain ⟨schema, hparse, rfl⟩ := map_eq_ok h
    exact .openSchema (.inl hname) hparse
  · rename_i hname
    obtain ⟨schema, hparse, rfl⟩ := map_eq_ok h
    exact .openSchema (.inr hname) hparse
  · rename_i hname
    cases h
    exact .openTypes hname
  · rename_i hname
    obtain ⟨m, hparse, rfl⟩ := map_eq_ok h
    exact .openMessage (.inl hname) hparse
  · rename_i hname
    obtain ⟨m, hparse, rfl⟩ := map_eq_ok h
    exact .openMessage (.inr hname) hparse
  · rename_i hschema hqualified _ _ _
    cases h
    refine .skip ?_
    rintro _ _ _ ⟨⟩
    exact not_or.mpr ⟨hschema, hqualified⟩

theorem moves_of_startTypes (h : startTypes schema depth e = .ok s') :
    Moves (.types schema depth) (.start e) s' := by
  unfold startTypes at h
  split at h
  · obtain ⟨t, hparse, rfl⟩ := map_eq_ok h
    exact .openType hparse
  · cases h
    exact .openComposite
  · obtain ⟨d, -, rfl⟩ := map_eq_ok h
    exact .openEnum
  · obtain ⟨d, -, rfl⟩ := map_eq_ok h
    exact .openSet
  · cases h
    exact .count

theorem moves_of_tagComposite {c : CompositeDef × Nat} (he : event = .start e ∨ event = .empty e)
    (h : tagComposite schema depth c e = .ok s') :
    Moves (.composite schema depth c) event s' := by
  unfold tagComposite at h
  split_ifs at h
  · obtain ⟨f, hparse, rfl⟩ := map_eq_ok h
    exact .member he hparse
  · cases h
    exact .skip (by rintro _ _ ⟨⟩)

theorem moves_of_tagBlock {m : MessageDef} {outer : List (Block × GroupDef)} {b : Block}
    (he : event = .start e ∨ event = .empty e) (h : tagBlock schema m outer b e = .ok s') :
    Moves (.block schema m outer b) event s' := by
  unfold tagBlock at h
  split_ifs at h
  · obtain ⟨f, hparse, rfl⟩ := map_eq_ok h
    exact .field he hparse
  · obtain ⟨g, -, rfl⟩ := map_eq_ok h
    exact .openGroup
  · obtain ⟨d, -, rfl⟩ := map_eq_ok h
    exact .data
  · cases h
    exact .skip (by rintro _ _ ⟨⟩)

/-- Every step that succeeds is one of these moves. -/
theorem moves_of_step {s : ParseState} (h : s.step event = .ok s') :
    s.Moves event s' := by
  -- events that the loop passes over
  have hskip : (∀ old e, s = .outside old → event ≠ .start e) →
      (.ok s : Except ParseError ParseState) = .ok s' → s.Moves event s' := by
    intro hno hs
    cases hs
    exact .skip fun old e hold hstart => absurd hstart (hno old e hold)
  cases event with
  | err message => cases s <;> cases h
  | endTag =>
    cases s with
    | outside old => exact hskip (by rintro _ _ _ ⟨⟩) h
    | types schema depth =>
      cases h
      split_ifs
      · exact .close
      · exact .count
    | _ =>
      cases h
      exact .close
  | other => cases s <;> exact hskip (by rintro _ _ _ ⟨⟩) h
  | text content =>
    cases s with
    | primitiveType schema depth t =>
      rw [ParseState.step] at h
      split_ifs at h with htext
      · exact hskip (by rintro _ _ ⟨⟩) h
      · cases h
        exact .typeText htext
    | enumValue schema depth d v =>
      rw [ParseState.step] at h
      cases h
      exact .valueText
    | choice schema depth d c =>
      rw [ParseState.step, textChoice] at h
      obtain ⟨bitPosition, -, rfl⟩ := map_eq_ok h
      exact .choiceText
    | _ => exact hskip (by rintro _ _ _ ⟨⟩) h
  | start e =>
    cases s with
    | outside old => exact moves_of_startOutside h
    | types schema depth => exact moves_of_startTypes h
    | composite schema depth c => exact moves_of_tagComposite (.inl rfl) h
    | block schema m outer b => exact moves_of_tagBlock (.inl rfl) h
    | enum schema depth d =>
      cases h
      split_ifs
      · exact .openValue
      · exact .skip (by rintro _ _ ⟨⟩)
    | set schema depth d =>
      cases h
      split_ifs
      · exact .openChoice
      · exact .skip (by rintro _ _ ⟨⟩)
    | _ => exact hskip (by rintro _ _ ⟨⟩) h
  | empty e =>
    cases s with
    | types schema depth =>
      change (if _ then _ else _) = _ at h
      split_ifs at h
      · obtain ⟨t, hparse, rfl⟩ := map_eq_ok h
        exact .emptyType hparse
      · exact hskip (by rintro _ _ ⟨⟩) h
    | composite schema depth c => exact moves_of_tagComposite (.inr rfl) h
    | block schema m outer b => exact moves_of_tagBlock (.inr rfl) h
    | enum schema depth d =>
      cases h
      split_ifs
      · exact .openValue
      · exact .skip (by rintro _ _ ⟨⟩)
    | set schema depth d =>
      cases h
      split_ifs
      · exact .openChoice
      · exact .skip (by rintro _ _ ⟨⟩)
    | _ => exact hskip (by rintro _ _ _ ⟨⟩) h

end ParseState

end Moves

/-- The parser as a machine. -/
def parserMachine : Machine ParseState Event ParseError Schema :=
  ⟨ParseState.step, ParseState.finish⟩

theorem parserMachine_step : parserMachine.step = ParseState.step := rfl

/-! ## The functions of the parser -/

section Functions

variable {n : Nat} {schema : Schema} {depth : Nat}

open ParseState

theorem enacts_primitiveType (t : PrimitiveDef) :
    Enacts parserMachine n (loop primitiveTypeStep t) (.primitiveType schema depth t)
      fun t => .types (schema.addType (.primitive t)) depth := by
  refine enacts_loop (fun t => finish_close (.primitiveType schema depth t)) (fun t event => ?_) t
  cases event with
  | text content | endTag | start e | empty e | other => exact handles_pure rfl
  | err message => exact handles_throw rfl

theorem enacts_composite (c : CompositeDef × Nat) :
    Enacts parserMachine n (loop compositeStep c) (.composite schema depth c)
      fun c => .types (schema.addType (.composite c.1)) depth := by
  refine enacts_loop (fun c => finish_close (.composite schema depth c))
    (fun c event => ?_) c
  have htag : ∀ e event, parserMachine.step (.composite schema depth c) event =
      tagComposite schema depth c e →
      Handles parserMachine n (.composite schema depth c) event (compositeStep c (.start e))
        (resume (.composite schema depth)
          fun c => .types (schema.addType (.composite c.1)) depth) := by
    intro e event hstep
    unfold tagComposite at hstep
    unfold compositeStep
    dsimp only
    split_ifs at hstep ⊢
    · exact handles_liftM hstep
    · exact handles_pure hstep
  cases event with
  | start e | empty e => exact htag e _ rfl
  | endTag | text content | other => exact handles_pure rfl
  | err message => exact handles_throw rfl

theorem enacts_enumValue (d : EnumDef) (v : EnumValue) :
    Enacts parserMachine n (loop enumValueStep v) (.enumValue schema depth d v)
      fun v => .enum schema depth { d with validValues := d.validValues ++ [v] } := by
  refine enacts_loop (fun v => finish_close (.enumValue schema depth d v))
    (fun v event => ?_) v
  cases event with
  | text content | endTag | start e | empty e | other => exact handles_pure rfl
  | err message => exact handles_throw rfl

theorem enacts_enum (d : EnumDef) :
    Enacts parserMachine n (loop enumStep d) (.enum schema depth d)
      fun d => .types (schema.addType (.enum d)) depth := by
  refine enacts_loop (fun d => finish_close (.enum schema depth d))
    (fun d event => ?_) d
  have htag : ∀ e event, parserMachine.step (.enum schema depth d) event =
      .ok (if e.name = "validValue" then .enumValue schema depth d (parseEnumValueAttributes e)
        else .enum schema depth d) →
      Handles parserMachine n (.enum schema depth d) event (enumStep d (.start e))
        (resume (.enum schema depth) fun d => .types (schema.addType (.enum d)) depth) := by
    intro e event hstep
    unfold enumStep
    dsimp only
    split_ifs at hstep ⊢
    · apply Handles.map
      exact handles_call hstep fun n' _ => enacts_enumValue d _
    · exact handles_pure hstep
  cases event with
  | start e | empty e => exact htag e _ rfl
  | endTag | text content | other => exact handles_pure rfl
  | err message => exact handles_throw rfl

theorem enacts_choice (d : SetDef) (c : SetChoice) :
    Enacts parserMachine n (loop setChoiceStep c) (.choice schema depth d c)
      fun c => .set schema depth { d with choices := d.choices ++ [c] } := by
  refine enacts_loop (fun c => finish_close (.choice schema depth d c))
    (fun c event => ?_) c
  cases event with
  | text content =>
    have hstep : parserMachine.step (.choice schema depth d c) (.text content) =
        textChoice schema depth d c content := by
      rw [parserMachine_step, ParseState.step]
    unfold textChoice at hstep
    exact handles_liftM hstep
  | endTag | start e | empty e | other => exact handles_pure rfl
  | err message => exact handles_throw rfl

theorem enacts_set (d : SetDef) :
    Enacts parserMachine n (loop setStep d) (.set schema depth d)
      fun d => .types (schema.addType (.set d)) depth := by
  refine enacts_loop (fun d => finish_close (.set schema depth d))
    (fun d event => ?_) d
  have htag : ∀ e event, parserMachine.step (.set schema depth d) event =
      .ok (if e.name = "choice" then .choice schema depth d (parseSetChoiceAttributes e)
        else .set schema depth d) →
      Handles parserMachine n (.set schema depth d) event (setStep d (.start e))
        (resume (.set schema depth) fun d => .types (schema.addType (.set d)) depth) := by
    intro e event hstep
    unfold setStep
    dsimp only
    split_ifs at hstep ⊢
    · apply Handles.map
      exact handles_call hstep fun n' _ => enacts_choice d _
    · exact handles_pure hstep
  cases event with
  | start e | empty e => exact htag e _ rfl
  | endTag | text content | other => exact handles_pure rfl
  | err message => exact handles_throw rfl

/-- An opening tag in a `types` section. -/
theorem handles_startTypes (e : Tag) :
    Handles parserMachine n (.types schema depth) (.start e) (typesStep (schema, depth) (.start e))
      (resume (fun s => .types s.1 s.2) fun s => .outside (some s.1)) := by
  have hstep : parserMachine.step (.types schema depth) (.start e) = startTypes schema depth e :=
    rfl
  unfold startTypes at hstep
  unfold typesStep
  dsimp only
  split
  · rename_i hname
    simp only [hname] at hstep
    apply Handles.map
    exact handles_bind hstep fun t n' _ => enacts_primitiveType t
  · rename_i hname
    simp only [hname] at hstep
    apply Handles.map
    exact handles_call hstep fun n' _ => Enacts.map (enacts_composite _)
  · rename_i hname
    simp only [hname] at hstep
    apply Handles.map
    exact handles_bind hstep fun d n' _ => enacts_enum d
  · rename_i hname
    simp only [hname] at hstep
    apply Handles.map
    exact handles_bind hstep fun d n' _ => enacts_set d
  · simp only at hstep
    exact handles_pure hstep

theorem handles_typesStep (s : Schema × Nat) (event : Event) :
    Handles parserMachine n (.types s.1 s.2) event (typesStep s event)
      (resume (fun s => .types s.1 s.2) fun s => .outside (some s.1)) := by
  obtain ⟨schema, depth⟩ := s
  cases event with
  | start e => exact handles_startTypes e
  | empty e =>
    have hstep : parserMachine.step (.types schema depth) (.empty e) =
        if e.name = "type" then
          (parsePrimitiveTypeEmpty e).map fun t => .types (schema.addType (.primitive t)) depth
        else .ok (.types schema depth) := rfl
    unfold typesStep
    dsimp only
    split_ifs at hstep ⊢
    · exact handles_liftM hstep
    · exact handles_pure hstep
  | endTag =>
    apply handles_pure
    show Except.ok (if depth - 1 = 0 then ParseState.outside (some schema)
      else .types schema (depth - 1)) = _
    split_ifs <;> rfl
  | text content | other => exact handles_pure rfl
  | err message => exact handles_throw rfl

theorem enacts_types (s : Schema × Nat) :
    Enacts parserMachine n (loop typesStep s) (.types s.1 s.2) fun s => .outside (some s.1) :=
  enacts_loop (fun s => finish_close (.types s.1 s.2)) handles_typesStep s

/-- The loop of `parse_message` and of `parse_group`, from what its group parser does. -/
theorem enacts_block {group : Tag → XmlReader GroupDef} (m : MessageDef)
    (hgroup : ∀ outer b e event, parserMachine.step (.block schema m outer b) event =
        ((parseGroupAttributes e).map fun g => .block schema m ((b, g) :: outer) {}) →
      Handles parserMachine n (.block schema m outer b) event (group e)
        fun g => .block schema m outer (b.addGroup g))
    (outer : List (Block × GroupDef)) (b : Block) :
    Enacts parserMachine n (loop (blockStep schema group) b)
      (.block schema m outer b) fun b => (ParseState.block schema m outer b).close := by
  refine enacts_loop (fun b => finish_close (.block schema m outer b)) (fun b event => ?_) b
  have htag : ∀ e event, parserMachine.step (.block schema m outer b) event =
      tagBlock schema m outer b e →
      Handles parserMachine n (.block schema m outer b) event (blockStep schema group b (.start e))
        (resume (.block schema m outer) fun b => (ParseState.block schema m outer b).close) := by
    intro e event hstep
    unfold tagBlock at hstep
    unfold blockStep
    dsimp only
    split_ifs at hstep ⊢
    · exact handles_liftM hstep
    · apply Handles.map
      exact hgroup outer b e event hstep
    · exact handles_liftM hstep
    · exact handles_pure hstep
  cases event with
  | start e | empty e => exact htag e _ rfl
  | endTag | text content | other => exact handles_pure rfl
  | err message => exact handles_throw rfl

/-- `parse_group` by induction on the depth, which is not less than the number of events. -/
theorem handles_parseGroupN {m : MessageDef} (depth : Nat) (outer : List (Block × GroupDef))
    (b : Block) (e : Tag) (event : Event)
    (hstep : parserMachine.step (.block schema m outer b) event =
      (parseGroupAttributes e).map fun g => .block schema m ((b, g) :: outer) {}) :
    Handles parserMachine (depth + 1) (.block schema m outer b) event (parseGroupN schema depth e)
      fun g => .block schema m outer (b.addGroup g) := by
  induction depth generalizing outer b e event with
  | zero =>
    refine handles_bind hstep fun g n' hn' items hitems => ?_
    obtain rfl := List.length_eq_zero_iff.mp (show items.length = 0 by omega)
    exact ⟨finish_close (.block schema m ((b, g) :: outer) {}),
      fun _ _ h => by cases h; exact Nat.le_refl _⟩
  | succ depth ih =>
    refine handles_bind hstep fun g n' hn' => Enacts.map (enacts_block m ?_ _ _)
    intro outer b e event hstep rest hrest
    exact ih outer b e event hstep rest (by omega)

theorem enacts_message (m : MessageDef) :
    Enacts parserMachine n (loop (blockStep schema (parseGroup schema)) {}) (.block schema m [] {})
      fun b => (ParseState.block schema m [] b).close := by
  refine enacts_block m (fun outer b e event hstep rest _ => ?_) [] {}
  obtain ⟨hanswer, hle⟩ :=
    handles_parseGroupN rest.length outer b e event hstep rest (Nat.lt_succ_self _)
  exact ⟨hanswer, hle⟩

theorem handles_schemaStep (n : Nat) (s : Option Schema) (event : Event) :
    Handles parserMachine n (.outside s) event (schemaStep s event) (resume .outside .outside) := by
  cases event with
  | start e =>
    have hstep : parserMachine.step (.outside s) (.start e) = startOutside s e := rfl
    unfold startOutside at hstep
    unfold schemaStep
    dsimp only
    split
    · rename_i hname
      simp only [hname] at hstep
      exact handles_liftM hstep
    · rename_i hname
      simp only [hname] at hstep
      exact handles_liftM hstep
    · rename_i hname
      simp only [hname] at hstep
      apply Handles.map
      exact handles_call hstep fun n' _ => Enacts.map (enacts_types _)
    · rename_i hname
      simp only [hname] at hstep
      apply Handles.map
      exact handles_bind hstep fun m n' _ => Enacts.map (enacts_message m)
    · rename_i hname
      simp only [hname] at hstep
      apply Handles.map
      exact handles_bind hstep fun m n' _ => Enacts.map (enacts_message m)
    · simp only at hstep
      exact handles_pure hstep
  | empty e | endTag | text content | other => exact handles_pure rfl
  | err message => exact handles_throw rfl

end Functions

/-- The loop of `parse_schema` has no `break` but the one at the end of the text. -/
theorem continues_schemaStep (s : Option Schema) (event : Event) :
    Continues (schemaStep s event) := by
  unfold schemaStep
  split
  · split
    · exact continues_bind
    · exact continues_bind
    · exact continues_bind
    · exact continues_bind
    · exact continues_bind
    · exact fun _ _ _ => nofun
  · exact fun _ _ _ => nofun
  · exact fun _ _ _ => nofun

/-- `parse_schema` runs through the states. -/
theorem parseSchema_eq_run (events : List Event) :
    parseSchema events = parserMachine.run (.outside none) events := by
  rw [run_eq_of_loop handles_schemaStep continues_schemaStep]
  unfold parseSchema
  cases loop schemaStep none events with
  | error e => rfl
  | ok p =>
    obtain ⟨schema, rest⟩ := p
    cases schema with
    | none | some schema => rfl

variable {events : List Event} {schema : Schema} {α : Type} {e : Tag}

/-- A text that is parsed takes the machine to a state with the schema. -/
theorem run_of_parseSchema (h : parseSchema events = .ok schema) :
    ∃ s, events.foldlM ParseState.step (.outside none) = .ok s ∧ s.result = some schema := by
  rw [parseSchema_eq_run] at h
  obtain ⟨s, hs, hfinish⟩ := Lib.Fallible.bind_eq_ok h
  refine ⟨s, hs, ?_⟩
  change s.finish = .ok schema at hfinish
  unfold ParseState.finish at hfinish
  cases hr : s.result with
  | none =>
    rw [hr] at hfinish
    cases hfinish
  | some schema' =>
    rw [hr] at hfinish
    rw [Except.ok.inj hfinish]

/-! ## The loops alone -/

/-- The loop that reads the next event, without what has been collected: whether the
schema element has been seen, how many elements are open in a `types` section, how
many groups are open in a message. -/
inductive ParseLoop where
  | schema (seen : Bool)
  | types (depth : Nat)
  | primitiveType (depth : Nat)
  | composite (depth : Nat)
  | enum (depth : Nat)
  | enumValue (depth : Nat)
  | set (depth : Nat)
  | choice (depth : Nat)
  | block (groups : Nat)
  deriving DecidableEq, Repr

/-- The computation ends with an error. -/
def Fails {α : Type} (x : Except ParseError α) : Prop := ∃ e, x = .error e

namespace ParseLoop

/-- The loop that reads the event behind this one. -/
def next : ParseLoop → Event → ParseLoop
  | .schema seen, .start e =>
    match e.name, seen with
    | "messageSchema", _ | "sbe:messageSchema", _ => .schema true
    | "types", true => .types 1
    | "message", true | "sbe:message", true => .block 0
    | _, _ => .schema seen
  | .types depth, .start e =>
    match e.name with
    | "type" => .primitiveType depth
    | "composite" => .composite depth
    | "enum" => .enum depth
    | "set" => .set depth
    | _ => .types (depth + 1)
  | .types depth, .endTag => if depth - 1 = 0 then .schema true else .types (depth - 1)
  | .primitiveType depth, .endTag | .composite depth, .endTag => .types depth
  | .enum depth, .start e | .enum depth, .empty e =>
    if e.name = "validValue" then .enumValue depth else .enum depth
  | .enum depth, .endTag | .set depth, .endTag => .types depth
  | .enumValue depth, .endTag => .enum depth
  | .set depth, .start e | .set depth, .empty e =>
    if e.name = "choice" then .choice depth else .set depth
  | .choice depth, .endTag => .set depth
  | .block groups, .start e | .block groups, .empty e =>
    if e.name = "group" then .block (groups + 1) else .block groups
  | .block 0, .endTag => .schema true
  | .block (groups + 1), .endTag => .block groups
  | loop, _ => loop

/-- The event has a value that the loop cannot read. -/
def Refuses : ParseLoop → Event → Prop
  | _, .err _ => True
  | .schema seen, .start e =>
    match e.name, seen with
    | "messageSchema", _ | "sbe:messageSchema", _ => Fails (parseMessageSchema e)
    | "message", true | "sbe:message", true => Fails (parseMessageAttributes e)
    | _, _ => False
  | .types _, .start e =>
    match e.name with
    | "type" => Fails (parsePrimitiveTypeEmpty e)
    | "enum" => Fails (parseEnumAttributes e)
    | "set" => Fails (parseSetAttributes e)
    | _ => False
  | .types _, .empty e => e.name = "type" ∧ Fails (parsePrimitiveTypeEmpty e)
  | .composite _, .start e | .composite _, .empty e =>
    e.name = "type" ∧ Fails (parseCompositeField e 0)
  | .choice _, .text content => parseU8 (trim content) = none
  | .block _, .start e | .block _, .empty e =>
    e.name = "field" ∧ Fails (parseFieldAttributes e) ∨
      e.name = "group" ∧ Fails (parseGroupAttributes e) ∨
      e.name = "data" ∧ Fails (parseDataField e)
  | _, _ => False

/-- One of the events is refused by the loop that reads it. -/
def RefusesOneOf : ParseLoop → List Event → Prop
  | _, [] => False
  | loop, event :: rest => loop.Refuses event ∨ (loop.next event).RefusesOneOf rest

theorem refusesOneOf_append {loop : ParseLoop} {events more : List Event} :
    loop.RefusesOneOf (events ++ more) ↔
      loop.RefusesOneOf events ∨ (events.foldl next loop).RefusesOneOf more := by
  induction events generalizing loop with
  | nil => exact (or_iff_right not_false).symm
  | cons event rest ih =>
    rw [List.cons_append, RefusesOneOf, RefusesOneOf, ih, or_assoc, List.foldl_cons]

end ParseLoop

/-- The loop of a state. -/
def ParseState.loop : ParseState → ParseLoop
  | .outside schema => .schema schema.isSome
  | .types _ depth => .types depth
  | .primitiveType _ depth _ => .primitiveType depth
  | .composite _ depth _ => .composite depth
  | .enum _ depth _ => .enum depth
  | .enumValue _ depth _ _ => .enumValue depth
  | .set _ depth _ => .set depth
  | .choice _ depth _ _ => .choice depth
  | .block _ _ outer _ => .block outer.length

theorem not_fails_ok (a : α) : ¬ Fails (.ok a) := nofun

theorem fails_map {β : Type} {r : Except ParseError α} {f : α → β} :
    Fails (r.map f) ↔ Fails r := by
  cases r with
  | error e => exact ⟨fun _ => ⟨e, rfl⟩, fun _ => ⟨e, rfl⟩⟩
  | ok a => exact iff_of_false (not_fails_ok _) (not_fails_ok _)

/-- Where a member goes if it does not say it does not matter for its values. -/
theorem fails_parseCompositeField {offset : Nat} :
    Fails (parseCompositeField e offset) ↔ Fails (parseCompositeField e 0) := by
  unfold parseCompositeField
  generalize List.foldlM (m := Except ParseError) _ _ _ = attrs
  cases attrs with
  | error err => exact Iff.rfl
  | ok attrs =>
    show Fails (orMissing _ _ attrs.primitiveType >>= _) ↔ Fails (orMissing _ _ _ >>= _)
    cases attrs.primitiveType with
    | none => exact Iff.rfl
    | some prim => exact iff_of_false (not_fails_ok _) (not_fails_ok _)

theorem fails_parseField :
    Fails (parseField e schema) ↔ Fails (parseFieldAttributes e) := by
  unfold parseField
  cases parseFieldAttributes e with
  | error err => exact Iff.rfl
  | ok field => exact iff_of_false (not_fails_ok _) (not_fails_ok _)

/-- A step that ends in the given loop, or is refused if `refused` holds. -/
structure Yields (x : Except ParseError ParseState) (loop : ParseLoop) (refused : Prop) : Prop where
  fails : Fails x ↔ refused
  loop_eq : ∀ s, x = .ok s → s.loop = loop

theorem yields_ok {s : ParseState} {loop : ParseLoop} (h : s.loop = loop) :
    Yields (.ok s) loop False where
  fails := iff_of_false (not_fails_ok s) not_false
  loop_eq _ hs := Except.ok.inj hs ▸ h

theorem yields_map {r : Except ParseError α} {f : α → ParseState} {loop : ParseLoop}
    {refused : Prop} (hrefused : Fails r ↔ refused) (h : ∀ a, (f a).loop = loop) :
    Yields (r.map f) loop refused where
  fails := fails_map.trans hrefused
  loop_eq s hs := by
    cases r with
    | error e => cases hs
    | ok a => exact Except.ok.inj hs ▸ h a

namespace ParseState

theorem yields_startOutside (schema : Option Schema) (e : Tag) :
    Yields (startOutside schema e) ((ParseLoop.schema schema.isSome).next (.start e))
      ((ParseLoop.schema schema.isSome).Refuses (.start e)) := by
  unfold startOutside ParseLoop.next ParseLoop.Refuses
  split
  · rename_i hname
    simp only [hname]
    exact yields_map Iff.rfl fun _ => rfl
  · rename_i hname
    simp only [hname]
    exact yields_map Iff.rfl fun _ => rfl
  · rename_i hname
    simp only [hname, Option.isSome_some]
    exact yields_ok rfl
  · rename_i hname
    simp only [hname, Option.isSome_some]
    exact yields_map Iff.rfl fun _ => rfl
  · rename_i hname
    simp only [hname, Option.isSome_some]
    exact yields_map Iff.rfl fun _ => rfl
  · rename_i schema _ _ hschema hqualified htypes hmessage hmessage'
    have hsome : ∀ {name}, (∀ s, e.name = name → schema = some s → False) → e.name = name →
        schema.isSome = true → False := by
      intro name h hname hsome
      obtain ⟨s, hs⟩ := Option.isSome_iff_exists.mp hsome
      exact h s hname hs
    have htypes := hsome htypes
    have hmessage := hsome hmessage
    have hmessage' := hsome hmessage'
    simp only
    exact yields_ok rfl

theorem yields_startTypes (schema : Schema) (depth : Nat) (e : Tag) :
    Yields (startTypes schema depth e) ((ParseLoop.types depth).next (.start e))
      ((ParseLoop.types depth).Refuses (.start e)) := by
  unfold startTypes ParseLoop.next ParseLoop.Refuses
  split
  · rename_i hname
    simp only [hname]
    exact yields_map Iff.rfl fun _ => rfl
  · rename_i hname
    simp only [hname]
    exact yields_ok rfl
  · rename_i hname
    simp only [hname]
    exact yields_map Iff.rfl fun _ => rfl
  · rename_i hname
    simp only [hname]
    exact yields_map Iff.rfl fun _ => rfl
  · simp only
    exact yields_ok rfl

theorem yields_tagComposite (schema : Schema) (depth : Nat) (c : CompositeDef × Nat) (e : Tag) :
    Yields (tagComposite schema depth c e) (.composite depth)
      (e.name = "type" ∧ Fails (parseCompositeField e 0)) := by
  unfold tagComposite
  split_ifs with htype
  · exact yields_map (by simp only [htype, true_and, fails_parseCompositeField]) fun _ => rfl
  · simp only [htype, false_and]
    exact yields_ok rfl

theorem yields_tagBlock (schema : Schema) (m : MessageDef) (outer : List (Block × GroupDef))
    (b : Block) (e : Tag) :
    Yields (tagBlock schema m outer b e)
      (if e.name = "group" then .block (outer.length + 1) else .block outer.length)
      ((ParseLoop.block outer.length).Refuses (.start e)) := by
  unfold tagBlock
  show Yields _ _ (e.name = "field" ∧ _ ∨ e.name = "group" ∧ _ ∨ e.name = "data" ∧ _)
  by_cases hfield : e.name = "field"
  · simp only [hfield, if_true, true_and]
    exact yields_map (by simp [fails_parseField]) fun _ => rfl
  · by_cases hgroup : e.name = "group"
    · simp only [hgroup, if_true]
      exact yields_map (by simp) fun _ => rfl
    · by_cases hdata : e.name = "data"
      · simp only [hdata, if_true]
        exact yields_map (by simp) fun _ => rfl
      · simp only [hfield, hgroup, hdata, if_false, false_and, or_self]
        exact yields_ok rfl

theorem fails_orInvalid {α : Type} {element attr value : String} {a : Option α} :
    Fails (orInvalid element attr value a) ↔ a = none := by
  cases a with
  | none => exact iff_of_true ⟨_, rfl⟩ rfl
  | some a => exact iff_of_false (not_fails_ok a) nofun

theorem yields_err (s : ParseState) (message : String) :
    Yields (s.step (.err message)) (s.loop.next (.err message))
      (s.loop.Refuses (.err message)) := by
  have hstep : s.step (.err message) = .error (.xml message) := by cases s <;> rfl
  have hrefuses : s.loop.Refuses (.err message) := by cases s <;> trivial
  rw [hstep]
  exact ⟨iff_of_true ⟨_, rfl⟩ hrefuses, fun s hs => by cases hs⟩

/-- A step goes to the next loop, and which events are refused is a matter of the loop. -/
theorem yields_step (s : ParseState) (event : Event) :
    Yields (s.step event) (s.loop.next event) (s.loop.Refuses event) := by
  cases s with
  | outside schema =>
    cases event with
    | start e => exact yields_startOutside schema e
    | err message => exact yields_err _ message
    | _ => exact yields_ok rfl
  | types schema depth =>
    cases event with
    | start e => exact yields_startTypes schema depth e
    | empty e =>
      show Yields (if _ then _ else _) (.types depth) (e.name = "type" ∧ _)
      split_ifs with htype
      · exact yields_map (by simp [htype]) fun _ => rfl
      · simp only [htype, false_and]
        exact yields_ok rfl
    | endTag => exact yields_ok (apply_ite ParseState.loop _ _ _)
    | err message => exact yields_err _ message
    | _ => exact yields_ok rfl
  | primitiveType schema depth t | enumValue schema depth d v =>
    cases event with
    | err message => exact yields_err _ message
    | _ => exact yields_ok rfl
  | composite schema depth c =>
    cases event with
    | start e | empty e => exact yields_tagComposite schema depth c e
    | err message => exact yields_err _ message
    | _ => exact yields_ok rfl
  | enum schema depth d | set schema depth d =>
    cases event with
    | start e | empty e => exact yields_ok (apply_ite ParseState.loop _ _ _)
    | err message => exact yields_err _ message
    | _ => exact yields_ok rfl
  | choice schema depth d c =>
    cases event with
    | text content =>
      rw [ParseState.step]
      exact yields_map fails_orInvalid fun _ => rfl
    | err message => exact yields_err _ message
    | _ => exact yields_ok rfl
  | block schema m outer b =>
    cases event with
    | start e | empty e => exact yields_tagBlock schema m outer b e
    | endTag => cases outer <;> exact yields_ok rfl
    | err message => exact yields_err _ message
    | _ => exact yields_ok rfl

/-- There is a schema unless no schema element has been seen. -/
theorem fails_finish (s : ParseState) : Fails s.finish ↔ s.loop = .schema false := by
  cases s with
  | outside schema =>
    cases schema with
    | none => exact iff_of_true ⟨_, rfl⟩ rfl
    | some schema => exact iff_of_false (not_fails_ok schema) nofun
  | _ => exact iff_of_false (not_fails_ok _) nofun

end ParseState

/-- The loop that reads the event behind these. -/
def loopAt (events : List Event) : ParseLoop := events.foldl ParseLoop.next (.schema false)

theorem loopAt_append (events more : List Event) :
    loopAt (events ++ more) = more.foldl ParseLoop.next (loopAt events) := List.foldl_append

/-- One of the events of a text is refused. -/
def Refused (events : List Event) : Prop := (ParseLoop.schema false).RefusesOneOf events

theorem refused_append {more : List Event} :
    Refused (events ++ more) ↔ Refused events ∨ (loopAt events).RefusesOneOf more :=
  ParseLoop.refusesOneOf_append

/-- A run fails at the first event that is refused, and otherwise ends in the loop that
the events lead to. -/
theorem yields_foldlM (s : ParseState) (events : List Event) :
    Yields (events.foldlM ParseState.step s) (events.foldl ParseLoop.next s.loop)
      (s.loop.RefusesOneOf events) := by
  induction events generalizing s with
  | nil => exact yields_ok rfl
  | cons event rest ih =>
    have hstep := s.yields_step event
    rw [List.foldlM_cons]
    show Yields _ _ (s.loop.Refuses event ∨ _)
    cases hs : s.step event with
    | error e =>
      have hrefused : s.loop.Refuses event := hstep.fails.mp ⟨e, hs⟩
      exact ⟨iff_of_true ⟨e, rfl⟩ (.inl hrefused), fun s hs => by cases hs⟩
    | ok s' =>
      have haccepted : ¬ s.loop.Refuses event :=
        fun h => not_fails_ok s' (hs ▸ hstep.fails.mpr h)
      rw [or_iff_right haccepted, List.foldl_cons, ← hstep.loop_eq s' hs]
      exact ih s'

/-- `parse_schema` fails for two reasons: there is no schema element, or an event is
refused. -/
theorem fails_parseSchema_iff (events : List Event) :
    Fails (parseSchema events) ↔ loopAt events = .schema false ∨ Refused events := by
  have hrun := yields_foldlM (.outside none) events
  rw [parseSchema_eq_run]
  show Fails (events.foldlM ParseState.step _ >>= ParseState.finish) ↔ _
  cases hs : events.foldlM ParseState.step (.outside none) with
  | error e => exact iff_of_true ⟨e, rfl⟩ (.inr (hrun.fails.mp ⟨e, hs⟩))
  | ok s =>
    have haccepted : ¬ Refused events := fun h => not_fails_ok s (hs ▸ hrun.fails.mpr h)
    have hloop : s.loop = loopAt events := hrun.loop_eq s hs
    show Fails s.finish ↔ _
    rw [ParseState.fails_finish, hloop, or_iff_left haccepted]

end IronSbe.Schema
