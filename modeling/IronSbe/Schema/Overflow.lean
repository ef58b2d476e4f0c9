import IronSbe.Schema.Acceptance
import IronSbe.Schema.Offsets

/-!
# Offsets and lengths that do not fit

The lengths of types and the ends of members and fields are computed in `usize`, from numbers
of the text.  Listed here are the numbers that are computed, before they are stored: by the
parser (`parseSums`), by the validator (`validateSums`) and for the resolved schema
(`irSums`), each up to the first error.  The validator puts the end of the fields of a
message into an error as a `u16` (`casts`).

* `parseSums_lt_iff`: when the numbers of the parser fit.
* `stop_lt_of_parseBounded`: then the fields of every block of the schema end below `2 ^ 64`.
* `validateSums_lt_iff`, `casts_lt_iff`: when those of the validator fit.
* `noOverflow_iff`: when no number overflows and every layout that is too large is refused.
-/

namespace IronSbe.Schema

open Lib.Accumulate List

/-! ## The numbers that are computed -/

/-- `TypeDef::encoded_length`. -/
def TypeDef.lengthSums : TypeDef → List Nat
  | .primitive p => (p.length.map fun len => p.primitiveType.size * len.toNat).toList
  | .composite c => sums (· % 2 ^ 64) (fun _ _ => True) (· + ·) 0 (c.fields.map (·.encodedLength))
  | .enum _ | .set _ => []

/-- The end of a field in `auto_compute_field_offsets`. -/
def fieldEnd (running : Nat) (f : FieldDef) : Nat := placedAt running f + f.encodedLength

/-- `auto_compute_field_offsets`. -/
def blockSums (fields : List FieldDef) : List Nat :=
  sums (· % 2 ^ 64) (fun _ _ => True) fieldEnd 0 fields

namespace ParseState

/-- A tag in `parse_composite` or, with the length of the type, in `parse_field`. -/
def tagSums : ParseState → Tag → List Nat
  | .composite _ _ c, e =>
    if e.name = "type" then
      match parseCompositeField e c.2 with
      | .ok field => [c.2 + field.encodedLength]
      | .error _ => []
    else []
  | .block schema _ _ _, e =>
    if e.name = "field" then
      match parseField e schema with
      | .ok field => (schema.getType field.typeName).elim [] TypeDef.lengthSums
      | .error _ => []
    else []
  | _, _ => []

/-- One event. -/
def computes (s : ParseState) : Event → List Nat
  | .start e | .empty e => s.tagSums e
  | .endTag => s.innermost.elim [] blockSums
  | .text _ | .other | .err _ => []

/-- The end of the text: all blocks are closed. -/
def finishSums (s : ParseState) : List Nat := s.openBlocks.flatMap blockSums

end ParseState

/-- `parse_schema`. -/
def parseSums (events : List Event) : List Nat :=
  Lib.Fallible.trace ParseState.step ParseState.computes ParseState.finishSums (.outside none)
    events

/-- `validate_composite` and `validate_set`. -/
def TypeDef.checkSums : TypeDef → List Nat
  | .composite c => sums (· % 2 ^ 64) memberGoes memberEnd 0 c.fields
  | .set s => [s.encodingType.size * 8]
  | .enum _ | .primitive _ => []

instance (t : TypeDef) : Decidable t.Checked :=
  match t with
  | .composite c => inferInstanceAs (Decidable (validateComposite c = .ok ()))
  | .enum e => inferInstanceAs (Decidable (validateEnum e = .ok ()))
  | .set s => inferInstanceAs (Decidable (validateSet s = .ok ()))
  | .primitive _ => inferInstanceAs (Decidable True)

/-- The types that `validate_types` comes to. -/
def visitedTypes : List TypeDef → List TypeDef
  | [] => []
  | t :: rest => t :: if t.Checked then visitedTypes rest else []

/-- The messages that `validate_messages` calls `validate_message_fields` for. -/
def visitedFrom (schema : Schema) (seenIds : List UInt16) (seenNames : List String) :
    List MessageDef → List MessageDef
  | [] => []
  | m :: rest =>
    if m.id ∈ seenIds ∨ m.name ∈ seenNames then []
    else m :: if validateMessageFields schema m = .ok () then
      visitedFrom schema (m.id :: seenIds) (m.name :: seenNames) rest
    else []

/-- The messages that the validator comes to. -/
def visitedMessages (schema : Schema) : List MessageDef :=
  if validateTypes schema.types = .ok () then visitedFrom schema [] [] schema.messages else []

/-- `validate_message_fields`. -/
def fieldSums (schema : Schema) (m : MessageDef) : List Nat :=
  sums (· % 2 ^ 64) (fieldGoes schema) (fun _ f => f.stop) 0 m.fields

/-- `validate_schema`. -/
def validateSums (schema : Schema) : List Nat :=
  (visitedTypes schema.types).flatMap TypeDef.checkSums ++
    (visitedMessages schema).flatMap (fieldSums schema)

/-- The operand of `max_offset as u16` in `validate_message_fields`. -/
def calculated (schema : Schema) (m : MessageDef) : List Nat :=
  match validateFields schema 0 m.fields with
  | .ok maxOffset => if m.blockLength.toNat < maxOffset then [maxOffset] else []
  | .error _ => []

/-- The numbers that `validate_schema` casts to `u16`. -/
def casts (schema : Schema) : List Nat := (visitedMessages schema).flatMap (calculated schema)

/-- `SchemaIr::from_schema`.  The offsets of the members of a composite are the sums that make
its length. -/
def irSums (schema : Schema) : List Nat := schema.types.flatMap TypeDef.lengthSums

/-- The length of a type as a plain number, which `encodedLength` takes modulo `2 ^ 64`. -/
def TypeDef.plainLength : TypeDef → Nat
  | .primitive p => p.primitiveType.size * (p.length.map UInt64.toNat).getD 1
  | .composite c => (c.fields.map (·.encodedLength)).sum
  | .enum e => e.encodingType.size
  | .set s => s.encodingType.size

/-- The lengths are numbers of `usize`, and the fields of every block end where a block length
can be, which is a `u16`. -/
structure LayoutFits (schema : Schema) : Prop where
  lengths : ∀ t ∈ schema.types, t.plainLength < 2 ^ 64
  blocks : ∀ fields, BlockOf schema fields → ∀ f ∈ fields, f.stop < 2 ^ 16

/-- No number overflows, no cast loses anything, and a layout that does not fit is an error. -/
structure NoOverflow (events : List Event) : Prop where
  parse : ∀ n ∈ parseSums events, n < 2 ^ 64
  validate : ∀ schema, parseSchema events = .ok schema → ∀ n ∈ validateSums schema, n < 2 ^ 64
  resolve : ∀ schema, parseSchema events = .ok schema → ∀ n ∈ irSums schema, n < 2 ^ 64
  cast : ∀ schema, parseSchema events = .ok schema → ∀ n ∈ casts schema, n < 2 ^ 16
  reported : ∀ schema, parseSchema events = .ok schema → ¬ LayoutFits schema →
    ∃ e, validateSchema schema = .error e

/-! ## The parser -/

/-- The parser is in the state `s` when it reads the tag. -/
def ReadsTag (events : List Event) (s : ParseState) (e : Tag) : Prop :=
  Reads events s (.start e) ∨ Reads events s (.empty e)

/-- The ends of the fields of a block, as plain numbers. -/
def blockEnds (fields : List FieldDef) : List Nat :=
  sums (fun n => n) (fun _ _ => True) fieldEnd 0 fields

/-- The numbers of the text are small enough for the parser. -/
structure ParseBounded (events : List Event) : Prop where
  /-- The sizes of the members of a composite, up to each member. -/
  members : ∀ schema depth c e f, ReadsTag events (.composite schema depth c) e →
    e.name = "type" → parseCompositeField e c.2 = .ok f →
    ((c.1.fields ++ [f]).map (·.encodedLength)).sum < 2 ^ 64
  /-- The length of the type of a field, as it is declared by then. -/
  lengths : ∀ schema m outer b e f, ReadsTag events (.block schema m outer b) e →
    e.name = "field" → parseField e schema = .ok f →
    (declaration schema.types f.typeName).elim 0 TypeDef.plainLength < 2 ^ 64
  /-- The ends of the fields of a block. -/
  ends : ∀ fields, Closes events fields → ∀ n ∈ blockEnds fields, n < 2 ^ 64

variable {t : TypeDef} {schema : Schema} {events : List Event} {P : Nat → Prop} {e : Tag}
  {types : List TypeDef}

theorem lengthSums_lt_iff :
    (∀ n ∈ t.lengthSums, n < 2 ^ 64) ↔ t.plainLength < 2 ^ 64 := by
  cases t with
  | primitive p =>
    rw [TypeDef.lengthSums, TypeDef.plainLength]
    cases p.length with
    | none => exact iff_of_true (by rintro n ⟨⟩) (by simpa using p.primitiveType.size_lt)
    | some len => exact forall_mem_singleton
  | composite c =>
    rw [TypeDef.lengthSums, TypeDef.plainLength, bounded_iff, partialSums_lt_iff (by decide),
      Nat.zero_add]
  | enum e => exact iff_of_true (by rintro n ⟨⟩) e.encodingType.size_lt
  | set s => exact iff_of_true (by rintro n ⟨⟩) s.encodingType.size_lt

theorem declaredSums_lt_iff (h : Mapped schema) {name : String} :
    (∀ n ∈ (schema.getType name).elim [] TypeDef.lengthSums, n < 2 ^ 64) ↔
      (declaration schema.types name).elim 0 TypeDef.plainLength < 2 ^ 64 := by
  rw [getType_eq h]
  cases declaration schema.types name with
  | none => exact iff_of_true (by rintro n ⟨⟩) (by decide)
  | some t => exact lengthSums_lt_iff

theorem forall_mem_parseSums_iff :
    (∀ n ∈ parseSums events, P n) ↔
      ((∀ s e, ReadsTag events s e → ∀ n ∈ s.tagSums e, P n) ∧
        ∀ fields, Closes events fields → ∀ n ∈ blockSums fields, P n) := by
  constructor
  · intro h
    have hevent : ∀ s event, Reads events s event → ∀ n ∈ s.computes event, P n := by
      rintro s event ⟨before, after, hsplit, hrun⟩ n hn
      exact h n (Lib.Fallible.mem_trace_iff.mpr (.inl ⟨before, event, after, s, hsplit, hrun, hn⟩))
    refine ⟨?_, ?_⟩
    · rintro s e (hreads | hreads)
      all_goals exact hevent s _ hreads
    · rintro fields hcloses n hn
      cases hcloses with
      | @element s _ hreads hfields =>
        apply hevent s _ hreads
        rw [ParseState.computes, show s.innermost = some fields from hfields]
        exact hn
      | @text s _ hrun hfields =>
        refine h n (Lib.Fallible.mem_trace_iff.mpr (.inr ⟨s, hrun, ?_⟩))
        exact mem_flatMap.mpr ⟨fields, hfields, hn⟩
  · rintro ⟨htags, hblocks⟩ n hn
    rcases Lib.Fallible.mem_trace_iff.mp hn with
      ⟨before, event, after, s, hsplit, hrun, hout⟩ | ⟨s, hrun, hlast⟩
    · have hreads : Reads events s event := ⟨before, after, hsplit, hrun⟩
      cases event with
      | start e => exact htags s e (.inl hreads) n hout
      | empty e => exact htags s e (.inr hreads) n hout
      | endTag =>
        rw [ParseState.computes] at hout
        cases hinner : s.innermost with
        | none =>
          rw [hinner] at hout
          cases hout
        | some fields =>
          rw [hinner] at hout
          exact hblocks fields (.element hreads hinner) n hout
      | text _ | other | err _ => cases hout
    · obtain ⟨fields, hfields, hn⟩ := mem_flatMap.mp hlast
      exact hblocks fields (.text hrun hfields) n hn

theorem from_of_readsTag {s : ParseState} (h : ReadsTag events s e) :
    s.From (InText events) (Closes events) := by
  rcases h with ⟨before, after, hsplit, hrun⟩ | ⟨before, after, hsplit, hrun⟩
  all_goals exact from_of_foldlM hsplit hrun

/-- A member of a composite. -/
theorem forall_mem_tagSums_composite_iff {depth : Nat} {c : CompositeDef × Nat} :
    (∀ n ∈ (ParseState.composite schema depth c).tagSums e, P n) ↔
      ∀ f, e.name = "type" → parseCompositeField e c.2 = .ok f → P (c.2 + f.encodedLength) := by
  rw [ParseState.tagSums]
  split_ifs with hname
  · cases parseCompositeField e c.2 with
    | error err => simp
    | ok f => simp [hname]
  · simp [hname]

/-- A field of a block. -/
theorem forall_mem_tagSums_block_iff {m : MessageDef} {outer : List (Block × GroupDef)}
    {b : Block} :
    (∀ n ∈ (ParseState.block schema m outer b).tagSums e, P n) ↔
      ∀ f, e.name = "field" → parseField e schema = .ok f →
        ∀ n ∈ (schema.getType f.typeName).elim [] TypeDef.lengthSums, P n := by
  rw [ParseState.tagSums]
  split_ifs with hname
  · cases parseField e schema with
    | error err => simp
    | ok f => simp [hname]
  · simp [hname]

/-- The numbers of the parser fit exactly if the sizes of members, the lengths of types and the
ends of fields in the text do. -/
theorem parseSums_lt_iff :
    (∀ n ∈ parseSums events, n < 2 ^ 64) ↔ ParseBounded events := by
  -- the sum of the sizes is the running offset of the parser
  have hsum : ∀ {schema depth c e}, ReadsTag events (.composite schema depth c) e →
      ∀ f : CompositeField,
        ((c.1.fields ++ [f]).map (·.encodedLength)).sum = c.2 + f.encodedLength := by
    intro schema depth c e hreads f
    obtain ⟨-, -, hsum⟩ := from_of_readsTag hreads
    rw [map_append, sum_append, hsum]
    rfl
  rw [forall_mem_parseSums_iff]
  constructor
  · rintro ⟨htags, hblocks⟩
    refine ⟨?_, ?_, fun fields hcloses => bounded_iff.mp (hblocks fields hcloses)⟩
    · intro schema depth c e f hreads hname hparse
      rw [hsum hreads]
      exact forall_mem_tagSums_composite_iff.mp (htags _ e hreads) f hname hparse
    · intro schema m outer b e f hreads hname hparse
      obtain ⟨hschema, -⟩ := from_of_readsTag hreads
      rw [← declaredSums_lt_iff hschema.mapped]
      exact forall_mem_tagSums_block_iff.mp (htags _ e hreads) f hname hparse
  · intro h
    refine ⟨?_, fun fields hcloses => bounded_iff.mpr (h.ends fields hcloses)⟩
    intro s e hreads
    cases s with
    | composite schema depth c =>
      rw [forall_mem_tagSums_composite_iff]
      intro f hname hparse
      rw [← hsum hreads]
      exact h.members schema depth c e f hreads hname hparse
    | block schema m outer b =>
      rw [forall_mem_tagSums_block_iff]
      intro f hname hparse
      obtain ⟨hschema, -⟩ := from_of_readsTag hreads
      rw [declaredSums_lt_iff hschema.mapped]
      exact h.lengths schema m outer b e f hreads hname hparse
    | _ =>
      intro n hn
      cases hn

/-- The ends of the fields of a closed block are the numbers that were computed. -/
theorem map_stop_autoComputeFieldOffsets (running : Nat) (raw : List FieldDef) :
    (autoComputeFieldOffsets running raw).map FieldDef.stop =
      sums (· % 2 ^ 64) (fun _ _ => True) fieldEnd running raw := by
  induction raw generalizing running with
  | nil => rfl
  | cons f rest ih =>
    rw [autoComputeFieldOffsets_cons, map_cons, ih, sums, if_pos trivial]
    rfl

/-- If the numbers of the parser fit, the fields of every block end below `2 ^ 64`. -/
theorem stop_lt_of_parseBounded (h : ParseBounded events) (hparse : parseSchema events = .ok schema)
    {fields : List FieldDef} (hfields : BlockOf schema fields) : ∀ f ∈ fields, f.stop < 2 ^ 64 := by
  obtain ⟨raw, hcloses, rfl⟩ := exists_closes hparse hfields
  intro f hf
  have hmem := mem_map_of_mem (f := FieldDef.stop) hf
  rw [map_stop_autoComputeFieldOffsets] at hmem
  exact bounded_iff.mpr (h.ends raw hcloses) _ hmem

/-! ## The validator -/

theorem checkSums_lt_iff :
    (∀ n ∈ t.checkSums, n < 2 ^ 64) ↔ ∀ n ∈ t.memberEnds, n < 2 ^ 64 := by
  cases t with
  | composite c => exact bounded_iff
  | set s =>
    refine iff_of_true ?_ (by rintro n ⟨⟩)
    rw [TypeDef.checkSums, forall_mem_singleton]
    cases s.encodingType <;> decide
  | enum e | primitive p => rfl

/-- The ends of the members are below `2 ^ 64`, for each type that comes behind sound types. -/
def MembersBounded (types : List TypeDef) : Prop :=
  ∀ before t after, types = before ++ t :: after → (∀ t' ∈ before, t'.Sound) →
    ∀ n ∈ t.memberEnds, n < 2 ^ 64

theorem membersBounded_cons_iff :
    MembersBounded (t :: types) ↔
      (∀ n ∈ t.memberEnds, n < 2 ^ 64) ∧ (t.Sound → MembersBounded types) := by
  unfold MembersBounded
  rw [forall_split_cons_iff]
  constructor
  · rintro ⟨hfirst, hrest⟩
    refine ⟨hfirst (by rintro t' ⟨⟩), fun hsound before t' after hsplit hbefore => ?_⟩
    exact hrest before t' after hsplit (forall_mem_cons.mpr ⟨hsound, hbefore⟩)
  · rintro ⟨hfirst, hrest⟩
    refine ⟨fun _ => hfirst, fun before t' after hsplit hbefore => ?_⟩
    rw [forall_mem_cons] at hbefore
    exact hrest hbefore.1 before t' after hsplit hbefore.2

theorem typeSums_lt_iff :
    (∀ n ∈ (visitedTypes types).flatMap TypeDef.checkSums, n < 2 ^ 64) ↔ MembersBounded types := by
  induction types with
  | nil => exact iff_of_true (by rintro n ⟨⟩) forall_split_nil
  | cons t rest ih =>
    rw [membersBounded_cons_iff, ← ih, visitedTypes, flatMap_cons, forall_mem_append,
      checkSums_lt_iff]
    refine and_congr_right fun hends => ?_
    rw [← TypeDef.checked_iff_sound hends]
    split_ifs with hchecked
    · exact ⟨fun h _ => h, fun h => h hchecked⟩
    · exact iff_of_true (by rintro n ⟨⟩) fun h => absurd h hchecked

/-- Then the checks of all types are the conditions on them. -/
theorem forall_checked_iff (h : MembersBounded types) :
    (∀ t ∈ types, t.Checked) ↔ ∀ t ∈ types, t.Sound := by
  induction types with
  | nil => exact iff_of_true (by rintro t ⟨⟩) (by rintro t ⟨⟩)
  | cons t rest ih =>
    obtain ⟨hends, hrest⟩ := membersBounded_cons_iff.mp h
    rw [forall_mem_cons, forall_mem_cons, TypeDef.checked_iff_sound hends]
    exact and_congr_right fun hsound => ih (hrest hsound)

section Messages

variable {schema : Schema}

variable {m : MessageDef} {seenIds : List UInt16} {seenNames : List String}
  {messages : List MessageDef}

theorem calculated_lt_iff (h : ∀ f ∈ m.fields, f.stop < 2 ^ 64) :
    (∀ n ∈ calculated schema m, n < 2 ^ 16) ↔
      (FieldsOrdered schema m.fields → lastStop m.fields < 2 ^ 16) := by
  have hblock := m.blockLength.toNat_lt
  rw [calculated]
  cases hfields : validateFields schema 0 m.fields with
  | error e =>
    refine iff_of_true (by rintro n ⟨⟩) fun hordered => ?_
    rw [(validateFields_eq_ok_iff_ordered h).mpr ⟨hordered, rfl⟩] at hfields
    cases hfields
  | ok last =>
    obtain ⟨hordered, rfl⟩ := (validateFields_eq_ok_iff_ordered h).mp hfields
    rw [forall_prop_of_true hordered]
    dsimp only
    split_ifs with hlong
    · exact forall_mem_singleton
    · exact iff_of_true (by rintro n ⟨⟩) (by omega)

/-- The fields end below `2 ^ 16` if they are ordered, for each message that comes behind sound
messages with other ids and names. -/
def CastsBounded (schema : Schema) (seenIds : List UInt16) (seenNames : List String)
    (messages : List MessageDef) : Prop :=
  ∀ before m after, messages = before ++ m :: after → (∀ m' ∈ before, MessageSound schema m') →
    Fresh (·.id) seenIds (before ++ [m]) → Fresh (·.name) seenNames (before ++ [m]) →
    FieldsOrdered schema m.fields → lastStop m.fields < 2 ^ 16

theorem castsBounded_cons_iff :
    CastsBounded schema seenIds seenNames (m :: messages) ↔
      (m.id ∉ seenIds ∧ m.name ∉ seenNames →
        (FieldsOrdered schema m.fields → lastStop m.fields < 2 ^ 16) ∧
          (MessageSound schema m →
            CastsBounded schema (m.id :: seenIds) (m.name :: seenNames) messages)) := by
  unfold CastsBounded
  rw [forall_split_cons_iff]
  simp only [nil_append, cons_append, fresh_cons_iff, forall_mem_cons]
  constructor
  · rintro ⟨hfirst, hrest⟩ ⟨hid, hname⟩
    refine ⟨hfirst (by rintro m' ⟨⟩) ⟨hid, fresh_nil⟩ ⟨hname, fresh_nil⟩, ?_⟩
    intro hsound before m' after hsplit hbefore hids hnames
    exact hrest before m' after hsplit ⟨hsound, hbefore⟩ ⟨hid, hids⟩ ⟨hname, hnames⟩
  · intro h
    refine ⟨fun _ hids hnames => (h ⟨hids.1, hnames.1⟩).1, ?_⟩
    intro before m' after hsplit hbefore hids hnames
    exact (h ⟨hids.1, hnames.1⟩).2 hbefore.1 before m' after hsplit hbefore.2 hids.2 hnames.2

theorem castsFrom_lt_iff (h : ∀ m ∈ messages, ∀ f ∈ m.fields, f.stop < 2 ^ 64) :
    (∀ n ∈ (visitedFrom schema seenIds seenNames messages).flatMap (calculated schema),
      n < 2 ^ 16) ↔ CastsBounded schema seenIds seenNames messages := by
  induction messages generalizing seenIds seenNames with
  | nil => exact iff_of_true (by rintro n ⟨⟩) forall_split_nil
  | cons m rest ih =>
    rw [forall_mem_cons] at h
    rw [visitedFrom, castsBounded_cons_iff, ← not_or]
    split_ifs with hseen hsound
    · exact iff_of_true (by rintro n ⟨⟩) fun h => absurd hseen h
    · rw [forall_prop_of_true hseen, flatMap_cons, forall_mem_append,
        calculated_lt_iff h.1, ih h.2,
        forall_prop_of_true ((validateMessageFields_eq_ok_iff h.1).mp hsound)]
    · rw [validateMessageFields_eq_ok_iff h.1] at hsound
      rw [forall_prop_of_true hseen, flatMap_singleton, calculated_lt_iff h.1]
      exact (and_iff_left fun h => absurd h hsound).symm

theorem mem_of_mem_visitedFrom (h : m ∈ visitedFrom schema seenIds seenNames messages) :
    m ∈ messages := by
  induction messages generalizing seenIds seenNames with
  | nil => cases h
  | cons m' rest ih =>
    rw [visitedFrom] at h
    split_ifs at h
    · cases h
    · rcases mem_cons.mp h with rfl | h
      · exact mem_cons_self
      · exact mem_cons_of_mem _ (ih h)
    · rw [mem_singleton.mp h]
      exact mem_cons_self

end Messages

/-! ## The whole text -/

/-- The numbers of a parsed schema are small enough for the validator and for the resolved
schema. -/
structure SchemaBounded (schema : Schema) : Prop where
  lengths : ∀ t ∈ schema.types, t.plainLength < 2 ^ 64
  members : MembersBounded schema.types
  casts : (∀ t ∈ schema.types, t.Sound) → CastsBounded schema [] [] schema.messages
  blocks : Sound schema → ∀ fields, BlockOf schema fields → ∀ f ∈ fields, f.stop < 2 ^ 16

section Text

variable {schema : Schema}

theorem irSums_lt_iff :
    (∀ n ∈ irSums schema, n < 2 ^ 64) ↔ ∀ t ∈ schema.types, t.plainLength < 2 ^ 64 := by
  rw [irSums, forall_mem_flatMap]
  exact forall₂_congr fun t _ => lengthSums_lt_iff

/-- The fields are no obstacle, as their ends were computed before. -/
theorem validateSums_lt_iff
    (hstops : ∀ m ∈ schema.messages, ∀ f ∈ m.fields, f.stop < 2 ^ 64) :
    (∀ n ∈ validateSums schema, n < 2 ^ 64) ↔ MembersBounded schema.types := by
  rw [validateSums, forall_mem_append, typeSums_lt_iff]
  refine and_iff_left ?_
  intro n hn
  obtain ⟨m, hm, hn⟩ := mem_flatMap.mp hn
  obtain ⟨f, hf, rfl⟩ := mem_sums_stop hn
  rw [visitedMessages] at hm
  split_ifs at hm
  · exact hstops m (mem_of_mem_visitedFrom hm) f hf
  · cases hm

section

variable (hmembers : MembersBounded schema.types)
  (hstops : ∀ m ∈ schema.messages, ∀ f ∈ m.fields, f.stop < 2 ^ 64)
include hmembers hstops

theorem casts_lt_iff :
    (∀ n ∈ casts schema, n < 2 ^ 16) ↔
      ((∀ t ∈ schema.types, t.Sound) → CastsBounded schema [] [] schema.messages) := by
  rw [casts, visitedMessages, ← forall_checked_iff hmembers, ← validateTypes_eq_ok_iff]
  split_ifs with htypes
  · rw [castsFrom_lt_iff hstops, forall_prop_of_true htypes]
  · exact iff_of_true (by rintro n ⟨⟩) fun h => absurd h htypes

theorem reported_iff (hlengths : ∀ t ∈ schema.types, t.plainLength < 2 ^ 64) :
    (¬ LayoutFits schema → ∃ e, validateSchema schema = .error e) ↔
      (Sound schema → ∀ fields, BlockOf schema fields → ∀ f ∈ fields, f.stop < 2 ^ 16) := by
  rw [← validateSchema_eq_ok_iff (forall_checked_iff hmembers) hstops]
  constructor
  · intro h hvalid
    by_contra hblocks
    obtain ⟨e, he⟩ := h fun hfits => hblocks hfits.blocks
    rw [hvalid] at he
    cases he
  · intro h hfits
    cases hvalid : validateSchema schema with
    | error e => exact ⟨e, rfl⟩
    | ok u => exact absurd ⟨hlengths, h hvalid⟩ hfits

end

end Text

/-- No number overflows and every layout that does not fit is an error, exactly if the numbers
of the text are small enough. -/
theorem noOverflow_iff (events : List Event) :
    NoOverflow events ↔ ParseBounded events ∧
      ∀ schema, parseSchema events = .ok schema → SchemaBounded schema := by
  constructor
  · intro h
    have hbounded := parseSums_lt_iff.mp h.parse
    refine ⟨hbounded, fun schema hparse => ?_⟩
    have hstops : ∀ m ∈ schema.messages, ∀ f ∈ m.fields, f.stop < 2 ^ 64 := fun m hm =>
      stop_lt_of_parseBounded hbounded hparse (.message hm)
    have hmembers := (validateSums_lt_iff hstops).mp (h.validate schema hparse)
    have hlengths := irSums_lt_iff.mp (h.resolve schema hparse)
    exact ⟨hlengths, hmembers, (casts_lt_iff hmembers hstops).mp (h.cast schema hparse),
      (reported_iff hmembers hstops hlengths).mp (h.reported schema hparse)⟩
  · rintro ⟨hbounded, hschema⟩
    have hstops : ∀ schema, parseSchema events = .ok schema →
        ∀ m ∈ schema.messages, ∀ f ∈ m.fields, f.stop < 2 ^ 64 := fun schema hparse m hm =>
      stop_lt_of_parseBounded hbounded hparse (.message hm)
    refine ⟨parseSums_lt_iff.mpr hbounded, ?_, ?_, ?_, ?_⟩
    · intro schema hparse
      exact (validateSums_lt_iff (hstops schema hparse)).mpr (hschema schema hparse).members
    · intro schema hparse
      exact irSums_lt_iff.mpr (hschema schema hparse).lengths
    · intro schema hparse
      have h := hschema schema hparse
      exact (casts_lt_iff h.members (hstops schema hparse)).mpr h.casts
    · intro schema hparse
      have h := hschema schema hparse
      exact (reported_iff h.members (hstops schema hparse) h.lengths).mpr h.blocks

/-- A type of one byte, and a field of it at the largest offset that can be written. -/
def overflowEvents : List Event :=
  [.start ⟨"messageSchema", [("package", "orders"), ("id", "1"), ("version", "1")]⟩,
    .start ⟨"types", []⟩, .empty ⟨"type", [("name", "Side"), ("primitiveType", "uint8")]⟩, .endTag,
    .start ⟨"message", [("name", "Order"), ("id", "1"), ("blockLength", "8")]⟩,
    .empty ⟨"field",
      [("name", "side"), ("id", "1"), ("type", "Side"), ("offset", "18446744073709551615")]⟩,
    .endTag, .endTag]

/-- The end of the field is `2 ^ 64`, which is stored as zero; the validator accepts the schema. -/
theorem not_noOverflow_offset :
    ∃ schema, parseSchema overflowEvents = .ok schema ∧ validateSchema schema = .ok () ∧
      parseSums overflowEvents = [2 ^ 64] ∧ validateSums schema = [2 ^ 64] ∧
      ¬ LayoutFits schema ∧ ¬ NoOverflow overflowEvents := by
  refine ⟨_, rfl, by decide, rfl, rfl, fun h => ?_, fun h => ?_⟩
  · have hstop := h.blocks _ (.message mem_cons_self) _ mem_cons_self
    revert hstop
    decide
  · have hlt := h.parse (2 ^ 64) mem_cons_self
    revert hlt
    decide

end IronSbe.Schema
