import Mathlib.Data.List.Forall2
import IronSbe.Schema.Incremental
import IronSbe.Schema.Ir

/-!
# Where the definitions of a schema come from

A parsed schema was read off the tags of a text: the members of a composite off
`type` tags, the fields of a block off `field` tags.  `MembersRead` and `FieldsRead`
say which definitions a list of tags gives.  A field is read with the schema as it is
at that point, which has the types that are declared before the message.

* `parseCompositeField_eq_ok`, `offset_of_parseField`: the offset of a definition, by
  the attributes of its tag.
* `declaration`: the type that a name stands for, in the parser
  (`lengthAtParse_eq`) and in the resolved schema (`lookup_resolvedTypes_eq`).
* `schemaFrom_of_parseSchema`: every composite and every block of a parsed schema has
  its tags in the text.
* `exists_closes`: every block of a parsed schema was closed by the parser.
-/

namespace IronSbe.Schema

open List

/-! ## Attributes -/

/-- The number in an attribute; the last attribute of the name counts. -/
def Tag.number (e : Tag) (key : String) : Option Nat :=
  e.attributes.foldl (fun n (k, value) => if k = key then parseUsize value else n) none

/-- The primitive type that a tag names. -/
def Tag.primitive (e : Tag) : Option PrimitiveType :=
  e.attributes.foldl (fun p (key, value) =>
    if key = "primitiveType" then PrimitiveType.fromSbeName value else p) none

variable {e : Tag} {start : Nat} {f : CompositeField} {s schema : Schema} {tags : List Tag}
  {fields : List FieldDef} {events : List Event}

/-- What a tag makes of a member of a composite. -/
theorem parseCompositeField_eq_ok (h : parseCompositeField e start = .ok f) :
    ∃ prim, e.primitive = some prim ∧ f.primitiveType = some prim ∧
      f.encodedLength = prim.size ∧ f.offset = some ((e.number "offset").getD start) := by
  obtain ⟨attrs, hattrs, h⟩ := Lib.Fallible.bind_eq_ok h
  obtain ⟨prim, hprim, h⟩ := Lib.Fallible.bind_eq_ok h
  cases h
  have hread := Lib.Fallible.project_of_foldlM
    (g := fun (p : Option Nat × Option PrimitiveType) (key, value) =>
      (if key = "offset" then parseUsize value else p.1,
        if key = "primitiveType" then PrimitiveType.fromSbeName value else p.2))
    (fun attrs : MemberAttributes => (attrs.offset, attrs.primitiveType))
    (fun s attr s' hs => by
      obtain ⟨key, value⟩ := attr
      dsimp only at hs ⊢
      split at hs
      · cases hs
        rfl
      · obtain ⟨p, hp, hs⟩ := Lib.Fallible.bind_eq_ok hs
        cases hs
        rw [if_pos rfl, eq_some_of_orInvalid hp]
        rfl
      · obtain ⟨offset, hoffset, hs⟩ := Lib.Fallible.bind_eq_ok hs
        cases hs
        rw [if_pos rfl, eq_some_of_orInvalid hoffset]
        rfl
      · cases hs
        rfl
      · cases hs
        rfl
      · rename_i hprim hoffset _ _
        cases hs
        rw [if_neg hprim, if_neg hoffset]) hattrs
  have hoffset : attrs.offset = e.number "offset" :=
    (congrArg Prod.fst hread).trans (foldl_hom Prod.fst fun _ _ => rfl).symm
  have hprimitive : attrs.primitiveType = e.primitive :=
    (congrArg Prod.snd hread).trans (foldl_hom Prod.snd fun _ _ => rfl).symm
  refine ⟨prim, ?_, rfl, rfl, ?_⟩
  · rw [← hprimitive, eq_some_of_orMissing hprim]
  · rw [← hoffset]
    cases attrs.offset <;> rfl

theorem constantValue_of_parsePrimitiveTypeEmpty {t : PrimitiveDef}
    (h : parsePrimitiveTypeEmpty e = .ok t) : t.constantValue ≠ some "" := by
  obtain ⟨attrs, -, h⟩ := Lib.Fallible.bind_eq_ok h
  obtain ⟨prim, -, h⟩ := Lib.Fallible.bind_eq_ok h
  cases h
  exact nofun

theorem fields_parseCompositeAttributes (e : Tag) : (parseCompositeAttributes e).fields = [] := by
  unfold parseCompositeAttributes
  refine foldlRecOn (motive := fun c : CompositeDef => c.fields = []) _ _ rfl ?_
  rintro c hc ⟨key, value⟩ -
  dsimp only
  split <;> exact hc

/-- A field without an offset gets the offset zero. -/
theorem offset_of_parseField {f : FieldDef} (h : parseField e schema = .ok f) :
    f.offset = (e.number "offset").getD 0 := by
  obtain ⟨field, hfield, h⟩ := Lib.Fallible.bind_eq_ok h
  cases h
  show field.offset = _
  refine Lib.Fallible.simulate_of_foldlM
    (fun (f : FieldDef) (n : Option Nat) => f.offset = n.getD 0) (fun s attr s' n hn hs => ?_)
    rfl hfield
  obtain ⟨key, value⟩ := attr
  have hset : ∀ {γ : Type} {x : Except ParseError γ} {f : γ → FieldDef},
      (x >>= fun g => .ok (f g)) = .ok s' → (∀ g, (f g).offset = s.offset) →
      s'.offset = n.getD 0 := by
    intro γ x f hx hf
    obtain ⟨g, -, hg⟩ := Lib.Fallible.bind_eq_ok hx
    rw [← Except.ok.inj hg, hf, hn]
  have hkeep : ∀ {f : FieldDef}, (.ok f : Except ParseError FieldDef) = .ok s' →
      f.offset = s.offset → s'.offset = n.getD 0 := by
    intro f hf hoffset
    rw [← Except.ok.inj hf, hoffset, hn]
  dsimp only at hs ⊢
  split at hs
  · exact hkeep hs rfl
  · exact hset hs fun _ => rfl
  · exact hkeep hs rfl
  · obtain ⟨offset, hoffset, hs⟩ := Lib.Fallible.bind_eq_ok hs
    cases hs
    rw [if_pos rfl, eq_some_of_orInvalid hoffset]
    rfl
  · exact hset hs fun _ => rfl
  · exact hkeep hs rfl
  · exact hkeep hs rfl
  · exact hkeep hs rfl
  · exact hkeep hs rfl
  · exact hkeep hs rfl
  · rename_i hother _ _ _ _ _ _
    rw [if_neg hother]
    exact hkeep hs rfl

/-! ## The type that a name stands for -/

/-- The last of the types with the name. -/
def declaration (types : List TypeDef) (name : String) : Option TypeDef :=
  types.reverse.find? fun t => t.name == name

/-- The length of the last of the types with the name, zero if there is none. -/
def declaredLength (types : List TypeDef) (name : String) : Nat :=
  ((declaration types name).map TypeDef.encodedLength).getD 0

theorem declaration_append (types : List TypeDef) (t : TypeDef) (name : String) :
    declaration (types ++ [t]) name = if t.name = name then some t else declaration types name := by
  rw [declaration, reverse_append, reverse_singleton, singleton_append,
    find?_cons]
  by_cases h : t.name = name
  · rw [if_pos h, h, beq_self_eq_true]
  · rw [if_neg h, beq_eq_false_iff_ne.mpr h]
    rfl

theorem mem_of_declaration {types : List TypeDef} {name : String} {t : TypeDef}
    (h : declaration types name = some t) : t ∈ types :=
  mem_reverse.mp (mem_of_find?_eq_some h)

theorem name_of_declaration {types : List TypeDef} {name : String} {t : TypeDef}
    (h : declaration types name = some t) : t.name = name := by
  rw [declaration] at h
  have hname := find?_some h
  exact beq_iff_eq.mp hname

/-- The type map leads to the last type of each name. -/
def Mapped (s : Schema) : Prop :=
  ∀ name, match s.typeMap.lookup name with
    | none => declaration s.types name = none
    | some index => ∃ t, s.types[index]? = some t ∧ declaration s.types name = some t

theorem mapped_of_empty (htypes : s.types = []) (hmap : s.typeMap = []) :
    Mapped s := by
  intro name
  rw [hmap, htypes]
  rfl

theorem Mapped.addType (h : Mapped s) (t : TypeDef) : Mapped (s.addType t) := by
  intro name
  have hname := h name
  show match ((t.name, s.types.length) :: s.typeMap).lookup name with
    | none => declaration (s.types ++ [t]) name = none
    | some index => ∃ t', (s.types ++ [t])[index]? = some t' ∧
        declaration (s.types ++ [t]) name = some t'
  rw [lookup_cons, declaration_append]
  by_cases heq : t.name = name
  · rw [if_pos heq, beq_iff_eq.mpr heq.symm]
    exact ⟨t, getElem?_concat_length, rfl⟩
  · rw [if_neg heq, beq_eq_false_iff_ne.mpr (Ne.symm heq)]
    cases hlookup : s.typeMap.lookup name with
    | none =>
      rw [hlookup] at hname
      exact hname
    | some index =>
      rw [hlookup] at hname
      obtain ⟨t', ht', hdecl⟩ := hname
      have hlt : index < s.types.length := (List.getElem?_eq_some_iff.mp ht').1
      exact ⟨t', (getElem?_append_left hlt).trans ht', hdecl⟩

/-- The type that the map finds is the last one declared. -/
theorem getType_eq (h : Mapped s) (name : String) : s.getType name = declaration s.types name := by
  have hname := h name
  unfold getType
  cases hlookup : s.typeMap.lookup name with
  | none =>
    rw [hlookup] at hname
    exact hname.symm
  | some index =>
    rw [hlookup] at hname
    obtain ⟨t, ht, hdecl⟩ := hname
    rw [Option.bind_some, ht, hdecl]

/-- The length that a field gets while it is parsed. -/
theorem lengthAtParse_eq (h : Mapped s) (name : String) :
    lengthAtParse s name = declaredLength s.types name := by
  rw [lengthAtParse, getType_eq h, declaredLength]
  cases declaration s.types name <;> rfl

theorem name_fromTypeDef (t : TypeDef) : (ResolvedType.fromTypeDef t).name = t.name := by
  cases t <;> rfl

/-- The type that the resolved schema finds under a name. -/
theorem lookup_resolvedTypes_eq (types : List TypeDef) (name : String) :
    (SchemaIr.resolvedTypes types).lookup name =
      (declaration types name).map ResolvedType.fromTypeDef := by
  rw [SchemaIr.resolvedTypes_eq, declaration, ← map_reverse]
  induction types.reverse with
  | nil => rfl
  | cons t rest ih =>
    rw [map_cons, lookup_cons, find?_cons, name_fromTypeDef, ih]
    by_cases heq : t.name = name
    · rw [heq, beq_self_eq_true]
      rfl
    · rw [beq_eq_false_iff_ne.mpr heq, beq_eq_false_iff_ne.mpr (Ne.symm heq)]

/-! ## Definitions and their tags -/

/-- The tags give these members, the first one at `start`. -/
def MembersRead : Nat → List Tag → List CompositeField → Prop
  | _, [], [] => True
  | start, e :: tags, f :: fields =>
    parseCompositeField e start = .ok f ∧ MembersRead (start + f.encodedLength) tags fields
  | _, _, _ => False

/-- The tags give these fields, read with the schema `s`. -/
def FieldsRead (s : Schema) (tags : List Tag) (fields : List FieldDef) : Prop :=
  List.Forall₂ (fun e f => parseField e s = .ok f) tags fields

theorem membersRead_append {fields : List CompositeField} (h : MembersRead start tags fields)
    (hf : parseCompositeField e (start + (fields.map (·.encodedLength)).sum) = .ok f) :
    MembersRead start (tags ++ [e]) (fields ++ [f]) := by
  induction tags generalizing start fields with
  | nil =>
    cases fields with
    | nil => exact ⟨hf, trivial⟩
    | cons f' fields => exact h.elim
  | cons e' tags ih =>
    cases fields with
    | nil => exact h.elim
    | cons f' fields =>
      refine ⟨h.1, ih h.2 ?_⟩
      rw [Nat.add_assoc]
      exact hf

theorem FieldsRead.exists_tag (h : FieldsRead s tags fields) {f : FieldDef} (hf : f ∈ fields) :
    ∃ e ∈ tags, parseField e s = .ok f := by
  induction h with
  | nil => cases hf
  | @cons e f' tags fields hparse _ ih =>
    rcases mem_cons.mp hf with rfl | hf
    · exact ⟨e, mem_cons_self, hparse⟩
    · obtain ⟨e', he', hparse'⟩ := ih hf
      exact ⟨e', mem_cons_of_mem _ he', hparse'⟩

/-- A group of the list or one nested in it. -/
inductive GroupDef.Within : List GroupDef → GroupDef → Prop where
  | here {groups : List GroupDef} {g : GroupDef} : g ∈ groups → Within groups g
  | inside {groups : List GroupDef} {g g' : GroupDef} :
    g ∈ groups → Within g.nestedGroups g' → Within groups g'

theorem GroupDef.within_append {groups : List GroupDef} {g g' : GroupDef}
    (h : Within (groups ++ [g]) g') :
    Within groups g' ∨ g' = g ∨ Within g.nestedGroups g' := by
  cases h with
  | here hmem =>
    rcases mem_append.mp hmem with hmem | hmem
    · exact .inl (.here hmem)
    · exact .inr (.inl (mem_singleton.mp hmem))
  | @inside _ mid _ hmem hin =>
    rcases mem_append.mp hmem with hmem | hmem
    · exact .inl (.inside hmem hin)
    · rw [mem_singleton.mp hmem] at hin
      exact .inr (.inr hin)

/-- The fields of a message or of a group, nested ones included. -/
inductive BlockOf (s : Schema) : List FieldDef → Prop where
  | message {m : MessageDef} : m ∈ s.messages → BlockOf s m.fields
  | group {m : MessageDef} {g : GroupDef} :
    m ∈ s.messages → GroupDef.Within m.groups g → BlockOf s g.fields

/-! ## The parser reads definitions off tags -/

section Parser

variable (T : Tag → Prop) (Q : List FieldDef → Prop)

/-- The members were read off tags of `T`. -/
def MembersFrom (fields : List CompositeField) : Prop :=
  ∃ tags, (∀ e ∈ tags, T e) ∧ MembersRead 0 tags fields

/-- The fields were read off tags of `T` with the schema `s`. -/
def FieldsFrom (s : Schema) (fields : List FieldDef) : Prop :=
  ∃ tags, (∀ e ∈ tags, T e) ∧ FieldsRead s tags fields

/-- The fields of a block that is closed, with `Q` for what is known of a block that the parser
closes. -/
def ClosedFrom (s : Schema) (fields : List FieldDef) : Prop :=
  ∃ raw, FieldsFrom T s raw ∧ Q raw ∧ fields = autoComputeFieldOffsets 0 raw

/-- The contents of a block that is open. -/
structure BlockFrom (s : Schema) (b : Block) : Prop where
  fields : FieldsFrom T s b.fields
  groups : ∀ g, GroupDef.Within b.groups g → ClosedFrom T Q s g.fields

/-- The members of a composite were read off tags of `T`; the text of a type is not empty. -/
def TypeFrom : TypeDef → Prop
  | .composite c => MembersFrom T c.fields
  | .primitive p => p.constantValue ≠ some ""
  | .enum _ | .set _ => True

/-- The definitions of a schema were read off tags of `T`, those of a block with a
schema that has the first types of this one. -/
structure SchemaFrom (s : Schema) : Prop where
  mapped : Mapped s
  types : ∀ t ∈ s.types, TypeFrom T t
  blocks : ∀ fields, BlockOf s fields →
    ∃ before : Schema, before.types <+: s.types ∧ Mapped before ∧ ClosedFrom T Q before fields

/-- The fields of the innermost block that is open. -/
def ParseState.innermost : ParseState → Option (List FieldDef)
  | .block _ _ _ b => some b.fields
  | _ => none

/-- The fields of the blocks that are open, the innermost one first. -/
def ParseState.openBlocks : ParseState → List (List FieldDef)
  | .block _ _ outer b => b.fields :: outer.map fun p => p.1.fields
  | _ => []

/-- What the parser holds between two events was read off tags of `T`. -/
def ParseState.From : ParseState → Prop
  | .outside schema => ∀ s ∈ schema, SchemaFrom T Q s
  | .composite s _ c =>
    SchemaFrom T Q s ∧ MembersFrom T c.1.fields ∧ c.2 = (c.1.fields.map (·.encodedLength)).sum
  | .block s _ outer b => SchemaFrom T Q s ∧ BlockFrom T Q s b ∧ ∀ p ∈ outer, BlockFrom T Q s p.1
  | .primitiveType s _ t => SchemaFrom T Q s ∧ t.constantValue ≠ some ""
  | .types s _ | .enum s _ _ | .enumValue s _ _ _ | .set s _ _
  | .choice s _ _ _ => SchemaFrom T Q s

variable {T : Tag → Prop} {Q : List FieldDef → Prop}

variable {s : Schema} {e : Tag} {b : Block}

theorem SchemaFrom.addType (h : SchemaFrom T Q s) {t : TypeDef} (ht : TypeFrom T t) :
    SchemaFrom T Q (s.addType t) where
  mapped := h.mapped.addType t
  types := forall_mem_append.mpr ⟨h.types, forall_mem_singleton.mpr ht⟩
  blocks := by
    intro fields hfields
    have hblock : BlockOf s fields := by
      cases hfields with
      | message hm => exact .message hm
      | group hm hg => exact .group hm hg
    obtain ⟨before, hprefix, hread⟩ := h.blocks fields hblock
    exact ⟨before, hprefix.trans (prefix_append _ _), hread⟩

theorem FieldsFrom.addField {fields : List FieldDef} {f : FieldDef} (h : FieldsFrom T s fields)
    (he : T e) (hf : parseField e s = .ok f) :
    FieldsFrom T s (fields ++ [f]) := by
  obtain ⟨tags, htags, hread⟩ := h
  exact ⟨tags ++ [e], forall_mem_append.mpr ⟨htags, forall_mem_singleton.mpr he⟩,
    rel_append hread (.cons hf .nil)⟩

theorem blockFrom_empty (s : Schema) : BlockFrom T Q s {} where
  fields := ⟨[], nofun, .nil⟩
  groups g hg := by
    cases hg with
    | here hmem | inside hmem => cases hmem

/-- A group is closed and goes into the block around it. -/
theorem BlockFrom.addGroup {b' : Block} (hb' : BlockFrom T Q s b') (hb : BlockFrom T Q s b)
    (hq : Q b.fields) (g : GroupDef) :
    BlockFrom T Q s (b'.addGroup (b.toGroup g)) where
  fields := hb'.fields
  groups := by
    intro g' hg'
    rcases GroupDef.within_append hg' with hg' | rfl | hg'
    · exact hb'.groups g' hg'
    · exact ⟨b.fields, hb.fields, hq, rfl⟩
    · exact hb.groups g' hg'

/-- The message is closed. -/
theorem SchemaFrom.addMessage (h : SchemaFrom T Q s) (hb : BlockFrom T Q s b) (hq : Q b.fields)
    (m : MessageDef) :
    SchemaFrom T Q { s with messages := s.messages ++ [b.toMessage m] } where
  mapped := h.mapped
  types := h.types
  blocks := by
    intro fields hfields
    have hnew : ∀ {fields}, ClosedFrom T Q s fields → ∃ before : Schema,
        before.types <+: s.types ∧ Mapped before ∧ ClosedFrom T Q before fields :=
      fun hread => ⟨s, prefix_rfl, h.mapped, hread⟩
    cases hfields with
    | message hm =>
      rcases mem_append.mp hm with hm | hm
      · exact h.blocks _ (.message hm)
      · rw [mem_singleton.mp hm]
        exact hnew ⟨b.fields, hb.fields, hq, rfl⟩
    | @group _ g hm hg =>
      rcases mem_append.mp hm with hm | hm
      · exact h.blocks _ (.group hm hg)
      · rw [mem_singleton.mp hm] at hg
        exact hnew (hb.groups g hg)

/-- A schema starts without types and messages. -/
theorem empty_of_parseMessageSchema {e : Tag} {s : Schema} (h : parseMessageSchema e = .ok s) :
    s.types = [] ∧ s.typeMap = [] ∧ s.messages = [] := by
  refine Lib.Fallible.invariant_of_foldlM
    (fun s : Schema => s.types = [] ∧ s.typeMap = [] ∧ s.messages = []) ?_ ⟨rfl, rfl, rfl⟩ h
  rintro s ⟨key, val⟩ s' hs hstep
  have hset : ∀ {γ : Type} {x : Except ParseError γ} {f : γ → Schema},
      (x >>= fun g => .ok (f g)) = .ok s' → ∃ g, f g = s' := by
    intro γ x f hx
    obtain ⟨g, -, hg⟩ := Lib.Fallible.bind_eq_ok hx
    exact ⟨g, Except.ok.inj hg⟩
  dsimp only at hstep
  split at hstep
  · cases hstep
    exact hs
  · obtain ⟨_, rfl⟩ := hset hstep
    exact hs
  · obtain ⟨_, rfl⟩ := hset hstep
    exact hs
  · cases hstep
    exact hs
  · cases hstep
    exact hs
  · obtain ⟨_, rfl⟩ := hset hstep
    exact hs
  all_goals
    cases hstep
    exact hs

theorem schemaFrom_of_parseMessageSchema (h : parseMessageSchema e = .ok s) : SchemaFrom T Q s := by
  obtain ⟨htypes, hmap, hmessages⟩ := empty_of_parseMessageSchema h
  refine ⟨mapped_of_empty htypes hmap, ?_, ?_⟩
  · intro t ht
    rw [htypes] at ht
    cases ht
  · intro fields hfields
    cases hfields with
    | message hm | group hm =>
      rw [hmessages] at hm
      cases hm

theorem ParseState.from_some (h : SchemaFrom T Q s) :
    (ParseState.outside (some s)).From T Q := by
  rintro s' ⟨⟩
  exact h

/-- A loop that ends hands on what was read. -/
theorem ParseState.From.close {s : ParseState} (h : s.From T Q)
    (hq : ∀ fields ∈ s.innermost, Q fields) : s.close.From T Q := by
  cases s with
  | outside schema | enumValue schema depth d v | choice schema depth d c => exact h
  | types schema depth => exact from_some h
  | primitiveType schema depth t => exact h.1.addType h.2
  | composite schema depth c => exact h.1.addType h.2.1
  | enum schema depth d | set schema depth d => exact SchemaFrom.addType h trivial
  | block schema m outer b =>
    obtain ⟨hschema, hb, houter⟩ := h
    have hfields : Q b.fields := hq _ rfl
    cases outer with
    | nil => exact from_some (hschema.addMessage hb hfields m)
    | cons p outer =>
      rw [forall_mem_cons] at houter
      exact ⟨hschema, houter.1.addGroup hb hfields p.2, houter.2⟩

theorem MembersFrom.addMember {fields : List CompositeField} {f : CompositeField}
    (h : MembersFrom T fields) (he : T e)
    (hf : parseCompositeField e (fields.map (·.encodedLength)).sum = .ok f) :
    MembersFrom T (fields ++ [f]) := by
  obtain ⟨tags, htags, hread⟩ := h
  exact ⟨tags ++ [e], forall_mem_append.mpr ⟨htags, forall_mem_singleton.mpr he⟩,
    membersRead_append hread (by rwa [Nat.zero_add])⟩

/-- One event. -/
theorem ParseState.From.step {s s' : ParseState} {event : Event} (h : s.From T Q)
    (he : ∀ e, event = .start e ∨ event = .empty e → T e)
    (hq : event = .endTag → ∀ fields ∈ s.innermost, Q fields) (hmove : s.Moves event s') :
    s'.From T Q := by
  cases hmove with
  | skip _ | openEnum | openSet | count | openValue | openChoice | valueText | choiceText => exact h
  | openSchema _ hparse => exact from_some (schemaFrom_of_parseMessageSchema hparse)
  | openTypes _ => exact h _ rfl
  | openMessage _ _ => exact ⟨h _ rfl, blockFrom_empty _, by rintro p ⟨⟩⟩
  | openType hparse => exact ⟨h, constantValue_of_parsePrimitiveTypeEmpty hparse⟩
  | emptyType hparse => exact SchemaFrom.addType h (constantValue_of_parsePrimitiveTypeEmpty hparse)
  | openComposite =>
    refine ⟨h, ?_⟩
    rw [fields_parseCompositeAttributes]
    exact ⟨⟨[], by rintro e ⟨⟩, trivial⟩, rfl⟩
  | member htag hparse =>
    obtain ⟨hschema, hmembers, hsum⟩ := h
    rw [hsum] at hparse
    refine ⟨hschema, hmembers.addMember (he _ htag) hparse, ?_⟩
    rw [hsum, map_append, sum_append]
    rfl
  | field htag hparse =>
    exact ⟨h.1, ⟨h.2.1.fields.addField (he _ htag) hparse, h.2.1.groups⟩, h.2.2⟩
  | openGroup => exact ⟨h.1, blockFrom_empty _, forall_mem_cons.mpr ⟨h.2.1, h.2.2⟩⟩
  | data => exact ⟨h.1, ⟨h.2.1.fields, h.2.1.groups⟩, h.2.2⟩
  | typeText htext => exact ⟨h.1, fun heq => htext (Option.some.inj heq)⟩
  | close => exact h.close (hq rfl)

/-- The end of the text. -/
theorem ParseState.From.result {s : ParseState} (h : s.From T Q)
    (hq : ∀ fields ∈ s.openBlocks, Q fields) {schema : Schema} (hs : s.result = some schema) :
    SchemaFrom T Q schema := by
  cases s with
  | outside schema => exact h _ hs
  | block schema m outer b =>
    obtain ⟨hschema, hb, houter⟩ := h
    have hclose : BlockFrom T Q schema (closeGroups outer b) ∧ Q (closeGroups outer b).fields := by
      clear hs
      induction outer generalizing b with
      | nil => exact ⟨hb, hq _ mem_cons_self⟩
      | cons p outer ih =>
        rw [forall_mem_cons] at houter
        rw [openBlocks, forall_mem_cons] at hq
        exact ih _ hq.2 (houter.1.addGroup hb hq.1 p.2) houter.2
    cases hs
    exact hschema.addMessage hclose.1 hclose.2 m
  | types schema depth =>
    cases hs
    exact h
  | primitiveType schema depth t | composite schema depth c =>
    cases hs
    exact ParseState.From.close h (by rintro fields ⟨⟩)
  | _ =>
    cases hs
    exact SchemaFrom.addType h trivial

end Parser

/-- The tag is in the text. -/
def InText (events : List Event) (e : Tag) : Prop := .start e ∈ events ∨ .empty e ∈ events

/-- The parser is in the state `s` when it reads the event. -/
def Reads (events : List Event) (s : ParseState) (event : Event) : Prop :=
  ∃ before after, events = before ++ event :: after ∧
    before.foldlM ParseState.step (.outside none) = .ok s

/-- The parser closes a block with these fields, at the end of an element or of the text. -/
inductive Closes (events : List Event) : List FieldDef → Prop where
  | element {s : ParseState} {fields : List FieldDef} :
    Reads events s .endTag → fields ∈ s.innermost → Closes events fields
  | text {s : ParseState} {fields : List FieldDef} :
    events.foldlM ParseState.step (.outside none) = .ok s → fields ∈ s.openBlocks →
    Closes events fields

/-- What the parser holds when it has read the first events. -/
theorem from_of_foldlM {before after : List Event} (hsplit : events = before ++ after)
    {s : ParseState} (hrun : before.foldlM ParseState.step (.outside none) = .ok s) :
    s.From (InText events) (Closes events) := by
  have hstart : (ParseState.outside none).From (InText events) (Closes events) := by
    rintro s ⟨⟩
  refine Lib.Fallible.invariant_of_foldlM_split _
    (fun first event rest s s' hfirst hs hfrom hstep => ?_) hstart hrun
  have hevents : events = first ++ event :: (rest ++ after) := by
    rw [hsplit, hfirst, append_assoc, cons_append]
  have hmem : event ∈ events := by
    rw [hevents]
    exact mem_append_right _ mem_cons_self
  refine hfrom.step ?_ ?_ (ParseState.moves_of_step hstep)
  · rintro e (rfl | rfl)
    · exact .inl hmem
    · exact .inr hmem
  · rintro rfl fields hfields
    exact .element ⟨first, _, hevents, hs⟩ hfields

/-- The definitions of a parsed schema were read off the tags of the text. -/
theorem schemaFrom_of_parseSchema (h : parseSchema events = .ok schema) :
    SchemaFrom (InText events) (Closes events) schema := by
  obtain ⟨s, hrun, hresult⟩ := run_of_parseSchema h
  have hend := from_of_foldlM (append_nil events).symm hrun
  exact hend.result (fun fields hfields => .text hrun hfields) hresult

/-- Every block of a parsed schema was closed and got its offsets then. -/
theorem exists_closes (h : parseSchema events = .ok schema) (hfields : BlockOf schema fields) :
    ∃ raw, Closes events raw ∧ fields = autoComputeFieldOffsets 0 raw := by
  obtain ⟨before, -, -, raw, -, hcloses, hclosed⟩ :=
    (schemaFrom_of_parseSchema h).blocks fields hfields
  exact ⟨raw, hcloses, hclosed⟩

/-- The fields of a block of `schema` were read off these tags of the text, with the
schema `before`. -/
structure ReadAs (events : List Event) (schema before : Schema) (tags : List Tag)
    (raw : List FieldDef) : Prop where
  inText : ∀ e ∈ tags, InText events e
  earlier : before.types <+: schema.types
  mapped : Mapped before
  read : FieldsRead before tags raw

/-- Every block of a parsed schema was read in this way and then got its offsets. -/
theorem exists_readAs (h : parseSchema events = .ok schema) (hfields : BlockOf schema fields) :
    ∃ before tags raw, ReadAs events schema before tags raw ∧
      fields = autoComputeFieldOffsets 0 raw := by
  obtain ⟨before, hearlier, hmapped, raw, ⟨tags, htags, hread⟩, -, hclosed⟩ :=
    (schemaFrom_of_parseSchema h).blocks fields hfields
  exact ⟨before, tags, raw, ⟨htags, hearlier, hmapped, hread⟩, hclosed⟩

end IronSbe.Schema
