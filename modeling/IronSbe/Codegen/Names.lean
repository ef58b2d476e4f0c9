import Mathlib.Data.List.Perm.Basic
import IronSbe.Lib.Affix
import IronSbe.Schema.Casing
import IronSbe.Schema.Soundness

/-!
# The names of the generated items

The names that `TypeGenerator`, `EnumGenerator` and `MessageGenerator` give to what they
generate, scope by scope: the structs and enums of the file, its modules, the structs of a
module, what an `impl` block holds and the variants of an enum.  `impl` blocks of a trait have
the items of the trait and are left out.

* `nodup_getterNames_iff`, `nodup_setterNames_iff`, `nodup_setImpl_iff`: when the items of a block
  are different, in terms of the names of the schema.
* `namesApart_iff`: when the items of every scope are.
* `not_namesApart_parties`: two groups may each have a nested group of one name.
-/

namespace IronSbe.Codegen

open Schema Lib.Affix List

/-! ## Structs, enums and modules -/

/-- The values of `ir.types`: of several entries of the table for one name, the last one
added counts. -/
def typeValues (ir : SchemaIr) : List ResolvedType :=
  (ir.types.map Prod.fst).dedup.filterMap fun name => ir.types.lookup name

/-- The composites that `TypeGenerator::generate` goes through. -/
def composites (ir : SchemaIr) : List (String × List CompositeFieldInfo) :=
  (typeValues ir).filterMap fun t =>
    match t.kind with
    | .composite fields =>
      if toLowercase t.name = toLowercase "messageHeader" then none else some (t.name, fields)
    | _ => none

/-- The enums that `EnumGenerator::generate` goes through. -/
def enums (ir : SchemaIr) : List (String × List EnumVariant) :=
  (typeValues ir).filterMap fun t =>
    match t.kind with
    | .enum _ variants => some (t.name, variants)
    | _ => none

/-- The sets that `EnumGenerator::generate` goes through. -/
def sets (ir : SchemaIr) : List (String × List SetVariant) :=
  (typeValues ir).filterMap fun t =>
    match t.kind with
    | .set _ choices => some (t.name, choices)
    | _ => none

/-- The structs and enums at the top level. -/
def topLevelItems (ir : SchemaIr) : List String :=
  (composites ir).flatMap (fun c => [toPascalCase c.1, toPascalCase c.1 ++ "Encoder"]) ++
    (enums ir).map (fun e => toPascalCase e.1) ++ (sets ir).map (fun s => toPascalCase s.1) ++
    (ir.messages.map (·.name)).flatMap
      fun name => ["Decoder", "Encoder"].map fun suffix => name ++ suffix

/-- The modules, one for each message with a group. -/
def moduleNames (cls : CharClasses) (ir : SchemaIr) : List String :=
  (ir.messages.filter fun m => !m.groups.isEmpty).map fun m => toSnakeCase cls m.name

/-- The endings of `decoder_name`, `entry_decoder_name`, `encoder_name` and
`entry_encoder_name` of a group. -/
def groupSuffixes : List String :=
  ["GroupDecoder", "EntryDecoder", "GroupEncoder", "EntryEncoder"]

/-- The structs in the module of a message: those of its groups, of the groups in these and
so on. -/
def moduleItems (m : ResolvedMessage) : List String :=
  ((ResolvedGroup.nestedAll m.groups).map fun g => toPascalCase g.name).flatMap
    fun name => groupSuffixes.map fun suffix => name ++ suffix

/-! ## The blocks -/

/-- An array field whose elements are bytes has a second getter. -/
def IsText (f : ResolvedField) : Prop :=
  f.isArray = true ∧ (f.primitiveType.map PrimitiveType.rustType).getD .u8 = .u8

instance (f : ResolvedField) : Decidable (IsText f) := inferInstanceAs (Decidable (_ ∧ _))

/-- The methods of `generate_field_getter`. -/
def fieldGetters (cls : CharClasses) (f : ResolvedField) : List String :=
  toSnakeCase cls f.name :: if IsText f then [toSnakeCase cls f.name ++ "_as_str"] else []

/-- The items of a block of getters: the `fixed` ones, those of the fields and one for each of
the `others`. -/
def getterNames (cls : CharClasses) (fixed : List String) (fields : List ResolvedField)
    (others : List String) : List String :=
  fixed ++ (fields.flatMap (fieldGetters cls) ++ others.map (toSnakeCase cls))

/-- The items of a block of setters: the `fixed` ones, one for each name of `set` and one for
each name of `counted`. -/
def setterNames (cls : CharClasses) (fixed set counted : List String) : List String :=
  fixed ++ (set.map (fun n => "set_" ++ toSnakeCase cls n) ++
    counted.map fun n => toSnakeCase cls n ++ "_count")

/-- The two blocks of `generate_composite`. -/
def compositeImpls (cls : CharClasses) (members : List CompositeFieldInfo) : List (List String) :=
  [getterNames cls ["ENCODED_LENGTH", "wrap"] [] (members.map (·.name)),
    setterNames cls ["ENCODED_LENGTH", "wrap"] (members.map (·.name)) []]

/-- The items of a set that do not depend on its choices. -/
def setMethods : List String := ["new", "from_raw", "raw", "is_set", "set", "clear"]

/-- The beginnings of the methods of a choice. -/
def choicePrefixes : List String := ["is_", "set_", "clear_"]

/-- The block of `generate_set`. -/
def setImpl (cls : CharClasses) (choices : List SetVariant) : List String :=
  choices.map (fun c => toScreamingSnakeCase cls c.name) ++ (setMethods ++
    (choices.map fun c => toSnakeCase cls c.name).flatMap
      fun name => choicePrefixes.map fun first => first ++ name)

/-- The blocks of `generate_decoder` and `generate_encoder`. -/
def messageImpls (cls : CharClasses) (m : ResolvedMessage) : List (List String) :=
  [getterNames cls ["TEMPLATE_ID", "BLOCK_LENGTH", "wrap"] m.fields (m.groups.map (·.name)),
    setterNames cls ["TEMPLATE_ID", "BLOCK_LENGTH", "wrap", "write_header", "encoded_length"]
      (m.fields.map (·.name)) (m.groups.map (·.name))]

/-- The blocks of `generate_group_decoder` and `generate_group_encoder`, with those of the
entries. -/
def groupImpls (cls : CharClasses) (g : ResolvedGroup) : List (List String) :=
  [["wrap", "count", "is_empty"], getterNames cls ["wrap"] g.fields [],
    ["BLOCK_LENGTH", "wrap", "next_entry", "encoded_length"],
    setterNames cls ["wrap"] (g.fields.map (·.name)) []]

/-- All blocks. -/
def implBlocks (cls : CharClasses) (ir : SchemaIr) : List (List String) :=
  (composites ir).flatMap (fun c => compositeImpls cls c.2) ++
    (sets ir).map (fun s => setImpl cls s.2) ++
    ir.messages.flatMap fun m =>
      messageImpls cls m ++ (ResolvedGroup.nestedAll m.groups).flatMap (groupImpls cls)

/-- The items of every scope have different names. -/
structure NamesApart (cls : CharClasses) (ir : SchemaIr) : Prop where
  topLevel : (topLevelItems ir).Nodup
  modules : (moduleNames cls ir).Nodup
  structs : ∀ m ∈ ir.messages, (moduleItems m).Nodup
  methods : ∀ items ∈ implBlocks cls ir, items.Nodup
  variants : ∀ e ∈ enums ir, (e.2.map fun v => toPascalCase v.name).Nodup

/-! ## Conditions on the names of the schema -/

variable {cls : CharClasses} {fixed : List String}

section getters
variable {fields : List ResolvedField} {others : List String}

/-- The methods of a decoder have different names. -/
structure GettersApart (cls : CharClasses) (fields : List ResolvedField) (others : List String) :
    Prop where
  distinct : ((fields.map (·.name) ++ others).map (toSnakeCase cls)).Nodup
  wrap : ∀ n ∈ fields.map (·.name) ++ others, toSnakeCase cls n ≠ "wrap"
  asStr : ∀ n ∈ fields.map (·.name) ++ others, ∀ f ∈ fields, IsText f →
    toSnakeCase cls n ≠ toSnakeCase cls f.name ++ "_as_str"

/-- The second getters of the fields. -/
def textGetters (cls : CharClasses) (fields : List ResolvedField) : List String :=
  fields.flatMap fun f => if IsText f then [toSnakeCase cls f.name ++ "_as_str"] else []

theorem mem_textGetters {s : String} :
    s ∈ textGetters cls fields ↔
      ∃ f ∈ fields, IsText f ∧ toSnakeCase cls f.name ++ "_as_str" = s := by
  rw [textGetters, mem_flatMap]
  refine exists_congr fun f => and_congr_right fun _ => ?_
  split
  case isTrue h => simp [h, eq_comm]
  case isFalse h => simp [h]

theorem nodup_textGetters (h : (fields.map fun f => toSnakeCase cls f.name).Nodup) :
    (textGetters cls fields).Nodup := by
  induction fields with
  | nil => exact nodup_nil
  | cons f rest ih =>
    rw [map_cons, nodup_cons] at h
    show ((if IsText f then [_] else []) ++ textGetters cls rest).Nodup
    split
    · refine nodup_cons.mpr ⟨fun hmem => ?_, ih h.2⟩
      obtain ⟨g, hg, -, heq⟩ := mem_textGetters.mp hmem
      apply h.1
      rw [← (String.append_left_inj _).mp heq]
      exact mem_map_of_mem hg
    · exact ih h.2

theorem getterNames_perm (cls : CharClasses) (fixed : List String) (fields : List ResolvedField)
    (others : List String) :
    (getterNames cls fixed fields others).Perm
      (fixed ++ ((fields.map (·.name) ++ others).map (toSnakeCase cls) ++
        textGetters cls fields)) := by
  refine List.Perm.append_left fixed ?_
  rw [map_append, map_map]
  have hfields : (fields.flatMap (fieldGetters cls)).Perm
      (fields.map (toSnakeCase cls ∘ (·.name)) ++ textGetters cls fields) :=
    (map_append_flatMap_perm fields _ _).symm
  refine (hfields.append_right _).trans ?_
  rw [append_assoc, append_assoc]
  exact List.Perm.append_left _ perm_append_comm

/-- The fixed items have capital letters, apart from `wrap`, and none of them is like a second
getter. -/
structure FixedGetters (fixed : List String) : Prop where
  nodup : fixed.Nodup
  wrap : "wrap" ∈ fixed
  eq_wrap : ∀ s ∈ fixed, Lower s → s = "wrap"
  asStr : ∀ s ∈ fixed, ¬ "_as_str".toList <:+ s.toList

theorem nodup_getterNames_iff (hfixed : FixedGetters fixed) :
    (getterNames cls fixed fields others).Nodup ↔ GettersApart cls fields others := by
  rw [(getterNames_perm cls fixed fields others).nodup_iff, nodup_append, nodup_append]
  constructor
  · rintro ⟨-, ⟨hnames, -, htexts⟩, hdis⟩
    refine ⟨hnames, fun n hn heq => ?_, fun n hn f hf htext => ?_⟩
    · exact hdis "wrap" hfixed.wrap _ (mem_append_left _ (mem_map_of_mem hn)) heq.symm
    · exact htexts _ (mem_map_of_mem hn) _ (mem_textGetters.mpr ⟨f, hf, htext, rfl⟩)
  · intro h
    have hfields : (fields.map fun f => toSnakeCase cls f.name).Nodup := by
      have hnodup := h.distinct
      rw [map_append, map_map] at hnodup
      exact hnodup.of_append_left
    refine ⟨hfixed.nodup, ⟨h.distinct, nodup_textGetters hfields, ?_⟩, ?_⟩
    · intro s hs t ht
      obtain ⟨n, hn, rfl⟩ := mem_map.mp hs
      obtain ⟨f, hf, htext, rfl⟩ := mem_textGetters.mp ht
      exact h.asStr n hn f hf htext
    · rintro s hs _ ht rfl
      rcases mem_append.mp ht with ht | ht
      · obtain ⟨n, hn, rfl⟩ := mem_map.mp ht
        exact h.wrap n hn (hfixed.eq_wrap _ hs (lower_toSnakeCase cls n))
      · obtain ⟨f, -, -, heq⟩ := mem_textGetters.mp ht
        exact ne_of_not_suffix (hfixed.asStr s hs) heq

end getters

section setters
variable {set counted : List String}

/-- The methods of an encoder have different names. -/
structure SettersApart (cls : CharClasses) (set counted : List String) : Prop where
  distinct : (set.map (toSnakeCase cls)).Nodup
  counts : (counted.map (toSnakeCase cls)).Nodup
  apart : ∀ n ∈ set, ∀ g ∈ counted, "set_" ++ toSnakeCase cls n ≠ toSnakeCase cls g ++ "_count"

/-- None of the fixed items is like a setter or like the encoder of a group. -/
structure FixedSetters (fixed : List String) : Prop where
  nodup : fixed.Nodup
  set : ∀ s ∈ fixed, ¬ "set_".toList <+: s.toList
  count : ∀ s ∈ fixed, ¬ "_count".toList <:+ s.toList

theorem nodup_setterNames_iff (hfixed : FixedSetters fixed) :
    (setterNames cls fixed set counted).Nodup ↔ SettersApart cls set counted := by
  rw [setterNames, nodup_append, nodup_append,
    nodup_map_comp_iff (append_left_injective "set_"),
    nodup_map_comp_iff (append_right_injective "_count")]
  constructor
  · rintro ⟨-, ⟨hset, hcounted, hapart⟩, -⟩
    exact ⟨hset, hcounted, fun n hn g hg =>
      hapart _ (mem_map_of_mem hn) _ (mem_map_of_mem hg)⟩
  · intro h
    refine ⟨hfixed.nodup, ⟨h.distinct, h.counts, ?_⟩, ?_⟩
    · intro s hs t ht
      obtain ⟨n, hn, rfl⟩ := mem_map.mp hs
      obtain ⟨g, hg, rfl⟩ := mem_map.mp ht
      exact h.apart n hn g hg
    · rintro s hs _ ht rfl
      rcases mem_append.mp ht with ht | ht
      · obtain ⟨n, -, heq⟩ := mem_map.mp ht
        exact ne_of_not_isPrefix (hfixed.set s hs) heq
      · obtain ⟨g, -, heq⟩ := mem_map.mp ht
        exact ne_of_not_suffix (hfixed.count s hs) heq

end setters

section choices
variable {choices : List SetVariant}

/-- The constants and the methods of a set have different names. -/
structure ChoicesApart (cls : CharClasses) (choices : List SetVariant) : Prop where
  constants : (choices.map fun c => toScreamingSnakeCase cls c.name).Nodup
  distinct : (choices.map fun c => toSnakeCase cls c.name).Nodup
  set : ∀ c ∈ choices, toSnakeCase cls c.name ≠ "set"

/-- A method of a choice is one of the other methods only as `is_set`. -/
theorem eq_set_of_mem_setMethods {first s : String} (hfirst : first ∈ choicePrefixes)
    (h : first ++ s ∈ setMethods) : s = "set" := by
  have hlist : ∀ p ∈ choicePrefixes, ∀ t ∈ setMethods, p.toList <+: t.toList →
      p = "is_" ∧ t = "is_" ++ "set" := by decide
  obtain ⟨rfl, heq⟩ := hlist first hfirst _ h ⟨s.toList, String.toList_append.symm⟩
  exact (String.append_right_inj "is_").mp heq

/-- A constant has no small letter, which every method has. -/
theorem ne_method_of_upper {s t : String} (hs : Upper s)
    (ht : t ∈ setMethods ∨ ∃ first ∈ choicePrefixes, ∃ rest, t = first ++ rest) : s ≠ t := by
  have hmethods : ∀ t ∈ setMethods, ¬ Upper t := by decide
  have hprefixes : ∀ p ∈ choicePrefixes, ¬ Upper p := by decide
  rintro rfl
  rcases ht with ht | ⟨first, hfirst, rest, rfl⟩
  · exact hmethods s ht hs
  · refine hprefixes first hfirst fun c hc => hs c ?_
    rw [String.toList_append]
    exact mem_append_left _ hc

theorem nodup_setImpl_iff : (setImpl cls choices).Nodup ↔ ChoicesApart cls choices := by
  have hfree : PrefixFree choicePrefixes := by decide
  have hmethods : setMethods.Nodup := by decide
  rw [setImpl, nodup_append, nodup_append, nodup_prefixed_iff hfree (by decide)]
  constructor
  · rintro ⟨hconstants, ⟨-, hdistinct, hset⟩, -⟩
    refine ⟨hconstants, hdistinct, fun c hc heq => ?_⟩
    have hmem : "is_set" ∈ (choices.map fun c => toSnakeCase cls c.name).flatMap
        fun name => choicePrefixes.map fun first => first ++ name := by
      refine mem_flatMap.mpr ⟨_, mem_map_of_mem hc, ?_⟩
      rw [heq]
      decide
    exact hset "is_set" (by decide) _ hmem rfl
  · intro h
    refine ⟨h.constants, ⟨hmethods, h.distinct, ?_⟩, ?_⟩
    · rintro s hs _ ht rfl
      obtain ⟨name, hname, ht⟩ := mem_flatMap.mp ht
      obtain ⟨c, hc, rfl⟩ := mem_map.mp hname
      obtain ⟨first, hfirst, rfl⟩ := mem_map.mp ht
      exact h.set c hc (eq_set_of_mem_setMethods hfirst hs)
    · intro s hs t ht
      obtain ⟨c, -, rfl⟩ := mem_map.mp hs
      apply ne_method_of_upper (upper_toScreamingSnakeCase cls c.name)
      rcases mem_append.mp ht with ht | ht
      · exact .inl ht
      · obtain ⟨name, -, ht⟩ := mem_flatMap.mp ht
        obtain ⟨first, hfirst, rfl⟩ := mem_map.mp ht
        exact .inr ⟨first, hfirst, name, rfl⟩

end choices

/-! ## The top level -/

/-- The names of the types with a struct or an enum of their own. -/
def typeNames (ir : SchemaIr) : List String :=
  ((composites ir).map (·.1) ++ (enums ir).map (·.1)) ++ (sets ir).map (·.1)

/-- The types, the decoders and the encoders have different names. -/
structure TopLevelApart (ir : SchemaIr) : Prop where
  types : ((typeNames ir).map toPascalCase).Nodup
  messages : (ir.messages.map (·.name)).Nodup
  /-- No type is called as the encoder of a composite. -/
  encoders : ∀ t ∈ typeNames ir, ∀ c ∈ composites ir,
    toPascalCase t ≠ toPascalCase c.1 ++ "Encoder"
  /-- No type is called as the decoder or the encoder of a message. -/
  codecs : ∀ t ∈ typeNames ir, ∀ m ∈ ir.messages,
    toPascalCase t ≠ m.name ++ "Decoder" ∧ toPascalCase t ≠ m.name ++ "Encoder"
  /-- No message is called as a composite. -/
  composites : ∀ c ∈ composites ir, ∀ m ∈ ir.messages, toPascalCase c.1 ≠ m.name

theorem suffixFree_codecs : SuffixFree ["Decoder", "Encoder"] := by decide

/-- The encoders of the composites. -/
def compositeEncoders (ir : SchemaIr) : List String :=
  (composites ir).map fun c => toPascalCase c.1 ++ "Encoder"

/-- The decoders and encoders of the messages. -/
def messageCodecs (ir : SchemaIr) : List String :=
  (ir.messages.map (·.name)).flatMap
    fun name => ["Decoder", "Encoder"].map fun suffix => name ++ suffix

theorem mem_messageCodecs {ir : SchemaIr} {s : String} :
    s ∈ messageCodecs ir ↔
      ∃ m ∈ ir.messages, s = m.name ++ "Decoder" ∨ s = m.name ++ "Encoder" := by
  simp [messageCodecs]

theorem topLevelItems_perm (ir : SchemaIr) :
    (topLevelItems ir).Perm
      ((typeNames ir).map toPascalCase ++ (compositeEncoders ir ++ messageCodecs ir)) := by
  have hcomposites : ((composites ir).flatMap
      fun c => [toPascalCase c.1, toPascalCase c.1 ++ "Encoder"]).Perm
        (((composites ir).map fun c => toPascalCase c.1) ++ compositeEncoders ir) := by
    refine (map_append_flatMap_perm (composites ir) _ _).symm.trans ?_
    rw [compositeEncoders, ← map_eq_flatMap]
  rw [topLevelItems, typeNames, map_append, map_append, map_map, map_map,
    map_map, ← append_assoc]
  refine List.Perm.append_right _ ?_
  refine ((hcomposites.append_right _).append_right _).trans ?_
  rw [append_assoc, append_assoc, append_assoc, append_assoc]
  refine List.Perm.append_left _ ?_
  refine perm_append_comm.trans ?_
  rw [append_assoc]
  exact List.Perm.refl _

theorem nodup_topLevelItems_iff {ir : SchemaIr} :
    (topLevelItems ir).Nodup ↔ TopLevelApart ir := by
  rw [(topLevelItems_perm ir).nodup_iff, nodup_append, nodup_append, messageCodecs,
    nodup_suffixed_iff suffixFree_codecs (by decide), ← messageCodecs]
  constructor
  · rintro ⟨htypes, ⟨-, hmessages, hencoders⟩, hdis⟩
    refine ⟨htypes, hmessages, fun t ht c hc => ?_, fun t ht m hm => ⟨?_, ?_⟩,
      fun c hc m hm heq => ?_⟩
    · exact hdis _ (mem_map_of_mem ht) _ (mem_append_left _ (mem_map_of_mem hc))
    · exact hdis _ (mem_map_of_mem ht) _
        (mem_append_right _ (mem_messageCodecs.mpr ⟨m, hm, .inl rfl⟩))
    · exact hdis _ (mem_map_of_mem ht) _
        (mem_append_right _ (mem_messageCodecs.mpr ⟨m, hm, .inr rfl⟩))
    · refine hencoders _ (mem_map_of_mem hc) _ (mem_messageCodecs.mpr ⟨m, hm, .inr rfl⟩) ?_
      rw [heq]
  · intro h
    have hcomposites : ((composites ir).map fun c => toPascalCase c.1).Nodup := by
      have htypes := h.types
      rw [typeNames, map_append, map_append, map_map] at htypes
      exact htypes.of_append_left.of_append_left
    refine ⟨h.types, ⟨?_, h.messages, ?_⟩, ?_⟩
    · rw [compositeEncoders, nodup_map_comp_iff (append_right_injective "Encoder")]
      exact hcomposites
    · intro s hs t ht
      obtain ⟨c, hc, rfl⟩ := mem_map.mp hs
      obtain ⟨m, hm, rfl | rfl⟩ := mem_messageCodecs.mp ht
      · intro heq
        have hsuffix := (append_inj_of_suffixFree suffixFree_codecs (by decide) (by decide) heq).2
        exact absurd hsuffix (by decide)
      · intro heq
        exact h.composites c hc m hm ((String.append_left_inj _).mp heq)
    · intro s hs t ht
      obtain ⟨n, hn, rfl⟩ := mem_map.mp hs
      rcases mem_append.mp ht with ht | ht
      · obtain ⟨c, hc, rfl⟩ := mem_map.mp ht
        exact h.encoders n hn c hc
      · obtain ⟨m, hm, rfl | rfl⟩ := mem_messageCodecs.mp ht
        · exact (h.codecs n hn m hm).1
        · exact (h.codecs n hn m hm).2

/-! ## All scopes -/

/-- What the names of a schema have to be for the names of the program to be different. -/
structure ConvertedApart (cls : CharClasses) (ir : SchemaIr) : Prop where
  topLevel : TopLevelApart ir
  /-- The messages with a group are different in snake case. -/
  modules : (moduleNames cls ir).Nodup
  /-- The groups of a message, at any depth, are different in Pascal case. -/
  groups : ∀ m ∈ ir.messages,
    ((ResolvedGroup.nestedAll m.groups).map fun g => toPascalCase g.name).Nodup
  compositeGetters : ∀ c ∈ composites ir, GettersApart cls [] (c.2.map (·.name))
  choices : ∀ s ∈ sets ir, ChoicesApart cls s.2
  messageGetters : ∀ m ∈ ir.messages, GettersApart cls m.fields (m.groups.map (·.name))
  messageSetters : ∀ m ∈ ir.messages,
    SettersApart cls (m.fields.map (·.name)) (m.groups.map (·.name))
  entryGetters : ∀ m ∈ ir.messages, ∀ g ∈ ResolvedGroup.nestedAll m.groups,
    GettersApart cls g.fields []
  variants : ∀ e ∈ enums ir, (e.2.map fun v => toPascalCase v.name).Nodup

theorem fixedGetters_message : FixedGetters ["TEMPLATE_ID", "BLOCK_LENGTH", "wrap"] := by
  refine ⟨by decide, by decide, by decide, by decide⟩

theorem fixedGetters_entry : FixedGetters ["wrap"] := by
  refine ⟨by decide, by decide, by decide, by decide⟩

theorem fixedGetters_composite : FixedGetters ["ENCODED_LENGTH", "wrap"] := by
  refine ⟨by decide, by decide, by decide, by decide⟩

theorem fixedSetters_message :
    FixedSetters ["TEMPLATE_ID", "BLOCK_LENGTH", "wrap", "write_header", "encoded_length"] := by
  refine ⟨by decide, by decide, by decide⟩

theorem fixedSetters_entry : FixedSetters ["wrap"] := by
  refine ⟨by decide, by decide, by decide⟩

theorem fixedSetters_composite : FixedSetters ["ENCODED_LENGTH", "wrap"] := by
  refine ⟨by decide, by decide, by decide⟩

/-- Setters alone are different if the getters are. -/
theorem GettersApart.settersApart {fields : List ResolvedField} {others set : List String}
    (h : GettersApart cls fields others) (hset : fields.map (·.name) ++ others = set) :
    SettersApart cls set [] := by
  refine ⟨?_, nodup_nil, fun n _ g hg => ?_⟩
  · rw [← hset]
    exact h.distinct
  · cases hg

theorem forall_mem_compositeImpls_iff {members : List CompositeFieldInfo} :
    (∀ items ∈ compositeImpls cls members, items.Nodup) ↔
      GettersApart cls [] (members.map (·.name)) := by
  rw [compositeImpls, forall_mem_cons, forall_mem_singleton,
    nodup_getterNames_iff fixedGetters_composite, nodup_setterNames_iff fixedSetters_composite]
  exact and_iff_left_of_imp fun h => h.settersApart rfl

theorem forall_mem_groupImpls_iff {g : ResolvedGroup} :
    (∀ items ∈ groupImpls cls g, items.Nodup) ↔ GettersApart cls g.fields [] := by
  rw [groupImpls, forall_mem_cons, forall_mem_cons, forall_mem_cons,
    forall_mem_singleton, nodup_getterNames_iff fixedGetters_entry,
    nodup_setterNames_iff fixedSetters_entry]
  constructor
  · rintro ⟨-, hgetters, -, -⟩
    exact hgetters
  · intro h
    exact ⟨by decide, h, by decide, h.settersApart (append_nil _)⟩

theorem forall_mem_messageImpls_iff {m : ResolvedMessage} :
    (∀ items ∈ messageImpls cls m, items.Nodup) ↔
      GettersApart cls m.fields (m.groups.map (·.name)) ∧
        SettersApart cls (m.fields.map (·.name)) (m.groups.map (·.name)) := by
  rw [messageImpls, forall_mem_cons, forall_mem_singleton,
    nodup_getterNames_iff fixedGetters_message, nodup_setterNames_iff fixedSetters_message]

theorem forall_mem_implBlocks_iff {ir : SchemaIr} :
    (∀ items ∈ implBlocks cls ir, items.Nodup) ↔
      ((∀ c ∈ composites ir, GettersApart cls [] (c.2.map (·.name))) ∧
        ∀ s ∈ sets ir, ChoicesApart cls s.2) ∧
      ∀ m ∈ ir.messages, (GettersApart cls m.fields (m.groups.map (·.name)) ∧
        SettersApart cls (m.fields.map (·.name)) (m.groups.map (·.name))) ∧
        ∀ g ∈ ResolvedGroup.nestedAll m.groups, GettersApart cls g.fields [] := by
  simp only [implBlocks, forall_mem_append, forall_mem_flatMap, forall_mem_map,
    forall_mem_compositeImpls_iff, forall_mem_groupImpls_iff, forall_mem_messageImpls_iff,
    nodup_setImpl_iff]

/-- The names of the program are different exactly if those of the schema stay different in
the conversions, scope by scope. -/
theorem namesApart_iff (cls : CharClasses) (ir : SchemaIr) :
    NamesApart cls ir ↔ ConvertedApart cls ir := by
  have hfree : SuffixFree groupSuffixes := by decide
  have hstructs : ∀ m : ResolvedMessage, (moduleItems m).Nodup ↔
      ((ResolvedGroup.nestedAll m.groups).map fun g => toPascalCase g.name).Nodup :=
    fun m => nodup_suffixed_iff hfree (by decide)
  constructor
  · intro h
    obtain ⟨⟨hcomposites, hsets⟩, hmessages⟩ := forall_mem_implBlocks_iff.mp h.methods
    exact
      { topLevel := nodup_topLevelItems_iff.mp h.topLevel
        modules := h.modules
        groups := fun m hm => (hstructs m).mp (h.structs m hm)
        compositeGetters := hcomposites
        choices := hsets
        messageGetters := fun m hm => (hmessages m hm).1.1
        messageSetters := fun m hm => (hmessages m hm).1.2
        entryGetters := fun m hm => (hmessages m hm).2
        variants := h.variants }
  · intro h
    exact
      { topLevel := nodup_topLevelItems_iff.mpr h.topLevel
        modules := h.modules
        structs := fun m hm => (hstructs m).mpr (h.groups m hm)
        methods := forall_mem_implBlocks_iff.mpr
          ⟨⟨h.compositeGetters, h.choices⟩, fun m hm =>
            ⟨⟨h.messageGetters m hm, h.messageSetters m hm⟩, h.entryGetters m hm⟩⟩
        variants := h.variants }

/-- The names of a schema are different among their siblings. -/
structure SiblingsApart (schema : Schema) : Prop where
  types : (schema.types.map TypeDef.name).Nodup
  messages : (schema.messages.map (·.name)).Nodup
  values : ∀ e, .enum e ∈ schema.types → (e.validValues.map (·.name)).Nodup
  choices : ∀ s, .set s ∈ schema.types → (s.choices.map (·.name)).Nodup
  members : ∀ c, .composite c ∈ schema.types → (c.fields.map (·.name)).Nodup
  root : ∀ m ∈ (SchemaIr.fromSchema schema).messages,
    (m.fields.map (·.name) ++ m.groups.map (·.name)).Nodup
  nested : ∀ m ∈ (SchemaIr.fromSchema schema).messages,
    ∀ g ∈ ResolvedGroup.nestedAll m.groups,
      (g.fields.map (·.name) ++ g.nestedGroups.map (·.name)).Nodup

/-- A message with the groups `legs` and `fills`, each with a group `parties` in it. -/
def partiesEvents : List Event :=
  [.start ⟨"messageSchema", [("package", "orders"), ("id", "1"), ("version", "1")]⟩,
    .start ⟨"message", [("name", "Order"), ("id", "1"), ("blockLength", "8")]⟩,
    .start ⟨"group", [("name", "legs"), ("id", "2"), ("blockLength", "4")]⟩,
    .start ⟨"group", [("name", "parties"), ("id", "3"), ("blockLength", "4")]⟩, .endTag, .endTag,
    .start ⟨"group", [("name", "fills"), ("id", "4"), ("blockLength", "4")]⟩,
    .start ⟨"group", [("name", "parties"), ("id", "5"), ("blockLength", "4")]⟩, .endTag, .endTag,
    .endTag, .endTag]

/-- The module `order` has four structs twice. -/
theorem not_namesApart_parties :
    ∃ schema m, parseSchema partiesEvents = .ok schema ∧ validateSchema schema = .ok () ∧
      SiblingsApart schema ∧ (SchemaIr.fromSchema schema).messages = [m] ∧
      moduleItems m =
        ["LegsGroupDecoder", "LegsEntryDecoder", "LegsGroupEncoder", "LegsEntryEncoder",
          "PartiesGroupDecoder", "PartiesEntryDecoder", "PartiesGroupEncoder",
          "PartiesEntryEncoder",
          "FillsGroupDecoder", "FillsEntryDecoder", "FillsGroupEncoder", "FillsEntryEncoder",
          "PartiesGroupDecoder", "PartiesEntryDecoder", "PartiesGroupEncoder",
          "PartiesEntryEncoder"] ∧
      ∀ cls, ¬ NamesApart cls (.fromSchema schema) := by
  refine ⟨_, _, rfl, by decide, ?_, rfl, by decide, ?_⟩
  · refine ⟨by decide, by decide, ?_, ?_, ?_, by decide, by decide⟩
    all_goals
      intro t ht
      cases ht
  · intro cls h
    have hstructs := h.structs _ mem_cons_self
    revert hstructs
    decide

end IronSbe.Codegen
