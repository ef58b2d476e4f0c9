import IronSbe.Lib.Accumulate
import IronSbe.Schema.Soundness

/-!
# Offsets that are left out

`auto_compute_field_offsets` puts a field without an offset behind the field before
it.  It adds up the lengths that the fields got while they were parsed, which are the
lengths of the types declared by then; a builtin type that is not declared counts
with length zero.  The generated code uses the lengths that the types have in the
whole schema, the builtin ones included.

* `autoComputeFieldOffsets_cons`: a field without an offset is put at the running offset,
  and the end of a field is the next running offset.
* `omitted_offsets_follow_iff`: when the offsets are the sums of the resolved lengths.
-/

namespace IronSbe.Schema

open List

/-! ## Known types -/

variable {f : FieldDef} {types before : List TypeDef} {name : String} {running : Nat}

/-- A type that is declared stays declared. -/
theorem Known.mono (h : Known before name) (hearlier : before <+: types) : Known types name := by
  refine h.imp_right fun hdecl => ?_
  rw [declaration, find?_isSome] at hdecl ⊢
  obtain ⟨t, ht, hname⟩ := hdecl
  exact ⟨t, mem_reverse.mpr (hearlier.subset (mem_reverse.mp ht)), hname⟩

/-! ## The running offset -/

/-- Each field starts where the lengths of the fields before it end. -/
def OffsetsFollow (fields : List ResolvedField) : Prop :=
  ∀ before f after, fields = before ++ f :: after →
    f.offset = (before.map ResolvedField.encodedLength).sum

/-- The same from `start` on. -/
def FollowFrom : Nat → List ResolvedField → Prop
  | _, [] => True
  | start, f :: rest => f.offset = start ∧ FollowFrom (start + f.encodedLength) rest

theorem followFrom_iff {start : Nat} {fields : List ResolvedField} :
    FollowFrom start fields ↔ ∀ before f after, fields = before ++ f :: after →
      f.offset = start + (before.map ResolvedField.encodedLength).sum := by
  induction fields generalizing start with
  | nil => exact iff_of_true trivial Lib.Accumulate.forall_split_nil
  | cons f rest ih =>
    rw [FollowFrom, ih, Lib.Accumulate.forall_split_cons_iff]
    simp only [map_cons, sum_cons, map_nil, sum_nil, Nat.add_zero,
      Nat.add_assoc]

theorem offsetsFollow_iff_followFrom (fields : List ResolvedField) :
    OffsetsFollow fields ↔ FollowFrom 0 fields := by
  rw [followFrom_iff]
  simp only [Nat.zero_add]
  rfl

/-- Where a field is put. -/
def placedAt (running : Nat) (f : FieldDef) : Nat := if f.offset = 0 then running else f.offset

/-- The end of a field that is put there. -/
def endOf (running : Nat) (f : FieldDef) : Nat := usizeAdd (placedAt running f) f.encodedLength

theorem autoComputeFieldOffsets_cons (running : Nat) (f : FieldDef) (rest : List FieldDef) :
    autoComputeFieldOffsets running (f :: rest) =
      { f with offset := placedAt running f } ::
        autoComputeFieldOffsets (endOf running f) rest := by
  rw [autoComputeFieldOffsets, endOf, placedAt]
  by_cases hf : f.offset = 0
  · by_cases hrunning : 0 < running
    · rw [if_pos ⟨hrunning, hf⟩, if_pos hf]
    · have hzero : running = 0 := by omega
      rw [if_neg fun h => hrunning h.1, if_pos hf, hzero, ← hf]
  · rw [if_neg fun h => hf h.2, if_neg hf]

/-- Without an offset, a field is put at the running offset. -/
theorem placedAt_of_zero (hf : f.offset = 0) (running : Nat) :
    placedAt running f = running := if_pos hf

/-- Two sums with the same start. -/
theorem usizeAdd_eq_iff {parsed resolved : Nat} (h : running < 2 ^ 64) (hparsed : parsed < 2 ^ 64) :
    usizeAdd running parsed = running + resolved ↔
      parsed = resolved ∧ running + resolved < 2 ^ 64 := by
  unfold usizeAdd
  omega

theorem declaredLength_lt (types : List TypeDef) (name : String) :
    declaredLength types name < 2 ^ 64 := by
  rw [declaredLength]
  cases declaration types name with
  | none => decide
  | some t => exact t.encodedLength_lt

/-- The lengths of the fields while they are parsed are those in the generated code,
for all but the last one, and the offsets do not overflow. -/
def LengthsAgree (before types : List TypeDef) (running : Nat) (names : List String) : Prop :=
  (∀ name ∈ names.dropLast, declaredLength before name = resolvedLength types name) ∧
    running + (names.dropLast.map (resolvedLength types)).sum < 2 ^ 64

instance (before types : List TypeDef) (running : Nat) (names : List String) :
    Decidable (LengthsAgree before types running names) := inferInstanceAs (Decidable (_ ∧ _))

theorem lengthsAgree_cons {names : List String} (hnames : names ≠ []) :
    LengthsAgree before types running (name :: names) ↔
      declaredLength before name = resolvedLength types name ∧
        LengthsAgree before types (running + resolvedLength types name) names := by
  unfold LengthsAgree
  rw [dropLast_cons_of_ne_nil hnames, forall_mem_cons, map_cons, sum_cons,
    Nat.add_assoc, and_assoc]

/-- Where the first field is put decides where the fields can follow from. -/
theorem followFrom_start (schema : Schema) (start running : Nat) (hf : f.offset = 0)
    (rest : List FieldDef) :
    FollowFrom start (resolvedFields schema (autoComputeFieldOffsets running (f :: rest))) ↔
      running = start ∧
        FollowFrom running
          (resolvedFields schema (autoComputeFieldOffsets running (f :: rest))) := by
  rw [autoComputeFieldOffsets_cons, placedAt_of_zero hf, resolvedFields, map_cons, FollowFrom,
    FollowFrom, ResolvedField.offset_fromFieldDef]
  constructor
  · rintro ⟨rfl, hrest⟩
    exact ⟨rfl, rfl, hrest⟩
  · rintro ⟨rfl, -, hrest⟩
    exact ⟨rfl, hrest⟩

section Follow

variable {schema : Schema} {before : List TypeDef}

/-- By induction on the fields: the field behind the first one is where it should be
if the lengths of the first one agree. -/
theorem followFrom_autoComputeFieldOffsets {running : Nat} (hrunning : running < 2 ^ 64)
    {raw : List FieldDef} (homitted : ∀ f ∈ raw, f.offset = 0)
    (hlength : ∀ f ∈ raw, f.encodedLength = declaredLength before f.typeName)
    (hknown : ∀ f ∈ raw, Known schema.types f.typeName) :
    FollowFrom running (resolvedFields schema (autoComputeFieldOffsets running raw)) ↔
      LengthsAgree before schema.types running (raw.map FieldDef.typeName) := by
  induction raw generalizing running with
  | nil => exact iff_of_true trivial ⟨by simp, hrunning⟩
  | cons f rest ih =>
    rw [forall_mem_cons] at homitted hlength hknown
    have hresolved := encodedLength_resolved (f := { f with offset := running }) (.inl hknown.1)
    rw [autoComputeFieldOffsets_cons, endOf, placedAt_of_zero homitted.1, resolvedFields,
      map_cons, FollowFrom, ResolvedField.offset_fromFieldDef, hresolved, hlength.1,
      map_cons]
    cases rest with
    | nil => exact iff_of_true ⟨rfl, trivial⟩ ⟨by simp, hrunning⟩
    | cons g rest =>
      have hnext := ih (usizeAdd_lt running (declaredLength before f.typeName)) homitted.2
        hlength.2 hknown.2
      have hstart := followFrom_start schema (running + resolvedLength schema.types f.typeName)
        (usizeAdd running (declaredLength before f.typeName)) (homitted.2 g mem_cons_self) rest
      have hne : (g :: rest).map FieldDef.typeName ≠ [] := cons_ne_nil _ _
      rw [lengthsAgree_cons hne]
      refine ⟨fun h => ?_, fun h => ⟨rfl, ?_⟩⟩
      · obtain ⟨heq, hfollow⟩ := hstart.mp h.2
        have hagree := hnext.mp hfollow
        rw [heq] at hagree
        exact ⟨((usizeAdd_eq_iff hrunning (declaredLength_lt _ _)).mp heq).1, hagree⟩
      · have hlt : running + resolvedLength schema.types f.typeName < 2 ^ 64 :=
          Nat.lt_of_le_of_lt (Nat.le_add_right _ _) h.2.2
        have heq := (usizeAdd_eq_iff hrunning (declaredLength_lt _ _)).mpr ⟨h.1, hlt⟩
        refine hstart.mpr ⟨heq, hnext.mpr ?_⟩
        rw [heq]
        exact h.2

end Follow

/-! ## Parsed schemas -/

/-- In a block of a parsed schema, with no offset given and every type builtin or
declared before the message, the fields follow each other exactly if all but the last
one had the length of the generated code when they were parsed and nothing overflows. -/
theorem omitted_offsets_follow_iff {events : List Event} {schema : Schema}
    (hparse : parseSchema events = .ok schema) {fields : List FieldDef}
    (hfields : BlockOf schema fields) :
    (∃ before tags raw, ReadAs events schema before tags raw ∧
      fields = autoComputeFieldOffsets 0 raw) ∧
    ∀ before tags raw, ReadAs events schema before tags raw →
      fields = autoComputeFieldOffsets 0 raw →
      (∀ e ∈ tags, e.number "offset" = none) →
      (∀ f ∈ raw, Known before.types f.typeName) →
      (OffsetsFollow (resolvedFields schema fields) ↔
        LengthsAgree before.types schema.types 0 (raw.map FieldDef.typeName)) := by
  refine ⟨exists_readAs hparse hfields, fun before tags raw hread hclosed homitted hknown => ?_⟩
  rw [hclosed, offsetsFollow_iff_followFrom]
  apply followFrom_autoComputeFieldOffsets (by decide)
  · intro f hf
    obtain ⟨e, he, hparse⟩ := hread.read.exists_tag hf
    rw [offset_of_parseField hparse, homitted e he]
    rfl
  · intro f hf
    obtain ⟨e, -, hparse⟩ := hread.read.exists_tag hf
    rw [encodedLength_of_parseField hparse, lengthAtParse_eq hread.mapped]
  · exact fun f hf => (hknown f hf).mono hread.earlier

/-- The schema in front of the message of `declaredEvents`. -/
def declaredBefore : Schema := { declaredSchema with messages := [] }

theorem mapped_declaredBefore : Mapped declaredBefore :=
  ((mapped_of_empty (s := { package := "orders", id := 1, version := 1 }) rfl rfl).addType
    (.primitive { name := "Price", primitiveType := .int64 })).addType
    (.primitive { name := "Symbol", primitiveType := .char, length := some 4 })

/-- The types are declared before the message. -/
theorem omitted_offsets_follow_declared :
    ∃ fields, BlockOf declaredSchema fields ∧ fields.length = 2 ∧
      OffsetsFollow (resolvedFields declaredSchema fields) := by
  have hparse : parseSchema declaredEvents = .ok declaredSchema := rfl
  refine ⟨_, .message mem_cons_self, rfl, ?_⟩
  refine ((omitted_offsets_follow_iff hparse (.message mem_cons_self)).2 declaredBefore
    [⟨"field", [("name", "price"), ("id", "1"), ("type", "Price")]⟩,
      ⟨"field", [("name", "symbol"), ("id", "2"), ("type", "Symbol")]⟩]
    [{ name := "price", id := 1, typeName := "Price", offset := 0, encodedLength := 8 },
      { name := "symbol", id := 2, typeName := "Symbol", offset := 0, encodedLength := 4 }]
    ⟨by simp [InText, declaredEvents], prefix_rfl, mapped_declaredBefore,
      .cons rfl (.cons rfl .nil)⟩ rfl (by decide) (by decide)).mpr (by decide)

/-- A message with two fields of builtin types, without offsets. -/
def omittedEvents : List Event :=
  [.start ⟨"messageSchema", [("package", "orders"), ("id", "1"), ("version", "1")]⟩,
    .start ⟨"message", [("name", "Order"), ("id", "1"), ("blockLength", "12")]⟩,
    .empty ⟨"field", [("name", "price"), ("id", "1"), ("type", "uint64")]⟩,
    .empty ⟨"field", [("name", "quantity"), ("id", "2"), ("type", "uint32")]⟩,
    .endTag, .endTag]

/-- Both fields are put at the start of the block. -/
theorem not_offsetsFollow_builtin :
    ∃ schema fields, parseSchema omittedEvents = .ok schema ∧ validateSchema schema = .ok () ∧
      BlockOf schema fields ∧
      (∀ e, InText omittedEvents e → e.number "offset" = none) ∧
      (∀ f ∈ fields, (PrimitiveType.fromSbeName f.typeName).isSome) ∧
      ¬ OffsetsFollow (resolvedFields schema fields) := by
  refine ⟨_, _, rfl, by decide, .message mem_cons_self, ?_, by decide, fun h => ?_⟩
  · intro e he
    simp only [InText, omittedEvents, mem_cons, Event.start.injEq, Event.empty.injEq,
      reduceCtorEq, not_mem_nil, or_false, false_or] at he
    rcases he with (rfl | rfl) | rfl | rfl <;> rfl
  · exact absurd (h [_] _ [] rfl) (by decide)

end IronSbe.Schema
