import IronSbe.Schema.Soundness

/-!
# The members of a composite

The parser keeps the offset of a member of a composite and passes over its `length`
attribute.  The validator compares the offsets; `ResolvedType::from_type_def` does
not look at them and puts each member behind the one before, with the size of its
primitive type.

* `MemberLayout`: the layout that the attributes ask for.
* `laidOut_of_membersRead`: the layout that a composite gets.
* `memberLayout_iff`: when the two are the same.
-/

namespace IronSbe.Schema

open Lib.Slice List

/-! ## What the attributes say -/

namespace Tag

/-- The size of one element of a member. -/
def size (e : Tag) : Nat := (e.primitive.map PrimitiveType.size).getD 0

/-- The number of elements of a member. -/
def units (e : Tag) : Nat := (e.number "length").getD 1

/-- The number of bytes that a member occupies. -/
def width (e : Tag) : Nat := e.units * e.size

variable {e : Tag}

theorem size_of_primitive {prim : PrimitiveType} (h : e.primitive = some prim) :
    e.size = prim.size := by
  rw [size, h]
  rfl

theorem width_eq_size_iff (h : 0 < e.size) : e.width = e.size ↔ e.units = 1 := by
  rw [width, Nat.mul_eq_right (Nat.ne_of_gt h)]

theorem width_pos (h : 0 < e.size) (hunits : e.units ≠ 0) : 0 < e.width :=
  Nat.mul_pos (Nat.pos_of_ne_zero hunits) h

end Tag

/-- The byte ranges that the members occupy. -/
def memberSpans (tags : List Tag) (infos : List CompositeFieldInfo) : List (Nat × Nat) :=
  List.zipWith (fun e m => (m.offset, m.offset + e.units * m.primitiveType.size)) tags infos

/-- Each member is at its explicit offset or at `stop`, the end of the member before it,
and the last one ends at `length`. -/
def Placed (length : Nat) : Nat → List Tag → List CompositeFieldInfo → Prop
  | stop, [], [] => length = stop
  | stop, e :: tags, m :: infos =>
    m.offset = (e.number "offset").getD stop ∧
      Placed length (m.offset + e.units * m.primitiveType.size) tags infos
  | _, _, _ => False

/-- The resolved type has the layout that the tags of its members ask for. -/
def MemberLayout (tags : List Tag) (rt : ResolvedType) : Prop :=
  ∃ infos, rt.kind = .composite infos ∧ Placed rt.encodedLength 0 tags infos ∧
    (memberSpans tags infos).Pairwise Apart

/-! ## What the members get -/

/-- Each member is behind the one before it and has the size of its primitive type. -/
def LaidOut : Nat → List Tag → List CompositeFieldInfo → Prop
  | _, [], [] => True
  | start, e :: tags, m :: infos =>
    e.primitive = some m.primitiveType ∧ m.offset = start ∧ LaidOut (start + e.size) tags infos
  | _, _, _ => False

variable {start length : Nat} {tags : List Tag} {infos : List CompositeFieldInfo} {e : Tag}

theorem laidOut_of_membersRead {fields : List CompositeField} (h : MembersRead start tags fields) :
    LaidOut start tags (ResolvedType.members start fields) ∧
      (fields.map (·.encodedLength)).sum = (tags.map Tag.size).sum := by
  induction tags generalizing start fields with
  | nil =>
    cases fields with
    | nil => exact ⟨trivial, rfl⟩
    | cons f fields => exact h.elim
  | cons e tags ih =>
    cases fields with
    | nil => exact h.elim
    | cons f fields =>
      obtain ⟨prim, hprim, htype, hlength, -⟩ := parseCompositeField_eq_ok h.1
      have hsize : f.encodedLength = e.size := by rw [hlength, Tag.size_of_primitive hprim]
      obtain ⟨hlaid, hsum⟩ := ih h.2
      rw [ResolvedType.members, htype]
      rw [hsize] at hlaid
      refine ⟨⟨hprim, rfl, ?_⟩, ?_⟩
      · rw [hsize]
        exact hlaid
      · rw [map_cons, sum_cons, map_cons, sum_cons, hsum, hsize]

theorem size_pos_of_laidOut (h : LaidOut start tags infos) : ∀ e ∈ tags, 0 < e.size := by
  induction tags generalizing start infos with
  | nil => exact nofun
  | cons e tags ih =>
    cases infos with
    | nil => exact h.elim
    | cons m infos =>
      refine forall_mem_cons.mpr ⟨?_, ih h.2.2⟩
      rw [Tag.size_of_primitive h.1]
      exact m.primitiveType.size_pos

/-- The byte ranges of members that are laid out one behind the other. -/
def spansAt : Nat → List Tag → List (Nat × Nat)
  | _, [] => []
  | start, e :: tags => (start, start + e.width) :: spansAt (start + e.size) tags

theorem memberSpans_eq (h : LaidOut start tags infos) :
    memberSpans tags infos = spansAt start tags := by
  induction tags generalizing start infos with
  | nil => rfl
  | cons e tags ih =>
    cases infos with
    | nil => exact h.elim
    | cons m infos =>
      obtain ⟨hprim, rfl, hrest⟩ := h
      have hrest := ih hrest
      unfold memberSpans at hrest ⊢
      rw [zipWith_cons_cons, hrest, spansAt, Tag.width, Tag.size_of_primitive hprim]

theorem le_of_mem_spansAt {s : Nat × Nat} (h : s ∈ spansAt start tags) : start ≤ s.1 := by
  induction tags generalizing start with
  | nil => cases h
  | cons e tags ih =>
    rcases mem_cons.mp h with rfl | h
    · exact Nat.le_refl _
    · have := ih h
      omega

/-! ## When they agree -/

/-- The room that leading members of length zero leave. -/
def room : List Tag → Nat
  | [] => 0
  | e :: tags => if e.units = 0 then e.size + room tags else 0

/-- An explicit offset is where the sizes of the members before end.  A member has one
element, unless the next one has an explicit offset; then it may have none, or more if
the members behind it have none and leave the room.  The sum of all sizes is a `usize`. -/
def Compact : Nat → List Tag → Prop
  | stop, [] => stop < 2 ^ 64
  | start, e :: tags =>
    (e.number "offset").getD start = start ∧
      (e.units = 1 ∨ ∃ next ∈ tags.head?, (next.number "offset").isSome) ∧
      e.width ≤ e.size + room tags ∧ Compact (start + e.size) tags

/-- A range before the members stays clear of them if it ends before the first one that
occupies bytes. -/
theorem spansApart_iff (hsize : ∀ e ∈ tags, 0 < e.size) (hne : tags ≠ [])
    (hcompact : Compact start tags) {a b : Nat} (ha : a < start) :
    (∀ s ∈ spansAt start tags, Apart (a, b) s) ↔ b ≤ start + room tags := by
  induction tags generalizing start with
  | nil => exact absurd rfl hne
  | cons e tags ih =>
    rw [forall_mem_cons] at hsize
    obtain ⟨-, hunits, -, hrest⟩ := hcompact
    rw [spansAt, forall_mem_cons, room]
    have hfirst : Apart (a, b) (start, start + e.width) ↔ e.width = 0 ∨ b ≤ start := by
      show min b (start + e.width) ≤ max a start ↔ _
      omega
    by_cases hzero : e.units = 0
    · -- an empty member is clear of everything, and another one follows
      have hwidth : e.width = 0 := by rw [Tag.width, hzero, Nat.zero_mul]
      have hnext : tags ≠ [] := by
        rintro rfl
        rcases hunits with hone | ⟨next, hmem, -⟩
        · omega
        · cases hmem
      rw [if_pos hzero, ih hsize.2 hnext hrest (by omega), Nat.add_assoc]
      exact and_iff_right (hfirst.mpr (.inl hwidth))
    · have hwidth := Tag.width_pos hsize.1 hzero
      rw [if_neg hzero, Nat.add_zero]
      constructor
      · intro h
        have := hfirst.mp h.1
        omega
      · intro h
        refine ⟨hfirst.mpr (.inr h), fun s hs => ?_⟩
        have hle := le_of_mem_spansAt hs
        show min b s.2 ≤ max a s.1
        omega

/-- Where the member before ends matters only to a member without an offset. -/
theorem placed_iff_of_head (hsize : 0 < e.size) (hne : tags ≠ [])
    (hlaid : LaidOut (start + e.size) tags infos) :
    Placed length (start + e.width) tags infos ↔
      (e.units = 1 ∨ ∃ next ∈ tags.head?, (next.number "offset").isSome) ∧
        Placed length (start + e.size) tags infos := by
  cases tags with
  | nil => exact absurd rfl hne
  | cons next tags =>
    cases infos with
    | nil => exact hlaid.elim
    | cons m infos =>
      obtain ⟨-, hoffset, -⟩ := hlaid
      simp only [head?_cons, Option.mem_def, Option.some.injEq, exists_eq_left']
      cases hnumber : next.number "offset" with
      | some offset =>
        rw [Placed, Placed, hnumber]
        simp
      | none =>
        rw [Placed, Placed, hnumber, ← Tag.width_eq_size_iff hsize]
        simp only [Option.getD_none, Option.isSome_none, Bool.false_eq_true, or_false, hoffset]
        constructor
        · rintro ⟨heq, hrest⟩
          exact ⟨by omega, trivial, hrest⟩
        · rintro ⟨heq, -, hrest⟩
          exact ⟨by omega, hrest⟩

theorem placed_cons_iff {m : CompositeFieldInfo} (hlaid : LaidOut start (e :: tags) (m :: infos)) :
    Placed length start (e :: tags) (m :: infos) ↔
      (e.number "offset").getD start = start ∧
        Placed length (start + e.width) tags infos := by
  obtain ⟨hprim, hoffset, -⟩ := hlaid
  rw [Placed, hoffset, Tag.width, Tag.size_of_primitive hprim, eq_comm]

/-- By induction on the members. -/
theorem placed_and_pairwise_iff (hlaid : LaidOut start tags infos) :
    Placed ((start + (tags.map Tag.size).sum) % 2 ^ 64) start tags infos ∧
        (spansAt start tags).Pairwise Apart ↔
      Compact start tags := by
  induction tags generalizing start infos with
  | nil =>
    cases infos with
    | nil =>
      show start % 2 ^ 64 = start ∧ ([] : List (Nat × Nat)).Pairwise Apart ↔ start < 2 ^ 64
      rw [and_iff_left List.Pairwise.nil]
      omega
    | cons m infos => exact hlaid.elim
  | cons e tags ih =>
    cases infos with
    | nil => exact hlaid.elim
    | cons m infos =>
      have hlt : e.size < 2 ^ 64 := by
        rw [Tag.size_of_primitive hlaid.1]
        exact m.primitiveType.size_lt
      have hsize := size_pos_of_laidOut hlaid
      rw [forall_mem_cons] at hsize
      rw [placed_cons_iff hlaid, map_cons, sum_cons, ← Nat.add_assoc, spansAt,
        pairwise_cons, Compact]
      obtain ⟨-, -, hrest⟩ := hlaid
      cases tags with
      | nil =>
        cases infos with
        | nil =>
          have hwidth := Tag.width_eq_size_iff hsize.1
          simp only [Placed, spansAt, room, Compact, map_nil, sum_nil, not_mem_nil,
            head?_nil, Option.mem_def, reduceCtorEq, false_and, exists_false, or_false,
            List.Pairwise.nil, implies_true, false_implies, and_true, ← hwidth]
          omega
        | cons m' infos => exact hrest.elim
      | cons next tags =>
        have hne : next :: tags ≠ [] := cons_ne_nil _ _
        rw [placed_iff_of_head hsize.1 hne hrest]
        have hapart := fun hcompact =>
          spansApart_iff (a := start) (b := start + e.width) hsize.2 hne hcompact
            (Nat.lt_add_of_pos_right hsize.1)
        constructor
        · rintro ⟨⟨hexplicit, hunits, hplaced⟩, hspans, hpairwise⟩
          have hcompact := (ih hrest).mp ⟨hplaced, hpairwise⟩
          have hroom := (hapart hcompact).mp hspans
          exact ⟨hexplicit, hunits, by omega, hcompact⟩
        · rintro ⟨hexplicit, hunits, hroom, hcompact⟩
          obtain ⟨hplaced, hpairwise⟩ := (ih hrest).mpr hcompact
          exact ⟨⟨hexplicit, hunits, hplaced⟩, (hapart hcompact).mpr (by omega), hpairwise⟩

/-! ## Parsed schemas -/

/-- The composites of a parsed schema were read off tags of the text, and they have the
layout that the tags ask for exactly if the tags ask for a compact one. -/
theorem memberLayout_iff {events : List Event} {schema : Schema}
    (hparse : parseSchema events = .ok schema) {c : CompositeDef}
    (hc : .composite c ∈ schema.types) :
    (∃ tags, (∀ e ∈ tags, InText events e) ∧ MembersRead 0 tags c.fields) ∧
      ∀ tags, MembersRead 0 tags c.fields →
        (MemberLayout tags (.fromTypeDef (.composite c)) ↔ Compact 0 tags) := by
  refine ⟨(schemaFrom_of_parseSchema hparse).types _ hc, fun tags hread => ?_⟩
  obtain ⟨hlaid, hsum⟩ := laidOut_of_membersRead hread
  have hlength : (ResolvedType.fromTypeDef (.composite c)).encodedLength =
      (0 + (tags.map Tag.size).sum) % 2 ^ 64 := by
    rw [Nat.zero_add, ← hsum]
    exact c.encodedLength_eq
  rw [← placed_and_pairwise_iff hlaid, ← hlength, ← memberSpans_eq hlaid]
  constructor
  · rintro ⟨infos, hkind, hlayout⟩
    obtain rfl := TypeKind.composite.inj hkind
    exact hlayout
  · exact fun hlayout => ⟨_, rfl, hlayout⟩

/-- A schema with one composite. -/
def compositeEvents (members : List Tag) : List Event :=
  [.start ⟨"messageSchema", [("package", "prices"), ("id", "1"), ("version", "1")]⟩,
    .start ⟨"types", []⟩, .start ⟨"composite", [("name", "Decimal")]⟩] ++
    members.map .empty ++ [.endTag, .endTag, .endTag]

/-- Two members that follow each other, the second one with its offset. -/
def decimalTags : List Tag :=
  [⟨"type", [("name", "mantissa"), ("primitiveType", "int64")]⟩,
    ⟨"type", [("name", "exponent"), ("primitiveType", "int8"), ("offset", "8")]⟩]

theorem memberLayout_decimal :
    ∃ schema c, parseSchema (compositeEvents decimalTags) = .ok schema ∧
      validateSchema schema = .ok () ∧ .composite c ∈ schema.types ∧
      MemberLayout decimalTags (.fromTypeDef (.composite c)) := by
  have hparse : parseSchema (compositeEvents decimalTags) = .ok _ := rfl
  refine ⟨_, _, hparse, by decide, mem_cons_self, ?_⟩
  exact ((memberLayout_iff hparse mem_cons_self).2 decimalTags ⟨rfl, rfl, trivial⟩).mpr
    ⟨rfl, .inl rfl, by decide, rfl, .inl rfl, by decide, (by decide : 9 < 2 ^ 64)⟩

/-- Two members with a gap between them. -/
def gapTags : List Tag :=
  [⟨"type", [("name", "flag"), ("primitiveType", "uint8"), ("offset", "0")]⟩,
    ⟨"type", [("name", "value"), ("primitiveType", "uint32"), ("offset", "4")]⟩]

/-- The second member is put behind the first one and the gap is lost. -/
theorem not_memberLayout_gap :
    ∃ schema c, parseSchema (compositeEvents gapTags) = .ok schema ∧
      validateSchema schema = .ok () ∧ .composite c ∈ schema.types ∧
      MembersRead 0 gapTags c.fields ∧ ¬ MemberLayout gapTags (.fromTypeDef (.composite c)) := by
  refine ⟨_, _, rfl, by decide, mem_cons_self, ⟨rfl, rfl, trivial⟩, ?_⟩
  rintro ⟨infos, hkind, hplaced, -⟩
  obtain rfl := TypeKind.composite.inj hkind
  exact absurd hplaced.2.1 (by decide)

end IronSbe.Schema
