import IronSbe.Codegen.Accessor
import IronSbe.Schema.Validation

/-!
# Enums

`ResolvedType::from_type_def` reads the text of every valid value of an enum as a number and
drops the values whose text is none.  The variants are the discriminants of the generated
enum and the patterns of its `From` conversion.

The text of a value of a `char` enum is a character, and it is read as a number all the
same.  A `u64` beyond `i64::MAX` is stored as a negative number.  The validator compares the
texts, not the numbers.

* `Resolved`: the variants are what the schema says, and the conversions are inverse to each
  other.
* `variantValue_denotes_iff`: when a text is read as the number that it stands for.
* `resolved_iff`: so all texts must stand for different numbers that the encoding has.
-/

namespace IronSbe.Codegen

open IronSbe.Core IronSbe.Schema Option

namespace Enum

/-! ## What a text stands for -/

/-- The integer that a decimal text stands for, with or without a sign. -/
def decimal (text : String) : Option Int :=
  match text.toList with
  | '-' :: cs => (parseDigits cs).map fun (n : Nat) => -(n : Int)
  | '+' :: cs => (parseDigits cs).map fun (n : Nat) => (n : Int)
  | cs => (parseDigits cs).map fun (n : Nat) => (n : Int)

/-- What the text of a valid value stands for: the code of a character, or an integer. -/
def denotes (encoding : PrimitiveType) (text : String) : Option Int :=
  match encoding, text.toList with
  | .char, [c] => some c.toNat
  | .char, _ => none
  | _, _ => decimal text

/-- The variants of the resolved type. -/
def variantsOf (e : EnumDef) : List EnumVariant :=
  match (ResolvedType.fromTypeDef (.enum e)).kind with
  | .enum _ variants => variants
  | _ => []

/-- The generated `From` conversions, to the primitive type and back. -/
def throughPrimitive (e : EnumDef) (v : EnumVariant) : EnumVariant :=
  enumFrom (variantsOf e) (Scalar.ofInt e.encodingType.rustType v.value).toInt

/-- The variants are the valid values in order, with the numbers that their texts stand for;
these are different numbers of the encoding type; and the generated conversions, which
there are for integer types only, give every variant back. -/
structure Resolved (e : EnumDef) : Prop where
  values : List.Forall₂ (fun (v : EnumValue) w =>
    w.name = v.name ∧ denotes e.encodingType v.value = some w.value) e.validValues (variantsOf e)
  distinct : ((variantsOf e).map EnumVariant.value).Nodup
  inRange : ∀ w ∈ variantsOf e, e.encodingType.rustType.InRange w.value
  roundTrip : ∀ w ∈ variantsOf e,
    e.encodingType.rustType.isInteger = true ∧ throughPrimitive e w = w

/-! ## When the texts are right -/

/-- The text is a number of the encoding type that the resolution keeps: not for a `char`
enum, below `2 ^ 63`, and without a minus sign for an unsigned type. -/
def Fits (encoding : PrimitiveType) (text : String) : Prop :=
  encoding ≠ .char ∧ encoding.rustType.isInteger = true ∧
    (encoding.isSigned = true ∨ text.toList.head? ≠ some '-') ∧
    ∃ n, decimal text = some n ∧ encoding.rustType.InRange n ∧ n < 2 ^ 63

/-- All texts fit the encoding, and they stand for different numbers. -/
structure TextsFit (e : EnumDef) : Prop where
  fits : ∀ v ∈ e.validValues, Fits e.encodingType v.value
  distinct : (e.validValues.map fun v => decimal v.value).Nodup

variable {c : Char} {text : String} {n : Int} {v : EnumValue} {encoding : PrimitiveType}
  {e : EnumDef}

theorem parseDigits_cons_of_not_isDigit {cs : List Char} (h : c.isDigit = false) :
    parseDigits (c :: cs) = none := by
  simp [parseDigits, h]

theorem parseDigits_singleton (c : Char) :
    parseDigits [c] = if c.isDigit then some (c.toNat - 48) else none := by
  cases hc : c.isDigit <;> simp [parseDigits, hc]

theorem parseI64_eq (text : String) :
    parseI64 text = (decimal text).filter fun n => -2 ^ 63 ≤ n ∧ n < 2 ^ 63 := by
  unfold parseI64 decimal
  generalize text.toList = cs
  cases cs with
  | nil => rfl
  | cons c ds =>
    by_cases hminus : c = '-'
    · subst hminus
      cases hds : parseDigits ds <;> simp [hds]
    by_cases hplus : c = '+'
    · subst hplus
      cases hds : parseDigits ds <;> simp [hds]
    · cases hds : parseDigits (c :: ds) <;> simp [hds, hminus, hplus]

/-- What the unsigned types read. -/
def unsignedDigits (text : String) : Option Nat :=
  match text.toList with
  | '+' :: cs => parseDigits cs
  | cs => parseDigits cs

theorem parseU64_eq (text : String) :
    parseU64 text = (unsignedDigits text).filter fun n => n < 2 ^ 64 := rfl

/-- Without a minus sign this is what the text stands for. -/
theorem decimal_of_not_minus (h : text.toList.head? ≠ some '-') :
    decimal text = (unsignedDigits text).map fun (n : Nat) => (n : Int) := by
  unfold decimal unsignedDigits
  generalize text.toList = cs at h
  split
  · exact absurd rfl h
  · simp
  · rename_i hminus hplus
    split
    · exact absurd rfl (hplus _)
    · rfl

theorem unsignedDigits_of_minus (h : text.toList.head? = some '-') :
    unsignedDigits text = none := by
  obtain ⟨cs, hcs⟩ := List.head?_eq_some_iff.mp h
  have hnone : parseDigits ('-' :: cs) = none := parseDigits_cons_of_not_isDigit (by decide)
  unfold unsignedDigits
  simp [hcs, hnone]

theorem parseU64_of_minus (h : text.toList.head? = some '-') :
    parseU64 text = none := by
  rw [parseU64_eq, unsignedDigits_of_minus h, filter_none]

theorem parseU64_eq_some_iff (h : text.toList.head? ≠ some '-') {n : Nat} :
    parseU64 text = some n ↔ decimal text = some (n : Int) ∧ n < 2 ^ 64 := by
  rw [decimal_of_not_minus h, parseU64_eq, filter_eq_some_iff, decide_eq_true_eq]
  cases unsignedDigits text with
  | none | some m => simp

theorem denotes_char_eq_some (h : denotes .char text = some n) :
    ∃ c, text.toList = [c] ∧ n = (c.toNat : Int) := by
  unfold denotes at h
  split at h
  · rename_i c _ heq
    exact ⟨c, heq, (some.inj h).symm⟩
  · cases h
  · rename_i hchar _
    exact absurd rfl hchar

/-- A single character is read as a number if it is a digit. -/
theorem unsignedDigits_singleton (hc : text.toList = [c]) {n : Nat}
    (h : unsignedDigits text = some n) : c.isDigit = true ∧ n = c.toNat - 48 := by
  unfold unsignedDigits at h
  rw [hc] at h
  split at h
  · rename_i cs heq
    cases heq
    cases h
  · rw [parseDigits_singleton] at h
    split_ifs at h with hdigit
    exact ⟨hdigit, (some.inj h).symm⟩

theorem toNat_of_isDigit (h : c.isDigit = true) : 48 ≤ c.toNat ∧ c.toNat ≤ 57 := by
  simp only [Char.isDigit, Bool.and_eq_true, decide_eq_true_eq, UInt32.le_iff_toNat_le] at h
  exact h

/-- The code of a character is not the number that its text is read as. -/
theorem not_denotes_char (hvalue : ResolvedType.variantValue .char v = some n) :
    denotes .char v.value ≠ some n := by
  intro hdenotes
  obtain ⟨c, hc, hcode⟩ := denotes_char_eq_some hdenotes
  obtain ⟨m, hm, hasI64⟩ := map_eq_some_iff.mp hvalue
  obtain ⟨hdigits, -⟩ := filter_eq_some_iff.mp ((parseU64_eq v.value).symm.trans hm)
  obtain ⟨hdigit, hnumber⟩ := unsignedDigits_singleton hc hdigits
  have hrange := toNat_of_isDigit hdigit
  rw [ResolvedType.asI64, if_pos (by omega)] at hasI64
  omega

theorem denotes_of_ne_char (h : encoding ≠ .char) (text : String) :
    denotes encoding text = decimal text := by
  unfold denotes
  split
  · exact absurd rfl h
  · exact absurd rfl h
  · rfl

/-- When a text is read as the number that it stands for. -/
theorem variantValue_denotes_iff (hrange : encoding.rustType.InRange n) :
    ResolvedType.variantValue encoding v = some n ∧ denotes encoding v.value = some n ↔
      encoding ≠ .char ∧ (encoding.isSigned = true ∨ v.value.toList.head? ≠ some '-') ∧
        decimal v.value = some n ∧ n < 2 ^ 63 := by
  by_cases hchar : encoding = .char
  · subst hchar
    simp only [ne_eq, not_true_eq_false, false_and, iff_false, not_and]
    exact not_denotes_char
  rw [denotes_of_ne_char hchar]
  simp only [ne_eq, hchar, not_false_eq_true, true_and]
  unfold ResolvedType.variantValue
  cases hsigned : encoding.isSigned with
  | true =>
    have hlow : -2 ^ 63 ≤ n := by
      have := hrange.1
      cases encoding <;> simp_all [PrimitiveType.isSigned, PrimitiveType.rustType,
        RustType.isSigned, RustType.limit, RustType.size] <;> omega
    simp only [if_true, EnumValue.asI64, parseI64_eq, filter_eq_some_iff,
      decide_eq_true_eq, true_or, true_and, hlow]
    tauto
  | false =>
    have hnonneg : 0 ≤ n := by
      have := hrange.1
      cases encoding <;> simp_all [PrimitiveType.isSigned, PrimitiveType.rustType,
        RustType.isSigned]
    simp only [Bool.false_eq_true, if_false, EnumValue.asU64, false_or]
    by_cases hminus : v.value.toList.head? = some '-'
    · simp [parseU64_of_minus hminus, hminus]
    · simp only [hminus, not_false_eq_true, true_and, map_eq_some_iff,
        parseU64_eq_some_iff hminus]
      constructor
      · rintro ⟨⟨m, ⟨hm, hlt⟩, hasI64⟩, hn⟩
        cases hm.symm.trans hn
        unfold ResolvedType.asI64 at hasI64
        split_ifs at hasI64 with hsmall
        · exact ⟨hm, by omega⟩
        · omega
      · rintro ⟨hn, hlt⟩
        obtain ⟨m, rfl⟩ := Int.eq_ofNat_of_zero_le hnonneg
        refine ⟨⟨m, ⟨hn, by omega⟩, ?_⟩, hn⟩
        exact if_pos (by omega)

/-! ## The variants -/

theorem variantsOf_eq (e : EnumDef) :
    variantsOf e = e.validValues.filterMap fun v =>
      (ResolvedType.variantValue e.encodingType v).map fun value => ⟨v.name, value⟩ := rfl

/-- If nothing is dropped, the variants are those of the values one by one. -/
theorem forall₂_filterMap_iff {α β : Type} {f : α → Option β} {R : α → β → Prop} {l : List α} :
    List.Forall₂ R l (l.filterMap f) ↔ ∀ a ∈ l, ∃ b, f a = some b ∧ R a b := by
  constructor
  · intro h
    have hall : ∀ a ∈ l, (f a).isSome := List.filterMap_length_eq_length.mp h.length_eq.symm
    induction l with
    | nil => simp
    | cons a rest ih =>
      rw [List.forall_mem_cons] at hall ⊢
      obtain ⟨b, hb⟩ := isSome_iff_exists.mp hall.1
      rw [List.filterMap_cons_some hb, List.forall₂_cons] at h
      exact ⟨⟨b, hb, h.1⟩, ih h.2 hall.2⟩
  · intro h
    induction l with
    | nil => exact .nil
    | cons a rest ih =>
      rw [List.forall_mem_cons] at h
      obtain ⟨⟨b, hb, hR⟩, hrest⟩ := h
      rw [List.filterMap_cons_some hb]
      exact .cons hR (ih hrest)

/-- The variants agree with the values of an enum, in the order and by the numbers. -/
theorem values_iff :
    List.Forall₂ (fun (v : EnumValue) (w : EnumVariant) =>
        w.name = v.name ∧ denotes e.encodingType v.value = some w.value)
      e.validValues (variantsOf e) ↔
    ∀ v ∈ e.validValues, ∃ n, ResolvedType.variantValue e.encodingType v = some n ∧
      denotes e.encodingType v.value = some n := by
  rw [variantsOf_eq, forall₂_filterMap_iff]
  refine forall₂_congr fun v _ => ?_
  constructor
  · rintro ⟨w, hw, -, hdenotes⟩
    obtain ⟨n, hn, rfl⟩ := map_eq_some_iff.mp hw
    exact ⟨n, hn, hdenotes⟩
  · rintro ⟨n, hn, hdenotes⟩
    exact ⟨⟨v.name, n⟩, by rw [hn, map_some], rfl, hdenotes⟩

/-- The numbers of the variants, if no value is dropped. -/
theorem map_value_variantsOf {number : EnumValue → Option Int}
    (h : ∀ v ∈ e.validValues, ∃ n, ResolvedType.variantValue e.encodingType v = some n ∧
      number v = some n) :
    (variantsOf e).map (fun w => some w.value) = e.validValues.map number := by
  rw [variantsOf_eq]
  generalize e.validValues = values at h
  induction values with
  | nil => rfl
  | cons v rest ih =>
    rw [List.forall_mem_cons] at h
    obtain ⟨⟨n, hn, hnumber⟩, hrest⟩ := h
    rw [List.filterMap_cons_some (by rw [hn, map_some]), List.map_cons, List.map_cons,
      ih hrest, hnumber]

theorem mem_variantsOf {w : EnumVariant} :
    w ∈ variantsOf e ↔ ∃ v ∈ e.validValues,
      ResolvedType.variantValue e.encodingType v = some w.value ∧ v.name = w.name := by
  rw [variantsOf_eq, List.mem_filterMap]
  refine exists_congr fun v => and_congr_right fun _ => ?_
  constructor
  · intro hw
    obtain ⟨n, hn, rfl⟩ := map_eq_some_iff.mp hw
    exact ⟨hn, rfl⟩
  · rintro ⟨hn, hname⟩
    rw [hn, map_some, hname]

/-- The texts of an enum that is resolved to what its valid values say. -/
theorem fits_of_resolved (h : Resolved e) :
    ∀ v ∈ e.validValues, Fits e.encodingType v.value := by
  intro v hv
  obtain ⟨n, hn, hdenotes⟩ := values_iff.mp h.values v hv
  have hmem : (⟨v.name, n⟩ : EnumVariant) ∈ variantsOf e := mem_variantsOf.mpr ⟨v, hv, hn, rfl⟩
  have hrange := h.inRange _ hmem
  obtain ⟨hchar, hsign, hdecimal, hlt⟩ := (variantValue_denotes_iff hrange).mp ⟨hn, hdenotes⟩
  exact ⟨hchar, (h.roundTrip _ hmem).1, hsign, n, hdecimal, hrange, hlt⟩

/-- The number that a text stands for is the one that it is resolved to. -/
theorem exists_number_of_fits (h : Fits encoding v.value) :
    ∃ n, ResolvedType.variantValue encoding v = some n ∧ encoding.rustType.InRange n ∧
      denotes encoding v.value = some n ∧ decimal v.value = some n := by
  obtain ⟨hchar, -, hsign, n, hdecimal, hrange, hlt⟩ := h
  obtain ⟨hn, hdenotes⟩ := (variantValue_denotes_iff hrange).mpr ⟨hchar, hsign, hdecimal, hlt⟩
  exact ⟨n, hn, hrange, hdenotes, hdecimal⟩

/-- Then the numbers of the variants are those of the texts. -/
theorem map_value_of_fits (h : ∀ v ∈ e.validValues, Fits e.encodingType v.value) :
    ((variantsOf e).map EnumVariant.value).map some =
      e.validValues.map fun v => decimal v.value := by
  rw [List.map_map]
  exact map_value_variantsOf fun v hv => by
    obtain ⟨n, hn, -, -, hdecimal⟩ := exists_number_of_fits (h v hv)
    exact ⟨n, hn, hdecimal⟩

/-- An enum of characters, as the schemas of the FIX protocol have them. -/
def sideEvents : List Event :=
  [.start ⟨"messageSchema", [("package", "orders"), ("id", "1"), ("version", "1")]⟩,
    .start ⟨"types", []⟩,
    .start ⟨"enum", [("name", "Side"), ("encodingType", "char")]⟩,
    .start ⟨"validValue", [("name", "Buy")]⟩, .text "1", .endTag,
    .start ⟨"validValue", [("name", "Short")]⟩, .text "S", .endTag,
    .endTag, .endTag, .endTag]

/-- The enum that `sideEvents` is parsed to. -/
def sideEnum : EnumDef where
  name := "Side"
  encodingType := .char
  validValues := [{ name := "Buy", value := "1" }, { name := "Short", value := "S" }]

end Enum

end IronSbe.Codegen
