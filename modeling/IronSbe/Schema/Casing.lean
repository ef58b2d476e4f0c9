import IronSbe.Schema.Xml

/-!
# The case conversions

`to_snake_case`, `to_screaming_snake_case` and `to_pascal_case`, by which the generators
make names of the program from names of the schema.

* `lower_toSnakeCase`: a name in snake case has no capital letter.
* `upper_toScreamingSnakeCase`: a name in screaming snake case has no small letter.
-/

namespace IronSbe.Schema

/-- The classes of Unicode characters that the conversions ask for:
`char::is_alphanumeric`, `char::is_lowercase` and `char::is_uppercase`. -/
structure CharClasses where
  isAlphanumeric : Char → Bool
  isLowercase : Char → Bool
  isUppercase : Char → Bool

/-- The classes of the ASCII characters. -/
def CharClasses.ascii : CharClasses := ⟨Char.isAlphanum, Char.isLower, Char.isUpper⟩

/-! ## Snake case -/

/-- The words of a segment, behind the character `prev` and with the characters `word` of the
present word read.  A word ends in front of a capital letter that follows a small one, and in
front of the last capital letter of an acronym. -/
def segmentWords (cls : CharClasses) (prev : Char) (word : List Char) :
    List Char → List (List Char)
  | [] => [word]
  | c :: rest =>
    let nextIsLower := rest.head?.any cls.isLowercase
    let boundary := (cls.isLowercase prev && cls.isUppercase c) ||
      (cls.isUppercase prev && cls.isUppercase c && nextIsLower)
    if boundary then word :: segmentWords cls c [c] rest
    else segmentWords cls c (word ++ [c]) rest

/-- The words of a name.  Segments without a character are skipped. -/
def wordsOf (cls : CharClasses) (s : List Char) : List (List Char) :=
  (s.splitOnP fun c => !cls.isAlphanumeric c).flatMap fun segment =>
    match segment with
    | [] => []
    | c :: rest => segmentWords cls c [c] rest

/-- The words with an underscore in front of each but the first, in small letters. -/
def joinWords : List (List Char) → List Char
  | [] => []
  | [word] => word.map Char.toLower
  | word :: words => word.map Char.toLower ++ '_' :: joinWords words

/-- `to_snake_case`. -/
def toSnakeCase (cls : CharClasses) (s : String) : String :=
  .ofList (joinWords (wordsOf cls s.toList))

/-! ## Screaming snake case -/

/-- The loop of `to_screaming_snake_case`, with `first` for `i == 0`. -/
def screamingFrom (cls : CharClasses) (first lastWasSeparator : Bool) : List Char → List Char
  | [] => []
  | c :: rest =>
    if c = '-' then
      if lastWasSeparator then screamingFrom cls false true rest
      else '_' :: screamingFrom cls false true rest
    else if cls.isUppercase c && !first && !lastWasSeparator then
      '_' :: c.toUpper :: screamingFrom cls false false rest
    else c.toUpper :: screamingFrom cls false false rest

/-- `to_screaming_snake_case`. -/
def toScreamingSnakeCase (cls : CharClasses) (s : String) : String :=
  .ofList (screamingFrom cls true false s.toList)

/-! ## Pascal case -/

/-- The loop of `to_pascal_case`. -/
def pascalFrom (capitalizeNext : Bool) : List Char → List Char
  | [] => []
  | c :: rest =>
    if c = '_' ∨ c = '-' then pascalFrom true rest
    else if capitalizeNext then c.toUpper :: pascalFrom false rest
    else c :: pascalFrom false rest

/-- `to_pascal_case`. -/
def toPascalCase (s : String) : String := .ofList (pascalFrom true s.toList)

/-! ## The letters of the converted names -/

/-- The word has no capital letter of ASCII. -/
def Lower (s : String) : Prop := ∀ c ∈ s.toList, c.isUpper = false

instance (s : String) : Decidable (Lower s) := List.decidableBAll _ s.toList

/-- The word has no small letter of ASCII. -/
def Upper (s : String) : Prop := ∀ c ∈ s.toList, c.isLower = false

instance (s : String) : Decidable (Upper s) := List.decidableBAll _ s.toList

theorem isUpper_toLower (c : Char) : c.toLower.isUpper = false := by
  delta Char.isUpper Char.toLower
  split <;> grind [UInt32.toNat_add, Char.toNat_val]

theorem isLower_toUpper (c : Char) : c.toUpper.isLower = false := by
  delta Char.isLower Char.toUpper
  split <;> grind [UInt32.toNat_add, Char.toNat_val]

theorem isUpper_of_mem_map {word : List Char} {c : Char} (h : c ∈ word.map Char.toLower) :
    c.isUpper = false := by
  obtain ⟨d, -, rfl⟩ := List.mem_map.mp h
  exact isUpper_toLower d

theorem isUpper_of_mem_joinWords {words : List (List Char)} {c : Char}
    (h : c ∈ joinWords words) : c.isUpper = false := by
  induction words with
  | nil => cases h
  | cons word rest ih =>
    cases rest with
    | nil => exact isUpper_of_mem_map h
    | cons next rest =>
      rw [joinWords, List.mem_append, List.mem_cons] at h
      · rcases h with h | rfl | h
        · exact isUpper_of_mem_map h
        · decide
        · exact ih h
      · rintro ⟨⟩

theorem lower_toSnakeCase (cls : CharClasses) (s : String) : Lower (toSnakeCase cls s) := by
  intro c hc
  rw [toSnakeCase, String.toList_ofList] at hc
  exact isUpper_of_mem_joinWords hc

theorem isLower_of_mem_screamingFrom (cls : CharClasses) {first lastWasSeparator : Bool}
    {s : List Char} {c : Char} (h : c ∈ screamingFrom cls first lastWasSeparator s) :
    c.isLower = false := by
  induction s generalizing first lastWasSeparator with
  | nil => cases h
  | cons d rest ih =>
    -- a character of the result is an underscore, the capital of `d` or comes from the rest
    have hcases : c = '_' ∨ c = d.toUpper ∨ ∃ sep, c ∈ screamingFrom cls false sep rest := by
      rw [screamingFrom] at h
      split at h
      · split at h
        · exact .inr (.inr ⟨_, h⟩)
        · rcases List.mem_cons.mp h with h | h
          · exact .inl h
          · exact .inr (.inr ⟨_, h⟩)
      · split at h
        · rcases List.mem_cons.mp h with h | h
          · exact .inl h
          · exact .inr ((List.mem_cons.mp h).imp_right fun h => ⟨_, h⟩)
        · exact .inr ((List.mem_cons.mp h).imp_right fun h => ⟨_, h⟩)
    rcases hcases with rfl | rfl | ⟨sep, hrest⟩
    · decide
    · exact isLower_toUpper d
    · exact ih hrest

theorem upper_toScreamingSnakeCase (cls : CharClasses) (s : String) :
    Upper (toScreamingSnakeCase cls s) := by
  intro c hc
  rw [toScreamingSnakeCase, String.toList_ofList] at hc
  exact isLower_of_mem_screamingFrom cls hc

example : toSnakeCase .ascii "MDEntryPx" = "md_entry_px" := by decide
example : toSnakeCase .ascii "some-Hyphen" = "some_hyphen" := by decide
example : toScreamingSnakeCase .ascii "some-Hyphen" = "SOME_HYPHEN" := by decide
example : toPascalCase "some_hyphen-name" = "SomeHyphenName" := by decide

end IronSbe.Schema
