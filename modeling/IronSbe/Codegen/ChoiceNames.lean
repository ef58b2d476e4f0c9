import IronSbe.Codegen.Names
import IronSbe.Schema.SnakeCase

/-!
# The names of a choice

`generate_set` names the bit of a choice in screaming snake case and its three methods in
snake case.  The two conversions look for the ends of words in different ways: the first one
takes every capital letter for the start of a word and copies underscores, the second one
knows acronyms and takes all separators alike.

* `toSnakeCase_congr`, `toScreamingSnakeCase_congr`: for ASCII names the tables of Unicode do
  not matter.
* `spelled`: snake case in capital letters, read off the name from left to right.
* `screamingFrom_eq_spelled_iff`: the two readings of a name side by side.
* `conversionsAgree_iff`: the names for which the conversions agree.
-/

namespace IronSbe.Schema

open List

/-! ## Names of ASCII characters -/

section congr

variable {cls : CharClasses} (hcls : cls.OnAscii)
include hcls

theorem any_isLowercase_congr {o : Option Char} (ho : ∀ c, o = some c → c.toNat < 128) :
    o.any cls.isLowercase = o.any Char.isLower := by
  cases o with
  | none => rfl
  | some c => exact (hcls c (ho c rfl)).2.1

theorem segmentWords_congr {prev : Char} {word rest : List Char} (hprev : prev.toNat < 128)
    (hrest : IsAscii rest) :
    segmentWords cls prev word rest = segmentWords .ascii prev word rest := by
  induction rest generalizing prev word with
  | nil => rfl
  | cons c rest ih =>
    obtain ⟨hc, hrest⟩ := forall_mem_cons.mp hrest
    have hnext : rest.head?.any cls.isLowercase = rest.head?.any Char.isLower :=
      any_isLowercase_congr hcls fun d hd => hrest d (mem_of_head? hd)
    rw [segmentWords, segmentWords, ih hc hrest, ih hc hrest, hnext, (hcls prev hprev).2.1,
      (hcls prev hprev).2.2, (hcls c hc).2.2]
    rfl

theorem wordsOf_congr {s : List Char} (hs : IsAscii s) : wordsOf cls s = wordsOf .ascii s := by
  have hsplit : ∀ s : List Char, IsAscii s →
      (s.splitOnP fun c => !cls.isAlphanumeric c) = s.splitOnP fun c => !c.isAlphanum := by
    intro s hs
    induction s with
    | nil => rfl
    | cons c s ih =>
      obtain ⟨hc, hs⟩ := forall_mem_cons.mp hs
      rw [splitOnP_cons_eq_if_modifyHead, splitOnP_cons_eq_if_modifyHead, ih hs,
        (hcls c hc).1]
  rw [wordsOf_eq, wordsOf_eq, hsplit s hs]
  refine flatMap_congr fun segment hsegment => ?_
  have hascii : IsAscii segment := by
    intro c hc
    have hmem := mem_flatten_of_mem hsegment hc
    rw [flatten_splitOnP] at hmem
    exact hs c (mem_filter.mp hmem).1
  cases segment with
  | nil => rfl
  | cons c rest =>
    obtain ⟨hc, hrest⟩ := forall_mem_cons.mp hascii
    exact segmentWords_congr hcls hc hrest

theorem toSnakeCase_congr {s : String} (hs : IsAscii s.toList) :
    toSnakeCase cls s = toSnakeCase .ascii s := by
  rw [toSnakeCase, toSnakeCase, wordsOf_congr hcls hs]

theorem toScreamingSnakeCase_congr {s : String} (hs : IsAscii s.toList) :
    toScreamingSnakeCase cls s = toScreamingSnakeCase .ascii s := by
  have hfrom : ∀ (s : List Char) (first lastWasSeparator : Bool), IsAscii s →
      screamingFrom cls first lastWasSeparator s =
        screamingFrom .ascii first lastWasSeparator s := by
    intro s
    induction s with
    | nil => exact fun _ _ _ => rfl
    | cons c s ih =>
      intro first lastWasSeparator hs
      obtain ⟨hc, hs⟩ := forall_mem_cons.mp hs
      rw [screamingFrom, screamingFrom, ih _ _ hs, ih _ _ hs, (hcls c hc).2.2]
      rfl
  rw [toScreamingSnakeCase, toScreamingSnakeCase, hfrom _ _ _ hs]

end congr

/-! ## Snake case from left to right -/

/-- Whether an underscore comes in front of the letter or digit `c`, where `prev` is the letter
or digit in front of it and `none` is a separator. -/
def startsWord (prev : Option Char) (c : Char) (next : Option Char) : Bool :=
  match prev with
  | none => true
  | some p => (p.isLower && c.isUpper) || (p.isUpper && c.isUpper && next.any Char.isLower)

theorem segmentWords_cons (prev c : Char) (word rest : List Char) :
    segmentWords .ascii prev word (c :: rest) =
      if startsWord (some prev) c rest.head? then word :: segmentWords .ascii c [c] rest
      else segmentWords .ascii c (word ++ [c]) rest := rfl

/-- The words of a name in capital letters, with an underscore in front of each. -/
def spelled : Option Char → List Char → List Char
  | _, [] => []
  | prev, c :: rest =>
    if c.isAlphanum then
      (if startsWord prev c rest.head? then ['_'] else []) ++ c.toUpper :: spelled (some c) rest
    else spelled none rest

/-- `char::is_alphanumeric` of ASCII, as the split of a name has it. -/
abbrev segmentsOf (s : List Char) : List (List Char) := s.splitOnP fun c => !c.isAlphanum

theorem segmentsOf_cons (c : Char) (s : List Char) :
    segmentsOf (c :: s) =
      if c.isAlphanum then (segmentsOf s).modifyHead (c :: ·) else [] :: segmentsOf s := by
  rw [segmentsOf, splitOnP_cons_eq_if_modifyHead]
  cases c.isAlphanum <;> rfl

/-- The next character of a segment is that of the name, as far as small letters go. -/
theorem head?_segmentsOf {s segment : List Char} {segments : List (List Char)}
    (h : segmentsOf s = segment :: segments) :
    segment.head?.any Char.isLower = s.head?.any Char.isLower := by
  cases s with
  | nil =>
    cases h
    rfl
  | cons c s =>
    rw [segmentsOf_cons] at h
    cases hc : c.isAlphanum with
    | false =>
      rw [hc, if_neg (by decide)] at h
      cases h
      have hlower : c.isLower = false := by
        delta Char.isAlphanum Char.isAlpha at hc
        simp_all
      simp [hlower]
    | true =>
      obtain ⟨first, rest, hrest⟩ : ∃ first rest, segmentsOf s = first :: rest :=
        exists_cons_of_ne_nil (splitOnP_ne_nil _ s)
      rw [hc, if_pos rfl, hrest, modifyHead_cons] at h
      cases h
      rfl

theorem wordsOf_ascii (s : List Char) :
    wordsOf .ascii s = (segmentsOf s).flatMap (wordsOfSegment .ascii) := wordsOf_eq .ascii s

/-- The words in capital letters, with an underscore in front of each. -/
def shouted (words : List (List Char)) : List Char := (underscored words).map Char.toUpper

theorem shouted_cons {word : List Char} (hword : ∀ c ∈ word, c.isAlphanum = true)
    (words : List (List Char)) :
    shouted (word :: words) = '_' :: word.map Char.toUpper ++ shouted words := by
  have hmap : (word.map Char.toLower).map Char.toUpper = word.map Char.toUpper := by
    rw [map_map]
    exact map_congr_left fun c hc => (of_isAlphanum (hword c hc)).2.2.2.1
  rw [shouted, underscored, flatMap_cons, map_append, map_cons, hmap]
  rfl

/-- The words are found from left to right, where the second part is about the rest of a segment:
the characters `word` of the present word have been read, `prev` the last of them. -/
theorem shouted_eq_spelled (s : List Char) :
    shouted (wordsOf .ascii s) = spelled none s ∧
      ∀ (prev : Char) (word segment : List Char) (segments : List (List Char)),
        (∀ c ∈ word, c.isAlphanum = true) → segmentsOf s = segment :: segments →
        shouted (segmentWords .ascii prev word segment ++
            segments.flatMap (wordsOfSegment .ascii)) =
          '_' :: word.map Char.toUpper ++ spelled (some prev) s := by
  induction s with
  | nil =>
    refine ⟨rfl, fun prev word segment segments hword h => ?_⟩
    cases h
    exact shouted_cons hword []
  | cons c s ih =>
    obtain ⟨hnone, hsome⟩ := ih
    rw [wordsOf_ascii] at hnone
    rw [wordsOf_ascii, segmentsOf_cons]
    by_cases hc : c.isAlphanum = true
    · obtain ⟨first, rest, hrest⟩ : ∃ first rest, segmentsOf s = first :: rest :=
        exists_cons_of_ne_nil (splitOnP_ne_nil _ s)
      have hsingle : ∀ d ∈ [c], d.isAlphanum = true := by
        simpa using hc
      rw [if_pos hc, hrest, modifyHead_cons]
      constructor
      · rw [flatMap_cons, spelled, if_pos hc]
        exact hsome c [c] first rest hsingle hrest
      · intro prev word segment segments hword h
        cases h
        have hnext : startsWord (some prev) c s.head? = startsWord (some prev) c first.head? := by
          rw [startsWord, startsWord, head?_segmentsOf hrest]
        rw [segmentWords_cons, spelled, if_pos hc, hnext]
        by_cases hstart : startsWord (some prev) c first.head? = true
        · rw [if_pos hstart, if_pos hstart, cons_append, shouted_cons hword,
            hsome c [c] first rest hsingle hrest]
          rfl
        · have hword' : ∀ d ∈ word ++ [c], d.isAlphanum = true :=
            forall_mem_append.mpr ⟨hword, hsingle⟩
          rw [if_neg hstart, if_neg hstart, hsome c (word ++ [c]) first rest hword' hrest,
            map_append, ← cons_append, append_assoc]
          rfl
    · rw [if_neg hc]
      constructor
      · rw [spelled, if_neg hc]
        exact hnone
      · intro prev word segment segments hword h
        cases h
        rw [segmentWords, singleton_append, shouted_cons hword, spelled, if_neg hc, ← hnone]

/-! ## The two readings side by side -/

/-- The characters of the names: letters, digits, underscores and hyphens. -/
def IsNameCharacter (c : Char) : Prop := c.isAlphanum = true ∨ c = '_' ∨ c = '-'

instance (c : Char) : Decidable (IsNameCharacter c) := inferInstanceAs (Decidable (_ ∨ _))

/-- Screaming snake case has as many underscores in front of `c` as snake case, where `prev` is
the character in front of `c` and `next` the one behind it.  Hyphens count once, underscores each
time, and a capital letter brings one of its own unless a hyphen is in front of it. -/
def breakFits : Option Char → Char → Option Char → Bool
  | none, c, _ => c.isAlphanum
  | some p, c, next =>
    if c = '-' then p != '_'
    else if c = '_' then p.isAlphanum
    else !c.isUpper || p == '-' || startsWord (some p) c next

/-- The breaks fit in all of the name, which does not end with a separator. -/
def breaksAlike : Option Char → List Char → Bool
  | prev, [] => prev.all Char.isAlphanum
  | prev, c :: rest => breakFits prev c rest.head? && breaksAlike (some c) rest

section screaming

variable (first lastWasSeparator : Bool) (s : List Char)

theorem screamingFrom_hyphen :
    screamingFrom .ascii first lastWasSeparator ('-' :: s) =
      (if lastWasSeparator then [] else ['_']) ++ screamingFrom .ascii false true s := by
  rw [screamingFrom, if_pos rfl]
  cases lastWasSeparator <;> rfl

theorem screamingFrom_alphanum {c : Char} (hc : c.isAlphanum = true) :
    screamingFrom .ascii first lastWasSeparator (c :: s) =
      (if c.isUpper && !first && !lastWasSeparator then ['_'] else []) ++
        c.toUpper :: screamingFrom .ascii false false s := by
  have hne : c ≠ '-' := by
    rintro rfl
    exact absurd hc (by decide)
  rw [screamingFrom, if_neg hne]
  change (if (c.isUpper && !first && !lastWasSeparator) = true then _ else _) = _
  split_ifs <;> rfl

end screaming

/-- No word starts with an underscore. -/
theorem spelled_none_ne (s : List Char) (c : Char) (t : List Char) :
    spelled none s ≠ c :: '_' :: t := by
  induction s with
  | nil => nofun
  | cons d s ih =>
    by_cases hd : d.isAlphanum = true
    · rw [spelled, if_pos hd]
      intro h
      have hupper : d.toUpper = '_' := (cons.inj (cons.inj h).2).1
      exact (of_isAlphanum hd).2.2.2.2 hupper
    · rw [spelled, if_neg hd]
      exact ih

theorem underscore_ne_toUpper {c : Char} (hc : c.isAlphanum = true) : '_' ≠ c.toUpper :=
  (of_isAlphanum hc).2.2.2.2.symm

/-- The underscore that screaming snake case has written for a separator. -/
def pending (p : Char) : List Char := if p.isAlphanum then [] else ['_']

theorem guard_of_isAlphanum {c : Char} (hc : c.isAlphanum = true) :
    Option.guard Char.isAlphanum c = some c := Option.guard_eq_some_iff.mpr ⟨rfl, hc⟩

theorem ne_separator {c : Char} (hc : c.isAlphanum = true) : c ≠ '-' ∧ c ≠ '_' := by
  constructor <;>
  · rintro rfl
    exact absurd hc (by decide)

/-- In front of a letter or digit the underscores are counted. -/
theorem alphanum_break_iff {p c : Char} (hp : IsNameCharacter p) (hc : c.isAlphanum = true)
    (next : Option Char) (t t' : List Char) :
    pending p ++ ((if c.isUpper && !(p == '-') then ['_'] else []) ++ c.toUpper :: t) =
        (if startsWord (Option.guard Char.isAlphanum p) c next then ['_'] else []) ++
          c.toUpper :: t' ↔
      breakFits (some p) c next = true ∧ t = t' := by
  obtain ⟨hhyphen, hunderscore⟩ := ne_separator hc
  have hupper := underscore_ne_toUpper hc
  rw [breakFits, if_neg hhyphen, if_neg hunderscore]
  rcases hp with hp | rfl | rfl
  · rw [guard_of_isAlphanum hp, pending, if_pos hp, beq_false_of_ne (ne_separator hp).1,
      startsWord]
    cases c.isUpper with
    | false => simp
    | true =>
      cases (p.isLower && true || p.isUpper && true && next.any Char.isLower) <;> simp [hupper]
  · have hstart : startsWord (some '_') c next = false := rfl
    change '_' :: _ = '_' :: c.toUpper :: t' ↔ _
    rw [hstart]
    cases c.isUpper <;> simp [hupper]
  · change '_' :: _ = '_' :: c.toUpper :: t' ↔ _
    simp

/-- Behind the character `p` the rest of the name is read alike.  The underscore of a separator
is written at once in the one case and with the next word in the other. -/
theorem screamingFrom_eq_spelled_iff {p : Char} {s : List Char} (hp : IsNameCharacter p)
    (hs : ∀ c ∈ s, IsNameCharacter c) :
    pending p ++ screamingFrom .ascii false (p == '-') s =
        spelled (Option.guard Char.isAlphanum p) s ↔
      breaksAlike (some p) s = true := by
  induction s generalizing p with
  | nil =>
    rw [screamingFrom, spelled, breaksAlike, Option.all_some, pending]
    cases p.isAlphanum <;> decide
  | cons c s ih =>
    obtain ⟨hc, hs⟩ := forall_mem_cons.mp hs
    have hdouble : ∀ t, '_' :: '_' :: t ≠ spelled none s :=
      fun t => (spelled_none_ne s '_' t).symm
    rw [breaksAlike, Bool.and_eq_true, ← ih hc hs]
    rcases hc with hc | rfl | rfl
    · rw [spelled, if_pos hc, screamingFrom_alphanum _ _ _ hc, guard_of_isAlphanum hc,
        beq_false_of_ne (ne_separator hc).1, pending.eq_def c, if_pos hc, nil_append,
        Bool.not_false, Bool.and_true]
      exact alphanum_break_iff hp hc _ _ _
    · rcases hp with hp | rfl | rfl
      · have hfits : breakFits (some p) '_' s.head? = true := hp
        rw [hfits, pending, if_pos hp]
        exact (and_iff_right rfl).symm
      all_goals exact iff_of_false (hdouble _) (fun h => Bool.false_ne_true h.1)
    · rcases hp with hp | rfl | rfl
      · have hfits : breakFits (some p) '-' s.head? = true := bne_iff_ne.mpr (ne_separator hp).2
        rw [hfits, pending, if_pos hp, screamingFrom_hyphen, beq_false_of_ne (ne_separator hp).1]
        exact (and_iff_right rfl).symm
      · exact iff_of_false (hdouble _) (fun h => Bool.false_ne_true h.1)
      · rw [screamingFrom_hyphen]
        exact (and_iff_right rfl).symm

/-- The string in capital letters. -/
def upperCase (s : String) : String := .ofList (s.toList.map Char.toUpper)

theorem upperCase_toSnakeCase (s : String) :
    upperCase (toSnakeCase .ascii s) = .ofList (spelled none s.toList).tail := by
  rw [upperCase, toSnakeCase, String.toList_ofList, joinWords_eq_tail, map_tail]
  change String.ofList (shouted (wordsOf .ascii s.toList)).tail = _
  rw [(shouted_eq_spelled s.toList).1]

theorem toScreamingSnakeCase_eq_iff {s : String} (hs : ∀ c ∈ s.toList, IsNameCharacter c) :
    toScreamingSnakeCase .ascii s = upperCase (toSnakeCase .ascii s) ↔
      breaksAlike none s.toList = true := by
  rw [upperCase_toSnakeCase, toScreamingSnakeCase, String.ofList_inj]
  generalize s.toList = name at hs ⊢
  cases name with
  | nil => decide
  | cons c rest =>
    obtain ⟨hc, hrest⟩ := forall_mem_cons.mp hs
    have hdouble : ∀ t, '_' :: t ≠ (spelled none rest).tail := by
      intro t h
      obtain ⟨d, hd⟩ : ∃ d, spelled none rest = d :: '_' :: t := by
        cases hspelled : spelled none rest with
        | nil => exact absurd (hspelled ▸ h) (by simp)
        | cons d t' => exact ⟨d, by rw [h, hspelled, tail_cons]⟩
      exact spelled_none_ne rest d t hd
    rw [breaksAlike, Bool.and_eq_true, ← screamingFrom_eq_spelled_iff hc hrest]
    rcases hc with hc | rfl | rfl
    · rw [guard_of_isAlphanum hc, pending, if_pos hc, beq_false_of_ne (ne_separator hc).1, spelled,
        if_pos hc, screamingFrom_alphanum _ _ _ hc]
      simp [breakFits, hc, startsWord]
    all_goals exact iff_of_false (hdouble _) (fun h => Bool.false_ne_true h.1)

end IronSbe.Schema

namespace IronSbe.Codegen

open Schema

/-! ## Choices -/

variable (cls : CharClasses)

/-- The constant of a choice. -/
def choiceConstant (choice : SetVariant) : String := toScreamingSnakeCase cls choice.name

/-- The methods of a choice. -/
def choiceMethods (choice : SetVariant) : List String :=
  choicePrefixes.map fun first => first ++ toSnakeCase cls choice.name

/-- The constant and the methods of a choice are made of the same words. -/
def CarriesSameWords (choice : SetVariant) : Prop :=
  ∃ words, choiceMethods cls choice = choicePrefixes.map (fun first => first ++ words) ∧
    choiceConstant cls choice = upperCase words

/-- The two conversions agree on a name, and so for the choices of that name. -/
structure ConversionsAgree (name : String) : Prop where
  upperCase : toScreamingSnakeCase cls name = upperCase (toSnakeCase cls name)
  words : ∀ choice : SetVariant, choice.name = name → CarriesSameWords cls choice

variable {cls}

theorem conversionsAgree_iff (hcls : cls.OnAscii) {name : String}
    (hname : ∀ c ∈ name.toList, IsNameCharacter c) :
    ConversionsAgree cls name ↔ breaksAlike none name.toList = true := by
  have hascii : IsAscii name.toList := by
    intro c hc
    rcases hname c hc with h | rfl | rfl
    · exact toNat_lt_of_isAlphanum h
    · decide
    · decide
  rw [← toScreamingSnakeCase_eq_iff hname, ← toScreamingSnakeCase_congr hcls hascii,
    ← toSnakeCase_congr hcls hascii]
  constructor
  · exact ConversionsAgree.upperCase
  · intro h
    refine ⟨h, fun choice hchoice => ⟨toSnakeCase cls name, ?_, ?_⟩⟩
    · rw [choiceMethods, hchoice]
    · rw [choiceConstant, hchoice, h]

theorem conversionsAgree_hyphens :
    ConversionsAgree .ascii "ifTouched--AtXPrice_2" :=
  (conversionsAgree_iff onAscii_ascii (List.all_iff_forall_prop.mp (by decide))).mpr (by decide)

/-- Screaming snake case knows no acronyms. -/
theorem not_conversionsAgree_acronym :
    (∀ c ∈ "IOC".toList, IsNameCharacter c) ∧ toScreamingSnakeCase .ascii "IOC" = "I_O_C" ∧
      toSnakeCase .ascii "IOC" = "ioc" ∧ ¬ ConversionsAgree .ascii "IOC" := by
  refine ⟨List.all_iff_forall_prop.mp (by decide), by decide, by decide, fun h => ?_⟩
  exact absurd h.upperCase (by decide)

end IronSbe.Codegen
