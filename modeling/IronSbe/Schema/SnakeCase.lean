import Mathlib.Data.Bool.AllAny
import Mathlib.Data.List.Chain
import IronSbe.Schema.Casing

/-!
# The normal form of snake case

`to_snake_case` is a loop over the segments of the name with a loop over the characters of a
segment inside, and it writes a word when it has found its end.  The variables of the loops
are carried from one segment to the next.  `SnakeLoop.toSnakeCase` is these loops; what they
come to is the list of the words of the name, which `toSnakeCase` joins.

* `SnakeLoop.characters_eq`: from the end of one word on, the inner loop writes the words of
  the rest of the segment.
* `SnakeLoop.toSnakeCase_eq`: the loops return, and what they return.
* `filter_joinWords`, `isChain_joinWords`, `wordsOf_joinWords`: the words can be found again in
  the result, and nothing else is in it.
* `toSnakeCase_normalForm`: the results for names of ASCII characters.
-/

namespace IronSbe.Schema

open Lib.Slice List Char

/-! ## The loops -/

namespace SnakeLoop

/-- The variables of `to_snake_case`. -/
structure Vars where
  result : List Char := []
  prevLower : Bool := false
  start : Nat := 0
  first : Bool := true

/-- Write a word, with an underscore in front of it unless it is the first one. -/
def Vars.push (v : Vars) (word : List Char) : Vars :=
  { v with
    result := v.result ++ (if v.first then [] else ['_']) ++ word.map Char.toLower
    first := false }

variable (cls : CharClasses)

/-- The inner loop at index `i`; `none` is the panic of an index or a range outside the
segment. -/
def character (chars : List Char) (v : Vars) (i : Nat) : Option Vars := do
  let c ← chars[i]?
  let isUpper := cls.isUppercase c
  let v ←
    if 0 < i then do
      let prev ← chars[i - 1]?
      let nextIsLower := chars[i + 1]?.any cls.isLowercase
      let boundary := (v.prevLower && isUpper) ||
        (cls.isUppercase prev && isUpper && nextIsLower)
      if boundary then do
        let word ← slice chars v.start i
        some { v.push word with start := i }
      else some v
    else some v
  some { v with prevLower := cls.isLowercase c }

/-- The outer loop at a segment. -/
def segment (v : Vars) (chars : List Char) : Option Vars :=
  if chars.isEmpty then some v
  else do
    let v ← (List.range chars.length).foldlM (character cls chars) v
    -- the characters behind the last boundary
    let word ← slice chars v.start chars.length
    some { v.push word with start := 0 }

/-- `to_snake_case`. -/
def toSnakeCase (s : String) : Option String := do
  let v ← (s.toList.splitOnP fun c => !cls.isAlphanumeric c).foldlM (segment cls) {}
  some (.ofList v.result)

end SnakeLoop

/-! ## What the loops write -/

/-- The words behind others, with an underscore in front of each. -/
def underscored (words : List (List Char)) : List Char :=
  words.flatMap fun word => '_' :: word.map Char.toLower

theorem joinWords_cons (word : List Char) (words : List (List Char)) :
    joinWords (word :: words) = word.map Char.toLower ++ underscored words := by
  induction words generalizing word with
  | nil => rw [joinWords, underscored, flatMap_nil, append_nil]
  | cons next words ih =>
    rw [joinWords, ih]
    · rfl
    · exact cons_ne_nil next words

theorem joinWords_eq_tail (words : List (List Char)) :
    joinWords words = (underscored words).tail := by
  cases words with
  | nil => rfl
  | cons word words => exact joinWords_cons word words

theorem joinWords_concat (words : List (List Char)) (word : List Char) :
    joinWords (words ++ [word]) =
      joinWords words ++ (if words.isEmpty then [] else ['_']) ++ word.map Char.toLower := by
  cases words with
  | nil => rfl
  | cons first words => simp [joinWords_cons, underscored]

/-- The words of one segment. -/
def wordsOfSegment (cls : CharClasses) : List Char → List (List Char)
  | [] => []
  | c :: rest => segmentWords cls c [c] rest

theorem wordsOf_eq (cls : CharClasses) (s : List Char) :
    wordsOf cls s =
      (s.splitOnP fun c => !cls.isAlphanumeric c).flatMap (wordsOfSegment cls) := by
  rw [wordsOf]
  congr 1

namespace SnakeLoop

/-- The words `done` have been written. -/
structure Wrote (v : Vars) (done : List (List Char)) : Prop where
  result : v.result = joinWords done
  first : v.first = done.isEmpty

theorem Wrote.push {v : Vars} {done : List (List Char)} (h : Wrote v done) (word : List Char) :
    Wrote (v.push word) (done ++ [word]) where
  result := by rw [joinWords_concat, ← h.result, ← h.first, Vars.push]
  first := by simp [Vars.push]

variable (cls : CharClasses)

/-- The inner loop behind the first character: `front` has been written, and the characters
`word` of the present word have been read. -/
theorem characters_eq {chars front word rest : List Char} {prev : Char} {v : Vars}
    {done : List (List Char)} (hdone : Wrote v done) (hchars : chars = front ++ (word ++ rest))
    (hlast : word.getLast? = some prev) (hstart : v.start = front.length)
    (hlower : v.prevLower = cls.isLowercase prev) :
    ∃ v' last,
      (List.range' (front.length + word.length) rest.length).foldlM (character cls chars) v =
        some v' ∧
      slice chars v'.start chars.length = some last ∧
      Wrote (v'.push last) (done ++ segmentWords cls prev word rest) := by
  induction rest generalizing front word prev v done with
  | nil =>
    have hslice : slice chars v.start chars.length = some word := by
      rw [hchars, append_nil, hstart, length_append]
      exact (slice_eq_some (by omega) (by rw [length_append])).trans (by simp)
    exact ⟨v, word, rfl, hslice, hdone.push word⟩
  | cons c rest ih =>
    have hpos : 0 < word.length := by
      cases word with
      | nil => cases hlast
      | cons _ _ => exact Nat.succ_pos _
    have hc : chars[front.length + word.length]? = some c := by
      rw [hchars, ← append_assoc, getElem?_append_right (by simp)]
      simp
    have hprev : chars[front.length + word.length - 1]? = some prev := by
      rw [hchars, getElem?_append_right (by omega), getElem?_append_left (by omega),
        ← hlast, getLast?_eq_getElem?]
      congr 1
      omega
    have hnext : chars[front.length + word.length + 1]? = rest.head? := by
      rw [hchars, ← append_assoc, getElem?_append_right (by simp),
        head?_eq_getElem?]
      simp
    have hword : slice chars v.start (front.length + word.length) = some word := by
      rw [hchars, hstart]
      exact (slice_eq_some (by omega) (by simp)).trans (by simp)
    have hstep : character cls chars v (front.length + word.length) =
        some (if (cls.isLowercase prev && cls.isUppercase c) ||
            (cls.isUppercase prev && cls.isUppercase c && rest.head?.any cls.isLowercase) then
          { v.push word with
            start := front.length + word.length, prevLower := cls.isLowercase c }
          else { v with prevLower := cls.isLowercase c }) := by
      simp only [character, hc, hprev, hnext, hlower, hword, bind, Option.bind_some,
        if_pos (show 0 < front.length + word.length by omega)]
      split_ifs <;> rfl
    rw [length_cons, range'_succ, foldlM_cons, hstep, segmentWords]
    simp only [bind, Option.bind_some]
    split_ifs with hboundary
    · -- the word ends here, and `c` is the first character of the next one
      have hpushed := hdone.push word
      obtain ⟨v', last, hrun, hslice, hwrote⟩ := ih
        (v := { v.push word with
          start := front.length + word.length, prevLower := cls.isLowercase c })
        ⟨hpushed.result, hpushed.first⟩
        (show chars = (front ++ word) ++ ([c] ++ rest) by rw [hchars]; simp)
        (show [c].getLast? = some c from rfl) (by simp) rfl
      rw [← append_cons] at hwrote
      exact ⟨v', last, by simpa using hrun, hslice, hwrote⟩
    · obtain ⟨v', last, hrun, hslice, hwrote⟩ := ih
        (v := { v with prevLower := cls.isLowercase c }) ⟨hdone.result, hdone.first⟩
        (show chars = front ++ ((word ++ [c]) ++ rest) by rw [hchars]; simp)
        (show (word ++ [c]).getLast? = some c by simp) hstart rfl
      rw [length_append, length_singleton, ← Nat.add_assoc] at hrun
      exact ⟨v', last, hrun, hslice, hwrote⟩

/-- The outer loop writes the words of the segment. -/
theorem segment_eq {v : Vars} {done : List (List Char)} (hdone : Wrote v done)
    (hstart : v.start = 0) (chars : List Char) :
    ∃ v', segment cls v chars = some v' ∧ v'.start = 0 ∧
      Wrote v' (done ++ wordsOfSegment cls chars) := by
  cases chars with
  | nil => exact ⟨v, rfl, hstart, by rwa [wordsOfSegment, append_nil]⟩
  | cons c rest =>
    have hfirst : character cls (c :: rest) v 0 =
        some { v with prevLower := cls.isLowercase c } := rfl
    obtain ⟨v', last, hrun, hslice, hwrote⟩ := characters_eq cls
      (v := { v with prevLower := cls.isLowercase c }) ⟨hdone.result, hdone.first⟩
      (show c :: rest = [] ++ ([c] ++ rest) from rfl) (show [c].getLast? = some c from rfl)
      hstart rfl
    refine ⟨{ v'.push last with start := 0 }, ?_, rfl, ⟨hwrote.result, hwrote.first⟩⟩
    rw [segment, if_neg (by simp), length_cons, range_eq_range', range'_succ,
      foldlM_cons, hfirst]
    simp only [bind, Option.bind_some]
    rw [show 0 + 1 = ([] : List Char).length + [c].length from rfl, hrun]
    exact congrArg (Option.bind · _) hslice

theorem segments_eq {v : Vars} {done : List (List Char)} (hdone : Wrote v done)
    (hstart : v.start = 0) (segments : List (List Char)) :
    ∃ v', segments.foldlM (segment cls) v = some v' ∧
      Wrote v' (done ++ segments.flatMap (wordsOfSegment cls)) := by
  induction segments generalizing v done with
  | nil => exact ⟨v, rfl, by rwa [flatMap_nil, append_nil]⟩
  | cons chars segments ih =>
    obtain ⟨mid, hmid, hstart', hwrote⟩ := segment_eq cls hdone hstart chars
    obtain ⟨v', hrun, hwrote'⟩ := ih hwrote hstart'
    refine ⟨v', ?_, ?_⟩
    · rw [foldlM_cons, hmid]
      exact hrun
    · rwa [flatMap_cons, ← append_assoc]

/-- The loops return, and they have joined the words. -/
theorem toSnakeCase_eq (cls : CharClasses) (s : String) :
    SnakeLoop.toSnakeCase cls s = some (Schema.toSnakeCase cls s) := by
  have hstart : SnakeLoop.Wrote {} [] := ⟨rfl, rfl⟩
  obtain ⟨v, hrun, hwrote⟩ := segments_eq cls hstart rfl
    (s.toList.splitOnP fun c => !cls.isAlphanumeric c)
  rw [← wordsOf_eq, nil_append] at hwrote
  simp only [toSnakeCase, hrun, bind, Option.bind_some]
  rw [hwrote.result, Schema.toSnakeCase]

end SnakeLoop

/-! ## ASCII characters -/

/-- The string has ASCII characters only. -/
def IsAscii (s : List Char) : Prop := ∀ c ∈ s, c.toNat < 128

/-- The classes of Unicode, which are those of ASCII on the ASCII characters. -/
def CharClasses.OnAscii (cls : CharClasses) : Prop :=
  ∀ c : Char, c.toNat < 128 → cls.isAlphanumeric c = c.isAlphanum ∧
    cls.isLowercase c = c.isLower ∧ cls.isUppercase c = c.isUpper

theorem forall_ascii {P : Char → Prop} (h : ∀ n < 128, P (Char.ofNat n)) {c : Char}
    (hc : c.toNat < 128) : P c := by
  have hchar := h c.toNat hc
  rwa [ofNat_toNat] at hchar

theorem toNat_lt_of_isAlphanum {c : Char} (h : c.isAlphanum = true) : c.toNat < 128 := by
  delta isAlphanum isAlpha isUpper isLower isDigit at h
  simp only [Bool.or_eq_true, Bool.and_eq_true, decide_eq_true_eq, ge_iff_le,
    UInt32.le_iff_toNat_le] at h
  have hval : c.val.toNat = c.toNat := rfl
  have hZ : 'Z'.val.toNat = 90 := rfl
  have hz : 'z'.val.toNat = 122 := rfl
  have h9 : '9'.val.toNat = 57 := rfl
  omega

/-- What is known of a letter or digit. -/
theorem of_isAlphanum {c : Char} (h : c.isAlphanum = true) :
    (c.toLower.isLower = true ∨ c.toLower.isDigit = true) ∧ c.toLower.isAlphanum = true ∧
      c.toLower.toLower = c.toLower ∧
      c.toLower.toUpper = c.toUpper ∧ c.toUpper ≠ '_' := by
  have hc := toNat_lt_of_isAlphanum h
  revert h
  exact forall_ascii (P := fun c => c.isAlphanum = true →
    (c.toLower.isLower = true ∨ c.toLower.isDigit = true) ∧ c.toLower.isAlphanum = true ∧
      c.toLower.toLower = c.toLower ∧
      c.toLower.toUpper = c.toUpper ∧ c.toUpper ≠ '_') (by decide +kernel) hc

/-! ## Words -/

section words

variable {cls : CharClasses}

theorem flatten_segmentWords (prev : Char) (word rest : List Char) :
    (segmentWords cls prev word rest).flatten = word ++ rest := by
  induction rest generalizing prev word with
  | nil => simp [segmentWords]
  | cons c rest ih =>
    rw [segmentWords]
    split_ifs
    · rw [flatten_cons, ih, singleton_append]
    · rw [ih, append_assoc, singleton_append]

theorem ne_nil_of_mem_segmentWords {prev : Char} {word rest w : List Char} (hword : word ≠ [])
    (h : w ∈ segmentWords cls prev word rest) : w ≠ [] := by
  induction rest generalizing prev word with
  | nil =>
    rw [segmentWords, mem_singleton] at h
    rwa [h]
  | cons c rest ih =>
    rw [segmentWords] at h
    split_ifs at h
    · rcases mem_cons.mp h with rfl | h
      · exact hword
      · exact ih (cons_ne_nil c []) h
    · exact ih (by simp) h

/-- A segment without capital letters is one word. -/
theorem segmentWords_of_not_upper {prev : Char} {word rest : List Char}
    (h : ∀ c ∈ rest, cls.isUppercase c = false) :
    segmentWords cls prev word rest = [word ++ rest] := by
  induction rest generalizing prev word with
  | nil => rw [segmentWords, append_nil]
  | cons c rest ih =>
    rw [forall_mem_cons] at h
    rw [segmentWords, if_neg (by simp [h.1]), ih h.2, append_assoc, singleton_append]

theorem flatten_splitOnP (p : Char → Bool) (s : List Char) :
    (s.splitOnP p).flatten = s.filter fun c => !p c := by
  induction s with
  | nil => rfl
  | cons c s ih =>
    rw [splitOnP_cons_eq_if_modifyHead]
    cases hp : p c with
    | true => simp [hp, ih]
    | false =>
      obtain ⟨seg, segs, hsegs⟩ := exists_cons_of_ne_nil (splitOnP_ne_nil p s)
      rw [hsegs] at ih
      simp only [hsegs, hp, Bool.false_eq_true, if_false, modifyHead_cons, flatten_cons,
        cons_append, Bool.not_false, filter_cons_of_pos]
      rw [← ih, flatten_cons]

/-- The characters of the words are the letters and digits of the name. -/
theorem flatten_wordsOf (cls : CharClasses) (s : List Char) :
    (wordsOf cls s).flatten = s.filter cls.isAlphanumeric := by
  have hsegment : ∀ segments : List (List Char),
      (segments.flatMap (wordsOfSegment cls)).flatten = segments.flatten := by
    intro segments
    induction segments with
    | nil => rfl
    | cons chars segments ih =>
      rw [flatMap_cons, flatten_append, ih, flatten_cons]
      cases chars with
      | nil => rfl
      | cons c rest => rw [wordsOfSegment, flatten_segmentWords, singleton_append]
  rw [wordsOf_eq, hsegment, flatten_splitOnP]
  simp only [Bool.not_not]

theorem ne_nil_of_mem_wordsOf {s w : List Char} (h : w ∈ wordsOf cls s) : w ≠ [] := by
  rw [wordsOf_eq] at h
  obtain ⟨segment, -, h⟩ := mem_flatMap.mp h
  cases segment with
  | nil => cases h
  | cons c rest => exact ne_nil_of_mem_segmentWords (cons_ne_nil c []) h

end words

/-! ## Joined words -/

/-- A word of letters and digits. -/
structure IsWord (word : List Char) : Prop where
  ne_nil : word ≠ []
  alphanum : ∀ c ∈ word, c.isAlphanum = true

theorem isWord_of_mem_wordsOf {cls : CharClasses} (hcls : cls.OnAscii) {s : List Char}
    (hs : IsAscii s) {word : List Char} (h : word ∈ wordsOf cls s) : IsWord word := by
  have hmem : ∀ c ∈ word, c ∈ s ∧ cls.isAlphanumeric c = true := by
    intro c hc
    have hflatten : c ∈ (wordsOf cls s).flatten := mem_flatten_of_mem h hc
    rw [flatten_wordsOf] at hflatten
    exact mem_filter.mp hflatten
  refine ⟨ne_nil_of_mem_wordsOf h, fun c hc => ?_⟩
  rw [← (hcls c (hs c (hmem c hc).1)).1]
  exact (hmem c hc).2

namespace IsWord

variable {word : List Char}

theorem toLower (h : IsWord word) : IsWord (word.map Char.toLower) where
  ne_nil := by simpa using h.ne_nil
  alphanum := by
    intro d hd
    obtain ⟨c, hc, rfl⟩ := mem_map.mp hd
    exact (of_isAlphanum (h.alphanum c hc)).2.1

/-- There is no underscore in a word. -/
theorem ne_underscore (h : IsWord word) {c : Char} (hc : c ∈ word) : c ≠ '_' := by
  rintro rfl
  exact absurd (h.alphanum _ hc) (by decide)

/-- A word in small letters stays as it is. -/
theorem map_toLower_toLower (h : IsWord word) :
    (word.map Char.toLower).map Char.toLower = word.map Char.toLower := by
  rw [map_map]
  refine map_congr_left fun c hc => ?_
  exact (of_isAlphanum (h.alphanum c hc)).2.2.1

end IsWord

section joined

variable {words : List (List Char)} (hwords : ∀ word ∈ words, IsWord word)
include hwords

theorem mem_joinWords {c : Char} (h : c ∈ joinWords words) :
    c.isLower = true ∨ c.isDigit = true ∨ c = '_' := by
  rw [joinWords_eq_tail] at h
  obtain ⟨word, hword, h⟩ := mem_flatMap.mp (mem_of_mem_tail h)
  rcases mem_cons.mp h with rfl | h
  · exact .inr (.inr rfl)
  · obtain ⟨d, hd, rfl⟩ := mem_map.mp h
    exact (of_isAlphanum ((hwords word hword).alphanum d hd)).1.imp_right .inl

/-- Without the underscores only the characters of the words are left. -/
theorem filter_joinWords :
    (joinWords words).filter (· ≠ '_') = words.flatten.map Char.toLower := by
  have hunderscored : (underscored words).filter (· ≠ '_') = words.flatten.map toLower := by
    induction words with
    | nil => rfl
    | cons word words ih =>
      rw [forall_mem_cons] at hwords
      have hword : (word.map toLower).filter (· ≠ '_') = word.map toLower :=
        filter_eq_self.mpr fun c hc => by simpa using hwords.1.toLower.ne_underscore hc
      rw [underscored, flatMap_cons, filter_append, flatten_cons, map_append,
        ← ih hwords.2, filter_cons_of_neg (by decide), hword]
      rfl
  rw [joinWords_eq_tail, ← hunderscored]
  cases words <;> rfl

/-- There are no two underscores side by side. -/
theorem isChain_underscored : (underscored words).IsChain fun a b => a = '_' → b ≠ '_' := by
  have hword : ∀ word rest : List Char, (∀ c ∈ word, c ≠ '_') →
      rest.IsChain (fun a b => a = '_' → b ≠ '_') →
      (word ++ rest).IsChain fun a b => a = '_' → b ≠ '_' := by
    intro word rest hword hrest
    induction word with
    | nil => exact hrest
    | cons c word ih =>
      rw [forall_mem_cons] at hword
      exact isChain_cons.mpr ⟨fun _ _ hc => absurd hc hword.1, ih hword.2⟩
  induction words with
  | nil => exact .nil
  | cons word words ih =>
    rw [forall_mem_cons] at hwords
    have hlower : ∀ c ∈ word.map toLower, c ≠ '_' :=
      fun c hc => hwords.1.toLower.ne_underscore hc
    refine isChain_cons.mpr ⟨fun d hd _ => ?_, hword _ _ hlower (ih hwords.2)⟩
    -- the underscore stands in front of the first character of a word
    obtain ⟨c, chars, rfl⟩ := exists_cons_of_ne_nil hwords.1.ne_nil
    cases hd
    exact hlower _ mem_cons_self

theorem isChain_joinWords : (joinWords words).IsChain fun a b => a = '_' → b ≠ '_' := by
  rw [joinWords_eq_tail]
  exact (isChain_underscored hwords).tail

theorem head?_joinWords : (joinWords words).head? ≠ some '_' := by
  have hchain := isChain_underscored hwords
  cases words with
  | nil => exact nofun
  | cons word words =>
    rw [joinWords_eq_tail]
    exact fun hhead => (isChain_cons.mp hchain).1 '_' hhead rfl rfl

theorem getLast?_joinWords : (joinWords words).getLast? ≠ some '_' := by
  induction words with
  | nil => exact nofun
  | cons word words ih =>
    rw [forall_mem_cons] at hwords
    cases words with
    | nil =>
      intro hlast
      exact hwords.1.toLower.ne_underscore (mem_of_getLast? hlast) rfl
    | cons next words =>
      have hne : joinWords (next :: words) ≠ [] := by
        rw [joinWords_cons]
        simpa using fun h => absurd h (hwords.2 next mem_cons_self).ne_nil
      rw [joinWords, getLast?_append_of_ne_nil _ (cons_ne_nil _ _),
        getLast?_cons_of_ne_nil hne]
      · exact ih hwords.2
      · exact cons_ne_nil next words

/-- The words can be found again. -/
theorem wordsOf_joinWords {cls : CharClasses} (hcls : cls.OnAscii) :
    wordsOf cls (joinWords words) = words.map fun word => word.map Char.toLower := by
  have hseparator : (!cls.isAlphanumeric '_') = true := by
    rw [(hcls '_' (by decide)).1]
    decide
  have hletter : ∀ word, IsWord word → ∀ c ∈ word.map toLower,
      (!cls.isAlphanumeric c) = false := by
    intro word h c hc
    have halphanum := h.toLower.alphanum c hc
    rw [(hcls c (toNat_lt_of_isAlphanum halphanum)).1, halphanum]
    rfl
  have hsegment : ∀ word, IsWord word →
      wordsOfSegment cls (word.map toLower) = [word.map toLower] := by
    intro word h
    obtain ⟨c, rest, hrest⟩ := exists_cons_of_ne_nil h.toLower.ne_nil
    rw [hrest, wordsOfSegment, segmentWords_of_not_upper, singleton_append]
    intro d hd
    have hmem : d ∈ word.map toLower := hrest ▸ mem_cons_of_mem c hd
    rw [(hcls d (toNat_lt_of_isAlphanum (h.toLower.alphanum d hmem))).2.2]
    exact isUpper_of_mem_map hmem
  rw [wordsOf_eq]
  induction words with
  | nil => rfl
  | cons word words ih =>
    rw [forall_mem_cons] at hwords
    cases words with
    | nil =>
      rw [joinWords, splitOnP_eq_singleton (hletter word hwords.1), flatMap_singleton,
        hsegment word hwords.1]
      rfl
    | cons next words =>
      rw [joinWords, splitOnP_append_cons_of_forall_mem (hletter word hwords.1) _ hseparator,
        flatMap_cons, ih hwords.2, hsegment word hwords.1]
      · rfl
      · exact cons_ne_nil next words

theorem joinWords_map_toLower :
    joinWords (words.map fun word => word.map Char.toLower) = joinWords words := by
  rw [joinWords_eq_tail, joinWords_eq_tail, underscored, flatMap_map]
  congr 1
  refine flatMap_congr fun word hword => ?_
  rw [(hwords word hword).map_toLower_toLower]

end joined

/-! ## The normal form -/

/-- `t` is the normal form of the name `s`. -/
structure SnakeNormalForm (s t : String) : Prop where
  letters : ∀ c ∈ t.toList, c.isLower = true ∨ c.isDigit = true ∨ c = '_'
  leading : t.toList.head? ≠ some '_'
  trailing : t.toList.getLast? ≠ some '_'
  double : ¬ ['_', '_'] <:+: t.toList
  content : t.toList.filter (· ≠ '_') = (s.toList.filter Char.isAlphanum).map Char.toLower

/-- For a name of ASCII characters the loops return its normal form, and the normal form for
the normal form. -/
theorem toSnakeCase_normalForm {cls : CharClasses} (hcls : cls.OnAscii) {s : String}
    (hs : IsAscii s.toList) :
    ∃ t, SnakeLoop.toSnakeCase cls s = some t ∧ SnakeNormalForm s t ∧
      SnakeLoop.toSnakeCase cls t = some t := by
  have hwords : ∀ word ∈ wordsOf cls s.toList, IsWord word :=
    fun word hword => isWord_of_mem_wordsOf hcls hs hword
  have hlist : (toSnakeCase cls s).toList = joinWords (wordsOf cls s.toList) :=
    String.toList_ofList
  refine ⟨_, SnakeLoop.toSnakeCase_eq cls s, ⟨?_, ?_, ?_, ?_, ?_⟩, ?_⟩
  · intro c hc
    rw [hlist] at hc
    exact mem_joinWords hwords hc
  · rw [hlist]
    exact head?_joinWords hwords
  · rw [hlist]
    exact getLast?_joinWords hwords
  · intro hinfix
    rw [hlist] at hinfix
    have hchain := List.IsChain.infix (isChain_joinWords hwords) hinfix
    exact (isChain_cons_cons.mp hchain).1 rfl rfl
  · rw [hlist, filter_joinWords hwords, flatten_wordsOf]
    congr 1
    exact filter_congr fun c hc => (hcls c (hs c hc)).1
  · rw [SnakeLoop.toSnakeCase_eq, toSnakeCase, hlist, wordsOf_joinWords hwords hcls,
      joinWords_map_toLower hwords, toSnakeCase]

theorem onAscii_ascii : CharClasses.ascii.OnAscii := fun _ _ => ⟨rfl, rfl, rfl⟩

theorem toSnakeCase_normalForm_acronym :
    CharClasses.ascii.OnAscii ∧ IsAscii "MDEntryPx-2".toList ∧
      ∃ t, SnakeLoop.toSnakeCase .ascii "MDEntryPx-2" = some t ∧
        SnakeNormalForm "MDEntryPx-2" t ∧ SnakeLoop.toSnakeCase .ascii t = some t := by
  have hs : IsAscii "MDEntryPx-2".toList := all_iff_forall_prop.mp (by decide)
  exact ⟨onAscii_ascii, hs, toSnakeCase_normalForm onAscii_ascii hs⟩

example : SnakeLoop.toSnakeCase .ascii "AB_C--someWord" = some "ab_c_some_word" := by decide

end IronSbe.Schema
