import IronSbe.Schema.Document
import IronSbe.Schema.Incremental

/-!
# Truncated schema texts

A text is a sequence of tokens: tags, comments and the like, and the characters
between them.  The reader of the XML text is not modelled; `Delivers` says what is
assumed of it for a text that ends too early.  At the end of a token it reports the
end of the text, inside the characters between two tags it delivers those that are
there, and inside any other token it reports an error.

Every loop of the parser takes the end of the text for the end of its element.

* `SchemaText`: a well-formed text with one `messageSchema` element.
* `fails_truncated_iff`: what is needed for a text that ends before the closing tag
  to be rejected.
-/

namespace IronSbe.Schema

open List

/-! ## Texts -/

/-- What a piece of a text is. -/
inductive TokenKind where
  | start (tag : Tag)
  | empty (tag : Tag)
  | endTag
  | other
  | text
  deriving DecidableEq

/-- A piece of the text. -/
structure Token where
  kind : TokenKind
  source : List Char
  nonempty : source ≠ []

/-- White space in XML. -/
def isXmlSpace (c : Char) : Bool := [0x20, 0x09, 0x0A, 0x0D].contains c.toNat

/-- `trim_text`. -/
def trimText (cs : List Char) : List Char :=
  ((cs.dropWhile isXmlSpace).reverse.dropWhile isXmlSpace).reverse

/-- What the reader delivers for the characters between two tags; white space alone is
not delivered. -/
def textEvents (cs : List Char) : List Event :=
  if cs.all isXmlSpace then [] else [.text (.ofList (trimText cs))]

/-- The event of a piece of markup, or of a text that is not blank. -/
def Token.events (t : Token) : List Event :=
  match t.kind with
  | .start tag => [.start tag]
  | .empty tag => [.empty tag]
  | .endTag => [.endTag]
  | .other => [.other]
  | .text => textEvents t.source

/-- A comment, a declaration or white space. -/
def Token.IsMisc (t : Token) : Prop := t.kind = .other ∨ t.kind = .text ∧ t.source.all isXmlSpace

/-- The characters of the tokens. -/
def sourceOf (tokens : List Token) : List Char := tokens.flatMap Token.source

/-- The events of the tokens. -/
def eventsOf (tokens : List Token) : List Event := tokens.flatMap Token.events

/-- How many elements are open behind the tokens, if none is closed that is not open. -/
def openElements : Nat → List Token → Option Nat
  | n, [] => some n
  | n, t :: rest =>
    match t.kind, n with
    | .start _, n => openElements (n + 1) rest
    | .endTag, 0 => none
    | .endTag, n + 1 => openElements n rest
    | _, n => openElements n rest

/-- A well-formed text whose root is the schema element. -/
structure SchemaText where
  prolog : List Token
  qualified : Bool
  attributes : List Attribute
  root : Token
  content : List Token
  close : Token
  epilog : List Token
  prolog_misc : ∀ t ∈ prolog, t.IsMisc
  root_kind : root.kind = .start (schemaTag qualified attributes)
  content_closed : openElements 0 content = some 0
  close_kind : close.kind = .endTag
  epilog_misc : ∀ t ∈ epilog, t.IsMisc

namespace SchemaText

/-- The pieces of a text in order. -/
def tokens (d : SchemaText) : List Token :=
  d.prolog ++ d.root :: d.content ++ d.close :: d.epilog

/-- The text in front of the closing tag of the schema element. -/
def beforeClose (d : SchemaText) : List Char := sourceOf (d.prolog ++ d.root :: d.content)

end SchemaText

/-! ## Where a text ends -/

/-- The text `p` ends inside the token `t`, with `before` in front of it. -/
structure Inside (tokens : List Token) (p : List Char) (before : List Token) (t : Token) :
    Prop where
  before_tokens : before ++ [t] <+: tokens
  part : ∃ n, 0 < n ∧ n < t.source.length ∧ p = sourceOf before ++ t.source.take n

/-- What is assumed of the reader: what it delivers for the beginnings of a text. -/
structure Delivers (read : List Char → List Event) (tokens : List Token) : Prop where
  /-- The text ends between two tokens: the reader reports `Eof`. -/
  between : ∀ before, before <+: tokens → read (sourceOf before) = eventsOf before
  /-- The text ends between two tags: the reader delivers the characters that are there. -/
  inText : ∀ p before t, Inside tokens p before t → t.kind = .text →
    read p = eventsOf before ++ textEvents (p.drop (sourceOf before).length)
  /-- The text ends inside a tag, a comment or a declaration: the reader reports an error. -/
  inMarkup : ∀ p before t, Inside tokens p before t → t.kind ≠ .text →
    ∃ message, read p = eventsOf before ++ [.err message]

@[simp]
theorem sourceOf_append (ts us : List Token) : sourceOf (ts ++ us) = sourceOf ts ++ sourceOf us :=
  flatMap_append

@[simp]
theorem eventsOf_append (ts us : List Token) : eventsOf (ts ++ us) = eventsOf ts ++ eventsOf us :=
  flatMap_append

theorem Token.length_pos (t : Token) : 0 < t.source.length := length_pos_iff.mpr t.nonempty

@[simp]
theorem sourceOf_singleton (t : Token) : sourceOf [t] = t.source := append_nil _

/-- A text ends between two tokens or inside one. -/
theorem end_cases {tokens : List Token} {p : List Char} (h : p <+: sourceOf tokens) :
    (∃ before, before <+: tokens ∧ p = sourceOf before) ∨ ∃ before t, Inside tokens p before t := by
  induction tokens generalizing p with
  | nil => exact .inl ⟨[], nil_prefix, prefix_nil.mp h⟩
  | cons t rest ih =>
    have hsource : sourceOf (t :: rest) = t.source ++ sourceOf rest := flatMap_cons
    rw [hsource] at h
    rcases Nat.lt_or_ge p.length t.source.length with hlt | hge
    · have hp : p = t.source.take p.length := by
        have htake := prefix_iff_eq_take.mp h
        rwa [take_append_of_le_length hlt.le] at htake
      rcases Nat.eq_zero_or_pos p.length with hzero | hpos
      · exact .inl ⟨[], nil_prefix, length_eq_zero_iff.mp hzero⟩
      · exact .inr ⟨[], t, prefix_append [t] rest, p.length, hpos, hlt, hp⟩
    · obtain ⟨q, rfl⟩ := prefix_of_prefix_length_le (prefix_append _ _) h hge
      rw [prefix_append_right_inj] at h
      rcases ih h with ⟨before, hbefore, rfl⟩ | ⟨before, t', hbefore, n, hpos, hlt, rfl⟩
      · exact .inl ⟨t :: before, cons_prefix_cons.mpr ⟨rfl, hbefore⟩, flatMap_cons.symm⟩
      · refine .inr ⟨t :: before, t', cons_prefix_cons.mpr ⟨rfl, hbefore⟩, n, hpos, hlt, ?_⟩
        rw [← append_assoc]
        rfl

/-- Of two beginnings of a token sequence, the one with the shorter text is a beginning
of the other. -/
theorem before_of_length_le {tokens before before' : List Token} (h : before <+: tokens)
    (h' : before' <+: tokens) (hle : (sourceOf before).length ≤ (sourceOf before').length) :
    before <+: before' := by
  rcases prefix_or_prefix_of_prefix h h' with hfirst | ⟨more, rfl⟩
  · exact hfirst
  · cases more with
    | nil => simp
    | cons t more =>
      have hpos := t.length_pos
      have hsource : sourceOf (t :: more) = t.source ++ sourceOf more := flatMap_cons
      rw [sourceOf_append, hsource] at hle
      simp only [length_append] at hle
      omega

theorem before_of_length_lt {tokens before before' : List Token} {t : Token}
    (h : before <+: tokens) (h' : before' ++ [t] <+: tokens)
    (hlt : (sourceOf before).length < (sourceOf (before' ++ [t])).length) : before <+: before' := by
  rcases prefix_concat_iff.mp (before_of_length_le h h' hlt.le) with rfl | hbefore
  · exact absurd hlt (Nat.lt_irrefl _)
  · exact hbefore

section Inside

variable {tokens before : List Token} {p : List Char} {t : Token}

theorem Inside.before_le (h : Inside tokens p before t) : before <+: tokens :=
  (prefix_append before [t]).trans h.before_tokens

theorem Inside.sourceOf_before_le (h : Inside tokens p before t) : sourceOf before <+: p := by
  obtain ⟨n, -, -, rfl⟩ := h.part
  exact prefix_append _ _

theorem Inside.length_lt (h : Inside tokens p before t) :
    p.length < (sourceOf (before ++ [t])).length := by
  obtain ⟨n, -, hlt, rfl⟩ := h.part
  rw [sourceOf_append, sourceOf_singleton, length_append, length_append,
    length_take]
  omega

end Inside

/-! ## The loops in front of the cut -/

theorem ParseLoop.ite_ne {p : Prop} [Decidable p] {a b loop : ParseLoop} (ha : a ≠ loop)
    (hb : b ≠ loop) : (if p then a else b) ≠ loop := by
  split_ifs
  · exact ha
  · exact hb

/-- Once the schema element has been seen, it stays seen. -/
theorem ParseLoop.next_ne {loop : ParseLoop} (h : loop ≠ .schema false) (event : Event) :
    loop.next event ≠ .schema false := by
  cases loop with
  | schema seen =>
    cases event with
    | start e =>
      unfold ParseLoop.next
      dsimp only
      split
      all_goals first | exact h | simp
    | _ => exact h
  | types depth =>
    cases event with
    | start e =>
      unfold ParseLoop.next
      dsimp only
      split <;> simp
    | endTag => exact ite_ne (by simp) (by simp)
    | _ => exact h
  | enum depth | set depth =>
    cases event with
    | start e | empty e => exact ite_ne (by simp) (by simp)
    | endTag => simp [ParseLoop.next]
    | _ => exact h
  | block groups =>
    cases event with
    | start e | empty e => exact ite_ne (by simp) (by simp)
    | endTag => cases groups <;> simp [ParseLoop.next]
    | _ => exact h
  | _ =>
    cases event with
    | endTag => simp [ParseLoop.next]
    | _ => exact h

theorem foldl_next_ne {loop : ParseLoop} (h : loop ≠ .schema false) (events : List Event) :
    events.foldl ParseLoop.next loop ≠ .schema false := by
  induction events generalizing loop with
  | nil => exact h
  | cons event rest ih => exact ih (loop.next_ne h event)

/-- Comments and white space do not matter outside of the schema element. -/
theorem loopAt_misc {tokens : List Token} (h : ∀ t ∈ tokens, t.IsMisc) :
    loopAt (eventsOf tokens) = .schema false := by
  induction tokens with
  | nil => rfl
  | cons t rest ih =>
    rw [forall_mem_cons] at h
    have hevents : t.events = [] ∨ t.events = [.other] := by
      rcases h.1 with hother | ⟨htext, hblank⟩
      · simp [Token.events, hother]
      · simp [Token.events, htext, textEvents, hblank]
    have hcons : eventsOf (t :: rest) = t.events ++ eventsOf rest := flatMap_cons
    rw [hcons]
    rcases hevents with hnone | hother
    · rw [hnone]
      exact ih h.2
    · rw [hother]
      exact ih h.2

/-- A text does not open or close a loop. -/
theorem foldl_next_textEvents (loop : ParseLoop) (cs : List Char) :
    (textEvents cs).foldl ParseLoop.next loop = loop := by
  unfold textEvents
  split_ifs
  · rfl
  · cases loop <;> rfl

namespace SchemaText

variable {d : SchemaText} {before : List Token}

theorem loopAt_root (d : SchemaText) : loopAt (eventsOf (d.prolog ++ [d.root])) = .schema true := by
  have hroot : eventsOf [d.root] = [.start (schemaTag d.qualified d.attributes)] := by
    simp [eventsOf, Token.events, d.root_kind]
  rw [eventsOf_append, loopAt_append, loopAt_misc d.prolog_misc, hroot]
  cases d.qualified <;> rfl

theorem root_le_tokens (d : SchemaText) : d.prolog ++ [d.root] <+: d.tokens := by
  refine ⟨d.content ++ d.close :: d.epilog, ?_⟩
  simp [tokens]

/-- The loops see the schema element exactly if the text goes beyond its tag. -/
theorem loopAt_eq_iff (h : before <+: d.tokens) :
    loopAt (eventsOf before) = .schema false ↔
      (sourceOf before).length < (sourceOf (d.prolog ++ [d.root])).length := by
  constructor
  · intro hloop
    by_contra hge
    obtain ⟨more, rfl⟩ := before_of_length_le d.root_le_tokens h (Nat.le_of_not_lt hge)
    rw [eventsOf_append, loopAt_append, loopAt_root] at hloop
    exact foldl_next_ne (by simp) _ hloop
  · intro hlt
    have hprolog := before_of_length_lt h d.root_le_tokens hlt
    exact loopAt_misc fun t ht => d.prolog_misc t (hprolog.subset ht)

/-- The text ends inside the tag of the schema element or in front of it. -/
def CutInRoot (d : SchemaText) (p : List Char) : Prop :=
  p.length < (sourceOf (d.prolog ++ [d.root])).length

/-- The text ends inside a tag, a comment or a declaration. -/
def CutInMarkup (d : SchemaText) (p : List Char) : Prop :=
  ∃ before t, Inside d.tokens p before t ∧ t.kind ≠ .text

/-- The text ends inside the characters that `parse_set_choice` reads, and those that
are left are not a number. -/
def CutInChoice (d : SchemaText) (p : List Char) : Prop :=
  ∃ before t depth content, Inside d.tokens p before t ∧ t.kind = .text ∧
    loopAt (eventsOf before) = .choice depth ∧
    textEvents (p.drop (sourceOf before).length) = [.text content] ∧ parseU8 (trim content) = none

/-- There is an invalid value in front of the cut. -/
def InvalidBefore (d : SchemaText) (p : List Char) : Prop :=
  ∃ before, before <+: d.tokens ∧ sourceOf before <+: p ∧ Refused (eventsOf before)

end SchemaText

/-! ## Cut texts -/

section Cut

variable {read : List Char → List Event} {d : SchemaText} {p : List Char} {before : List Token}
  {t : Token}

/-- A text is refused only as the number of a choice. -/
theorem refusesOneOf_textEvents {loop : ParseLoop} {cs : List Char} :
    loop.RefusesOneOf (textEvents cs) ↔ ∃ depth content, loop = .choice depth ∧
      textEvents cs = [.text content] ∧ parseU8 (trim content) = none := by
  unfold textEvents
  split_ifs with hblank
  · simp [ParseLoop.RefusesOneOf]
  · have hrefuses : ∀ content : String, loop.RefusesOneOf [.text content] ↔
        ∃ depth, loop = .choice depth ∧ parseU8 (trim content) = none := by
      intro content
      cases loop <;> simp [ParseLoop.RefusesOneOf, ParseLoop.Refuses]
    rw [hrefuses]
    simp

theorem fails_between (hread : Delivers read d.tokens) (h : before <+: d.tokens) :
    Fails (parseSchema (read (sourceOf before))) ↔
      d.CutInRoot (sourceOf before) ∨ Refused (eventsOf before) := by
  rw [hread.between before h, fails_parseSchema_iff, SchemaText.loopAt_eq_iff h]
  rfl

/-- Characters between two tags are behind the tag of the schema element if the tags are. -/
theorem cutInRoot_of_inside (h : Inside d.tokens p before t)
    (hroot : d.CutInRoot (sourceOf before)) : d.CutInRoot p := by
  rcases Nat.lt_or_ge (sourceOf (d.prolog ++ [d.root])).length
    (sourceOf (before ++ [t])).length with hlt | hge
  · have hbefore := before_of_length_lt d.root_le_tokens h.before_tokens hlt
    obtain ⟨more, rfl⟩ := hbefore
    unfold SchemaText.CutInRoot at hroot
    rw [sourceOf_append _ more, length_append] at hroot
    omega
  · exact h.length_lt.trans_le hge

section

variable (hread : Delivers read d.tokens)
include hread

theorem fails_inText (h : Inside d.tokens p before t) (htext : t.kind = .text) :
    Fails (parseSchema (read p)) ↔ d.CutInRoot (sourceOf before) ∨ Refused (eventsOf before) ∨
      (loopAt (eventsOf before)).RefusesOneOf (textEvents (p.drop (sourceOf before).length)) := by
  rw [hread.inText p before t h htext, fails_parseSchema_iff, loopAt_append,
    foldl_next_textEvents, SchemaText.loopAt_eq_iff h.before_le, refused_append]
  rfl

theorem fails_of_cutInMarkup (h : d.CutInMarkup p) :
    Fails (parseSchema (read p)) := by
  obtain ⟨before, t, hinside, hkind⟩ := h
  obtain ⟨message, hevents⟩ := hread.inMarkup p before t hinside hkind
  rw [hevents, fails_parseSchema_iff, refused_append]
  have herr : (loopAt (eventsOf before)).Refuses (.err message) := by
    cases loopAt (eventsOf before) <;> trivial
  exact .inr (.inr (.inl herr))

theorem fails_of_cutInChoice (h : d.CutInChoice p) :
    Fails (parseSchema (read p)) := by
  obtain ⟨before, t, depth, content, hinside, htext, hrest⟩ := h
  rw [fails_inText hread hinside htext, refusesOneOf_textEvents]
  exact .inr (.inr ⟨depth, content, hrest⟩)

theorem fails_of_cutInRoot (hp : p <+: sourceOf d.tokens) (h : d.CutInRoot p) :
    Fails (parseSchema (read p)) := by
  rcases end_cases hp with ⟨before, hbefore, rfl⟩ | ⟨before, t, hinside⟩
  · exact (fails_between hread hbefore).mpr (.inl h)
  · by_cases htext : t.kind = .text
    · have hroot : d.CutInRoot (sourceOf before) :=
        Nat.lt_of_le_of_lt hinside.sourceOf_before_le.length_le h
      exact (fails_inText hread hinside htext).mpr (.inl hroot)
    · exact fails_of_cutInMarkup hread ⟨before, t, hinside, htext⟩

theorem fails_of_invalidBefore (hp : p <+: sourceOf d.tokens) (h : d.InvalidBefore p) :
    Fails (parseSchema (read p)) := by
  obtain ⟨first, hfirst, hle, hrefused⟩ := h
  -- the tokens in front of the cut go on behind the invalid value
  have hmore : ∀ {before}, first <+: before → Refused (eventsOf before) := by
    rintro before ⟨more, rfl⟩
    rw [eventsOf_append, refused_append]
    exact .inl hrefused
  rcases end_cases hp with ⟨before, hbefore, rfl⟩ | ⟨before, t, hinside⟩
  · have hbefore' := before_of_length_le hfirst hbefore hle.length_le
    exact (fails_between hread hbefore).mpr (.inr (hmore hbefore'))
  · by_cases htext : t.kind = .text
    · have hbefore := before_of_length_lt hfirst hinside.before_tokens
        (Nat.lt_of_le_of_lt hle.length_le hinside.length_lt)
      exact (fails_inText hread hinside htext).mpr (.inr (.inl (hmore hbefore)))
    · exact fails_of_cutInMarkup hread ⟨before, t, hinside, htext⟩

end

/-- A text that ends before the closing tag of the schema element is rejected exactly if
it ends within the tag of this element or within other markup, or leaves a choice without
a number, or has an invalid value in front of the cut.  Otherwise the parser takes what it
has read for the whole schema. -/
theorem fails_truncated_iff (hread : Delivers read d.tokens) (hp : p <+: d.beforeClose) :
    Fails (parseSchema (read p)) ↔
      d.CutInRoot p ∨ d.CutInMarkup p ∨ d.CutInChoice p ∨ d.InvalidBefore p := by
  have hp' : p <+: sourceOf d.tokens := by
    refine hp.trans ⟨sourceOf (d.close :: d.epilog), ?_⟩
    rw [SchemaText.beforeClose, ← sourceOf_append]
    rfl
  constructor
  · intro hfails
    rcases end_cases hp' with ⟨before, hbefore, rfl⟩ | ⟨before, t, hinside⟩
    · rcases (fails_between hread hbefore).mp hfails with hroot | hrefused
      · exact .inl hroot
      · exact .inr (.inr (.inr ⟨before, hbefore, prefix_refl _, hrefused⟩))
    · by_cases htext : t.kind = .text
      · rcases (fails_inText hread hinside htext).mp hfails with hroot | hrefused | hchoice
        · exact .inl (cutInRoot_of_inside hinside hroot)
        · exact .inr (.inr (.inr
            ⟨before, hinside.before_le, hinside.sourceOf_before_le, hrefused⟩))
        · obtain ⟨depth, content, hrest⟩ := refusesOneOf_textEvents.mp hchoice
          exact .inr (.inr (.inl ⟨before, t, depth, content, hinside, htext, hrest⟩))
      · exact .inr (.inl ⟨before, t, hinside, htext⟩)
  · rintro (hroot | hmarkup | hchoice | hinvalid)
    · exact fails_of_cutInRoot hread hp' hroot
    · exact fails_of_cutInMarkup hread hmarkup
    · exact fails_of_cutInChoice hread hchoice
    · exact fails_of_invalidBefore hread hp' hinvalid

end Cut

/-! ## A reader -/

/-- A reader for the beginnings of a text with known tokens. -/
def readUpTo : List Token → List Char → List Event
  | [], _ => []
  | t :: rest, p =>
    if t.source.length ≤ p.length then t.events ++ readUpTo rest (p.drop t.source.length)
    else if p = [] then []
    else if t.kind = .text then textEvents p
    else [.err "unclosed markup"]

/-- The reader goes through the tokens in front of the cut. -/
theorem readUpTo_append (before tokens : List Token) (p : List Char) :
    readUpTo (before ++ tokens) (sourceOf before ++ p) = eventsOf before ++ readUpTo tokens p := by
  induction before with
  | nil => rfl
  | cons t rest ih =>
    have hsource : sourceOf (t :: rest) = t.source ++ sourceOf rest := flatMap_cons
    have hevents : eventsOf (t :: rest) = t.events ++ eventsOf rest := flatMap_cons
    rw [hsource, hevents, cons_append, readUpTo, append_assoc,
      if_pos (by rw [length_append]; omega), drop_left, ih, append_assoc]

/-- There are readers of which the assumptions hold. -/
theorem delivers_readUpTo (tokens : List Token) : Delivers (readUpTo tokens) tokens := by
  have hinside : ∀ {p before t}, Inside tokens p before t →
      readUpTo tokens p = eventsOf before ++
        if t.kind = .text then textEvents (p.drop (sourceOf before).length)
        else [.err "unclosed markup"] := by
    rintro p before t ⟨⟨after, rfl⟩, n, hpos, hlt, rfl⟩
    have hpart : (t.source.take n).length = n := by rw [length_take]; omega
    rw [append_assoc, readUpTo_append, drop_left]
    show _ ++ readUpTo (t :: after) (t.source.take n) = _
    rw [readUpTo, if_neg (by omega), if_neg]
    exact fun hnil => by rw [hnil, length_nil] at hpart; omega
  constructor
  · rintro before ⟨after, rfl⟩
    have hread := readUpTo_append before after []
    have hnil : readUpTo after [] = [] := by
      cases after with
      | nil => rfl
      | cons t rest =>
        have hpos := t.length_pos
        rw [readUpTo, if_neg (by rw [length_nil]; omega), if_pos rfl]
    rwa [hnil, append_nil, append_nil] at hread
  · intro p before t h htext
    rw [hinside h, if_pos htext]
  · intro p before t h hmarkup
    exact ⟨_, by rw [hinside h, if_neg hmarkup]⟩

/-- A message with two fields. -/
def orderText : SchemaText where
  prolog := []
  qualified := false
  attributes := []
  root := ⟨.start ⟨"messageSchema", []⟩, "<messageSchema>".toList, by decide⟩
  content :=
    [⟨.start ⟨"message", [("name", "Order")]⟩, "<message name=\"Order\">".toList, by decide⟩,
      ⟨.empty (fieldTag [("type", "uint64")]), "<field type=\"uint64\"/>".toList, by decide⟩,
      ⟨.empty (fieldTag [("type", "uint32")]), "<field type=\"uint32\"/>".toList, by decide⟩,
      ⟨.endTag, "</message>".toList, by decide⟩]
  close := ⟨.endTag, "</messageSchema>".toList, by decide⟩
  epilog := []
  prolog_misc := fun t ht => nomatch ht
  root_kind := rfl
  content_closed := by decide
  close_kind := rfl
  epilog_misc := fun t ht => nomatch ht

/-- The text ends behind the first field, and the parser takes it for a message with one
field. -/
theorem truncated_order_accepted :
    let p := "<messageSchema><message name=\"Order\"><field type=\"uint64\"/>".toList
    Delivers (readUpTo orderText.tokens) orderText.tokens ∧ p <+: orderText.beforeClose ∧
      (parseSchema (readUpTo orderText.tokens (sourceOf orderText.tokens))).map inventory =
        .ok ([], [(2, 0, 0)]) ∧
      (parseSchema (readUpTo orderText.tokens p)).map inventory = .ok ([], [(1, 0, 0)]) := by
  refine ⟨delivers_readUpTo _, ?_, by decide, by decide⟩
  exact ⟨"<field type=\"uint32\"/></message>".toList, by decide⟩

/-- The text ends inside the second field. -/
theorem fails_truncated_order :
    Fails (parseSchema (readUpTo orderText.tokens
      "<messageSchema><message name=\"Order\"><field type=\"uint64\"/><fie".toList)) := by
  have hrest : "<messageSchema><message name=\"Order\"><field type=\"uint64\"/><fie".toList <+:
      orderText.beforeClose := ⟨"ld type=\"uint32\"/></message>".toList, by decide⟩
  refine (fails_truncated_iff (delivers_readUpTo _) hrest).mpr (.inr (.inl ?_))
  exact ⟨orderText.tokens.take 3, ⟨.empty (fieldTag [("type", "uint32")]),
    "<field type=\"uint32\"/>".toList, by decide⟩, ⟨⟨orderText.tokens.drop 4, rfl⟩, 4, by decide⟩,
    by decide⟩

end IronSbe.Schema
