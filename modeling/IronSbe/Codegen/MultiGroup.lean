import IronSbe.Codegen.Encoding

/-!
# Messages with several groups

The position of a group is a constant of the generated code, so it does not
depend on the entries of the groups before it: the entries of a group start
where the header of the next group is.

* `GroupsRoundTrip`: the groups decode to the entries that were written, for
  all values and buffers.
* `Separated`: no entry field of a group shares a byte with a later group.
* `groupsRoundTrip_iff_separated`: the first holds when the second does, and
  only when the second does for all fields but enums.
* `groupsRoundTrip_sides`: an enum field that is overwritten may still read as it
  was set.
-/

namespace IronSbe.Codegen

open IronSbe.Core IronSbe.Schema Lib.Slice Lib.Record List

/-- Every group decodes to the entries that were encoded, for all values with
these numbers of entries and in every buffer that is large enough. -/
def GroupsRoundTrip (ir : SchemaIr) (m : ResolvedMessage) (counts : List Nat) : Prop :=
  ∀ value : MessageValue, (generateEncoder ir m).Fits value →
    value.groups.map List.length = counts →
    ∀ (buf : Buffer) (offset : Nat) (version : UInt16),
      offset + (generateEncoder ir m).encodedSize counts ≤ buf.length →
      ∃ buf', (generateEncoder ir m).encode value buf offset = some buf' ∧
        ∀ (i : Nat) (group : Nat × List Accessor) (entries : List (List FieldValue)),
          (generateDecoder ir m).groups[i]? = some group →
          value.groups[i]? = some entries →
          readGroup group (.wrap buf' (offset + MessageHeader.encodedLength) version) =
            some (entries.map (normalizeAll group.2))

/-! ## Where the groups write -/

/-- Where entry number `k` of a group starts, behind the header of the message. -/
def entryStart (group : Nat × GroupEncoderCode) (k : Nat) : Nat :=
  group.1 + GroupHeader.encodedLength + k * group.2.blockLength.toNat

/-- The bytes of a field of entry number `k`. -/
def fieldRange (group : Nat × GroupEncoderCode) (k : Nat) (a : Accessor) : Nat × Nat :=
  (entryStart group k + a.offset, entryStart group k + a.slot.stop)

section Ranges

variable (p : View → Prop) [DecidablePred p]

/-- The ranges of the entry fields of a group with `n` entries, for the views with `p`. -/
def entryRanges (group : Nat × GroupEncoderCode) (n : Nat) : List (Nat × Nat) :=
  (List.range n).flatMap fun k =>
    (group.2.setters.filter fun a => p a.view).map (fieldRange group k)

/-- The ranges of a whole group: its header and its entry fields. -/
def groupRanges (group : Nat × GroupEncoderCode) (n : Nat) : List (Nat × Nat) :=
  (group.1, group.1 + GroupHeader.encodedLength) :: entryRanges (fun _ => True) group n

/-- No entry field with such a view shares a byte with a later group. -/
def Separated (groups : List (Nat × GroupEncoderCode)) (counts : List Nat) : Prop :=
  (groups.zip counts).Pairwise fun g h =>
    ∀ r ∈ entryRanges p g.1 g.2, ∀ s ∈ groupRanges h.1 h.2, Apart r s

instance (groups : List (Nat × GroupEncoderCode)) (counts : List Nat) :
    Decidable (Separated p groups counts) :=
  inferInstanceAs (Decidable (List.Pairwise _ _))

variable {p} {group : Nat × GroupEncoderCode} {n : Nat} {r : Nat × Nat}

theorem mem_entryRanges :
    r ∈ entryRanges p group n ↔
      ∃ k < n, ∃ a ∈ group.2.setters, p a.view ∧ fieldRange group k a = r := by
  simp only [entryRanges, mem_flatMap, mem_range, mem_map, mem_filter, decide_eq_true_eq,
    and_assoc]

end Ranges

section Writes

variable {groups : List (Nat × GroupEncoderCode)} {values : List (List (List FieldValue))}
  {base : Nat}

/-- A write of a group is in its header or is one of its entry fields. -/
theorem mem_groupWrites {group : Nat × GroupEncoderCode} {entries : List (List FieldValue)}
    (hfits : group.2.Fits entries) {w : Write UInt8}
    (hw : w ∈ group.2.groupWrites (base + group.1) entries) :
    (base + group.1 ≤ w.start ∧ w.stop ≤ base + group.1 + GroupHeader.encodedLength) ∨
      ∃ r ∈ entryRanges (fun _ => True) group entries.length,
        w.start = base + r.1 ∧ w.stop = base + r.2 := by
  rcases mem_append.mp hw with hw | hw
  · exact .inl (GroupHeader.mem_writes hw)
  · obtain ⟨k, hk, s, hs, v, hv, rfl⟩ := mem_tableWrites hfits.2 hw
    obtain ⟨a, ha, rfl⟩ := mem_map.mp hs
    refine .inr ⟨_, mem_entryRanges.mpr ⟨k, hk, a, ha, trivial, rfl⟩, ?_, ?_⟩
    · show base + group.1 + GroupHeader.encodedLength + k * group.2.blockLength.toNat + a.offset = _
      simp only [fieldRange, entryStart]
      omega
    · rw [Slot.stop_write hv]
      simp only [fieldRange, entryStart]
      omega

/-- The writes of all groups are clear of each other when the groups are
separated. -/
theorem pairwise_groupsWrites {groupOffset : Nat} (hcons : Consecutive groupOffset groups)
    (hlaid : ∀ g ∈ groups, Laid g.2.setters g.2.blockLength.toNat)
    (hfits : List.Forall₂ (fun group entries => group.2.Fits entries) groups values)
    (hsep : Separated (fun _ => True) groups (values.map List.length)) :
    (groupsWrites groups values base).Pairwise Write.Clear := by
  induction hfits generalizing groupOffset with
  | nil => exact List.Pairwise.nil
  | @cons group entries groups values hgroup hfits ih =>
    rw [forall_mem_cons] at hlaid
    rw [Separated, map_cons, zip_cons_cons, pairwise_cons] at hsep
    refine pairwise_append.mpr ⟨pairwise_groupWrites hlaid.1 hgroup _,
      ih hcons.2 hlaid.2 hsep.2, fun w hw v hv => ?_⟩
    have hlater := groupsWrites_within hcons.2 hlaid.2 hfits hv
    rcases mem_groupWrites hgroup hw with hheader | ⟨r, hr, hstart, hstop⟩
    · -- the header ends where the header of the next group starts
      refine apart_of_le (Nat.le_trans hheader.2 ?_)
      have := hcons.1
      omega
    · obtain ⟨p, hp, hv⟩ := mem_groupsWrites hv
      have hcounts : (p.1, p.2.length) ∈ groups.zip (values.map length) := by
        rw [zip_map_right]
        exact mem_map_of_mem hp
      have hapart := hsep.1 _ hcounts r hr
      rcases mem_groupWrites (fits_of_mem_zip hfits hp) hv with hheader | ⟨s, hs, hs₁, hs₂⟩
      · have hfar := hapart _ mem_cons_self
        simp only [Write.Clear, Apart] at hfar ⊢
        omega
      · have hfar := hapart s (mem_cons_of_mem _ hs)
        simp only [Write.Clear, Apart] at hfar ⊢
        omega

end Writes

/-! ## Separated groups round trip -/

section Message

variable {schema : Schema} {m : ResolvedMessage}

/-- Groups that are separated decode to what was encoded. -/
theorem groupsRoundTrip_of_separated (h : Codable schema m) {counts : List Nat}
    (hsep : Separated (fun _ => True) (generateEncoder (.fromSchema schema) m).groups counts) :
    GroupsRoundTrip (.fromSchema schema) m counts := by
  intro value hfits hcounts buf offset version hbuf
  subst hcounts
  obtain ⟨buf', hrun, hwrites, -⟩ := h.encode_eq_some hfits hbuf
  have hheld := heldBy_applyAll hwrites (h.pairwise_messageWrites hfits
    (pairwise_groupsWrites (consecutive_groups _ m) h.groups_laid hfits.groups hsep))
  refine ⟨buf', hrun, fun i group entries hgroup hentries => ?_⟩
  rw [h.decoder_groups, getElem?_map] at hgroup
  obtain ⟨g, hg, rfl⟩ := Option.map_eq_some_iff.mp hgroup
  have hzip : (g, entries) ∈ (generateEncoder (.fromSchema schema) m).groups.zip value.groups :=
    mem_of_getElem? (getElem?_zip_eq_some.mpr ⟨hg, hentries⟩)
  have hgfits := fits_of_mem_zip hfits.groups hzip
  exact decodeGroup_of_heldBy (append_nil _).symm hgfits.1 hgfits.2
    (h.groups_laid g (mem_of_getElem? hg)).wellFormed
    fun w hw => hheld w (mem_append_right _ (mem_append_right _
      (groupWrites_subset hg hentries hw)))

end Message

/-! ## Groups that round trip are separated -/

/-- The first pair of a list that is not pairwise related. -/
theorem exists_of_not_pairwise {α : Type} {R : α → α → Prop} {l : List α} (h : ¬ l.Pairwise R) :
    ∃ pre a post b, l = pre ++ a :: post ∧ b ∈ post ∧ ¬ R a b := by
  induction l with
  | nil => exact absurd List.Pairwise.nil h
  | cons a l ih =>
    rw [pairwise_cons, not_and_or] at h
    rcases h with h | h
    · push Not at h
      obtain ⟨b, hb, hab⟩ := h
      exact ⟨[], a, l, b, rfl, hb, hab⟩
    · obtain ⟨pre, c, post, b, rfl, hb, hcb⟩ := ih h
      exact ⟨a :: pre, c, post, b, rfl, hb, hcb⟩

/-- What stands in the place of an element. -/
theorem exists_of_forall₂_append {α β : Type} {R : α → β → Prop} {l₁ l₂ : List α} {a : α}
    {u : List β} (h : List.Forall₂ R (l₁ ++ a :: l₂) u) :
    ∃ u₁ b u₂, u = u₁ ++ b :: u₂ ∧ List.Forall₂ R l₁ u₁ ∧ R a b ∧ List.Forall₂ R l₂ u₂ := by
  induction l₁ generalizing u with
  | nil =>
    obtain ⟨b, u₂, hab, hrest, rfl⟩ := forall₂_cons_left_iff.mp h
    exact ⟨[], b, u₂, rfl, .nil, hab, hrest⟩
  | cons c l₁ ih =>
    obtain ⟨d, u, hcd, hrest, rfl⟩ := forall₂_cons_left_iff.mp h
    obtain ⟨u₁, b, u₂, rfl, hpre, hab, hpost⟩ := ih hrest
    exact ⟨d :: u₁, b, u₂, rfl, .cons hcd hpre, hab, hpost⟩

theorem groupsWrites_append {gs gs' : List (Nat × GroupEncoderCode)}
    {vs vs' : List (List (List FieldValue))} (h : gs.length = vs.length) (base : Nat) :
    groupsWrites (gs ++ gs') (vs ++ vs') base =
      groupsWrites gs vs base ++ groupsWrites gs' vs' base := by
  induction gs generalizing vs with
  | nil =>
    obtain rfl := length_eq_zero_iff.mp h.symm
    rfl
  | cons g gs ih =>
    cases vs with
    | nil => simp at h
    | cons v vs =>
      rw [cons_append, cons_append, groupsWrites, groupsWrites, append_assoc,
        ih (Nat.succ.inj h)]

/-- The message values that differ in one field of one entry only. -/
structure Hole where
  root : List FieldValue
  before : List (List (List FieldValue))
  entriesBefore : List (List FieldValue)
  fieldsBefore : List FieldValue
  fieldsAfter : List FieldValue
  entriesAfter : List (List FieldValue)
  after : List (List (List FieldValue))

namespace Hole

/-- The entries of the group, with `v` in the field. -/
def entries (c : Hole) (v : FieldValue) : List (List FieldValue) :=
  c.entriesBefore ++ (c.fieldsBefore ++ v :: c.fieldsAfter) :: c.entriesAfter

/-- The message with a value in the hole. -/
def fill (c : Hole) (v : FieldValue) : MessageValue :=
  ⟨c.root, c.before ++ c.entries v :: c.after⟩

/-- The field belongs to accessor `a` of `group`, which comes between the groups `pre` and
`post`, and everything around it fits. -/
structure At (c : Hole) (code : EncoderCode) (pre : List (Nat × GroupEncoderCode))
    (group : Nat × GroupEncoderCode) (post : List (Nat × GroupEncoderCode)) (a : Accessor) :
    Prop where
  groups : code.groups = pre ++ group :: post
  root : AcceptsAll (slots code.setters) c.root
  before : List.Forall₂ (fun group entries => group.2.Fits entries) pre c.before
  after : List.Forall₂ (fun group entries => group.2.Fits entries) post c.after
  count : ∀ v, (c.entries v).length < 2 ^ 16
  rows : ∀ row ∈ c.entriesBefore ++ c.entriesAfter, AcceptsAll (slots group.2.setters) row
  row : ∃ others others', group.2.setters = others ++ a :: others' ∧
    AcceptsAll (slots others) c.fieldsBefore ∧ AcceptsAll (slots others') c.fieldsAfter

variable {c : Hole} {code : EncoderCode} {pre post : List (Nat × GroupEncoderCode)}
  {group : Nat × GroupEncoderCode} {a : Accessor} {v : FieldValue}

theorem length_entries (c : Hole) (v v' : FieldValue) :
    (c.entries v).length = (c.entries v').length := by
  simp only [entries, length_append, length_cons]

/-- The numbers of entries do not depend on the field. -/
theorem counts_fill (c : Hole) (v v' : FieldValue) :
    (c.fill v).groups.map List.length = (c.fill v').groups.map List.length := by
  simp only [fill, map_append, map_cons, c.length_entries v v']

theorem At.fits_entries (h : c.At code pre group post a) (hv : a.view.Accepts v) :
    group.2.Fits (c.entries v) := by
  obtain ⟨others, others', hsetters, hbefore, hafter⟩ := h.row
  have hrows := h.rows
  rw [forall_mem_append] at hrows
  have hrow : AcceptsAll (slots group.2.setters) (c.fieldsBefore ++ v :: c.fieldsAfter) := by
    rw [hsetters, slots, map_append, map_cons]
    exact rel_append hbefore (.cons hv hafter)
  refine ⟨h.count v, ?_⟩
  rw [entries, forall_mem_append, forall_mem_cons]
  exact ⟨hrows.1, hrow, hrows.2⟩

theorem At.fits_groups (h : c.At code pre group post a) (hv : a.view.Accepts v) :
    List.Forall₂ (fun group entries => group.2.Fits entries) (group :: post)
      (c.entries v :: c.after) :=
  .cons (h.fits_entries hv) h.after

theorem At.fits (h : c.At code pre group post a) (hv : a.view.Accepts v) :
    code.Fits (c.fill v) := by
  refine ⟨h.root, ?_⟩
  rw [h.groups]
  exact rel_append h.before (h.fits_groups hv)

end Hole

/-- Every field of every entry of a message is such a place. -/
theorem exists_hole {code : EncoderCode} {value : MessageValue} (hfits : code.Fits value)
    {pre post : List ((Nat × GroupEncoderCode) × List (List FieldValue))}
    {group : Nat × GroupEncoderCode} {entries : List (List FieldValue)}
    (hsplit : code.groups.zip value.groups = pre ++ (group, entries) :: post) {k : Nat}
    (hk : k < entries.length) {a : Accessor} (ha : a ∈ group.2.setters) :
    ∃ c v, Hole.At c code (pre.map Prod.fst) group (post.map Prod.fst) a ∧ c.fill v = value ∧
      c.entries v = entries ∧ c.entriesBefore.length = k ∧ c.after = post.map Prod.snd := by
  have hlen := hfits.groups.length_eq
  have hgroups : (code.groups.zip value.groups).map Prod.fst = _ := map_fst_zip (by omega)
  have hvalues : (code.groups.zip value.groups).map Prod.snd = _ := map_snd_zip (by omega)
  have hall : ∀ q ∈ pre ++ (group, entries) :: post, q.1.2.Fits q.2 := by
    rw [← hsplit]
    exact fun q hq => fits_of_mem_zip hfits.groups hq
  rw [hsplit, map_append, map_cons] at hgroups hvalues
  rw [forall_mem_append, forall_mem_cons] at hall
  obtain ⟨hpre, hgroup, hpost⟩ := hall
  have hentries : entries = entries.take k ++ entries[k] :: entries.drop (k + 1) := by
    rw [← drop_eq_getElem_cons hk, take_append_drop]
  obtain ⟨others, others', hsetters⟩ := append_of_mem ha
  have hrow := hgroup.2 entries[k] (getElem_mem hk)
  rw [hsetters, slots, map_append, map_cons] at hrow
  obtain ⟨fields, v, fields', hvalue, hfields, -, hfields'⟩ := exists_of_forall₂_append hrow
  rw [hvalue] at hentries
  refine ⟨⟨value.root, pre.map Prod.snd, entries.take k, fields, fields', entries.drop (k + 1),
    post.map Prod.snd⟩, v, ⟨hgroups.symm, hfits.root, ?_, ?_, fun w => ?_, ?_,
    others, others', hsetters, hfields, hfields'⟩, ?_, hentries.symm, ?_, rfl⟩
  · rw [forall₂_map_left_iff, forall₂_map_right_iff, forall₂_same]
    exact hpre
  · rw [forall₂_map_left_iff, forall₂_map_right_iff, forall₂_same]
    exact hpost
  · rw [Hole.length_entries _ w v]
    show (_ ++ _ :: _ : List (List FieldValue)).length < _
    rw [← hentries]
    exact hgroup.1
  · intro row hmem
    refine hgroup.2 row ?_
    rcases mem_append.mp hmem with hmem | hmem
    · exact mem_of_mem_take hmem
    · exact mem_of_mem_drop hmem
  · rw [Hole.fill, Hole.entries]
    dsimp only
    rw [← hentries, hvalues]
  · exact length_take_of_le (Nat.le_of_lt hk)

section Bytes

variable {group : Nat × GroupEncoderCode} {p : Nat}

/-- Every byte of a group's ranges is written. -/
theorem exists_covers_groupWrites {entries : List (List FieldValue)} (hfits : group.2.Fits entries)
    (base : Nat) {s : Nat × Nat} (hs : s ∈ groupRanges group entries.length) (hlo : s.1 ≤ p)
    (hhi : p < s.2) :
    ∃ w ∈ group.2.groupWrites (base + group.1) entries, w.Covers (base + p) := by
  rcases mem_cons.mp hs with rfl | hs
  · -- one of the two `u16` fields of the header
    have hfour : GroupHeader.encodedLength = 4 := rfl
    simp only at hlo hhi
    by_cases hfirst : p < group.1 + 2
    · refine ⟨u16Write (base + group.1) _, mem_append_left _ mem_cons_self, ?_⟩
      refine ⟨?_, ?_⟩
      · rw [u16Write_start]
        omega
      · rw [u16Write_stop]
        omega
    · refine ⟨u16Write (base + group.1 + 2) _,
        mem_append_left _ (mem_cons_of_mem _ mem_cons_self), ?_, ?_⟩
      · rw [u16Write_start]
        omega
      · rw [u16Write_stop]
        omega
  · obtain ⟨k, hk, a, ha, -, rfl⟩ := mem_entryRanges.mp hs
    obtain ⟨v, hv, hmem⟩ := exists_mem_tableWrites group.2.blockLength.toNat
      (base + group.1 + GroupHeader.encodedLength) hfits.2 hk
      (mem_map_of_mem ha : a.slot ∈ slots group.2.setters)
    simp only [fieldRange, entryStart] at hlo hhi
    refine ⟨_, mem_append_right _ hmem, ?_, ?_⟩
    · show _ + a.offset ≤ _
      omega
    · rw [Slot.stop_write hv]
      omega

theorem exists_covers_groupsWrites {groups : List (Nat × GroupEncoderCode)}
    {values : List (List (List FieldValue))} {entries : List (List FieldValue)}
    (hfits : List.Forall₂ (fun group entries => group.2.Fits entries) groups values)
    (hmem : (group, entries) ∈ groups.zip values) (base : Nat) {s : Nat × Nat}
    (hs : s ∈ groupRanges group entries.length) (hlo : s.1 ≤ p) (hhi : p < s.2) :
    ∃ w ∈ groupsWrites groups values base, w.Covers (base + p) := by
  obtain ⟨w, hw, hcovers⟩ :=
    exists_covers_groupWrites (fits_of_mem_zip hfits hmem) base hs hlo hhi
  obtain ⟨i, hi⟩ := mem_iff_getElem?.mp hmem
  obtain ⟨hgroup, hentries⟩ := getElem?_zip_eq_some.mp hi
  exact ⟨w, groupWrites_subset hgroup hentries hw, hcovers⟩

/-- A field that takes any bytes and decodes to what `data` stands for has these bytes. -/
theorem slice_of_decodeGroup {getters : List Accessor} {buf : Buffer} {offset : Nat}
    {blockLength : UInt16} {entries : List (List FieldValue)} (hn : entries.length < 2 ^ 16)
    (hheader : GroupHeader.wrap buf offset = some ⟨blockLength, .ofNat entries.length⟩)
    (hdecode : decodeGroup getters buf offset = some (entries.map (normalizeAll getters)))
    {k j : Nat} {row : List FieldValue} {a : Accessor} {data : List UInt8}
    (hrow : entries[k]? = some row) (ha : getters[j]? = some a)
    (hvalue : row[j]? = some (a.view.decode data)) (hexact : a.view.Exact)
    (hdata : data.length = a.view.width) :
    slice buf (offset + GroupHeader.encodedLength + k * blockLength.toNat + a.offset)
      (offset + GroupHeader.encodedLength + k * blockLength.toNat + a.slot.stop) = some data := by
  rw [decodeGroup_eq hheader, UInt16.toNat_ofNat', Nat.mod_eq_of_lt hn] at hdecode
  have hall := readAll_of_readTable hdecode (List.getElem?_eq_some_iff.mp hrow).1
  rw [getElem?_map, hrow, Option.map_some] at hall
  have hslot : (slots getters)[j]? = some a.slot := by
    rw [slots, getElem?_map, ha, Option.map_some]
  have hread := read_of_readAll hall hslot
  rw [normalizeAll, getElem?_zipWith, ha, hvalue] at hread
  simp only [View.normalize_decode hdata] at hread
  obtain ⟨stored, hslice, hsame⟩ := Option.map_eq_some_iff.mp hread
  have hlen := length_of_slice hslice
  rw [Slot.stop, Nat.add_sub_add_left, Nat.add_sub_cancel_left] at hlen
  rw [← View.decode_inj hexact hlen hdata hsame]
  exact hslice

end Bytes

section Converse

variable {schema : Schema} {m : ResolvedMessage} {groups pre post : List (Nat × GroupEncoderCode)}
  {groupOffset : Nat} {group : Nat × GroupEncoderCode}

/-- The header of a group is intact at the end, since all that is written after
it is behind it. -/
theorem groupHeader_wrap_of_applyAll (hcons : Consecutive groupOffset (group :: groups))
    (hlaid : ∀ g ∈ group :: groups, Laid g.2.setters g.2.blockLength.toNat)
    {entries : List (List FieldValue)} {values : List (List (List FieldValue))}
    (hfits : List.Forall₂ (fun group entries => group.2.Fits entries) (group :: groups)
      (entries :: values)) {base : Nat} {buf buf' : Buffer}
    (hrun : applyAll (groupsWrites (group :: groups) (entries :: values) base) buf = some buf') :
    GroupHeader.wrap buf' (base + group.1) =
      some ⟨group.2.blockLength, .ofNat entries.length⟩ := by
  rw [forall_mem_cons] at hlaid
  rw [forall₂_cons] at hfits
  rw [groupsWrites, GroupEncoderCode.groupWrites, append_assoc, applyAll_append] at hrun
  obtain ⟨mid, hheader, hrest⟩ := Option.bind_eq_some_iff.mp hrun
  refine GroupHeader.wrap_of_heldBy fun w hw => ?_
  refine (heldBy_applyAll hheader (GroupHeader.pairwise_writes _ _) w hw).applyAll hrest ?_
  intro v hv
  refine apart_of_le (Nat.le_trans (GroupHeader.mem_writes hw).2 ?_)
  have hfirst := hcons.1
  rcases mem_append.mp hv with hv | hv
  · exact (tableWrites_within hlaid.1.within hfits.1.2 hv).1
  · have := (groupsWrites_within hcons.2 hlaid.2 hfits.2 hv).1
    omega

theorem Consecutive.append_right {rest : List (Nat × GroupEncoderCode)}
    (h : Consecutive groupOffset (groups ++ rest)) : ∃ offset, Consecutive offset rest := by
  induction groups generalizing groupOffset with
  | nil => exact ⟨groupOffset, h⟩
  | cons group groups ih => exact ih h.2

/-- In an encoded message the header of every group is intact, and the groups behind it are
written last. -/
theorem Codable.groupHeader_wrap (h : Codable schema m) {value : MessageValue}
    (hfits : (generateEncoder (.fromSchema schema) m).Fits value) {buf buf' : Buffer}
    {offset : Nat}
    (hrun : (generateEncoder (.fromSchema schema) m).encode value buf offset = some buf')
    (hgroups : (generateEncoder (.fromSchema schema) m).groups = pre ++ group :: post)
    {before after : List (List (List FieldValue))} {entries : List (List FieldValue)}
    (hvalues : value.groups = before ++ entries :: after) (hlength : pre.length = before.length) :
    GroupHeader.wrap buf' (offset + MessageHeader.encodedLength + group.1) =
        some ⟨group.2.blockLength, .ofNat entries.length⟩ ∧
      ∃ mid, applyAll (groupsWrites post after (offset + MessageHeader.encodedLength)) mid =
        some buf' := by
  have hall := hfits.groups
  have hcons := consecutive_groups (.fromSchema schema) m
  have hlaid := h.groups_laid
  rw [EncoderCode.encode_eq hfits, EncoderCode.messageWrites, ← append_assoc, applyAll_append]
    at hrun
  obtain ⟨root, -, hrun⟩ := Option.bind_eq_some_iff.mp hrun
  rw [hgroups] at hrun hall hcons hlaid
  rw [hvalues] at hrun hall
  -- the groups before, the group itself, the groups after
  rw [groupsWrites_append hlength, applyAll_append] at hrun
  obtain ⟨start, -, hrun⟩ := Option.bind_eq_some_iff.mp hrun
  obtain ⟨groupOffset, hcons⟩ := hcons.append_right
  have hrest := forall₂_drop_append _ _ _ hall
  rw [← hlength, drop_left] at hrest
  refine ⟨groupHeader_wrap_of_applyAll hcons (fun g hg => hlaid g (mem_append_right _ hg)) hrest
    hrun, ?_⟩
  rw [groupsWrites, applyAll_append] at hrun
  obtain ⟨next, -, hpost⟩ := Option.bind_eq_some_iff.mp hrun
  exact ⟨next, hpost⟩

/-- If the groups round trip, a field that takes any bytes can have any bytes in the encoded
message, whatever the later groups write. -/
theorem exists_slice_of_groupsRoundTrip (h : Codable schema m) {c : Hole} {a : Accessor}
    (hat : c.At (generateEncoder (.fromSchema schema) m) pre group post a)
    (hexact : a.view.Exact) {v : FieldValue}
    (hrt : GroupsRoundTrip (.fromSchema schema) m ((c.fill v).groups.map List.length))
    {data : List UInt8} (hdata : data.length = a.view.width) :
    ∃ mid buf', applyAll (groupsWrites post c.after MessageHeader.encodedLength) mid = some buf' ∧
      slice buf' (MessageHeader.encodedLength + (fieldRange group c.entriesBefore.length a).1)
        (MessageHeader.encodedLength + (fieldRange group c.entriesBefore.length a).2) =
          some data := by
  have hfits := hat.fits (View.accepts_decode hexact data)
  rw [c.counts_fill v (a.view.decode data)] at hrt
  obtain ⟨size, hsize⟩ : ∃ size, 0 + (generateEncoder (.fromSchema schema) m).encodedSize
    ((c.fill (a.view.decode data)).groups.map List.length) ≤ size := ⟨_, Nat.le_refl _⟩
  rw [← length_replicate (n := size) (a := (0 : UInt8))] at hsize
  obtain ⟨buf', hrun, hread⟩ := hrt _ hfits rfl _ 0 0 hsize
  have hlength : pre.length = c.before.length := hat.before.length_eq
  obtain ⟨hheader, mid, hpost⟩ := h.groupHeader_wrap hfits hrun hat.groups rfl hlength
  have hdecode := hread pre.length (group.1, group.2.setters) (c.entries (a.view.decode data))
    (by rw [h.decoder_groups, hat.groups]; simp) (by rw [hlength, Hole.fill]; simp)
  rw [readGroup] at hdecode
  rw [Nat.zero_add] at hheader hdecode hpost
  obtain ⟨others, others', hsetters, hothers, -⟩ := hat.row
  have hindex : c.fieldsBefore.length = others.length := by
    rw [← hothers.length_eq, slots, length_map]
  have hrow : (c.entries (a.view.decode data))[c.entriesBefore.length]? =
      some (c.fieldsBefore ++ a.view.decode data :: c.fieldsAfter) := by
    simp [Hole.entries]
  have hvalue : (c.fieldsBefore ++ a.view.decode data :: c.fieldsAfter)[others.length]? =
      some (a.view.decode data) := by
    simp [← hindex]
  have hslice := slice_of_decodeGroup (hat.count _) hheader hdecode hrow (by rw [hsetters]; simp)
    hvalue hexact hdata
  refine ⟨mid, buf', hpost, ?_⟩
  rw [← hslice]
  simp only [fieldRange, entryStart, Nat.add_assoc]

/-- So a byte of the field can be any byte. -/
theorem exists_byte_of_groupsRoundTrip (h : Codable schema m) {c : Hole} {a : Accessor}
    (hat : c.At (generateEncoder (.fromSchema schema) m) pre group post a)
    (hexact : a.view.Exact) {v : FieldValue}
    (hrt : GroupsRoundTrip (.fromSchema schema) m ((c.fill v).groups.map List.length)) {p : Nat}
    (hlo : (fieldRange group c.entriesBefore.length a).1 ≤ p)
    (hhi : p < (fieldRange group c.entriesBefore.length a).2) (x : UInt8) :
    ∃ mid buf', applyAll (groupsWrites post c.after MessageHeader.encodedLength) mid = some buf' ∧
      buf'[MessageHeader.encodedLength + p]? = some x := by
  obtain ⟨mid, buf', hrun, hslice⟩ := exists_slice_of_groupsRoundTrip h hat hexact hrt
    (length_replicate (n := a.view.width) (a := x))
  refine ⟨mid, buf', hrun, ?_⟩
  have hwidth : (fieldRange group c.entriesBefore.length a).2 =
      (fieldRange group c.entriesBefore.length a).1 + a.view.width := by
    rw [fieldRange, Accessor.stop_slot, Nat.add_assoc]
  have hget := getElem?_of_slice hslice
    (k := p - (fieldRange group c.entriesBefore.length a).1) (by omega)
  rw [getElem?_replicate, if_pos (by omega)] at hget
  rw [hget]
  congr 1
  omega

/-- Groups that round trip are separated, but for enum fields.  If a field shared a byte with
a later group, the later one would decide that byte, but the field can have any byte there. -/
theorem separated_of_groupsRoundTrip (h : Codable schema m) {value : MessageValue}
    (hfits : (generateEncoder (.fromSchema schema) m).Fits value)
    (hrt : GroupsRoundTrip (.fromSchema schema) m (value.groups.map List.length)) :
    Separated View.Exact (generateEncoder (.fromSchema schema) m).groups
      (value.groups.map List.length) := by
  rw [Separated, zip_map_right, pairwise_map]
  by_contra hnot
  obtain ⟨pre, ⟨g, entries⟩, post, ⟨g', entries'⟩, hsplit, hpost, hbad⟩ :=
    exists_of_not_pairwise hnot
  push Not at hbad
  obtain ⟨r, (hr : r ∈ entryRanges View.Exact g entries.length), s,
    (hs : s ∈ groupRanges g' entries'.length), hshare⟩ := hbad
  obtain ⟨k, hk, a, ha, hexact, rfl⟩ := mem_entryRanges.mp hr
  obtain ⟨p, ⟨hr₁, hr₂⟩, hs₁, hs₂⟩ := exists_of_not_apart hshare
  obtain ⟨c, v, hat, rfl, -, rfl, hafter⟩ := exists_hole hfits hsplit hk ha
  have hmem : (g', entries') ∈ (post.map Prod.fst).zip c.after := by
    rw [hafter, zip_map', map_id'']
    · exact hpost
    · exact fun _ => rfl
  have hcovered := exists_covers_groupsWrites hat.after hmem MessageHeader.encodedLength hs hs₁ hs₂
  obtain ⟨mid₀, buf₀, hrun₀, hbyte₀⟩ := exists_byte_of_groupsRoundTrip h hat hexact hrt hr₁ hr₂ 0
  obtain ⟨mid₁, buf₁, hrun₁, hbyte₁⟩ := exists_byte_of_groupsRoundTrip h hat hexact hrt hr₁ hr₂ 1
  have hsame := applyAll_getElem?_of_covered hrun₀ hrun₁ hcovered
  rw [hbyte₀, hbyte₁] at hsame
  exact absurd hsame (by decide)

end Converse

/-- A schema with a message of two groups, each of one `uint32` field. -/
def quotesSchema : Schema where
  package := "quotes"
  id := 4
  version := 1
  messages := [{ name := "Quotes", id := 2, blockLength := 4
                 fields := [{ name := "sequence", id := 1, typeName := "uint32", offset := 0 }]
                 groups := [
    { name := "bids", id := 10, blockLength := 4
      fields := [{ name := "price", id := 11, typeName := "uint32", offset := 0 }] },
    { name := "asks", id := 20, blockLength := 4
      fields := [{ name := "price", id := 21, typeName := "uint32", offset := 0 }] }] }]

/-- The message of `quotesSchema`. -/
def quotesMessage : ResolvedMessage :=
  (SchemaIr.fromSchema quotesSchema).messages.headD ⟨"", 0, 0, [], [], []⟩

theorem quotesMessage_layout : MessageLayout quotesSchema quotesMessage :=
  ⟨mem_cons_self, by decide, by decide⟩

theorem quotesMessage_kinds : MessageKinds (.fromSchema quotesSchema) quotesMessage :=
  ⟨by decide, by decide⟩

/-- A sequence number, and the bids and asks. -/
def quotesValue (bids asks : List (List FieldValue)) : MessageValue :=
  ⟨[.scalar ⟨.u32, 1, by decide⟩], [bids, asks]⟩

theorem quotesValue_fits {bids asks : List (List FieldValue)} (hbids : bids.length < 2 ^ 16)
    (hasks : asks.length < 2 ^ 16)
    (hprices : ∀ values ∈ bids ++ asks, ∃ v : Scalar, v.type = .u32 ∧ values = [.scalar v]) :
    (generateEncoder (.fromSchema quotesSchema) quotesMessage).Fits (quotesValue bids asks) := by
  have hentry : ∀ values ∈ bids ++ asks,
      AcceptsAll (slots [⟨0, .scalar (some .uint32)⟩]) values := by
    intro values hvalues
    obtain ⟨v, hv, rfl⟩ := hprices values hvalues
    exact .cons hv .nil
  exact ⟨.cons rfl .nil, .cons ⟨hbids, fun values hv => hentry values (mem_append_left _ hv)⟩
    (.cons ⟨hasks, fun values hv => hentry values (mem_append_right _ hv)⟩ .nil)⟩

/-- Bids with a side that has one variant, and asks. -/
def sidesSchema : Schema where
  package := "sides"
  id := 8
  version := 1
  types := [.enum { name := "Side", encodingType := .uint8
                    validValues := [⟨"Buy", "1", none, none, none⟩] }]
  messages := [{ name := "Sides", id := 7, blockLength := 0
                 groups := [
    { name := "bids", id := 10, blockLength := 1
      fields := [{ name := "side", id := 11, typeName := "Side", offset := 0 }] },
    { name := "asks", id := 20, blockLength := 4
      fields := [{ name := "price", id := 21, typeName := "uint32", offset := 0 }] }] }]

/-- The message of `sidesSchema`. -/
def sidesMessage : ResolvedMessage :=
  (SchemaIr.fromSchema sidesSchema).messages.headD ⟨"", 0, 0, [], [], []⟩

/-- The side of a bid. -/
def bidSide : Accessor := ⟨0, .enumeration .uint8 [⟨"Buy", 1⟩]⟩

theorem sidesMessage_codable : Codable sidesSchema sidesMessage :=
  ⟨⟨mem_cons_self, by decide, by decide⟩, by decide, by decide⟩

theorem sidesMessage_groups :
    (generateEncoder (.fromSchema sidesSchema) sidesMessage).groups =
      [(0, ⟨1, [bidSide]⟩), (4, ⟨4, [⟨0, .scalar (some .uint32)⟩]⟩)] := rfl

/-- Whatever a bid holds, its side reads as the only variant. -/
theorem readAll_side {buf : Buffer} {base : Nat} (h : base + 1 ≤ buf.length) :
    readAll (slots [bidSide]) buf base = some [.enum ⟨"Buy", 1⟩] := by
  have hread : bidSide.slot.read buf base = some (.enum ⟨"Buy", 1⟩) := by
    obtain ⟨data, hdata⟩ := Option.isSome_iff_exists.mp
      (slice_isSome_iff.mpr ⟨Nat.le_succ base, h⟩)
    show (slice buf base (base + 1)).map _ = _
    rw [hdata, Option.map_some]
    exact congrArg (some ∘ FieldValue.enum) (enumFrom_singleton _ _)
  show [bidSide.slot].mapM _ = _
  rw [mapM_cons, hread]
  rfl

/-- A message with one bid and no ask has nothing to choose. -/
theorem groups_eq_of_fits {value : MessageValue}
    (hfits : (generateEncoder (.fromSchema sidesSchema) sidesMessage).Fits value)
    (hcounts : value.groups.map length = [1, 0]) :
    value.groups = [[[.enum ⟨"Buy", 1⟩]], []] := by
  have hgroups := hfits.groups
  rw [sidesMessage_groups] at hgroups
  obtain ⟨bids, rest, hbids, hrest, hvalue⟩ := forall₂_cons_left_iff.mp hgroups
  obtain ⟨asks, rest, -, hnil, rfl⟩ := forall₂_cons_left_iff.mp hrest
  obtain rfl := forall₂_nil_left_iff.mp hnil
  rw [hvalue] at hcounts ⊢
  simp only [map_cons, map_nil, cons.injEq, and_true] at hcounts
  obtain ⟨row, rfl⟩ := length_eq_one_iff.mp hcounts.1
  obtain rfl := length_eq_zero_iff.mp hcounts.2
  obtain ⟨v, rest, hv, hrest, rfl⟩ := forall₂_cons_left_iff.mp (hbids.2 row mem_cons_self)
  obtain rfl := forall₂_nil_left_iff.mp hrest
  cases v with
  | enum v => rw [mem_singleton.mp (show v ∈ [⟨"Buy", 1⟩] from hv)]
  | _ => exact absurd hv id

/-- The header of the asks is written over the only bid, and the bid reads as it was set: a
getter of an enum takes a number without a variant for the first one. -/
theorem groupsRoundTrip_sides :
    MessageLayout sidesSchema sidesMessage ∧
      MessageKinds (.fromSchema sidesSchema) sidesMessage ∧
      ¬ Separated (fun _ => True) (generateEncoder (.fromSchema sidesSchema) sidesMessage).groups
        [1, 0] ∧
      GroupsRoundTrip (.fromSchema sidesSchema) sidesMessage [1, 0] := by
  have h := sidesMessage_codable
  refine ⟨h.layout, h.kinds, by decide, ?_⟩
  intro value hfits hcounts buf offset version hbuf
  have hvalues := groups_eq_of_fits hfits hcounts
  obtain ⟨buf', hrun, -, hlen⟩ := h.encode_eq_some hfits (hcounts ▸ hbuf)
  refine ⟨buf', hrun, ?_⟩
  have hbids := (h.groupHeader_wrap hfits hrun (show _ = [] ++ _ :: _ from sidesMessage_groups)
    (show _ = [] ++ _ :: _ from hvalues) rfl).1
  have hasks := (h.groupHeader_wrap hfits hrun (show _ = [_] ++ _ :: [] from sidesMessage_groups)
    (show _ = [_] ++ _ :: [] from hvalues) rfl).1
  intro i group entries hgroup hentries
  rw [h.decoder_groups, sidesMessage_groups, getElem?_map] at hgroup
  rw [hvalues] at hentries
  cases i with
  | zero =>
    cases hgroup
    cases hentries
    refine (decodeGroup_eq hbids).trans ?_
    show readTable (slots [bidSide]) 1 buf' (offset + 8 + 0 + 4) 1 = some [[.enum ⟨"Buy", 1⟩]]
    have hsize : 13 ≤ (generateEncoder (.fromSchema sidesSchema) sidesMessage).encodedSize [1, 0] :=
      by decide
    rw [readTable, readAll_side (by omega)]
    rfl
  | succ i =>
    cases i with
    | zero =>
      cases hgroup
      cases hentries
      exact decodeGroup_eq hasks
    | succ i => cases hentries

end IronSbe.Codegen
