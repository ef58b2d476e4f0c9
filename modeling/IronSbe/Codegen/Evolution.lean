import IronSbe.Codegen.Encoding

/-!
# Schema evolution

A later version of a schema appends fields to the root block and to the entries
of the group of a message.  The decoder of the earlier version skips what it
does not know in every entry, since it goes by the block length in the group
header.  In the root block it does not: the position of the group is a constant
of the generated code.

* `Extends`: the later message extends the earlier one.
* `ForwardCompatible`: the earlier decoder reads what the later encoder wrote.
* `forwardCompatible_iff`: this is so if there is no group or the root block has
  kept its length, and not otherwise.
-/

namespace IronSbe.Codegen

open IronSbe.Core IronSbe.Schema Lib.Bytes Lib.Slice Lib.Record List

/-- Message `m'` of schema `new` extends message `m` of schema `old` by fields
behind those of the root block and of the entries of its only group. -/
structure Extends (old new : Schema) (m m' : ResolvedMessage) : Prop where
  schemaId : new.id = old.id
  version : old.version < new.version
  templateId : m'.templateId = m.templateId
  blockLength : m.blockLength ≤ m'.blockLength
  fields : ∃ extra, m'.fields = m.fields ++ extra
  groups : (m.groups = [] ∧ m'.groups = []) ∨
    ∃ g g' extra, m.groups = [g] ∧ m'.groups = [g'] ∧ g'.fields = g.fields ++ extra
  types : ∀ f, SchemaIr.FieldOf m f →
    (SchemaIr.fromSchema new).getType f.typeName = (SchemaIr.fromSchema old).getType f.typeName

/-- Everything that the later encoder writes reads, through the earlier decoder,
as the values of the fields that the earlier schema has. -/
def ForwardCompatible (old new : Schema) (m m' : ResolvedMessage) : Prop :=
  ∀ value : MessageValue, (generateEncoder (.fromSchema new) m').Fits value →
    ∀ (buf : Buffer) (offset : Nat),
      offset + (generateEncoder (.fromSchema new) m').encodedSize
        (value.groups.map List.length) ≤ buf.length →
      ∃ buf' d, (generateEncoder (.fromSchema new) m').encode value buf offset = some buf' ∧
        SbeDecoder.decode (generateDecoder (.fromSchema old) m).templateId
          (generateDecoder (.fromSchema old) m).schemaId (buf'.drop offset) = some (.ok d) ∧
        getAll (generateDecoder (.fromSchema old) m).getters d.buffer d.offset =
          some (normalizeAll (generateDecoder (.fromSchema old) m).getters value.root) ∧
        ∀ (i : Nat) (group : Nat × List Accessor) (entries : List (List FieldValue)),
          (generateDecoder (.fromSchema old) m).groups[i]? = some group →
          value.groups[i]? = some entries →
          readGroup group d = some (entries.map (normalizeAll group.2))

section

variable {old new : Schema} {m m' : ResolvedMessage}

/-! ## The accessors of the earlier version -/

/-- A field has the same getters in both versions. -/
theorem Extends.getters_eq (h : Extends old new m m') {fields : List ResolvedField}
    (hfields : ∀ f ∈ fields, SchemaIr.FieldOf m f) :
    getters (.fromSchema new) fields = getters (.fromSchema old) fields := by
  refine flatMap_congr fun f hf => ?_
  unfold generateFieldGetter
  rw [h.types f (hfields f hf)]

/-- The getters of the earlier root block are the first of the later one. -/
theorem Extends.root_getters (h : Extends old new m m') :
    ∃ extra, getters (.fromSchema new) m'.fields =
      getters (.fromSchema old) m.fields ++ extra := by
  obtain ⟨extra, hextra⟩ := h.fields
  refine ⟨getters (.fromSchema new) extra, ?_⟩
  rw [hextra, getters, flatMap_append]
  exact congrArg (· ++ _) (h.getters_eq fun f hf => .inl hf)

/-- The groups of the two versions, when there is one. -/
theorem Extends.groups_cases (h : Extends old new m m') (hcodable : Codable new m') :
    ((generateDecoder (.fromSchema old) m).groups = [] ∧
        (generateEncoder (.fromSchema new) m').groups = []) ∨
      ∃ getters extra code, code.setters = getters ++ extra ∧
        (generateDecoder (.fromSchema old) m).groups = [(m.blockLength.toNat, getters)] ∧
        (generateEncoder (.fromSchema new) m').groups = [(m'.blockLength.toNat, code)] := by
  rcases h.groups with ⟨hm, hm'⟩ | ⟨g, g', extra, hm, hm', hfields⟩
  · refine .inl ⟨?_, ?_⟩
    · rw [generateDecoder, hm]
      rfl
    · rw [generateEncoder, hm']
      rfl
  · have hg' : g' ∈ m'.groups := hm' ▸ mem_singleton_self g'
    have hentry := (hcodable.kinds.groups g' hg').entrySetters_eq (hcodable.group_resolvedIn hg')
    refine .inr ⟨getters (.fromSchema old) g.fields, getters (.fromSchema new) extra,
      generateGroupEncoder (.fromSchema new) g', ?_, ?_, ?_⟩
    · rw [generateGroupEncoder, hentry, hfields, getters, flatMap_append]
      refine congrArg (· ++ _) (h.getters_eq fun f hf => .inr ⟨g, ?_, hf⟩)
      rw [hm]
      exact mem_singleton_self g
    · rw [generateDecoder, hm]
      rfl
    · rw [generateEncoder, hm']
      rfl

/-! ## The later encoder's bytes -/

section Run

variable {value : MessageValue} {buf' : Buffer} {offset : Nat}

/-- The header of an encoded message, seen from its start. -/
theorem wrap_header (hlen : offset ≤ buf'.length)
    (hheld : ∀ w ∈ (generateEncoder (.fromSchema new) m').messageWrites value offset,
      w.HeldBy buf') :
    MessageHeader.wrap (buf'.drop offset) 0 = some ⟨m'.blockLength, m'.templateId, new.id,
      new.version⟩ := by
  rw [MessageHeader.wrap_drop hlen]
  exact MessageHeader.wrap_of_heldBy (h := (generateEncoder (.fromSchema new) m').header)
    fun w hw => hheld w (mem_append_left _ hw)

/-- The earlier decoder accepts what the later encoder wrote. -/
theorem Extends.decode_eq_ok (h : Extends old new m m')
    (hheld : ∀ w ∈ (generateEncoder (.fromSchema new) m').messageWrites value offset,
      w.HeldBy buf')
    (hlen : offset + MessageHeader.encodedLength + m'.blockLength.toNat ≤ buf'.length) :
    SbeDecoder.decode (generateDecoder (.fromSchema old) m).templateId
        (generateDecoder (.fromSchema old) m).schemaId (buf'.drop offset) =
      some (.ok (.wrap (buf'.drop offset) MessageHeader.encodedLength new.version)) := by
  refine SbeDecoder.decode_eq_ok_iff.mpr ⟨_, wrap_header (by omega) hheld,
    h.templateId, h.schemaId, ?_, rfl⟩
  rw [length_drop]
  show MessageHeader.encodedLength + m'.blockLength.toNat ≤ _
  omega

section

variable (h : Extends old new m m') (hcodable : Codable new m')
  (hfits : (generateEncoder (.fromSchema new) m').Fits value)
include h hcodable hfits

/-- The earlier getters read what the later setters wrote. -/
theorem Extends.getAll_eq
    (hheld : ∀ w ∈ (generateEncoder (.fromSchema new) m').messageWrites value offset,
      w.HeldBy buf') (hlen : offset ≤ buf'.length) :
    getAll (getters (.fromSchema old) m.fields) (buf'.drop offset) MessageHeader.encodedLength =
      some (normalizeAll (getters (.fromSchema old) m.fields) value.root) := by
  obtain ⟨extra, hextra⟩ := h.root_getters
  have haccepts := hcodable.root_accepts hfits.root
  have hwf := hcodable.root_laid.wellFormed
  have hwrites : ∀ w ∈ writes (slots (getters (.fromSchema new) m'.fields))
      (offset + MessageHeader.encodedLength) value.root, w.HeldBy buf' := by
    intro w hw
    rw [← hcodable.root_writes] at hw
    exact hheld w (mem_append_right _ (mem_append_left _ hw))
  rw [hextra] at haccepts hwf hwrites
  rw [getAll_drop hlen]
  exact getAll_of_heldBy (fun a ha => hwf a (mem_append_left _ ha)) haccepts hwrites

/-- The writes of a message with at most one group are clear of each other. -/
theorem Extends.pairwise_messageWrites :
    ((generateEncoder (.fromSchema new) m').messageWrites value offset).Pairwise Write.Clear := by
  refine hcodable.pairwise_messageWrites hfits ?_
  have hgroups := hfits.groups
  have hlaid := hcodable.groups_laid
  rcases h.groups_cases hcodable with ⟨-, hnew⟩ | ⟨-, -, code, -, -, hnew⟩
  · rw [hnew]
    exact List.Pairwise.nil
  · rw [hnew] at hgroups hlaid ⊢
    obtain ⟨entries, rest, hentries, hrest, hvalue⟩ := forall₂_cons_left_iff.mp hgroups
    obtain rfl := forall₂_nil_left_iff.mp hrest
    rw [hvalue]
    show (code.groupWrites _ entries ++ []).Pairwise _
    rw [append_nil]
    exact pairwise_groupWrites (hlaid _ mem_cons_self) hentries _

/-- The earlier group decoder reads what the later group encoder wrote, if it
looks for the group where it is. -/
theorem Extends.readGroup_eq
    (hheld : ∀ w ∈ (generateEncoder (.fromSchema new) m').messageWrites value offset,
      w.HeldBy buf') (hlen : offset ≤ buf'.length) (hblock : m'.blockLength = m.blockLength)
    {i : Nat} {group : Nat × List Accessor} {entries : List (List FieldValue)}
    (hgroup : (generateDecoder (.fromSchema old) m).groups[i]? = some group)
    (hentries : value.groups[i]? = some entries) (version : UInt16) :
    readGroup group (.wrap (buf'.drop offset) MessageHeader.encodedLength version) =
      some (entries.map (normalizeAll group.2)) := by
  rcases h.groups_cases hcodable with ⟨hold, -⟩ | ⟨getters, extra, code, hcode, hold, hnew⟩
  · simp [hold] at hgroup
  · rw [hold] at hgroup
    obtain ⟨rfl, rfl⟩ : i = 0 ∧ (m.blockLength.toNat, getters) = group := by
      cases i with
      | zero => exact ⟨rfl, Option.some.inj hgroup⟩
      | succ i => simp at hgroup
    have hcodeMem : (generateEncoder (.fromSchema new) m').groups[0]? =
        some (m'.blockLength.toNat, code) := by rw [hnew]; rfl
    have hzip : ((m'.blockLength.toNat, code), entries) ∈
        (generateEncoder (.fromSchema new) m').groups.zip value.groups :=
      mem_of_getElem? (getElem?_zip_eq_some.mpr ⟨hcodeMem, hentries⟩)
    have hgfits : code.Fits entries := fits_of_mem_zip hfits.groups hzip
    have hwf : ∀ a ∈ code.setters, a.view.WellFormed :=
      (hcodable.groups_laid _ (mem_of_getElem? hcodeMem)).wellFormed
    show decodeGroup getters (buf'.drop offset) _ = _
    rw [decodeGroup_drop hlen, ← Nat.add_assoc]
    refine decodeGroup_of_heldBy hcode hgfits.1 hgfits.2 (fun a ha => hwf a ?_) fun w hw => ?_
    · rw [hcode]
      exact mem_append_left _ ha
    · rw [← hblock] at hw
      exact hheld w (mem_append_right _ (mem_append_right _
        (groupWrites_subset hcodeMem hentries hw)))

end

end Run

/-- Without a group, or when the root block has kept its length, the earlier
decoder reads what the later encoder wrote. -/
theorem forwardCompatible_of_blockLength (h : Extends old new m m')
    (hcodable : Codable new m') (hcond : m.groups = [] ∨ m'.blockLength = m.blockLength) :
    ForwardCompatible old new m m' := by
  intro value hfits buf offset hbuf
  obtain ⟨buf', hrun, hwrites, hlen⟩ := hcodable.encode_eq_some hfits hbuf
  have hheld := heldBy_applyAll hwrites (h.pairwise_messageWrites hcodable hfits)
  have hblock : (generateEncoder (.fromSchema new) m').blockLength = m'.blockLength := rfl
  rw [EncoderCode.encodedSize, hblock] at hbuf
  refine ⟨buf', _, hrun, h.decode_eq_ok hheld (by omega),
    h.getAll_eq hcodable hfits hheld (by omega), fun i group entries hgroup hentries => ?_⟩
  rcases hcond with hnone | hsame
  · rw [generateDecoder, hnone] at hgroup
    simp [groupOffsets] at hgroup
  · exact h.readGroup_eq hcodable hfits hheld (by omega) hsame hgroup hentries _

/-! ## The root block must keep its length -/

/-- What the earlier decoder takes for the count of the group, two bytes behind
the end of its root block, is the number of entries that were encoded. -/
theorem ForwardCompatible.heldBy_count (hfc : ForwardCompatible old new m m')
    {getters : List Accessor}
    (hold : (generateDecoder (.fromSchema old) m).groups = [(m.blockLength.toNat, getters)])
    {value : MessageValue} (hfits : (generateEncoder (.fromSchema new) m').Fits value)
    {entries : List (List FieldValue)} (hvalue : value.groups = [entries]) (buf : Buffer)
    (hbuf : (generateEncoder (.fromSchema new) m').encodedSize [entries.length] ≤ buf.length) :
    ∃ buf', applyAll ((generateEncoder (.fromSchema new) m').messageWrites value 0) buf =
        some buf' ∧
      (u16Write (MessageHeader.encodedLength + m.blockLength.toNat + 2)
        (.ofNat entries.length)).HeldBy buf' := by
  obtain ⟨buf', d, hrun, hdecode, -, hgroup⟩ := hfc value hfits buf 0
    (by rw [hvalue, Nat.zero_add]; exact hbuf)
  rw [EncoderCode.encode_eq hfits] at hrun
  refine ⟨buf', hrun, ?_⟩
  obtain ⟨header, -, -, -, -, rfl⟩ := SbeDecoder.decode_eq_ok_iff.mp hdecode
  have hread := hgroup 0 (m.blockLength.toNat, getters) entries (by rw [hold]; rfl)
    (by rw [hvalue]; rfl)
  have hheld := heldBy_of_decodeGroup hread
  rw [length_map] at hheld
  exact hheld

variable {code : EncoderCode} {groupOffset : Nat} {group : GroupEncoderCode}
  {root : List FieldValue} {buf : Buffer}

/-- The writes of a message with one group, split in front of the count of its
entries. -/
theorem EncoderCode.messageWrites_singleGroup (hgroups : code.groups = [(groupOffset, group)])
    (root : List FieldValue) (entries : List (List FieldValue)) (offset : Nat) :
    code.messageWrites ⟨root, [entries]⟩ offset =
      (code.header.writes offset ++ (writes (slots code.setters) offset root ++
        [u16Write (offset + MessageHeader.encodedLength + groupOffset) group.blockLength])) ++
      u16Write (offset + MessageHeader.encodedLength + groupOffset + 2) (.ofNat entries.length) ::
        tableWrites (slots group.setters) group.blockLength.toNat
          (offset + MessageHeader.encodedLength + groupOffset + GroupHeader.encodedLength)
          entries := by
  rw [messageWrites, hgroups]
  show _ ++ (_ ++ (group.groupWrites _ entries ++ [])) = _
  rw [append_nil, GroupEncoderCode.groupWrites, GroupHeader.writes]
  simp only [append_assoc, cons_append, nil_append]

/-- In front of the count of its entries, a message with one group does not
depend on the entries. -/
theorem slice_singleGroup_congr (hgroups : code.groups = [(groupOffset, group)])
    (hlaid : Laid group.setters group.blockLength.toNat)
    {entries₁ entries₂ : List (List FieldValue)} (hfits₁ : group.Fits entries₁)
    (hfits₂ : group.Fits entries₂) {buf₁ buf₂ : Buffer}
    (hrun₁ : applyAll (code.messageWrites ⟨root, [entries₁]⟩ 0) buf = some buf₁)
    (hrun₂ : applyAll (code.messageWrites ⟨root, [entries₂]⟩ 0) buf = some buf₂) {start stop : Nat}
    (hstop : stop ≤ MessageHeader.encodedLength + groupOffset + 2) :
    slice buf₁ start stop = slice buf₂ start stop := by
  rw [EncoderCode.messageWrites_singleGroup hgroups, applyAll_append, Nat.zero_add] at hrun₁ hrun₂
  obtain ⟨mid, hmid, htail₁⟩ := Option.bind_eq_some_iff.mp hrun₁
  rw [hmid, Option.bind_some] at hrun₂
  -- both runs go on from `mid`, behind the range
  have hbehind : ∀ {entries : List (List FieldValue)}, group.Fits entries →
      ∀ w ∈ u16Write (MessageHeader.encodedLength + groupOffset + 2) (.ofNat entries.length) ::
        tableWrites (slots group.setters) group.blockLength.toNat
          (MessageHeader.encodedLength + groupOffset + GroupHeader.encodedLength) entries,
      Apart (w.start, w.stop) (start, stop) := by
    intro entries hfits w hw
    refine Apart.symm (apart_of_le ?_)
    rcases mem_cons.mp hw with rfl | hw
    · exact hstop
    · have hwithin := (tableWrites_within hlaid.within hfits.2 hw).1
      have hheader : GroupHeader.encodedLength = 4 := rfl
      omega
  rw [slice_applyAll_frame htail₁ (hbehind hfits₁), slice_applyAll_frame hrun₂ (hbehind hfits₂)]

/-- Two counts cannot stand one byte apart. -/
theorem not_heldBy_shifted {offset : Nat} (h : (u16Write offset 1).HeldBy buf) :
    ¬ (u16Write (offset + 1) 1).HeldBy buf := by
  intro h'
  rw [Write.HeldBy, u16Write_stop] at h h'
  have hhigh := getElem?_of_slice h (k := 1) (by rw [u16Write_start]; omega)
  have hlow := getElem?_of_slice h' (k := 0) (by rw [u16Write_start]; omega)
  rw [u16Write_start] at hhigh hlow
  rw [Nat.add_zero, ← hhigh] at hlow
  exact absurd (show (leBytes 2 1)[0]? = (leBytes 2 1)[1]? from hlow) (by decide)

theorem groups_eq_nil {ir : SchemaIr} (h : (generateDecoder ir m).groups = []) : m.groups = [] := by
  cases hgroups : m.groups with
  | nil => rfl
  | cons group rest =>
    rw [generateDecoder, hgroups] at h
    exact absurd h (cons_ne_nil _ _)

/-- A root block that has grown moves the group away from where the earlier
decoder looks for it. -/
theorem blockLength_eq_of_forwardCompatible (h : Extends old new m m')
    (hcodable : Codable new m') {row : List FieldValue}
    (hroot : AcceptsAll (slots (generateEncoder (.fromSchema new) m').setters) root)
    (hrow : ∀ g ∈ (generateEncoder (.fromSchema new) m').groups,
      AcceptsAll (slots g.2.setters) row) (hfc : ForwardCompatible old new m m')
    (hgroups : m.groups ≠ []) :
    m'.blockLength = m.blockLength := by
  rcases h.groups_cases hcodable with ⟨hold, -⟩ | ⟨getters, extra, code, -, hold, hnew⟩
  · exact absurd (groups_eq_nil hold) hgroups
  by_contra hne
  have hlt : m.blockLength.toNat < m'.blockLength.toNat := by
    have hle : m.blockLength.toNat ≤ m'.blockLength.toNat := h.blockLength
    have hne' : m'.blockLength.toNat ≠ m.blockLength.toNat :=
      fun heq => hne (UInt16.toNat_inj.mp heq)
    omega
  rw [hnew] at hrow
  have hlaid : Laid code.setters code.blockLength.toNat :=
    hcodable.groups_laid (m'.blockLength.toNat, code) (hnew ▸ mem_singleton_self _)
  -- a message with one entry and a message with none
  have hone : code.Fits [row] := ⟨(by decide : 1 < 2 ^ 16), by simpa using hrow⟩
  have hzero : code.Fits [] := ⟨by decide, by simp⟩
  have hfits : ∀ {entries}, code.Fits entries →
      (generateEncoder (.fromSchema new) m').Fits ⟨root, [entries]⟩ := fun hentries =>
    ⟨hroot, by rw [hnew]; exact .cons hentries .nil⟩
  obtain ⟨size, hsize⟩ : ∃ size,
      (generateEncoder (.fromSchema new) m').encodedSize [1] ≤ size ∧
      (generateEncoder (.fromSchema new) m').encodedSize [0] ≤ size :=
    ⟨_, Nat.le_max_left _ _, Nat.le_max_right _ _⟩
  obtain ⟨buf₁, hrun₁, hcount₁⟩ := hfc.heldBy_count hold (hfits hone) rfl
    (replicate size 0) (by rw [length_replicate]; exact hsize.1)
  obtain ⟨buf₀, hrun₀, hcount₀⟩ := hfc.heldBy_count hold (hfits hzero) rfl
    (replicate size 0) (by rw [length_replicate]; exact hsize.2)
  by_cases hfar : m.blockLength.toNat + 2 ≤ m'.blockLength.toNat
  · -- the earlier decoder reads its count in front of the real one
    rw [Write.HeldBy, u16Write_stop, u16Write_start] at hcount₁ hcount₀
    rw [slice_singleGroup_congr hnew hlaid hone hzero hrun₁ hrun₀ (by omega), hcount₀] at hcount₁
    exact absurd (show some (leBytes 2 0) = some (leBytes 2 1) from hcount₁) (by decide)
  · -- the earlier decoder reads its count one byte in front of the real one
    have hreal := heldBy_applyAll hrun₁ (h.pairwise_messageWrites hcodable (hfits hone))
      (u16Write (MessageHeader.encodedLength + m.blockLength.toNat + 2 + 1) 1) (by
        rw [EncoderCode.messageWrites_singleGroup hnew,
          show m'.blockLength.toNat = m.blockLength.toNat + 1 by omega]
        refine mem_append_right _ (mem_cons.mpr (.inl ?_))
        rw [Nat.zero_add, ← Nat.add_assoc, Nat.add_right_comm _ 1 2]
        rfl)
    exact not_heldBy_shifted hcount₁ hreal

end

/-- Fills with a group of legs, in a root block of `blockLength` bytes. -/
def fillsSchema (blockLength : UInt16) : Schema where
  package := "fills"
  id := 6
  version := 1
  messages := [{ name := "Fill", id := 5, blockLength := blockLength
                 fields := [{ name := "order", id := 1, typeName := "uint32", offset := 0 }]
                 groups := [
    { name := "legs", id := 10, blockLength := 4
      fields := [{ name := "price", id := 11, typeName := "uint32", offset := 0 }] }] }]

/-- The next version of `fillsSchema` adds a venue, and a quantity to every leg. -/
def fillsSchema2 (blockLength : UInt16) : Schema where
  package := "fills"
  id := 6
  version := 2
  messages := [{ name := "Fill", id := 5, blockLength := blockLength
                 fields := [{ name := "order", id := 1, typeName := "uint32", offset := 0 },
                   { name := "venue", id := 2, typeName := "uint16", offset := 4 }]
                 groups := [
    { name := "legs", id := 10, blockLength := 8
      fields := [{ name := "price", id := 11, typeName := "uint32", offset := 0 },
        { name := "quantity", id := 12, typeName := "uint32", offset := 4 }] }] }]

/-- The message of a schema of fills. -/
def fillMessage (schema : Schema) : ResolvedMessage :=
  (SchemaIr.fromSchema schema).messages.headD ⟨"", 0, 0, [], [], []⟩

theorem fillsSchema_extends {before after : UInt16} (h : before ≤ after) :
    Extends (fillsSchema before) (fillsSchema2 after) (fillMessage (fillsSchema before))
      (fillMessage (fillsSchema2 after)) where
  schemaId := rfl
  version := (by decide : (1 : UInt16) < 2)
  templateId := rfl
  blockLength := h
  fields := ⟨_, rfl⟩
  groups := .inr ⟨_, _, _, rfl, rfl, rfl⟩
  types := fun _ _ => rfl

/-- A fill with one leg. -/
def fillValue : MessageValue :=
  ⟨[.scalar ⟨.u32, 11, by decide⟩, .scalar ⟨.u16, 2, by decide⟩],
    [[[.scalar ⟨.u32, 70, by decide⟩, .scalar ⟨.u32, 3, by decide⟩]]]⟩

theorem fillValue_fits (blockLength : UInt16) :
    (generateEncoder (.fromSchema (fillsSchema2 blockLength))
      (fillMessage (fillsSchema2 blockLength))).Fits fillValue :=
  ⟨.cons rfl (.cons rfl .nil),
    .cons ⟨(by decide : 1 < 2 ^ 16), by simpa using .cons rfl (.cons rfl .nil)⟩ .nil⟩

end IronSbe.Codegen
