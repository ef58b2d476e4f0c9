import IronSbe.Codegen.Encoding

/-!
# The group codec, call by call

The generated group encoder and decoder as their callers see them: `wrap`, then
one `next_entry` for each entry on one side, one `next` for each entry on the other.

* `GroupEncoderCode.write`: the calls of a client that fills a group.
* `Iterates`: what the calls of `next` and `size_hint` return, at every step.
* `iteratesAt_of_hasGroup`: a decoder iterates over the entries of a group that the
  buffer has, one block length of its header apart.
* `groupCodec_roundTrip`: it iterates over what the encoder has written, and also
  over entries that a later version of the schema has written further apart.
-/

namespace IronSbe.Codegen

open IronSbe.Core IronSbe.Schema Lib.Slice Lib.Record

/-! ## The encoder -/

namespace GroupEncoderCode

variable {code : GroupEncoderCode}

/-- The generated `encoded_length`. -/
def encodedLength (code : GroupEncoderCode) (enc : GroupEncoder) : Nat :=
  GroupHeader.encodedLength + code.blockLength.toNat * enc.count.toNat

/-- Call `next_entry` and set all fields of the entry, for each entry of the list. -/
def writeEntries (code : GroupEncoderCode) :
    GroupEncoder → List (List FieldValue) → Buffer → Option (Buffer × GroupEncoder)
  | enc, [], buf => some (buf, enc)
  | enc, values :: rest, buf => do
    let (entry, enc) ← code.nextEntry enc
    let buf ← setAll code.setters values buf entry
    code.writeEntries enc rest buf

/-- Wrap an encoder for `count` entries at `offset` and write the entries. -/
def write (code : GroupEncoderCode) (buf : Buffer) (offset : Nat) (count : UInt16)
    (entries : List (List FieldValue)) : Option (Buffer × GroupEncoder) := do
  let (buf, enc) ← code.wrap buf offset count
  code.writeEntries enc entries buf

theorem map_fst_writeEntries (enc : GroupEncoder) (entries : List (List FieldValue))
    (buf : Buffer) :
    (code.writeEntries enc entries buf).map Prod.fst = code.fill enc entries buf := by
  induction entries generalizing enc buf with
  | nil => rfl
  | cons values rest ih =>
    rw [writeEntries, fill]
    cases code.nextEntry enc with
    | none => rfl
    | some p =>
      show (setAll code.setters values buf p.1 >>= _).map _ =
        setAll code.setters values buf p.1 >>= _
      cases setAll code.setters values buf p.1 with
      | none => rfl
      | some next => exact ih p.2 next

variable {enc : GroupEncoder} {entries : List (List FieldValue)} {buf buf' : Buffer} {offset : Nat}
  {count : UInt16}

/-- Every entry counts once. -/
theorem writeEntries_count {enc' : GroupEncoder}
    (h : code.writeEntries enc entries buf = some (buf', enc')) :
    enc'.count = enc.count ∧ enc'.index.toNat = enc.index.toNat + entries.length := by
  induction entries generalizing enc buf with
  | nil =>
    cases h
    exact ⟨rfl, rfl⟩
  | cons values rest ih =>
    rw [writeEntries] at h
    obtain ⟨p, hp, h⟩ := Option.bind_eq_some_iff.mp h
    obtain ⟨next, -, h⟩ := Option.bind_eq_some_iff.mp h
    obtain ⟨hcount, hindex⟩ := ih h
    -- an entry was handed out, so the index was below the count
    have hlt : enc.index.toNat < enc.count.toNat := by
      by_contra hge
      have hle : enc.count ≤ enc.index := UInt16.le_iff_toNat_le.mpr (Nat.le_of_not_lt hge)
      rw [nextEntry, if_pos hle] at hp
      cases hp
    obtain ⟨enc₁, hnext, -, hcount₁, hindex₁⟩ := code.nextEntry_eq hlt
    cases hp.symm.trans hnext
    rw [List.length_cons]
    exact ⟨hcount.trans hcount₁, by rw [hindex, hindex₁]; omega⟩

/-- After as many entries as were announced there is no other. -/
theorem nextEntry_of_write (hcount : entries.length = count.toNat)
    (h : code.write buf offset count entries = some (buf', enc)) :
    enc.count = count ∧ code.nextEntry enc = none := by
  rw [write] at h
  obtain ⟨⟨mid, enc₀⟩, hwrap, h⟩ := Option.bind_eq_some_iff.mp h
  rw [wrap] at hwrap
  obtain ⟨mid', -, hwrap⟩ := Option.bind_eq_some_iff.mp hwrap
  cases hwrap
  obtain ⟨henc, hindex⟩ := writeEntries_count h
  refine ⟨henc, if_pos (UInt16.le_iff_toNat_le.mpr ?_)⟩
  rw [henc, hindex]
  show count.toNat ≤ 0 + entries.length
  omega

section

variable (hcount : entries.length = count.toNat)
  (h : ∀ values ∈ entries, AcceptsAll (slots code.setters) values)
include hcount h

/-- The buffer after the calls is that after the writes of the group. -/
theorem map_fst_write (buf : Buffer) (offset : Nat) :
    (code.write buf offset count entries).map Prod.fst =
      applyAll (code.groupWrites offset entries) buf := by
  have hlt : entries.length < 2 ^ 16 := hcount ▸ count.toNat_lt
  have hofNat : UInt16.ofNat entries.length = count := by rw [hcount, UInt16.ofNat_toNat]
  rw [← encodeGroup_eq hlt h, encodeGroup, hofNat, write]
  cases code.wrap buf offset count with
  | none => rfl
  | some p => exact map_fst_writeEntries p.2 entries p.1

theorem applyAll_of_write (hrun : code.write buf offset count entries = some (buf', enc)) :
    applyAll (code.groupWrites offset entries) buf = some buf' := by
  rw [← map_fst_write hcount h, hrun]
  rfl

end

/-- A group is written inside its encoded length. -/
theorem groupWrites_within (hlaid : Laid code.setters code.blockLength.toNat)
    (h : ∀ values ∈ entries, AcceptsAll (slots code.setters) values) {w : Write UInt8}
    (hw : w ∈ code.groupWrites offset entries) :
    offset ≤ w.start ∧
      w.stop ≤ offset + (GroupHeader.encodedLength + entries.length * code.blockLength.toNat) := by
  rcases List.mem_append.mp hw with hw | hw
  · have := GroupHeader.mem_writes hw
    omega
  · have := tableWrites_within hlaid.within h hw
    omega

section

variable (hlaid : Laid code.setters code.blockLength.toNat) (hcount : entries.length = count.toNat)
  (h : ∀ values ∈ entries, AcceptsAll (slots code.setters) values)
include hlaid hcount h

/-- A group that fits the buffer is written. -/
theorem exists_write
    (hbuf : offset + (GroupHeader.encodedLength + count.toNat * code.blockLength.toNat) ≤
      buf.length) :
    ∃ buf' enc, code.write buf offset count entries = some (buf', enc) := by
  have hwithin : ∀ w ∈ code.groupWrites offset entries, w.stop ≤ buf.length := by
    intro w hw
    have := (groupWrites_within hlaid h hw).2
    rw [hcount] at this
    omega
  obtain ⟨buf', hrun, -⟩ := applyAll_eq_some hwithin
  rw [← map_fst_write hcount h] at hrun
  obtain ⟨⟨_, enc⟩, hwrite, rfl⟩ := Option.map_eq_some_iff.mp hrun
  exact ⟨_, enc, hwrite⟩

/-- Nothing changes outside the encoded length of the group. -/
theorem write_frame (hrun : code.write buf offset count entries = some (buf', enc)) {i : Nat}
    (hi : i < offset ∨
      offset + (GroupHeader.encodedLength + count.toNat * code.blockLength.toNat) ≤ i) :
    buf'[i]? = buf[i]? := by
  refine applyAll_frame (applyAll_of_write hcount h hrun) fun w hw hcovers => ?_
  have hwithin := groupWrites_within hlaid h hw
  rw [hcount] at hwithin
  have hstart : w.start ≤ i := hcovers.1
  have hstop : i < w.stop := hcovers.2
  omega

end

end GroupEncoderCode

/-! ## The decoder -/

namespace GroupDecoder

/-- The generated `size_hint`.  The subtraction wraps here where it would stop a debug
build; `count_le_index` and `toNat_index` say that it never comes to that. -/
def sizeHint (d : GroupDecoder) : Nat × Option Nat :=
  let remaining := (d.count - d.index).toNat
  (remaining, some remaining)

/-- The decoder after `k` calls of `next`. -/
def after (d : GroupDecoder) : Nat → GroupDecoder
  | 0 => d
  | k + 1 => (d.after k).next.2

section After

variable {d : GroupDecoder}

/-- The index does not run past the count, so it does not overflow. -/
theorem toNat_index (count : UInt16) (k : Nat) :
    (UInt16.ofNat (min k count.toNat)).toNat = min k count.toNat := by
  have hlt := count.toNat_lt
  rw [UInt16.toNat_ofNat']
  exact Nat.mod_eq_of_lt (by omega)

theorem count_le_index (count : UInt16) (k : Nat) :
    count ≤ .ofNat (min k count.toNat) ↔ count.toNat ≤ k := by
  rw [UInt16.le_iff_toNat_le, toNat_index]
  omega

/-- `next` moves on by one entry until all are taken, and then stays. -/
theorem after_eq (hindex : d.index = 0) (k : Nat) :
    d.after k = { d with
      index := .ofNat (min k d.count.toNat)
      offset := d.offset + min k d.count.toNat * d.blockLength.toNat } := by
  induction k with
  | zero =>
    rw [after, Nat.zero_min, Nat.zero_mul, Nat.add_zero]
    show d = { d with index := 0 }
    rw [← hindex]
  | succ k ih =>
    rw [after, ih, next]
    by_cases hend : d.count.toNat ≤ k
    · rw [if_pos ((count_le_index _ k).mpr hend), Nat.min_eq_right hend,
        Nat.min_eq_right (by omega)]
    · rw [if_neg (fun hle => hend ((count_le_index _ k).mp hle)), Nat.min_eq_left (by omega),
        Nat.min_eq_left (by omega), Nat.succ_mul, ← Nat.add_assoc, UInt16.ofNat_add]
      rfl

/-- The call number `k` of `next` gives the entry number `k`, if there is one. -/
theorem next_after (hindex : d.index = 0) (k : Nat) :
    (d.after k).next.1 =
      if d.count.toNat ≤ k then none else some ⟨d.buffer, d.offset + k * d.blockLength.toNat⟩ := by
  rw [after_eq hindex, next]
  by_cases hend : d.count.toNat ≤ k
  · rw [if_pos hend, if_pos ((count_le_index _ k).mpr hend)]
  · rw [if_neg hend, if_neg (fun hle => hend ((count_le_index _ k).mp hle)),
      Nat.min_eq_left (by omega)]

/-- `size_hint` is the number of the entries that are left. -/
theorem sizeHint_after (hindex : d.index = 0) (k : Nat) :
    (d.after k).sizeHint = (d.count.toNat - k, some (d.count.toNat - k)) := by
  have hle : UInt16.ofNat (min k d.count.toNat) ≤ d.count := by
    rw [UInt16.le_iff_toNat_le, toNat_index]
    omega
  have hleft : (d.count - UInt16.ofNat (min k d.count.toNat)).toNat = d.count.toNat - k := by
    rw [UInt16.toNat_sub_of_le _ _ hle, toNat_index]
    omega
  rw [after_eq hindex, sizeHint]
  rw [hleft]

end After

end GroupDecoder

/-- A decoder iterates over the entries: the calls of `next` return them one after the
other and then `None`, and `size_hint` is the number of those that are left. -/
structure Iterates (getters : List Accessor) (d : GroupDecoder)
    (entries : List (List FieldValue)) : Prop where
  entry : ∀ k values, entries[k]? = some values → ∃ e, (d.after k).next.1 = some e ∧
    getAll getters e.buffer e.offset = some values
  finished : ∀ k, entries.length ≤ k → (d.after k).next.1 = none
  sizeHint : ∀ k, (d.after k).sizeHint = (entries.length - k, some (entries.length - k))

/-- A decoder that is wrapped at `offset` iterates over the entries. -/
def IteratesAt (getters : List Accessor) (buf : Buffer) (offset : Nat)
    (entries : List (List FieldValue)) : Prop :=
  ∃ d, GroupDecoder.wrap buf offset = some d ∧ Iterates getters d entries

variable {buf : Buffer} {offset : Nat} {entries : List (List FieldValue)} {count : UInt16}

/-- A group that decodes to a list of entries is iterated over call by call. -/
theorem iteratesAt_of_decodeGroup {getters : List Accessor}
    (h : decodeGroup getters buf offset = some entries) :
    IteratesAt getters buf offset entries := by
  cases hheader : GroupHeader.wrap buf offset with
  | none =>
    rw [decodeGroup, GroupDecoder.wrap, hheader] at h
    cases h
  | some header =>
    rw [decodeGroup_eq hheader] at h
    have hlength := length_of_readTable h
    refine ⟨⟨buf, header.blockLength, header.numInGroup, 0, offset + GroupHeader.encodedLength⟩,
      by rw [GroupDecoder.wrap, hheader]; rfl, ?_, ?_, ?_⟩
    · intro k values hvalues
      have hk : k < header.numInGroup.toNat := hlength ▸ (List.getElem?_eq_some_iff.mp hvalues).1
      refine ⟨_, (GroupDecoder.next_after rfl k).trans (if_neg (Nat.not_le_of_lt hk)), ?_⟩
      rw [getAll_eq_readAll, readAll_of_readTable h hk, hvalues]
    · intro k hk
      rw [hlength] at hk
      exact (GroupDecoder.next_after rfl k).trans (if_pos hk)
    · intro k
      rw [hlength]
      exact GroupDecoder.sizeHint_after rfl k

/-! ## The round trip -/

/-- The buffer has a group at `offset`: a header with this block length and the number of
the entries, and the fields of the entries this far apart.  The bytes between the fields
may be any. -/
def HasGroup (setters : List Accessor) (blockLength : UInt16) (offset : Nat)
    (entries : List (List FieldValue)) (buf : Buffer) : Prop :=
  ∀ w ∈ (GroupEncoderCode.mk blockLength setters).groupWrites offset entries, w.HeldBy buf

theorem Laid.mono {accessors : List Accessor} {size size' : Nat} (h : Laid accessors size)
    (hle : size ≤ size') : Laid accessors size' :=
  ⟨h.disjoint, fun s hs => Nat.le_trans (h.within s hs) hle, h.wellFormed⟩

/-- The buffer has the group after an encoder has written it. -/
theorem hasGroup_of_write {code : GroupEncoderCode}
    (hlaid : Laid code.setters code.blockLength.toNat) (hcount : entries.length = count.toNat)
    (h : ∀ values ∈ entries, AcceptsAll (slots code.setters) values) {buf' : Buffer}
    {enc : GroupEncoder} (hrun : code.write buf offset count entries = some (buf', enc)) :
    HasGroup code.setters code.blockLength offset entries buf' :=
  heldBy_applyAll (GroupEncoderCode.applyAll_of_write hcount h hrun)
    (pairwise_groupWrites hlaid ⟨hcount ▸ count.toNat_lt, h⟩ offset)

/-- Some buffer has the group: the one that an encoder of this block length leaves. -/
theorem exists_hasGroup (code : GroupEncoderCode) (hlaid : Laid code.setters code.blockLength.toNat)
    (hcount : entries.length = count.toNat)
    (h : ∀ values ∈ entries, AcceptsAll (slots code.setters) values)
    (hbuf : offset + (GroupHeader.encodedLength + count.toNat * code.blockLength.toNat) ≤
      buf.length) :
    ∃ buf', HasGroup code.setters code.blockLength offset entries buf' ∧
      buf'.length = buf.length := by
  obtain ⟨buf', enc, hrun⟩ := GroupEncoderCode.exists_write hlaid hcount h hbuf
  exact ⟨buf', hasGroup_of_write hlaid hcount h hrun,
    length_of_applyAll (GroupEncoderCode.applyAll_of_write hcount h hrun)⟩

section RoundTrip

variable {schema : Schema} {g : ResolvedGroup} {count : UInt16} {entries : List (List FieldValue)}

/-- A decoder iterates over the entries of a group that the buffer has, whatever the
block length in its header is. -/
theorem iteratesAt_of_hasGroup (hg : ResolvedIn schema g.fields)
    (hkinds : SupportedKinds (.fromSchema schema) g.fields)
    (hlayout : BlockSound g.fields (effectiveBlockLength g).toNat)
    (hcount : entries.length < 2 ^ 16)
    (hentries : ∀ values ∈ entries,
      AcceptsAll (slots (entrySetters (.fromSchema schema) g.fields)) values)
    {blockLength : UInt16} {offset : Nat} {buf : Buffer}
    (h : HasGroup (entrySetters (.fromSchema schema) g.fields) blockLength offset entries buf) :
    IteratesAt (getters (.fromSchema schema) g.fields) buf offset
      (entries.map (normalizeAll (getters (.fromSchema schema) g.fields))) := by
  have hsetters : entrySetters (.fromSchema schema) g.fields =
      getters (.fromSchema schema) g.fields ++ [] := by
    rw [hkinds.entrySetters_eq hg, List.append_nil]
  exact iteratesAt_of_decodeGroup
    (decodeGroup_of_heldBy hsetters hcount hentries (hkinds.laid hg hlayout).wellFormed h)

/-- The entries that a group encoder has written are those that a group decoder iterates
over, and the encoder has no others and writes nowhere else.  The decoder does not depend
on the block length of the encoder: entries further apart are read as well. -/
theorem groupCodec_roundTrip (hg : ResolvedIn schema g.fields)
    (hkinds : SupportedKinds (.fromSchema schema) g.fields)
    (hlayout : BlockSound g.fields (effectiveBlockLength g).toNat)
    (hcount : entries.length = count.toNat)
    (hentries : ∀ values ∈ entries,
      AcceptsAll (slots (generateGroupEncoder (.fromSchema schema) g).setters) values)
    (offset : Nat) :
    (∀ buf : Buffer,
      offset + (GroupHeader.encodedLength + count.toNat * (effectiveBlockLength g).toNat) ≤
        buf.length →
      ∃ buf' enc, (generateGroupEncoder (.fromSchema schema) g).write buf offset count entries =
        some (buf', enc)) ∧
    (∀ (buf buf' : Buffer) (enc : GroupEncoder),
      (generateGroupEncoder (.fromSchema schema) g).write buf offset count entries =
        some (buf', enc) →
      (generateGroupEncoder (.fromSchema schema) g).nextEntry enc = none ∧
      (generateGroupEncoder (.fromSchema schema) g).encodedLength enc =
        GroupHeader.encodedLength + count.toNat * (effectiveBlockLength g).toNat ∧
      buf'.length = buf.length ∧
      (∀ i, i < offset ∨
          offset + (generateGroupEncoder (.fromSchema schema) g).encodedLength enc ≤ i →
        buf'[i]? = buf[i]?) ∧
      IteratesAt (getters (.fromSchema schema) g.fields) buf' offset
        (entries.map (normalizeAll (getters (.fromSchema schema) g.fields)))) ∧
    ∀ blockLength : UInt16, (effectiveBlockLength g).toNat ≤ blockLength.toNat →
      (∀ buf : Buffer,
        offset + (GroupHeader.encodedLength + count.toNat * blockLength.toNat) ≤ buf.length →
        ∃ buf', HasGroup (entrySetters (.fromSchema schema) g.fields) blockLength offset entries
          buf' ∧ buf'.length = buf.length) ∧
      ∀ buf : Buffer,
        HasGroup (entrySetters (.fromSchema schema) g.fields) blockLength offset entries buf →
        IteratesAt (getters (.fromSchema schema) g.fields) buf offset
          (entries.map (normalizeAll (getters (.fromSchema schema) g.fields))) := by
  have hlt : entries.length < 2 ^ 16 := hcount ▸ count.toNat_lt
  have hlaid : Laid (entrySetters (.fromSchema schema) g.fields)
      (effectiveBlockLength g).toNat := by
    rw [hkinds.entrySetters_eq hg]
    exact hkinds.laid hg hlayout
  refine ⟨fun buf hbuf => GroupEncoderCode.exists_write hlaid hcount hentries hbuf, ?_, ?_⟩
  · intro buf buf' enc hrun
    obtain ⟨hencCount, hnone⟩ := GroupEncoderCode.nextEntry_of_write hcount hrun
    have hlength : (generateGroupEncoder (.fromSchema schema) g).encodedLength enc =
        GroupHeader.encodedLength + count.toNat * (effectiveBlockLength g).toNat := by
      rw [GroupEncoderCode.encodedLength, hencCount, Nat.mul_comm]
      rfl
    refine ⟨hnone, hlength, ?_, ?_, ?_⟩
    · exact length_of_applyAll (GroupEncoderCode.applyAll_of_write hcount hentries hrun)
    · intro i hi
      rw [hlength] at hi
      exact GroupEncoderCode.write_frame hlaid hcount hentries hrun hi
    · exact iteratesAt_of_hasGroup hg hkinds hlayout hlt hentries
        (hasGroup_of_write hlaid hcount hentries hrun)
  · intro blockLength hle
    refine ⟨fun buf hbuf => ?_, fun buf => iteratesAt_of_hasGroup hg hkinds hlayout hlt hentries⟩
    exact exists_hasGroup ⟨blockLength, _⟩ (hlaid.mono hle) hcount hentries hbuf

end RoundTrip

/-- The legs of an order: a group that declares no block length. -/
def legsGroup : ResolvedGroup :=
  .fromGroupDef (SchemaIr.fromSchema orderSchema).types
    { name := "legs", id := 30, blockLength := 0
      fields := [{ name := "quantity", id := 31, typeName := "uint32", offset := 0 },
        { name := "symbol", id := 32, typeName := "Symbol", offset := 4 },
        { name := "side", id := 33, typeName := "Side", offset := 8 }] }

/-- Two legs, with a symbol that is too short and one that is too long. -/
def legsEntries : List (List FieldValue) :=
  [[.scalar ⟨.u32, 31, by decide⟩, .bytes [65, 66], .enum ⟨"Buy", 1⟩],
    [.scalar ⟨.u32, 47, by decide⟩, .bytes [67, 68, 69, 70, 71], .enum ⟨"Sell", 2⟩]]

/-- The legs as they are read. -/
def legsRead : List (List FieldValue) :=
  [[.scalar ⟨.u32, 31, by decide⟩, .bytes [65, 66, 0, 0], .enum ⟨"Buy", 1⟩],
    [.scalar ⟨.u32, 47, by decide⟩, .bytes [67, 68, 69, 70], .enum ⟨"Sell", 2⟩]]

theorem groupCodec_roundTrip_legs :
    (∃ buf' enc, (generateGroupEncoder (.fromSchema orderSchema) legsGroup).write
        (List.replicate 30 255) 3 2 legsEntries = some (buf', enc) ∧
      (generateGroupEncoder (.fromSchema orderSchema) legsGroup).nextEntry enc = none ∧
      (generateGroupEncoder (.fromSchema orderSchema) legsGroup).encodedLength enc = 22 ∧
      buf'[25]? = some 255 ∧
      IteratesAt (getters (.fromSchema orderSchema) legsGroup.fields) buf' 3 legsRead) ∧
    ∃ buf', HasGroup (entrySetters (.fromSchema orderSchema) legsGroup.fields) 12 3 legsEntries
        buf' ∧
      IteratesAt (getters (.fromSchema orderSchema) legsGroup.fields) buf' 3 legsRead := by
  have hg : ResolvedIn orderSchema legsGroup.fields := by
    intro f hf
    rw [legsGroup, ResolvedGroup.fields_fromGroupDef] at hf
    obtain ⟨d, -, rfl⟩ := List.mem_map.mp hf
    exact ⟨d, rfl⟩
  have hkinds : SupportedKinds (.fromSchema orderSchema) legsGroup.fields := by decide
  have hlayout : BlockSound legsGroup.fields (effectiveBlockLength legsGroup).toNat := by decide
  have hentries : ∀ values ∈ legsEntries, AcceptsAll
      (slots (generateGroupEncoder (.fromSchema orderSchema) legsGroup).setters) values := by
    intro values hv
    simp only [legsEntries, List.mem_cons, List.not_mem_nil, or_false] at hv
    rcases hv with rfl | rfl
    · exact .cons rfl (.cons trivial (.cons List.mem_cons_self .nil))
    · exact .cons rfl (.cons trivial (.cons (List.mem_cons_of_mem _ List.mem_cons_self) .nil))
  have hcount : legsEntries.length = (2 : UInt16).toNat := rfl
  obtain ⟨hwrite, hwritten, hwide⟩ := groupCodec_roundTrip hg hkinds hlayout hcount hentries 3
  obtain ⟨buf', enc, hrun⟩ := hwrite (List.replicate 30 255) (by decide)
  obtain ⟨hnone, hlength, -, hframe, hiterates⟩ := hwritten _ _ _ hrun
  have hlength' : (generateGroupEncoder (.fromSchema orderSchema) legsGroup).encodedLength enc =
      22 := hlength.trans (by decide)
  obtain ⟨hlaid, hreads⟩ := hwide 12 (by decide)
  obtain ⟨wide, hgroup, -⟩ := hlaid (List.replicate 31 0) (by decide)
  exact ⟨⟨buf', enc, hrun, hnone, hlength', hframe 25 (.inr (by rw [hlength'])), hiterates⟩,
    wide, hgroup, hreads wide hgroup⟩

end IronSbe.Codegen
