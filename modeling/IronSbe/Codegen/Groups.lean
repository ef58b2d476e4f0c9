import IronSbe.Codegen.Fields

/-!
# Generated group codecs

The encoder of a group writes the group header and hands out entry encoders,
one block length apart; the decoder reads the header and iterates over entry
decoders, the block length of the header apart.

* `encodeGroup_eq`: encoding a group is a run of writes, the header and then a
  table of entries.
* `decodeGroup_eq`: decoding a group reads a table of the count and the stride
  that the header in the buffer has.
* `decodeGroup_of_heldBy`: a group decodes to the entries that were written,
  from any buffer that still holds its writes.
-/

namespace IronSbe.Codegen

open IronSbe.Core IronSbe.Schema Lib.Slice Lib.Record List

/-! ## Setting and reading all fields -/

/-- Call the setters one after the other, each with its value. -/
def setAll : List Accessor → List FieldValue → Buffer → Nat → Option Buffer
  | [], [], buf, _ => some buf
  | a :: rest, value :: values, buf, base => do
    let buf ← a.set buf base value
    setAll rest values buf base
  | _, _, _, _ => none

/-- Call the getters one after the other. -/
def getAll (accessors : List Accessor) (buf : Buffer) (base : Nat) : Option (List FieldValue) :=
  accessors.mapM fun a => a.get buf base

/-- The slots of the accessors. -/
abbrev slots (accessors : List Accessor) : List (Slot UInt8 FieldValue) :=
  accessors.map Accessor.slot

theorem slots_cons (a : Accessor) (rest : List Accessor) :
    slots (a :: rest) = a.slot :: slots rest := rfl

variable {extra getters accessors : List Accessor} {values : List FieldValue} {buf : Buffer}
  {start offset : Nat}

theorem setAll_eq_applyAll (h : AcceptsAll (slots accessors) values) (buf : Buffer) (base : Nat) :
    setAll accessors values buf base = applyAll (writes (slots accessors) base values) buf := by
  induction accessors generalizing values buf with
  | nil =>
    obtain rfl := forall₂_nil_left_iff.mp h
    rfl
  | cons a rest ih =>
    obtain ⟨value, values, hvalue, hvalues, rfl⟩ := forall₂_cons_left_iff.mp h
    rw [setAll, Accessor.set_eq_apply hvalue, slots_cons, writes, zipWith_cons_cons, applyAll]
    exact congrArg _ (funext fun next => ih hvalues next)

theorem getAll_eq_readAll (accessors : List Accessor) (buf : Buffer) (base : Nat) :
    getAll accessors buf base = readAll (slots accessors) buf base := by
  rw [getAll, readAll, mapM_map]
  simp only [Accessor.get_eq_read, Function.comp_def]

theorem getAll_drop (h : start ≤ buf.length) (accessors : List Accessor) (base : Nat) :
    getAll accessors (buf.drop start) base = getAll accessors buf (start + base) := by
  rw [getAll_eq_readAll, getAll_eq_readAll, readAll_drop h]

/-- The values as they read after they were set. -/
def normalizeAll (accessors : List Accessor) (values : List FieldValue) : List FieldValue :=
  List.zipWith (fun a v => a.view.normalize v) accessors values

section

variable (hwf : ∀ a ∈ accessors, a.view.WellFormed)
  (h : AcceptsAll (slots (accessors ++ extra)) values)
include hwf h

theorem storedAll_eq_normalizeAll :
    storedAll (slots accessors) values = normalizeAll accessors values := by
  induction accessors generalizing values with
  | nil => rfl
  | cons a rest ih =>
    obtain ⟨value, values, hvalue, hvalues, rfl⟩ := forall₂_cons_left_iff.mp h
    rw [forall_mem_cons] at hwf
    have hrest := ih hwf.2 hvalues
    rw [storedAll, normalizeAll] at hrest
    rw [slots_cons, storedAll, normalizeAll, zipWith_cons_cons, zipWith_cons_cons,
      hrest]
    exact congrArg (· :: _) (View.decode_encode hwf.1 hvalue)

/-- The first accessors of a block read as what was set, in any buffer that
holds the writes of the block. -/
theorem getAll_of_heldBy {base : Nat}
    (hbuf : ∀ w ∈ writes (slots (accessors ++ extra)) base values, w.HeldBy buf) :
    getAll accessors buf base = some (normalizeAll accessors values) := by
  rw [← storedAll_eq_normalizeAll hwf h, getAll_eq_readAll]
  rw [slots, map_append] at h hbuf
  exact readAll_of_heldBy h hbuf

end

/-! ## Encoding -/

/-- The block length of an entry: the declared one, or the end of the last
field when none is declared. -/
def effectiveBlockLength (group : ResolvedGroup) : UInt16 :=
  if group.blockLength > 0 then group.blockLength
  else .ofNat ((group.fields.map fun f => f.offset + f.encodedLength).max?.getD 0)

/-- What `MessageGenerator::generate_group_encoder` generates: the constant
and the setters of the entry encoder. -/
structure GroupEncoderCode where
  blockLength : UInt16
  setters : List Accessor

/-- The encoder that is generated for a group. -/
def generateGroupEncoder (ir : SchemaIr) (group : ResolvedGroup) : GroupEncoderCode :=
  ⟨effectiveBlockLength group, entrySetters ir group.fields⟩

/-- The generated group encoder, without its buffer. -/
structure GroupEncoder where
  count : UInt16
  index : UInt16
  offset : Nat

namespace GroupEncoderCode

/-- The generated `wrap`: write the group header. -/
def wrap (code : GroupEncoderCode) (buf : Buffer) (offset : Nat) (count : UInt16) :
    Option (Buffer × GroupEncoder) := do
  let buf ← (GroupHeader.mk code.blockLength count).encode buf offset
  return (buf, ⟨count, 0, offset + GroupHeader.encodedLength⟩)

/-- The generated `next_entry`: the offset of the entry encoder. -/
def nextEntry (code : GroupEncoderCode) (enc : GroupEncoder) : Option (Nat × GroupEncoder) :=
  if enc.count ≤ enc.index then none
  else some (enc.offset,
    { enc with offset := enc.offset + code.blockLength.toNat, index := enc.index + 1 })

/-- Ask for an entry and set all its fields, for each entry of the list. -/
def fill (code : GroupEncoderCode) :
    GroupEncoder → List (List FieldValue) → Buffer → Option Buffer
  | _, [], buf => some buf
  | enc, values :: rest, buf => do
    let (entry, enc) ← code.nextEntry enc
    let buf ← setAll code.setters values buf entry
    code.fill enc rest buf

/-- Encode a whole group at `offset`. -/
def encodeGroup (code : GroupEncoderCode) (buf : Buffer) (offset : Nat)
    (entries : List (List FieldValue)) : Option Buffer := do
  let (buf, enc) ← code.wrap buf offset (.ofNat entries.length)
  code.fill enc entries buf

/-- The writes of a group. -/
def groupWrites (code : GroupEncoderCode) (offset : Nat) (entries : List (List FieldValue)) :
    List (Write UInt8) :=
  (GroupHeader.mk code.blockLength (.ofNat entries.length)).writes offset ++
    tableWrites (slots code.setters) code.blockLength.toNat (offset + GroupHeader.encodedLength)
      entries

variable {enc : GroupEncoder} {code : GroupEncoderCode}

/-- An entry encoder is handed out while there are entries left. -/
theorem nextEntry_eq (code : GroupEncoderCode) (h : enc.index.toNat < enc.count.toNat) :
    ∃ next, code.nextEntry enc = some (enc.offset, next) ∧
      next.offset = enc.offset + code.blockLength.toNat ∧ next.count = enc.count ∧
      next.index.toNat = enc.index.toNat + 1 := by
  refine ⟨_, if_neg (fun hle => ?_), rfl, rfl, ?_⟩
  · have := UInt16.le_iff_toNat_le.mp hle
    omega
  · have hlt := enc.count.toNat_lt
    rw [UInt16.toNat_add]
    exact Nat.mod_eq_of_lt (by show enc.index.toNat + 1 < 2 ^ 16; omega)

/-- Filling the entries writes them as a table. -/
theorem fill_eq {entries : List (List FieldValue)}
    (hcount : enc.index.toNat + entries.length ≤ enc.count.toNat)
    (h : ∀ values ∈ entries, AcceptsAll (slots code.setters) values) (buf : Buffer) :
    code.fill enc entries buf =
      applyAll (tableWrites (slots code.setters) code.blockLength.toNat enc.offset entries)
        buf := by
  induction entries generalizing enc buf with
  | nil => rfl
  | cons values rest ih =>
    rw [length_cons] at hcount
    rw [forall_mem_cons] at h
    obtain ⟨next, hnext, hoffset, hc, hi⟩ := code.nextEntry_eq (show enc.index.toNat < _ by omega)
    rw [fill, hnext, tableWrites, applyAll_append, ← hoffset]
    show (setAll code.setters values buf enc.offset).bind _ = _
    rw [setAll_eq_applyAll h.1]
    exact congrArg _ (funext fun mid => ih (by rw [hi, hc]; omega) h.2 mid)

/-- Encoding a group is a run of writes. -/
theorem encodeGroup_eq {entries : List (List FieldValue)} (hcount : entries.length < 2 ^ 16)
    (h : ∀ values ∈ entries, AcceptsAll (slots code.setters) values) (buf : Buffer) (offset : Nat) :
    code.encodeGroup buf offset entries = applyAll (code.groupWrites offset entries) buf := by
  rw [encodeGroup, wrap, GroupHeader.encode_eq_applyAll, groupWrites, applyAll_append]
  simp only [bind, Option.bind_assoc]
  refine congrArg _ (funext fun mid => fill_eq ?_ h mid)
  show 0 + entries.length ≤ (UInt16.ofNat entries.length).toNat
  rw [UInt16.toNat_ofNat', Nat.mod_eq_of_lt hcount]
  omega

end GroupEncoderCode

/-! ## Decoding -/

/-- The generated entry decoder. -/
structure EntryDecoder where
  buffer : Buffer
  offset : Nat

/-- The generated group decoder. -/
structure GroupDecoder where
  buffer : Buffer
  blockLength : UInt16
  count : UInt16
  index : UInt16
  offset : Nat

namespace GroupDecoder

/-- The generated `wrap`: read the group header. -/
def wrap (buf : Buffer) (offset : Nat) : Option GroupDecoder := do
  let header ← GroupHeader.wrap buf offset
  return ⟨buf, header.blockLength, header.numInGroup, 0, offset + GroupHeader.encodedLength⟩

/-- The generated `Iterator::next`. -/
def next (d : GroupDecoder) : Option EntryDecoder × GroupDecoder :=
  if d.count ≤ d.index then (none, d)
  else (some ⟨d.buffer, d.offset⟩,
    { d with offset := d.offset + d.blockLength.toNat, index := d.index + 1 })

/-- The entries that at most `fuel` calls of `next` give. -/
def take : Nat → GroupDecoder → List EntryDecoder
  | 0, _ => []
  | fuel + 1, d =>
    match d.next with
    | (none, _) => []
    | (some entry, d) => entry :: take fuel d

/-- All entries: there are no more than `count`. -/
def entries (d : GroupDecoder) : List EntryDecoder := d.take d.count.toNat

/-- The iterator gives the entries that are left, one block length apart, and
then ends: more calls give nothing more. -/
theorem take_eq {d : GroupDecoder} {left fuel : Nat}
    (hleft : d.index.toNat + left = d.count.toNat) (hfuel : left ≤ fuel) :
    d.take fuel =
      (List.range left).map fun k => ⟨d.buffer, d.offset + k * d.blockLength.toNat⟩ := by
  induction left generalizing d fuel with
  | zero =>
    have hend : d.next = (none, d) := if_pos (UInt16.le_iff_toNat_le.mpr (by omega))
    cases fuel with
    | zero => rfl
    | succ fuel => rw [take, hend]; rfl
  | succ left ih =>
    obtain ⟨fuel, rfl⟩ : ∃ n, fuel = n + 1 := ⟨fuel - 1, by omega⟩
    have hlt := d.count.toNat_lt
    have hmore : ¬ d.count ≤ d.index := fun hle => by
      have := UInt16.le_iff_toNat_le.mp hle
      omega
    have hindex : (d.index + 1).toNat = d.index.toNat + 1 := by
      rw [UInt16.toNat_add]
      exact Nat.mod_eq_of_lt (by show d.index.toNat + 1 < 2 ^ 16; omega)
    rw [take, next, if_neg hmore, range_succ_eq_map, map_cons, map_map]
    simp only [Nat.zero_mul, Nat.add_zero, cons.injEq, true_and]
    rw [ih (by show (d.index + 1).toNat + left = d.count.toNat; omega) (by omega)]
    refine map_congr_left fun k _ => ?_
    simp only [Function.comp_apply, Nat.succ_eq_add_one, Nat.succ_mul, EntryDecoder.mk.injEq,
      true_and]
    omega

end GroupDecoder

/-- Wrap the group at `offset` and read every field of every entry. -/
def decodeGroup (getters : List Accessor) (buf : Buffer) (offset : Nat) :
    Option (List (List FieldValue)) := do
  let d ← GroupDecoder.wrap buf offset
  d.entries.mapM fun entry => getAll getters entry.buffer entry.offset

/-- Reading entries one stride apart is reading a table. -/
theorem mapM_range_eq_readTable (getters : List Accessor) (buf : Buffer) (stride base count : Nat) :
    ((List.range count).map fun k => EntryDecoder.mk buf (base + k * stride)).mapM
        (fun entry => getAll getters entry.buffer entry.offset) =
      readTable (slots getters) stride buf base count := by
  induction count generalizing base with
  | zero => rfl
  | succ count ih =>
    rw [range_succ_eq_map, map_cons, map_map, mapM_cons, readTable]
    simp only [Nat.zero_mul, Nat.add_zero, getAll_eq_readAll] at ih ⊢
    rw [← ih]
    have hshift : (fun k => EntryDecoder.mk buf (base + k * stride)) ∘ Nat.succ =
        fun k => EntryDecoder.mk buf (base + stride + k * stride) := by
      funext k
      simp only [Function.comp_apply, Nat.succ_mul, EntryDecoder.mk.injEq, true_and]
      omega
    rw [hshift]

/-- Decoding a group reads the table that the header in the buffer describes. -/
theorem decodeGroup_eq {h : GroupHeader} (hwrap : GroupHeader.wrap buf offset = some h) :
    decodeGroup getters buf offset =
      readTable (slots getters) h.blockLength.toNat buf (offset + GroupHeader.encodedLength)
        h.numInGroup.toNat := by
  rw [decodeGroup, GroupDecoder.wrap, hwrap]
  show mapM _ (GroupDecoder.entries _) = _
  rw [GroupDecoder.entries, GroupDecoder.take_eq (Nat.zero_add _) (Nat.le_refl _)]
  exact mapM_range_eq_readTable getters buf _ _ _

/-- A group decodes to as many entries as the header in the buffer counts. -/
theorem heldBy_of_decodeGroup {entries : List (List FieldValue)}
    (h : decodeGroup getters buf offset = some entries) :
    (u16Write (offset + 2) (.ofNat entries.length)).HeldBy buf := by
  have hwrap := h
  rw [decodeGroup, GroupDecoder.wrap] at hwrap
  cases hheader : GroupHeader.wrap buf offset with
  | none => simp [hheader] at hwrap
  | some header =>
    rw [decodeGroup_eq hheader] at h
    rw [length_of_readTable h, UInt16.ofNat_toNat]
    exact GroupHeader.heldBy_of_wrap hheader

theorem decodeGroup_drop (h : start ≤ buf.length) (getters : List Accessor) (offset : Nat) :
    decodeGroup getters (buf.drop start) offset = decodeGroup getters buf (start + offset) := by
  cases hheader : GroupHeader.wrap buf (start + offset) with
  | some header =>
    rw [decodeGroup_eq hheader, decodeGroup_eq ((GroupHeader.wrap_drop h offset).trans hheader),
      readTable_drop h, Nat.add_assoc]
  | none =>
    have hnone := (GroupHeader.wrap_drop h offset).trans hheader
    simp only [decodeGroup, GroupDecoder.wrap, hheader, hnone, bind, Option.bind_none]

/-- A group decodes to the entries that were written, from any buffer that
holds its writes.  The getters may be the first ones of the entry only, which
are those of an earlier version of the schema. -/
theorem decodeGroup_of_heldBy {code : GroupEncoderCode} (hcode : code.setters = getters ++ extra)
    {entries : List (List FieldValue)} (hcount : entries.length < 2 ^ 16)
    (h : ∀ values ∈ entries, AcceptsAll (slots code.setters) values)
    (hwf : ∀ a ∈ getters, a.view.WellFormed)
    (hbuf : ∀ w ∈ code.groupWrites offset entries, w.HeldBy buf) :
    decodeGroup getters buf offset = some (entries.map (normalizeAll getters)) := by
  have hheader : GroupHeader.wrap buf offset =
      some ⟨code.blockLength, .ofNat entries.length⟩ :=
    GroupHeader.wrap_of_heldBy fun w hw => hbuf w (mem_append_left _ hw)
  rw [hcode] at h
  have hslots : slots code.setters = slots getters ++ slots extra := by
    rw [hcode, slots, map_append]
  have htable : ∀ w ∈ tableWrites (slots getters ++ slots extra) code.blockLength.toNat
      (offset + GroupHeader.encodedLength) entries, w.HeldBy buf := by
    intro w hw
    rw [← hslots] at hw
    exact hbuf w (mem_append_right _ hw)
  have haccepts : ∀ values ∈ entries, AcceptsAll (slots getters ++ slots extra) values := by
    intro values hv
    rw [← map_append]
    exact h values hv
  rw [decodeGroup_eq hheader, UInt16.toNat_ofNat', Nat.mod_eq_of_lt hcount,
    readTable_of_heldBy haccepts htable]
  exact congrArg some (map_congr_left fun values hv =>
    storedAll_eq_normalizeAll hwf (h values hv))

end IronSbe.Codegen
