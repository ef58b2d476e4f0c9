import IronSbe.Codegen.Messages

/-!
# Encoding a whole message

A client encodes a message by setting all root fields and then, group by group,
calling `<group>_count` and filling the entries.

* `EncoderCode.encode_eq`: the whole is a run of writes.
* `MessageLayout`, `MessageKinds`: the messages that the codec is made for.
* `Codable.encode_eq_some`: such a message is encoded into every buffer
  that is large enough.
* `Codable.pairwise_messageWrites`: its writes are clear of each other if
  those of its groups are.
-/

namespace IronSbe.Codegen

open IronSbe.Core IronSbe.Schema Lib.Slice Lib.Record List

/-- The values of a message: those of the root block, and of every entry of
every group. -/
structure MessageValue where
  root : List FieldValue
  groups : List (List (List FieldValue))
  deriving DecidableEq, Repr

/-- Call `<group>_count` and fill the entries, group by group. -/
def encodeGroups : List (Nat × GroupEncoderCode) → List (List (List FieldValue)) → Buffer → Nat →
    Option Buffer
  | [], [], buf, _ => some buf
  | (groupOffset, code) :: rest, entries :: values, buf, offset => do
    let buf ← code.encodeGroup buf (offset + MessageHeader.encodedLength + groupOffset) entries
    encodeGroups rest values buf offset
  | _, _, _, _ => none

/-- Encode a whole message at `offset`. -/
def EncoderCode.encode (code : EncoderCode) (value : MessageValue) (buf : Buffer) (offset : Nat) :
    Option Buffer := do
  let buf ← code.wrap buf offset
  let buf ← setAll code.setters value.root buf offset
  encodeGroups code.groups value.groups buf offset

/-- Call a group accessor of the decoder and read all its entries. -/
def readGroup (group : Nat × List Accessor) (d : MessageDecoder) :
    Option (List (List FieldValue)) :=
  decodeGroup group.2 d.buffer (d.offset + group.1)

/-- The entries fit the group: no more than a `u16` counts, each with a value
for every setter. -/
def GroupEncoderCode.Fits (code : GroupEncoderCode) (entries : List (List FieldValue)) : Prop :=
  entries.length < 2 ^ 16 ∧ ∀ values ∈ entries, AcceptsAll (slots code.setters) values

/-- The values fit the message. -/
structure EncoderCode.Fits (code : EncoderCode) (value : MessageValue) : Prop where
  root : AcceptsAll (slots code.setters) value.root
  groups : List.Forall₂ (fun group entries => group.2.Fits entries) code.groups value.groups

/-- The bytes that a message with these numbers of entries is meant to take. -/
def EncoderCode.encodedSize (code : EncoderCode) (counts : List Nat) : Nat :=
  MessageHeader.encodedLength + code.blockLength.toNat +
    (List.zipWith (fun group n => GroupHeader.encodedLength + n * group.2.blockLength.toNat)
      code.groups counts).sum

/-! ## The writes of a message -/

/-- The writes of the groups, behind a block that starts at `base`. -/
def groupsWrites : List (Nat × GroupEncoderCode) → List (List (List FieldValue)) → Nat →
    List (Write UInt8)
  | (groupOffset, code) :: rest, entries :: values, base =>
    code.groupWrites (base + groupOffset) entries ++ groupsWrites rest values base
  | _, _, _ => []

theorem encodeGroups_eq {groups : List (Nat × GroupEncoderCode)}
    {values : List (List (List FieldValue))}
    (h : List.Forall₂ (fun group entries => group.2.Fits entries) groups values) (buf : Buffer)
    (offset : Nat) :
    encodeGroups groups values buf offset =
      applyAll (groupsWrites groups values (offset + MessageHeader.encodedLength)) buf := by
  induction h generalizing buf with
  | nil => rfl
  | @cons group entries groups values hfits _ ih =>
    rw [encodeGroups, groupsWrites, applyAll_append,
      GroupEncoderCode.encodeGroup_eq hfits.1 hfits.2]
    exact congrArg _ (funext fun mid => ih mid)

/-- The writes of a message: the header, the root block, the groups. -/
def EncoderCode.messageWrites (code : EncoderCode) (value : MessageValue) (offset : Nat) :
    List (Write UInt8) :=
  code.header.writes offset ++ (writes (slots code.setters) offset value.root ++
    groupsWrites code.groups value.groups (offset + MessageHeader.encodedLength))

/-- Encoding a message is a run of writes. -/
theorem EncoderCode.encode_eq {code : EncoderCode} {value : MessageValue} (h : code.Fits value)
    (buf : Buffer) (offset : Nat) :
    code.encode value buf offset = applyAll (code.messageWrites value offset) buf := by
  rw [encode, wrap, MessageHeader.encode_eq_applyAll, messageWrites, applyAll_append]
  refine congrArg _ (funext fun mid => ?_)
  rw [applyAll_append, setAll_eq_applyAll h.root]
  exact congrArg _ (funext fun next => encodeGroups_eq h.groups next offset)

/-! ## Where the groups write -/

/-- The offsets of the groups go up by the size of a group header. -/
def Consecutive : Nat → List (Nat × GroupEncoderCode) → Prop
  | _, [] => True
  | groupOffset, group :: rest =>
    group.1 = groupOffset ∧ Consecutive (groupOffset + GroupHeader.encodedLength) rest

theorem consecutive_groups (ir : SchemaIr) (m : ResolvedMessage) :
    Consecutive m.blockLength.toNat (generateEncoder ir m).groups := by
  have hgen : ∀ (groups : List ResolvedGroup) (groupOffset : Nat),
      Consecutive groupOffset ((groupOffsets groupOffset groups).map fun p =>
        (p.1, generateGroupEncoder ir p.2)) := by
    intro groups
    induction groups with
    | nil => exact fun _ => trivial
    | cons group rest ih => exact fun _ => ⟨rfl, ih _⟩
  exact hgen m.groups _

section Writes

variable {groups : List (Nat × GroupEncoderCode)} {values : List (List (List FieldValue))}
  {base : Nat}

/-- A write of the groups is a write of one of them. -/
theorem mem_groupsWrites {w : Write UInt8} (hw : w ∈ groupsWrites groups values base) :
    ∃ p ∈ groups.zip values, w ∈ p.1.2.groupWrites (base + p.1.1) p.2 := by
  induction groups generalizing values with
  | nil => exact absurd hw not_mem_nil
  | cons group rest ih =>
    cases values with
    | nil => exact absurd hw not_mem_nil
    | cons entries values =>
      rcases mem_append.mp hw with hw | hw
      · exact ⟨(group, entries), mem_cons_self, hw⟩
      · obtain ⟨p, hp, hw⟩ := ih hw
        exact ⟨p, mem_cons_of_mem _ hp, hw⟩

theorem fits_of_mem_zip
    (h : List.Forall₂ (fun group entries => group.2.Fits entries) groups values)
    {p : (Nat × GroupEncoderCode) × List (List FieldValue)} (hp : p ∈ groups.zip values) :
    p.1.2.Fits p.2 :=
  forall₂_zip h hp

/-- The groups write between the first group offset and the size of the
message. -/
theorem groupsWrites_within {groupOffset : Nat} (hcons : Consecutive groupOffset groups)
    (hlaid : ∀ g ∈ groups, Laid g.2.setters g.2.blockLength.toNat)
    (hfits : List.Forall₂ (fun group entries => group.2.Fits entries) groups values)
    {w : Write UInt8} (hw : w ∈ groupsWrites groups values base) :
    base + groupOffset ≤ w.start ∧
      w.stop ≤ base + groupOffset +
        (List.zipWith (fun group n => GroupHeader.encodedLength + n * group.2.blockLength.toNat)
          groups (values.map List.length)).sum := by
  induction hfits generalizing groupOffset with
  | nil => exact absurd hw not_mem_nil
  | @cons group entries groups values hgroup _ ih =>
    rw [forall_mem_cons] at hlaid
    rw [map_cons, zipWith_cons_cons, sum_cons]
    obtain ⟨rfl, hrest⟩ := hcons
    rcases mem_append.mp hw with hw | hw
    · rcases mem_append.mp hw with hw | hw
      · have := GroupHeader.mem_writes hw
        omega
      · have := tableWrites_within hlaid.1.within hgroup.2 hw
        omega
    · have := ih hrest hlaid.2 hw
      omega

/-- The writes of one group are clear of each other. -/
theorem pairwise_groupWrites {code : GroupEncoderCode} {entries : List (List FieldValue)}
    (hlaid : Laid code.setters code.blockLength.toNat) (hfits : code.Fits entries) (offset : Nat) :
    (code.groupWrites offset entries).Pairwise Write.Clear := by
  refine pairwise_append.mpr ⟨GroupHeader.pairwise_writes _ _,
    pairwise_tableWrites hlaid.disjoint hlaid.within hfits.2, fun w hw v hv => apart_of_le ?_⟩
  exact Nat.le_trans (GroupHeader.mem_writes hw).2 (tableWrites_within hlaid.within hfits.2 hv).1

/-- The writes of a group are among those of all groups. -/
theorem groupWrites_subset {i : Nat} {group : Nat × GroupEncoderCode}
    {entries : List (List FieldValue)} (hgroup : groups[i]? = some group)
    (hentries : values[i]? = some entries) :
    group.2.groupWrites (base + group.1) entries ⊆ groupsWrites groups values base := by
  induction groups generalizing values i with
  | nil => simp at hgroup
  | cons first rest ih =>
    cases values with
    | nil => simp at hentries
    | cons head tail =>
      intro w hw
      cases i with
      | zero =>
        cases hgroup
        cases hentries
        exact mem_append_left _ hw
      | succ i => exact mem_append_right _ (ih hgroup hentries hw)

end Writes

/-! ## Messages with a layout -/

section Message

variable {schema : Schema} {m : ResolvedMessage}

theorem mem_groupOffsets {groupOffset : Nat} {groups : List ResolvedGroup}
    {p : Nat × ResolvedGroup} (h : p ∈ groupOffsets groupOffset groups) : p.2 ∈ groups := by
  induction groups generalizing groupOffset with
  | nil => exact absurd h not_mem_nil
  | cons group rest ih =>
    rcases mem_cons.mp h with rfl | h
    · exact mem_cons_self
    · exact mem_cons_of_mem _ (ih h)

/-- A message of the schema, with fields that are disjoint and inside their blocks. -/
structure MessageLayout (schema : Schema) (m : ResolvedMessage) : Prop where
  mem : m ∈ (SchemaIr.fromSchema schema).messages
  root : BlockSound m.fields m.blockLength.toNat
  groups : ∀ g ∈ m.groups, BlockSound g.fields (effectiveBlockLength g).toNat

/-- The fields of the message and of its groups are of supported kinds. -/
structure MessageKinds (ir : SchemaIr) (m : ResolvedMessage) : Prop where
  root : SupportedKinds ir m.fields
  groups : ∀ g ∈ m.groups, SupportedKinds ir g.fields

/-- A message that the codec is made for. -/
structure Codable (schema : Schema) (m : ResolvedMessage) : Prop where
  layout : MessageLayout schema m
  kinds : MessageKinds (.fromSchema schema) m

theorem Codable.group_resolvedIn (h : Codable schema m) {g : ResolvedGroup}
    (hg : g ∈ m.groups) : ResolvedIn schema g.fields :=
  fun _ hf => SchemaIr.field_of_mem h.layout.mem (.inr ⟨g, hg, hf⟩)

theorem Codable.groups_laid (h : Codable schema m) :
    ∀ g ∈ (generateEncoder (.fromSchema schema) m).groups,
      Laid g.2.setters g.2.blockLength.toNat := by
  intro g hg
  obtain ⟨⟨offset, group⟩, hmem, rfl⟩ := mem_map.mp hg
  have hgroup := mem_groupOffsets hmem
  have hkinds := h.kinds.groups group hgroup
  show Laid (entrySetters _ group.fields) _
  rw [hkinds.entrySetters_eq (h.group_resolvedIn hgroup)]
  exact hkinds.laid (h.group_resolvedIn hgroup) (h.layout.groups group hgroup)

/-- The decoder has the groups of the encoder, at the same offsets. -/
theorem Codable.decoder_groups (h : Codable schema m) :
    (generateDecoder (.fromSchema schema) m).groups =
      (generateEncoder (.fromSchema schema) m).groups.map fun g => (g.1, g.2.setters) := by
  rw [generateDecoder, generateEncoder, map_map]
  refine map_congr_left fun p hp => ?_
  have hgroup := mem_groupOffsets hp
  show (p.1, _) = (p.1, entrySetters _ p.2.fields)
  rw [(h.kinds.groups _ hgroup).entrySetters_eq (h.group_resolvedIn hgroup)]

/-- Setting the root fields writes the record of the getters, behind the
header. -/
theorem writes_shift (accessors : List Accessor) (n base : Nat) (values : List FieldValue) :
    writes (slots (accessors.map (.shift n))) base values =
      writes (slots accessors) (base + n) values := by
  rw [writes, writes, slots, slots, map_map, zipWith_map_left, zipWith_map_left]
  congr 1
  funext a v
  show (⟨base + (n + a.offset), _⟩ : Write UInt8) = ⟨base + n + a.offset, _⟩
  rw [Nat.add_assoc]
  rfl

theorem Codable.root_laid (h : Codable schema m) :
    Laid (getters (.fromSchema schema) m.fields) m.blockLength.toNat :=
  h.kinds.root.laid (fields_resolvedIn h.layout.mem) h.layout.root

theorem Codable.root_writes (h : Codable schema m) (offset : Nat)
    (root : List FieldValue) :
    writes (slots (generateEncoder (.fromSchema schema) m).setters) offset root =
      writes (slots (getters (.fromSchema schema) m.fields))
        (offset + MessageHeader.encodedLength) root := by
  rw [setters_eq_getters h.layout.mem h.kinds.root, writes_shift]

theorem Codable.root_accepts (h : Codable schema m) {root : List FieldValue}
    (hroot : AcceptsAll (slots (generateEncoder (.fromSchema schema) m).setters) root) :
    AcceptsAll (slots (getters (.fromSchema schema) m.fields)) root := by
  rw [setters_eq_getters h.layout.mem h.kinds.root, slots, map_map] at hroot
  rw [AcceptsAll, forall₂_map_left_iff] at hroot ⊢
  exact hroot

section Fits

variable {value : MessageValue} {offset : Nat}

section

variable (h : Codable schema m) (hfits : (generateEncoder (.fromSchema schema) m).Fits value)
include h hfits

/-- The root block is written between the header and the groups. -/
theorem Codable.root_within {w : Write UInt8}
    (hw : w ∈ writes (slots (generateEncoder (.fromSchema schema) m).setters) offset value.root) :
    offset + MessageHeader.encodedLength ≤ w.start ∧
      w.stop ≤ offset + MessageHeader.encodedLength + m.blockLength.toNat := by
  rw [h.root_writes] at hw
  obtain ⟨s, hs, v, hv, rfl⟩ := mem_writes (h.root_accepts hfits.root) hw
  have hstop := h.root_laid.within s hs
  rw [Slot.stop_write hv, Slot.start_write]
  omega

/-- The groups are written between the root block and the size of the message. -/
theorem Codable.groups_within {w : Write UInt8}
    (hw : w ∈ groupsWrites (generateEncoder (.fromSchema schema) m).groups value.groups
      (offset + MessageHeader.encodedLength)) :
    offset + MessageHeader.encodedLength + m.blockLength.toNat ≤ w.start ∧
      w.stop ≤ offset + (generateEncoder (.fromSchema schema) m).encodedSize
        (value.groups.map List.length) := by
  have hwithin := groupsWrites_within (consecutive_groups _ m) h.groups_laid hfits.groups hw
  have hblock : (generateEncoder (.fromSchema schema) m).blockLength = m.blockLength := rfl
  rw [EncoderCode.encodedSize, hblock]
  omega

/-- A message that fits a buffer is encoded. -/
theorem Codable.encode_eq_some {buf : Buffer}
    (hbuf : offset + (generateEncoder (.fromSchema schema) m).encodedSize
      (value.groups.map List.length) ≤ buf.length) :
    ∃ buf', (generateEncoder (.fromSchema schema) m).encode value buf offset = some buf' ∧
      applyAll ((generateEncoder (.fromSchema schema) m).messageWrites value offset) buf =
        some buf' ∧ buf'.length = buf.length := by
  have hblock : (generateEncoder (.fromSchema schema) m).blockLength = m.blockLength := rfl
  have hsize := hbuf
  rw [EncoderCode.encodedSize, hblock] at hsize
  have hwithin : ∀ w ∈ (generateEncoder (.fromSchema schema) m).messageWrites value offset,
      w.stop ≤ buf.length := by
    intro w hw
    rcases mem_append.mp hw with hw | hw
    · have := MessageHeader.mem_writes hw
      omega
    rcases mem_append.mp hw with hw | hw
    · have := h.root_within hfits hw
      omega
    · exact Nat.le_trans (h.groups_within hfits hw).2 hbuf
  obtain ⟨buf', hrun, hlen⟩ := applyAll_eq_some hwithin
  exact ⟨buf', by rw [EncoderCode.encode_eq hfits, hrun], hrun, hlen⟩

/-- The header, the root block and the groups are clear of each other. -/
theorem Codable.pairwise_messageWrites
    (hgroups : (groupsWrites (generateEncoder (.fromSchema schema) m).groups value.groups
      (offset + MessageHeader.encodedLength)).Pairwise Write.Clear) :
    ((generateEncoder (.fromSchema schema) m).messageWrites value offset).Pairwise
      Write.Clear := by
  have hroot : (writes (slots (generateEncoder (.fromSchema schema) m).setters) offset
      value.root).Pairwise Write.Clear := by
    rw [h.root_writes]
    exact pairwise_writes h.root_laid.disjoint (h.root_accepts hfits.root)
  refine pairwise_append.mpr ⟨MessageHeader.pairwise_writes _ _,
    pairwise_append.mpr ⟨hroot, hgroups, fun w hw v hv => apart_of_le ?_⟩,
    fun w hw v hv => apart_of_le ?_⟩
  · exact Nat.le_trans (h.root_within hfits hw).2 (h.groups_within hfits hv).1
  · refine Nat.le_trans (MessageHeader.mem_writes hw).2 ?_
    rcases mem_append.mp hv with hv | hv
    · exact (h.root_within hfits hv).1
    · exact Nat.le_trans (Nat.le_add_right _ _) (h.groups_within hfits hv).1

end

end Fits

end Message

end IronSbe.Codegen
