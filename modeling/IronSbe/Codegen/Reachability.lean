import IronSbe.Schema.Validation
import IronSbe.Codegen.ByteOrder
import IronSbe.Codegen.Messages

/-!
# Accessors of groups and data

Behind the fixed block of a message, and of an entry of a group, stand its groups and then
its data elements.  The generated code of a message has an accessor for each of its groups,
at a position that is a constant of the code: every group counts as its header.  There is no
accessor for data, and none at all in the code of an entry.

* `PartTakes`: the numbers of bytes that a group or a data element can take.
* `Reachable`: every accessor is there, and at the right position whatever stands before it.
* `reachable_iff`: which messages have this.
-/

namespace IronSbe.Codegen

open IronSbe.Core IronSbe.Schema List

/-! ## Parts of a message -/

/-- What can stand behind a fixed block. -/
inductive Part where
  | group (g : ResolvedGroup)
  | data (d : ResolvedVarData)

/-- The groups and the data elements of a block, in their order. -/
def partsOf (groups : List ResolvedGroup) (varData : List ResolvedVarData) : List Part :=
  groups.map .group ++ varData.map .data

mutual

/-- The part can take this number of bytes: a group its header and its entries, a data
element its length header and its contents. -/
inductive PartTakes : Part → Nat → Prop where
  | group {g : ResolvedGroup} {sizes : List Nat} : sizes.length < 2 ^ 16 →
    (∀ n ∈ sizes, EntryTakes g n) → PartTakes (.group g) (GroupHeader.encodedLength + sizes.sum)
  | data (d : ResolvedVarData) (n : Nat) : PartTakes (.data d) n

/-- An entry of the group can take this number of bytes: its fixed block and its parts. -/
inductive EntryTakes : ResolvedGroup → Nat → Prop where
  | entry {g : ResolvedGroup} {sizes : List Nat} :
    List.Forall₂ PartTakes (partsOf g.nestedGroups g.varData) sizes →
    EntryTakes g ((effectiveBlockLength g).toNat + sizes.sum)

end

/-- A message or a group entry: the length of its fixed block, its parts, and the accessors
that the generated code has for the first of them, by their offsets from the start of the
block. -/
structure Parent where
  blockLength : Nat
  parts : List Part
  encoderAccessors : List Nat
  decoderAccessors : List Nat

/-- A message. -/
def messageParent (ir : SchemaIr) (m : ResolvedMessage) : Parent where
  blockLength := m.blockLength.toNat
  parts := partsOf m.groups m.varData
  encoderAccessors := (generateEncoder ir m).groups.map Prod.fst
  decoderAccessors := (generateDecoder ir m).groups.map Prod.fst

/-- An entry of a group.  `generate_entry_encoder` and `generate_entry_decoder` have `wrap`
and the accessors of the fields. -/
def entryParent (g : ResolvedGroup) : Parent where
  blockLength := (effectiveBlockLength g).toNat
  parts := partsOf g.nestedGroups g.varData
  encoderAccessors := []
  decoderAccessors := []

/-- Every part has an accessor in the encoder and in the decoder, which is directly behind
the fixed block and the parts before it, however large these are. -/
def Parent.Reaches (p : Parent) : Prop :=
  ∀ before part after, p.parts = before ++ part :: after →
    ∀ sizes, List.Forall₂ PartTakes before sizes →
      p.encoderAccessors[before.length]? = some (p.blockLength + sizes.sum) ∧
      p.decoderAccessors[before.length]? = some (p.blockLength + sizes.sum)

/-- All parts of the message, at any depth, are reachable from their parents. -/
def Reachable (ir : SchemaIr) (m : ResolvedMessage) : Prop :=
  (messageParent ir m).Reaches ∧ ∀ g, GroupWithin m.groups g → (entryParent g).Reaches

/-! ## Sizes -/

theorem partTakes_empty (g : ResolvedGroup) : PartTakes (.group g) GroupHeader.encodedLength :=
  .group (by decide) (forall_mem_nil _)

/-- The parts can be as small as possible. -/
theorem exists_partTakes (parts : List Part) : ∃ sizes, List.Forall₂ PartTakes parts sizes := by
  induction parts with
  | nil => exact ⟨[], .nil⟩
  | cons part parts ih =>
    obtain ⟨sizes, hsizes⟩ := ih
    cases part with
    | group g => exact ⟨_ :: sizes, .cons (partTakes_empty g) hsizes⟩
    | data d => exact ⟨0 :: sizes, .cons (.data d 0) hsizes⟩

/-- A group with nothing in its entries but the fixed block. -/
structure Flat (g : ResolvedGroup) : Prop where
  nestedGroups : g.nestedGroups = []
  varData : g.varData = []

theorem Flat.entryTakes_iff {g : ResolvedGroup} (h : Flat g) {n : Nat} :
    EntryTakes g n ↔ n = (effectiveBlockLength g).toNat := by
  have hparts : partsOf g.nestedGroups g.varData = [] := by
    rw [h.nestedGroups, h.varData]
    rfl
  constructor
  · rintro ⟨hsizes⟩
    rw [hparts, forall₂_nil_left_iff] at hsizes
    rw [hsizes]
    rfl
  · rintro rfl
    have hentry : EntryTakes g ((effectiveBlockLength g).toNat + [].sum) := by
      apply EntryTakes.entry
      rw [hparts]
      exact .nil
    exact hentry

/-- The entries of a group that have no bytes take none. -/
theorem Flat.partTakes_of_empty {g : ResolvedGroup} (h : Flat g)
    (hempty : (effectiveBlockLength g).toNat = 0) {n : Nat} (hn : PartTakes (.group g) n) :
    n = GroupHeader.encodedLength := by
  cases hn with
  | @group _ sizes _ hsizes =>
    have hzero : ∀ n ∈ sizes, n = 0 :=
      fun n hmem => (h.entryTakes_iff.mp (hsizes n hmem)).trans hempty
    rw [eq_replicate_of_mem hzero]
    simp

/-- One entry makes the group larger than its header. -/
theorem Flat.partTakes_one {g : ResolvedGroup} (h : Flat g) :
    PartTakes (.group g) (GroupHeader.encodedLength + (effectiveBlockLength g).toNat) := by
  have hone : PartTakes (.group g)
      (GroupHeader.encodedLength + [(effectiveBlockLength g).toNat].sum) := by
    refine .group (by simp) fun n hn => ?_
    rw [mem_singleton.mp hn, h.entryTakes_iff]
  rwa [sum_singleton] at hone

theorem partTakes_all_empty (groups : List ResolvedGroup) :
    List.Forall₂ PartTakes (groups.map .group)
      (List.replicate groups.length GroupHeader.encodedLength) := by
  induction groups with
  | nil => exact .nil
  | cons g groups ih => exact .cons (partTakes_empty g) ih

theorem sum_of_partTakes {groups : List ResolvedGroup} {sizes : List Nat}
    (h : List.Forall₂ PartTakes (groups.map .group) sizes)
    (hheader : ∀ g ∈ groups, ∀ n, PartTakes (.group g) n → n = GroupHeader.encodedLength) :
    sizes.sum = GroupHeader.encodedLength * groups.length := by
  induction groups generalizing sizes with
  | nil =>
    obtain rfl := forall₂_nil_left_iff.mp h
    rfl
  | cons g groups ih =>
    obtain ⟨n, rest, hn, hrest, rfl⟩ := forall₂_cons_left_iff.mp h
    rw [forall_mem_cons] at hheader
    rw [sum_cons, hheader.1 n hn, ih hrest hheader.2, length_cons, Nat.mul_succ,
      Nat.add_comm]

/-! ## Accessors of a message -/

theorem getElem?_groupOffsets (start : Nat) (groups : List ResolvedGroup) (i : Nat) :
    ((groupOffsets start groups).map Prod.fst)[i]? =
      if i < groups.length then some (start + 4 * i) else none := by
  induction groups generalizing start i with
  | nil => rfl
  | cons g rest ih =>
    cases i with
    | zero => simp [groupOffsets]
    | succ i =>
      rw [groupOffsets, map_cons, getElem?_cons_succ, ih, length_cons]
      have hstart : start + 4 + 4 * i = start + 4 * (i + 1) := by omega
      simp only [hstart, Nat.add_lt_add_iff_right]

theorem getElem?_accessors (ir : SchemaIr) (m : ResolvedMessage) (i : Nat) :
    (messageParent ir m).encoderAccessors[i]? =
        (if i < m.groups.length then some (m.blockLength.toNat + 4 * i) else none) ∧
      (messageParent ir m).decoderAccessors[i]? =
        (if i < m.groups.length then some (m.blockLength.toNat + 4 * i) else none) := by
  rw [← getElem?_groupOffsets]
  constructor
  · simp [messageParent, generateEncoder, Function.comp_def]
  · simp [messageParent, generateDecoder, Function.comp_def]

/-- Each part of a message has its accessor if the parts before it take a group header each. -/
theorem reaches_message_iff (ir : SchemaIr) (m : ResolvedMessage) :
    (messageParent ir m).Reaches ↔ m.varData = [] ∧
      ∀ before g after, m.groups = before ++ g :: after →
        ∀ sizes, List.Forall₂ PartTakes (before.map .group) sizes →
          sizes.sum = GroupHeader.encodedLength * before.length := by
  constructor
  · intro h
    have hnone : m.varData = [] := by
      by_contra hne
      obtain ⟨d, rest, hd⟩ := exists_cons_of_ne_nil hne
      obtain ⟨sizes, hsizes⟩ := exists_partTakes (m.groups.map .group)
      have hreach := (h _ (.data d) (rest.map .data) (by simp [messageParent, partsOf, hd])
        sizes hsizes).1
      rw [(getElem?_accessors ir m _).1, length_map, if_neg (Nat.lt_irrefl _)] at hreach
      cases hreach
    refine ⟨hnone, fun before g after hsplit sizes hsizes => ?_⟩
    have hreach := (h (before.map .group) (.group g) (after.map .group)
      (by simp [messageParent, partsOf, hnone, hsplit]) sizes hsizes).1
    have hlt : before.length < m.groups.length := by simp [hsplit]
    rw [(getElem?_accessors ir m _).1, length_map, if_pos hlt] at hreach
    have heq := Option.some.inj hreach
    show sizes.sum = 4 * before.length
    change m.blockLength.toNat + 4 * before.length = m.blockLength.toNat + sizes.sum at heq
    omega
  · rintro ⟨hnone, hgroups⟩ before part after hsplit sizes hsizes
    have hparts : m.groups.map Part.group = before ++ part :: after := by
      rw [← hsplit]
      simp [messageParent, partsOf, hnone]
    obtain ⟨front, rest, hgroups', rfl, hrest⟩ := map_eq_append_iff.mp hparts
    obtain ⟨g, tail, rfl, -, -⟩ := map_eq_cons_iff.mp hrest
    have hsum := hgroups front g tail hgroups' sizes hsizes
    have hlt : front.length < m.groups.length := by simp [hgroups']
    rw [(getElem?_accessors ir m _).1, (getElem?_accessors ir m _).2, length_map, if_pos hlt,
      hsum]
    exact ⟨rfl, rfl⟩

/-- The code of an entry reaches its parts only if there are none. -/
theorem reaches_entry_iff (g : ResolvedGroup) : (entryParent g).Reaches ↔ Flat g := by
  constructor
  · intro h
    have hparts : partsOf g.nestedGroups g.varData = [] := by
      by_contra hne
      obtain ⟨part, rest, hpart⟩ := exists_cons_of_ne_nil hne
      have hreach := (h [] part rest hpart [] .nil).1
      cases hreach
    rw [partsOf, append_eq_nil_iff, map_eq_nil_iff, map_eq_nil_iff] at hparts
    exact ⟨hparts.1, hparts.2⟩
  · intro h before part after hsplit
    have hparts : (entryParent g).parts = [] := by
      show partsOf g.nestedGroups g.varData = []
      rw [h.nestedGroups, h.varData]
      rfl
    rw [hparts] at hsplit
    cases before <;> cases hsplit

/-! ## Reachable messages -/

/-- The entries of the group have no bytes: no block length is declared, and the fields end
at zero, or at a multiple of what fits a `u16`. -/
def EmptyBlock (g : ResolvedGroup) : Prop :=
  g.blockLength = 0 ∧ (g.fields.map ResolvedField.stop).max?.getD 0 % 2 ^ 16 = 0

theorem effectiveBlockLength_eq_zero_iff (g : ResolvedGroup) :
    (effectiveBlockLength g).toNat = 0 ↔ EmptyBlock g := by
  unfold effectiveBlockLength EmptyBlock
  split_ifs with h
  · have hpos : 0 < g.blockLength.toNat := UInt16.lt_iff_toNat_lt.mp h
    refine iff_of_false (Nat.ne_of_gt hpos) fun hzero => ?_
    rw [hzero.1] at hpos
    exact absurd hpos (by decide)
  · have hzero : g.blockLength = 0 := by
      rw [← UInt16.toNat_inj]
      have hle := mt UInt16.lt_iff_toNat_lt.mpr h
      exact Nat.eq_zero_of_not_pos hle
    rw [UInt16.toNat_ofNat']
    exact (and_iff_right hzero).symm

/-- A message is reachable exactly if it has no data, its groups have neither groups nor data
in them, and the entries of all groups but the last one have no bytes. -/
theorem reachable_iff (ir : SchemaIr) (m : ResolvedMessage) :
    Reachable ir m ↔ m.varData = [] ∧ (∀ g ∈ m.groups, Flat g) ∧
      ∀ g ∈ m.groups.dropLast, EmptyBlock g := by
  unfold Reachable
  rw [reaches_message_iff]
  simp only [reaches_entry_iff]
  constructor
  · rintro ⟨⟨hnone, hsizes⟩, hflat⟩
    refine ⟨hnone, fun g hg => hflat g (.here hg), fun g hg => ?_⟩
    -- the group behind `g`, when `g` has one entry and the groups before it have none
    obtain ⟨before, mid, hmid⟩ := append_of_mem hg
    have hne : m.groups ≠ [] := by
      rintro hnil
      rw [hnil] at hg
      cases hg
    have hsplit : m.groups = (before ++ [g]) ++ (mid ++ [m.groups.getLast hne]) := by
      rw [← append_assoc, append_assoc before, singleton_append, ← hmid,
        dropLast_append_getLast]
    obtain ⟨next, after, hnext⟩ := exists_cons_of_ne_nil
      (append_ne_nil_of_right_ne_nil mid (cons_ne_nil (m.groups.getLast hne) []))
    rw [hnext] at hsplit
    have hg' := hflat g (.here (dropLast_subset _ hg))
    have hsum := hsizes (before ++ [g]) next after hsplit _
      (by
        rw [map_append]
        exact rel_append (partTakes_all_empty before) (.cons hg'.partTakes_one .nil))
    rw [← effectiveBlockLength_eq_zero_iff]
    simp only [sum_append, sum_replicate_nat, sum_cons, sum_nil,
      length_append, length_cons, length_nil] at hsum
    rw [Nat.mul_add, Nat.mul_comm] at hsum
    omega
  · rintro ⟨hnone, hflat, hempty⟩
    refine ⟨⟨hnone, ?_⟩, ?_⟩
    · intro before g after hsplit sizes hsizes
      apply sum_of_partTakes hsizes
      intro g' hg' n hn
      have hlast : g' ∈ m.groups.dropLast := by
        rw [hsplit, dropLast_append_of_ne_nil (cons_ne_nil _ _)]
        exact mem_append_left _ hg'
      exact (hflat g' (dropLast_subset _ hlast)).partTakes_of_empty
        ((effectiveBlockLength_eq_zero_iff g').mpr (hempty g' hlast)) hn
    · intro g hg
      cases hg with
      | here hmem => exact hflat g hmem
      | @nested _ outer _ hmem hin =>
        rw [(hflat outer hmem).nestedGroups] at hin
        cases hin with
        | here hmem | nested hmem => cases hmem

/-- A message with a group, a group nested in it and a data element. -/
def nestedEvents : List Event :=
  [.start ⟨"messageSchema", [("package", "orders"), ("id", "1"), ("version", "1")]⟩,
    .start ⟨"message", [("name", "Order"), ("id", "1"), ("blockLength", "8")]⟩,
    .start ⟨"group", [("name", "legs"), ("id", "2"), ("blockLength", "4")]⟩,
    .start ⟨"group", [("name", "fills"), ("id", "3"), ("blockLength", "4")]⟩, .endTag, .endTag,
    .empty ⟨"data", [("name", "note"), ("id", "4"), ("type", "varStringEncoding")]⟩,
    .endTag, .endTag]

/-- The message has an accessor for the group `legs` only: there is none for the data element,
and none for the group `fills` in the entries of `legs`. -/
theorem not_reachable_nested :
    ∃ schema m legs fills note, parseSchema nestedEvents = .ok schema ∧
      validateSchema schema = .ok () ∧ m ∈ (SchemaIr.fromSchema schema).messages ∧
      (messageParent (.fromSchema schema) m).parts = [.group legs, .data note] ∧
      (messageParent (.fromSchema schema) m).decoderAccessors = [8] ∧
      (messageParent (.fromSchema schema) m).encoderAccessors = [8] ∧
      (entryParent legs).parts = [.group fills] ∧ (entryParent legs).decoderAccessors = [] ∧
      ¬ Reachable (.fromSchema schema) m := by
  refine ⟨_, _, _, _, _, rfl, by decide, mem_cons_self, rfl, rfl, rfl, rfl, rfl, ?_⟩
  rintro ⟨hmessage, -⟩
  have hnone := ((reaches_message_iff _ _).mp hmessage).1
  cases hnone

end IronSbe.Codegen
