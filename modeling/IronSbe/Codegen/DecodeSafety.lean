import IronSbe.Codegen.MultiGroup

/-!
# Reading untrusted bytes

`SbeDecoder::decode` compares the length of the buffer with the block length in
the header.  The generated getters read at offsets of the schema, and the group
iterators go by the counts and block lengths in the group headers.

* `ReadsSafely`: no getter, no group accessor and no read of an entry field
  panics.
* `requiredLength`: the end of the furthest of those reads.
* `readsSafely_iff`: after `decode` returned `Ok`, the former holds exactly when
  the buffer has the latter.
-/

namespace IronSbe.Codegen

open IronSbe.Core IronSbe.Schema Lib.Slice Lib.Record

/-- Every getter can be called, and every group can be read to its end. -/
structure ReadsSafely (code : DecoderCode) (d : MessageDecoder) : Prop where
  getters : ∀ getter ∈ code.getters, (getter.on d).isSome = true
  groups : ∀ group ∈ code.groups, (readGroup group d).isSome = true

/-- The largest of the numbers. -/
def largest (ns : List Nat) : Nat := ns.foldr max 0

theorem largest_le_iff {ns : List Nat} {bound : Nat} :
    largest ns ≤ bound ↔ ∀ n ∈ ns, n ≤ bound := by
  induction ns with
  | nil => simp [largest]
  | cons n ns ih =>
    rw [List.forall_mem_cons, ← ih]
    exact Nat.max_le

/-- The end of the furthest accessor of a block. -/
def blockEnd (accessors : List Accessor) : Nat := largest (accessors.map fun a => a.slot.stop)

/-- The end of the furthest read of a group whose header is at `start`: that of
the last entry, as far as the header in the buffer tells. -/
def groupEnd (getters : List Accessor) (buf : Buffer) (start : Nat) : Nat :=
  match GroupHeader.wrap buf start with
  | none => start + GroupHeader.encodedLength
  | some header =>
    if header.numInGroup.toNat = 0 ∨ getters = [] then start + GroupHeader.encodedLength
    else start + GroupHeader.encodedLength +
      (header.numInGroup.toNat - 1) * header.blockLength.toNat + blockEnd getters

/-- The end of the furthest read of a message at the start of the buffer. -/
def requiredLength (code : DecoderCode) (buf : Buffer) : Nat :=
  max (MessageHeader.encodedLength + blockEnd code.getters)
    (largest (code.groups.map fun group =>
      groupEnd group.2 buf (MessageHeader.encodedLength + group.1)))

/-- All getters of a block can be called when its furthest one can. -/
theorem forall_get_isSome_iff {accessors : List Accessor} {buf : Buffer} {base : Nat}
    (hbase : base ≤ buf.length) :
    (∀ a ∈ accessors, (a.get buf base).isSome = true) ↔
      base + blockEnd accessors ≤ buf.length := by
  have hend : base + blockEnd accessors ≤ buf.length ↔ blockEnd accessors ≤ buf.length - base := by
    omega
  rw [hend, blockEnd, largest_le_iff, List.forall_mem_map]
  refine forall_congr' fun a => imp_congr_right fun _ => ?_
  rw [Accessor.get_eq_read, Slot.read_isSome_iff]
  omega

/-- A group can be read to its end when its last entry can. -/
theorem decodeGroup_isSome_iff {getters : List Accessor} {buf : Buffer} {start : Nat} :
    (decodeGroup getters buf start).isSome = true ↔ groupEnd getters buf start ≤ buf.length := by
  have hwrap : (GroupHeader.wrap buf start).isSome = true ↔ _ := GroupHeader.wrap_isSome_iff
  unfold groupEnd
  cases hheader : GroupHeader.wrap buf start with
  | none =>
    rw [hheader] at hwrap
    simp only [decodeGroup, GroupDecoder.wrap, hheader]
    exact hwrap
  | some header =>
    rw [hheader] at hwrap
    have hstart := hwrap.mp rfl
    rw [decodeGroup_eq hheader, readTable_isSome_iff]
    obtain ⟨count, hcount⟩ : ∃ n, header.numInGroup.toNat = n := ⟨_, rfl⟩
    obtain ⟨stride, hstride⟩ : ∃ n, header.blockLength.toNat = n := ⟨_, rfl⟩
    simp only [hcount, hstride]
    split_ifs with hempty
    · refine iff_of_true (fun k hk s hs => ?_) hstart
      rcases hempty with rfl | rfl
      · exact absurd hk (Nat.not_lt_zero k)
      · exact absurd hs List.not_mem_nil
    · rw [not_or] at hempty
      constructor
      · intro h
        have hlast := h (count - 1) (by omega)
        obtain ⟨a, ha⟩ := List.exists_mem_of_ne_nil _ hempty.2
        have hentry : start + GroupHeader.encodedLength + (count - 1) * stride ≤ buf.length :=
          Nat.le_trans (Nat.le_add_right _ _) (hlast a.slot (List.mem_map_of_mem ha))
        rw [← forall_get_isSome_iff hentry]
        intro b hb
        rw [Accessor.get_eq_read, Slot.read_isSome_iff]
        exact hlast b.slot (List.mem_map_of_mem hb)
      · intro h k hk s hs
        obtain ⟨a, ha, rfl⟩ := List.mem_map.mp hs
        have hstop : a.slot.stop ≤ blockEnd getters :=
          largest_le_iff.mp (Nat.le_refl _) _ (List.mem_map_of_mem ha)
        have hle : k * stride ≤ (count - 1) * stride := Nat.mul_le_mul_right stride (by omega)
        omega

/-- After `decode` returned `Ok`, nothing panics exactly when the buffer reaches
to the end of the furthest read. -/
theorem readsSafely_iff (ir : SchemaIr) (m : ResolvedMessage) {buf : Buffer} {d : MessageDecoder}
    (h : SbeDecoder.decode (generateDecoder ir m).templateId (generateDecoder ir m).schemaId buf =
      some (.ok d)) :
    ReadsSafely (generateDecoder ir m) d ↔
      requiredLength (generateDecoder ir m) buf ≤ buf.length := by
  obtain ⟨header, -, -, -, hlen, rfl⟩ := SbeDecoder.decode_eq_ok_iff.mp h
  have hbase : MessageHeader.encodedLength ≤ buf.length := by omega
  rw [requiredLength, Nat.max_le, largest_le_iff, List.forall_mem_map]
  constructor
  · rintro ⟨hgetters, hgroups⟩
    refine ⟨(forall_get_isSome_iff hbase).mp hgetters, fun group hgroup => ?_⟩
    exact decodeGroup_isSome_iff.mp (hgroups group hgroup)
  · rintro ⟨hgetters, hgroups⟩
    refine ⟨(forall_get_isSome_iff hbase).mpr hgetters, fun group hgroup => ?_⟩
    exact decodeGroup_isSome_iff.mpr (hgroups group hgroup)

/-- A header that names an empty block is enough for `decode`, but not for the
getters: the sequence number of a `Quotes` message is not there. -/
theorem not_readsSafely_emptyBlock :
    BlockSound quotesMessage.fields quotesMessage.blockLength.toNat ∧
      SbeDecoder.decode (generateDecoder (.fromSchema quotesSchema) quotesMessage).templateId
        (generateDecoder (.fromSchema quotesSchema) quotesMessage).schemaId
        [0, 0, 2, 0, 4, 0, 1, 0] = some (.ok ⟨[0, 0, 2, 0, 4, 0, 1, 0], 8, 1⟩) ∧
      ¬ ReadsSafely (generateDecoder (.fromSchema quotesSchema) quotesMessage)
        ⟨[0, 0, 2, 0, 4, 0, 1, 0], 8, 1⟩ := by
  refine ⟨by decide, by decide, fun hsafe => ?_⟩
  exact absurd (hsafe.getters ⟨0, .scalar (some .uint32)⟩ (by decide)) (by decide)

/-- A `Quotes` message of one bid and no asks, in exactly the bytes it takes. -/
def oneBid : Buffer := [4, 0, 2, 0, 4, 0, 1, 0, 1, 0, 0, 0, 4, 0, 1, 0, 0, 0, 0, 0]

theorem readsSafely_oneBid :
    ReadsSafely (generateDecoder (.fromSchema quotesSchema) quotesMessage) ⟨oneBid, 8, 1⟩ := by
  have hdecode : SbeDecoder.decode 2 4 oneBid = some (.ok ⟨oneBid, 8, 1⟩) := by decide
  exact (readsSafely_iff (.fromSchema quotesSchema) quotesMessage hdecode).mpr (by decide)

end IronSbe.Codegen
