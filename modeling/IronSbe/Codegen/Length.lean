import Mathlib.Order.Bounds.Basic
import IronSbe.Codegen.DecodeSafety
import IronSbe.Codegen.Evolution

/-!
# The encoded length of a message

`encoded_length` of a generated message encoder or decoder is the length of the header and
of the root block, whatever the groups have.  A caller who sends that many bytes expects
them to be the message.

* `EncoderCode.EndsAt`: where the last byte is that encoding writes.
* `LengthCovers`: the encoded length ends there, and the bytes up to it decode to the
  message.
* `lengthCovers_iff`: it does for the messages without groups whose root block is filled to
  its end.
-/

namespace IronSbe.Codegen

open IronSbe.Core IronSbe.Schema Lib.Slice Lib.Record List MessageHeader

/-- The generated `encoded_length` of a message encoder. -/
def EncoderCode.encodedLength (code : EncoderCode) : Nat :=
  MessageHeader.encodedLength + code.blockLength.toNat

/-- The generated `SbeDecoder::encoded_length`, which does not look at the message. -/
def DecoderCode.encodedLength (code : DecoderCode) (_ : MessageDecoder) : Nat :=
  MessageHeader.encodedLength + code.blockLength.toNat

/-- Read all root fields and all entries of all groups. -/
def DecoderCode.readMessage (code : DecoderCode) (d : MessageDecoder) : Option MessageValue := do
  let root ← getAll code.getters d.buffer d.offset
  let groups ← code.groups.mapM fun group => readGroup group d
  return ⟨root, groups⟩

/-- The last byte that encoding the value writes into a buffer of `size` bytes is the one
in front of `stop`.  A byte is written if it does not depend on the buffer. -/
def EncoderCode.EndsAt (code : EncoderCode) (value : MessageValue) (offset size stop : Nat) :
    Prop :=
  ∃ last, IsGreatest {i | Determines (fun buf => code.encode value buf offset) size i} last ∧
    stop = last + 1

/-- The bytes of a message at `offset`, as many as the encoder says. -/
def EncoderCode.copy (code : EncoderCode) (buf : Buffer) (offset : Nat) : Buffer :=
  (buf.drop offset).take code.encodedLength

/-- The encoded length of the value that was encoded at `offset` ends with the last byte
written, and a copy of that length decodes to the message that the whole buffer has. -/
structure LengthCovers (ir : SchemaIr) (m : ResolvedMessage) (value : MessageValue)
    (offset : Nat) (buf : Buffer) : Prop where
  encoder : (generateEncoder ir m).EndsAt value offset buf.length
    (offset + (generateEncoder ir m).encodedLength)
  decoder : ∀ version, (generateEncoder ir m).EndsAt value offset buf.length
    (offset + (generateDecoder ir m).encodedLength
      (.wrap buf (offset + MessageHeader.encodedLength) version))
  copy : ∃ d read,
    SbeDecoder.decode (generateDecoder ir m).templateId (generateDecoder ir m).schemaId
      ((generateEncoder ir m).copy buf offset) = some (.ok d) ∧
    (generateDecoder ir m).readMessage d = some read ∧
    (generateDecoder ir m).readMessage
      (.wrap buf (offset + MessageHeader.encodedLength) d.actingVersion) = some read

/-! ## The last byte written -/

/-- The end of the furthest byte of the root block that a setter writes. -/
def rootEnd (ir : SchemaIr) (m : ResolvedMessage) : Nat :=
  blockEnd ((entrySetters ir m.fields).filter fun a => 0 < a.view.width)

/-- The largest of the numbers is one of them. -/
theorem largest_mem {ns : List Nat} (h : largest ns ≠ 0) : largest ns ∈ ns := by
  induction ns with
  | nil => exact absurd rfl h
  | cons n ns ih =>
    have hcons : largest (n :: ns) = max n (largest ns) := rfl
    rw [hcons] at h ⊢
    rcases Nat.le_total (largest ns) n with hle | hle
    · rw [Nat.max_eq_left hle]
      exact mem_cons_self
    · rw [Nat.max_eq_right hle] at h ⊢
      exact mem_cons_of_mem n (ih h)

section NoGroup

variable {ir : SchemaIr} {m : ResolvedMessage}

theorem encoder_groups_eq_nil (hgroups : m.groups = []) : (generateEncoder ir m).groups = [] := by
  rw [generateEncoder, hgroups]
  rfl

theorem decoder_groups_eq_nil (hgroups : m.groups = []) : (generateDecoder ir m).groups = [] := by
  rw [generateDecoder, hgroups]
  rfl

end NoGroup

section Written

variable {ir : SchemaIr} {m : ResolvedMessage} {value : MessageValue} {offset : Nat}
  {buf buf' : Buffer}

variable {code : EncoderCode} {i stop : Nat} {w : Write UInt8}

/-- The bytes written are those that a write of the message covers. -/
theorem determines_encode_iff (hfits : code.Fits value)
    (h : code.encode value buf offset = some buf') :
    Determines (fun buf => code.encode value buf offset) buf'.length i ↔
      ∃ w ∈ code.messageWrites value offset, w.Covers i := by
  have hencode : (fun buf => code.encode value buf offset) =
      applyAll (code.messageWrites value offset) :=
    funext fun buf => EncoderCode.encode_eq hfits buf offset
  have : Nontrivial UInt8 := ⟨0, 1, by decide⟩
  rw [EncoderCode.encode_eq hfits] at h
  rw [hencode, length_of_applyAll h]
  exact determines_applyAll_iff h

/-- The encoder ends where a write ends that no other goes beyond. -/
theorem endsAt_iff (hfits : code.Fits value) (h : code.encode value buf offset = some buf') :
    code.EndsAt value offset buf'.length stop ↔
      (∀ w ∈ code.messageWrites value offset, ∀ i, w.Covers i → i < stop) ∧
        ∃ i, stop = i + 1 ∧ ∃ w ∈ code.messageWrites value offset, w.Covers i := by
  constructor
  · rintro ⟨last, ⟨hmem, hupper⟩, rfl⟩
    refine ⟨fun w hw i hi => ?_, last, rfl, (determines_encode_iff hfits h).mp hmem⟩
    exact Nat.lt_succ_of_le (hupper ((determines_encode_iff hfits h).mpr ⟨w, hw, hi⟩))
  · rintro ⟨hupper, last, rfl, hcovers⟩
    refine ⟨last, ⟨(determines_encode_iff hfits h).mpr hcovers, fun i hi => ?_⟩, rfl⟩
    obtain ⟨w, hw, hi⟩ := (determines_encode_iff hfits h).mp hi
    exact Nat.le_of_lt_succ (hupper w hw i hi)

theorem EncoderCode.EndsAt.unique {size stop' : Nat} (h : code.EndsAt value offset size stop)
    (h' : code.EndsAt value offset size stop') :
    stop = stop' := by
  obtain ⟨last, hlast, rfl⟩ := h
  obtain ⟨last', hlast', rfl⟩ := h'
  rw [hlast.unique hlast']

/-- The header of the first group is written behind the encoded length. -/
theorem groups_eq_nil_of_endsAt (hfits : (generateEncoder ir m).Fits value)
    (h : (generateEncoder ir m).encode value buf offset = some buf')
    (hend : (generateEncoder ir m).EndsAt value offset buf'.length
      (offset + (generateEncoder ir m).encodedLength)) : m.groups = [] := by
  cases hgroups : m.groups with
  | nil => rfl
  | cons g rest =>
    obtain ⟨tail, hcode⟩ : ∃ tail, (generateEncoder ir m).groups =
        (m.blockLength.toNat, generateGroupEncoder ir g) :: tail := by
      rw [generateEncoder, hgroups]
      exact ⟨_, rfl⟩
    have hvalues := hfits.groups
    rw [hcode] at hvalues
    obtain ⟨entries, values, -, -, hvalue⟩ := forall₂_cons_left_iff.mp hvalues
    have hmem : u16Write (offset + encodedLength + m.blockLength.toNat + 2)
        (.ofNat entries.length) ∈ (generateEncoder ir m).messageWrites value offset := by
      refine mem_append_right _ (mem_append_right _ ?_)
      rw [hcode, hvalue, groupsWrites]
      exact mem_append_left _ (mem_append_left _ (by simp [GroupHeader.writes]))
    have hlt := ((endsAt_iff hfits h).mp hend).1 _ hmem
      (offset + encodedLength + m.blockLength.toNat + 2)
      ⟨Nat.le_refl _, by rw [u16Write_stop]; omega⟩
    have hlength : (generateEncoder ir m).encodedLength =
        encodedLength + m.blockLength.toNat := rfl
    omega

theorem Accessor.stop_shift (a : Accessor) (n : Nat) : (a.shift n).slot.stop = n + a.slot.stop :=
  Nat.add_assoc _ _ _

section

variable (hfits : (generateEncoder ir m).Fits value)
include hfits

/-- The writes behind the header of a message without groups are those of the setters. -/
theorem exists_setter_of_mem (hgroups : m.groups = [])
    (hw : w ∈ writes (slots (generateEncoder ir m).setters) offset value.root ++
      groupsWrites (generateEncoder ir m).groups value.groups
        (offset + MessageHeader.encodedLength)) :
    ∃ a ∈ entrySetters ir m.fields,
      w.start = offset + (MessageHeader.encodedLength + a.offset) ∧
      w.stop = offset + (MessageHeader.encodedLength + a.slot.stop) := by
  rcases mem_append.mp hw with hw | hw
  · obtain ⟨s, hs, v, hv, rfl⟩ := mem_writes hfits.root hw
    rw [generateEncoder, setters_eq, slots, map_map] at hs
    obtain ⟨a, ha, rfl⟩ := mem_map.mp hs
    refine ⟨a, ha, rfl, ?_⟩
    rw [Slot.stop_write hv, Function.comp_apply, Accessor.stop_shift]
  · rw [encoder_groups_eq_nil hgroups] at hw
    exact absurd hw not_mem_nil

theorem lt_rootEnd_of_covers (hgroups : m.groups = [])
    (hw : w ∈ (generateEncoder ir m).messageWrites value offset) (hi : w.Covers i) :
    i < offset + (MessageHeader.encodedLength + rootEnd ir m) := by
  have hstart : w.start ≤ i := hi.1
  have hstop : i < w.stop := hi.2
  rcases mem_append.mp hw with hw | hw
  · have := (mem_writes hw).2
    omega
  · obtain ⟨a, ha, hwstart, hwstop⟩ := exists_setter_of_mem hfits hgroups hw
    have hwidth : 0 < a.view.width := by
      rw [Accessor.stop_slot] at hwstop
      omega
    have hle : a.slot.stop ≤ rootEnd ir m :=
      largest_le_iff.mp (Nat.le_refl _) _
        (mem_map_of_mem (mem_filter.mpr ⟨ha, decide_eq_true hwidth⟩))
    omega

/-- A byte of the furthest field is written, and one of the header if there is no field. -/
theorem exists_covers_rootEnd :
    ∃ i, offset + (MessageHeader.encodedLength + rootEnd ir m) = i + 1 ∧
      ∃ w ∈ (generateEncoder ir m).messageWrites value offset, w.Covers i := by
  have hlen : encodedLength = 8 := rfl
  by_cases hzero : rootEnd ir m = 0
  · refine ⟨offset + 7, by omega, u16Write (offset + 6) (generateEncoder ir m).schemaVersion,
      mem_append_left _ (by simp [MessageHeader.writes, EncoderCode.header]), ?_, ?_⟩
    · rw [u16Write_start]
      omega
    · rw [u16Write_stop]
      omega
  · obtain ⟨a, ha, hstop⟩ := mem_map.mp (largest_mem hzero)
    obtain ⟨ha, hwidth⟩ := mem_filter.mp ha
    rw [decide_eq_true_iff] at hwidth
    have hend : a.slot.stop = rootEnd ir m := hstop
    rw [← hend]
    have hs : (a.shift encodedLength).slot ∈
        slots (generateEncoder ir m).setters := by
      rw [generateEncoder, setters_eq]
      exact mem_map_of_mem (mem_map_of_mem ha)
    obtain ⟨v, hv, hmem⟩ := exists_mem_writes offset hfits.root hs
    have hslot := a.stop_slot
    refine ⟨offset + (encodedLength + a.slot.stop) - 1, by omega, _,
      mem_append_right _ (mem_append_left _ hmem), ?_, ?_⟩
    · show offset + (encodedLength + a.offset) ≤ _
      omega
    · rw [Slot.stop_write hv, Accessor.stop_shift]
      omega

/-- Without groups the last byte written is that of the furthest field, or of the header. -/
theorem endsAt_iff_rootEnd (h : (generateEncoder ir m).encode value buf offset = some buf')
    (hgroups : m.groups = []) :
    (generateEncoder ir m).EndsAt value offset buf'.length stop ↔
      stop = offset + (MessageHeader.encodedLength + rootEnd ir m) := by
  have hend : (generateEncoder ir m).EndsAt value offset buf'.length
      (offset + (encodedLength + rootEnd ir m)) :=
    (endsAt_iff hfits h).mpr ⟨fun _ hw _ => lt_rootEnd_of_covers hfits hgroups hw,
      exists_covers_rootEnd hfits⟩
  constructor
  · intro hstop
    exact hstop.unique hend
  · rintro rfl
    exact hend

end

end Written

/-! ## The copy -/

section Copy

variable {ir : SchemaIr} {m : ResolvedMessage} {value : MessageValue} {offset : Nat}
  {buf buf' : Buffer}

theorem length_copy_le (code : EncoderCode) (buf : Buffer) (offset : Nat) :
    (code.copy buf offset).length ≤ code.encodedLength := by
  rw [EncoderCode.copy, length_take]
  exact Nat.min_le_left _ _

/-- The copy of a message without groups reads as the message, if no getter reads behind
the block. -/
theorem readMessage_copy (hgroups : m.groups = [])
    (hend : blockEnd (getters ir m.fields) ≤ m.blockLength.toNat) (hoffset : offset ≤ buf.length)
    (version : UInt16) :
    (generateDecoder ir m).readMessage
        (.wrap ((generateEncoder ir m).copy buf offset) MessageHeader.encodedLength version) =
      (generateDecoder ir m).readMessage
        (.wrap buf (offset + MessageHeader.encodedLength) version) := by
  have hstops : ∀ s ∈ slots (getters ir m.fields),
      encodedLength + s.stop ≤ (generateEncoder ir m).encodedLength := by
    intro s hs
    obtain ⟨a, ha, rfl⟩ := mem_map.mp hs
    have := largest_le_iff.mp hend _ (mem_map_of_mem ha)
    exact Nat.add_le_add_left this _
  have hroot : getAll (getters ir m.fields) ((generateEncoder ir m).copy buf offset)
      encodedLength =
        getAll (getters ir m.fields) buf (offset + encodedLength) := by
    rw [getAll_eq_readAll, EncoderCode.copy, readAll_take hstops, readAll_drop hoffset,
      getAll_eq_readAll]
  show (getAll (getters ir m.fields) _ _ >>= _) = getAll (getters ir m.fields) _ _ >>= _
  rw [decoder_groups_eq_nil hgroups]
  exact congrArg (· >>= _) hroot

/-- A getter that reads behind the block fails on the copy. -/
theorem blockEnd_le_of_readMessage {version : UInt16} {read : MessageValue}
    (h : (generateDecoder ir m).readMessage
      (.wrap ((generateEncoder ir m).copy buf offset) MessageHeader.encodedLength version) =
        some read) : blockEnd (getters ir m.fields) ≤ m.blockLength.toNat := by
  obtain ⟨root, hroot, -⟩ := Option.bind_eq_some_iff.mp h
  have hsome : (readAll (slots (getters ir m.fields)) ((generateEncoder ir m).copy buf offset)
      encodedLength).isSome = true := by
    rw [← getAll_eq_readAll]
    exact Option.isSome_of_eq_some hroot
  have hlength := length_copy_le (generateEncoder ir m) buf offset
  have hcopy : (generateEncoder ir m).encodedLength =
      encodedLength + m.blockLength.toNat := rfl
  rw [blockEnd, largest_le_iff, forall_mem_map]
  intro a ha
  have := readAll_isSome_iff.mp hsome a.slot (mem_map_of_mem ha)
  omega

section

variable (hfits : (generateEncoder ir m).Fits value)
  (h : (generateEncoder ir m).encode value buf offset = some buf') (hgroups : m.groups = [])
include hfits h hgroups

/-- Nothing overwrites the header of a message without groups. -/
theorem header_of_encode :
    MessageHeader.wrap buf' offset = some (generateEncoder ir m).header := by
  rw [EncoderCode.encode_eq hfits, EncoderCode.messageWrites, applyAll_append] at h
  obtain ⟨mid, hheader, hrest⟩ := Option.bind_eq_some_iff.mp h
  refine wrap_of_heldBy fun w hw => ?_
  refine (heldBy_applyAll hheader (pairwise_writes _ _) w hw).applyAll hrest ?_
  intro v hv
  obtain ⟨a, -, hstart, -⟩ := exists_setter_of_mem hfits hgroups hv
  have := (mem_writes hw).2
  exact apart_of_le (by omega)

/-- The copy of a message without groups decodes to the message. -/
theorem decode_copy (hlength : offset + (generateEncoder ir m).encodedLength ≤ buf'.length)
    (hend : blockEnd (getters ir m.fields) ≤ m.blockLength.toNat) :
    ∃ d read,
      SbeDecoder.decode (generateDecoder ir m).templateId (generateDecoder ir m).schemaId
        ((generateEncoder ir m).copy buf' offset) = some (.ok d) ∧
      (generateDecoder ir m).readMessage d = some read ∧
      (generateDecoder ir m).readMessage
        (.wrap buf' (offset + MessageHeader.encodedLength) d.actingVersion) = some read := by
  have hcopy : (generateEncoder ir m).encodedLength =
      encodedLength + m.blockLength.toNat := rfl
  have hoffset : offset ≤ buf'.length := by omega
  have hheader : wrap ((generateEncoder ir m).copy buf' offset) 0 =
      some (generateEncoder ir m).header := by
    rw [EncoderCode.copy, wrap_take (by omega), wrap_drop hoffset]
    exact header_of_encode hfits h hgroups
  have hsize : ((generateEncoder ir m).copy buf' offset).length =
      (generateEncoder ir m).encodedLength := by
    rw [EncoderCode.copy, length_take, length_drop]
    omega
  have hroot : (getAll (getters ir m.fields) buf'
      (offset + encodedLength)).isSome = true := by
    rw [getAll_eq_readAll, readAll_isSome_iff]
    intro s hs
    obtain ⟨a, ha, rfl⟩ := mem_map.mp hs
    have := largest_le_iff.mp hend _ (mem_map_of_mem ha)
    omega
  obtain ⟨root, hroot⟩ := Option.isSome_iff_exists.mp hroot
  have hread : (generateDecoder ir m).readMessage
      (.wrap buf' (offset + encodedLength) (generateEncoder ir m).header.version) =
        some ⟨root, []⟩ := by
    show (getAll (getters ir m.fields) buf' (offset + encodedLength) >>= _) = _
    rw [hroot, decoder_groups_eq_nil hgroups]
    rfl
  refine ⟨.wrap _ encodedLength (generateEncoder ir m).header.version, ⟨root, []⟩,
    SbeDecoder.decode_eq_ok_iff.mpr ⟨_, hheader, rfl, rfl, ?_, rfl⟩, ?_, hread⟩
  · exact Nat.le_of_eq hsize.symm
  · rw [readMessage_copy hgroups hend hoffset, hread]

end

end Copy

/-! ## When the length covers the message -/

/-- The encoded length covers the message exactly when the message has no group, its
setters fill the root block to the end, and its getters stay inside it. -/
theorem lengthCovers_iff (ir : SchemaIr) (m : ResolvedMessage) {value : MessageValue}
    (hfits : (generateEncoder ir m).Fits value) {buf buf' : Buffer} {offset : Nat}
    (h : (generateEncoder ir m).encode value buf offset = some buf') :
    LengthCovers ir m value offset buf' ↔
      m.groups = [] ∧ rootEnd ir m = m.blockLength.toNat ∧
        blockEnd (getters ir m.fields) ≤ m.blockLength.toNat := by
  have hcopy : (generateEncoder ir m).encodedLength =
      encodedLength + m.blockLength.toNat := rfl
  constructor
  · rintro ⟨hencoder, -, d, read, hdecode, hread, -⟩
    have hgroups := groups_eq_nil_of_endsAt hfits h hencoder
    have hstop := (endsAt_iff_rootEnd hfits h hgroups).mp hencoder
    obtain ⟨header, -, -, -, -, rfl⟩ := SbeDecoder.decode_eq_ok_iff.mp hdecode
    exact ⟨hgroups, by omega, blockEnd_le_of_readMessage hread⟩
  · rintro ⟨hgroups, hroot, hend⟩
    have hencoder : (generateEncoder ir m).EndsAt value offset buf'.length
        (offset + (generateEncoder ir m).encodedLength) :=
      (endsAt_iff_rootEnd hfits h hgroups).mpr (by omega)
    refine ⟨hencoder, fun _ => hencoder, decode_copy hfits h hgroups ?_ hend⟩
    obtain ⟨-, i, hi, w, hw, hcovers⟩ := (endsAt_iff hfits h).mp hencoder
    rw [EncoderCode.encode_eq hfits] at h
    have hstop := stop_le_of_applyAll h w hw
    have hlt : i < w.stop := hcovers.2
    rw [length_of_applyAll h]
    omega

/-- An order, with a value for each member of the price. -/
def orderValue : MessageValue :=
  ⟨[.scalar ⟨.u32, 23, by decide⟩, .bytes [65, 66, 67, 68], .enum ⟨"Sell", 2⟩,
    .set ⟨.u8, 5, by decide⟩, .scalar ⟨.i64, 250, by decide⟩, .scalar ⟨.i8, 253, by decide⟩], []⟩

theorem lengthCovers_order :
    ∃ buf', (generateEncoder (.fromSchema orderSchema) orderMessage).encode orderValue
        (List.replicate 30 255) 2 = some buf' ∧
      LengthCovers (.fromSchema orderSchema) orderMessage orderValue 2 buf' := by
  have hfits : (generateEncoder (.fromSchema orderSchema) orderMessage).Fits orderValue :=
    ⟨.cons rfl (.cons trivial (.cons (mem_cons_of_mem _ mem_cons_self)
      (.cons rfl (.cons rfl (.cons rfl .nil))))), .nil⟩
  have hcodable : Codable orderSchema orderMessage :=
    ⟨⟨mem_cons_self, by decide, by decide⟩, ⟨by decide, by decide⟩⟩
  obtain ⟨buf', hrun, -⟩ := hcodable.encode_eq_some hfits
    (show 2 + _ ≤ (replicate 30 (255 : UInt8)).length by decide)
  exact ⟨buf', hrun, (lengthCovers_iff _ _ hfits hrun).mpr ⟨rfl, by decide, by decide⟩⟩

/-- A fill with one leg: the header, the root block, the header of the legs and the leg. -/
def encodedFill : Buffer :=
  [6, 0, 5, 0, 6, 0, 2, 0] ++ [11, 0, 0, 0, 2, 0] ++ [8, 0, 1, 0] ++ [70, 0, 0, 0, 3, 0, 0, 0]

/-- A fill with one leg takes 26 bytes and its encoded length is 14.  The copy of 14 bytes
ends in front of the header of the legs. -/
theorem not_lengthCovers_fill :
    (fillMessage (fillsSchema2 6)).groups.length = 1 ∧
      (generateEncoder (.fromSchema (fillsSchema2 6)) (fillMessage (fillsSchema2 6))).encode
        fillValue (List.replicate 26 0) 0 = some encodedFill ∧
      (generateEncoder (.fromSchema (fillsSchema2 6))
        (fillMessage (fillsSchema2 6))).encodedLength = 14 ∧
      (generateDecoder (.fromSchema (fillsSchema2 6)) (fillMessage (fillsSchema2 6))).readMessage
        (.wrap encodedFill 8 2) = some fillValue ∧
      (generateDecoder (.fromSchema (fillsSchema2 6)) (fillMessage (fillsSchema2 6))).readMessage
        (.wrap (encodedFill.take 14) 8 2) = none ∧
      ¬ LengthCovers (.fromSchema (fillsSchema2 6)) (fillMessage (fillsSchema2 6)) fillValue 0
        encodedFill := by
  have hrun : (generateEncoder (.fromSchema (fillsSchema2 6)) (fillMessage (fillsSchema2 6))).encode
      fillValue (replicate 26 0) 0 = some encodedFill := by decide
  refine ⟨rfl, hrun, rfl, by decide, by decide, fun hcovers => ?_⟩
  have hgroups := groups_eq_nil_of_endsAt (fillValue_fits 6) hrun hcovers.encoder
  exact cons_ne_nil _ _ hgroups

end IronSbe.Codegen
