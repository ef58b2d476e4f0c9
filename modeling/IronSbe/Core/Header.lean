import IronSbe.Core.Buffer

/-!
# Message and group headers

Both headers are `u16` fields, one behind the other.  Encoding one is a run of
writes (`MessageHeader.writes`, `GroupHeader.writes`), and a header is read back
from any buffer that holds the bytes of its fields.
-/

namespace IronSbe.Core

open Lib.Bytes Lib.Slice Option

/-- The bytes of a `u16` field at `offset`. -/
def u16Write (offset : Nat) (n : UInt16) : Write UInt8 := ⟨offset, leBytes 2 n.toNat⟩

theorem u16Write_start (offset : Nat) (n : UInt16) : (u16Write offset n).start = offset := rfl

theorem u16Write_stop (offset : Nat) (n : UInt16) : (u16Write offset n).stop = offset + 2 := by
  rw [Write.stop, u16Write, length_leBytes]

theorem putU16Le_eq (buf : Buffer) (offset : Nat) (n : UInt16) :
    putU16Le buf offset (.ofUInt16 n) = (u16Write offset n).apply buf :=
  putTyped_eq rfl buf offset

variable {buf : Buffer} {offset : Nat}

/-- A `u16` field reads as what was written. -/
theorem getU16Le_of_heldBy {n : UInt16} (h : (u16Write offset n).HeldBy buf) :
    getU16Le buf offset = some (.ofUInt16 n) := by
  rw [Write.HeldBy, u16Write_stop] at h
  exact getLe_of_slice (.ofUInt16 n) h

/-- What a `u16` field reads as is what the buffer holds. -/
theorem heldBy_of_getU16Le {v : Scalar} (h : getU16Le buf offset = some v) :
    (u16Write offset v.toUInt16).HeldBy buf := by
  obtain ⟨data, hdata, rfl⟩ := map_eq_some_iff.mp h
  have hlen : data.length = 2 := by
    rw [length_of_slice hdata, Nat.add_sub_cancel_left]
    rfl
  have hlt : leNat data < 65536 := by
    have := leNat_lt data
    rwa [hlen] at this
  have hbits : (Scalar.ofBytes .u16 data).toUInt16.toNat = leNat data := by
    show (UInt16.ofNat (leNat data % 65536)).toNat = _
    rw [UInt16.toNat_ofNat', Nat.mod_eq_of_lt hlt, Nat.mod_eq_of_lt hlt]
  have hbytes : leBytes 2 (leNat data) = data := by
    have := leBytes_leNat data
    rwa [hlen] at this
  rw [Write.HeldBy, u16Write_stop, u16Write, hbits, hbytes]
  exact hdata

/-- `MessageHeader`. -/
structure MessageHeader where
  blockLength : UInt16
  templateId : UInt16
  schemaId : UInt16
  version : UInt16
  deriving DecidableEq, Repr

namespace MessageHeader

/-- `MessageHeader::ENCODED_LENGTH`. -/
def encodedLength : Nat := 8

/-- `MessageHeader::wrap`. -/
def wrap (buf : Buffer) (offset : Nat) : Option MessageHeader := do
  let blockLength ← getU16Le buf offset
  let templateId ← getU16Le buf (offset + 2)
  let schemaId ← getU16Le buf (offset + 4)
  let version ← getU16Le buf (offset + 6)
  return ⟨blockLength.toUInt16, templateId.toUInt16, schemaId.toUInt16, version.toUInt16⟩

/-- `MessageHeader::encode`. -/
def encode (h : MessageHeader) (buf : Buffer) (offset : Nat) : Option Buffer := do
  let buf ← putU16Le buf offset (.ofUInt16 h.blockLength)
  let buf ← putU16Le buf (offset + 2) (.ofUInt16 h.templateId)
  let buf ← putU16Le buf (offset + 4) (.ofUInt16 h.schemaId)
  putU16Le buf (offset + 6) (.ofUInt16 h.version)

/-- The writes of `encode`. -/
def writes (h : MessageHeader) (offset : Nat) : List (Write UInt8) :=
  [u16Write offset h.blockLength, u16Write (offset + 2) h.templateId,
    u16Write (offset + 4) h.schemaId, u16Write (offset + 6) h.version]

theorem encode_eq_applyAll (h : MessageHeader) (buf : Buffer) (offset : Nat) :
    h.encode buf offset = applyAll (h.writes offset) buf := by
  simp only [encode, writes, applyAll, putU16Le_eq, bind, bind_fun_some]

variable {h : MessageHeader} {offset : Nat} {buf : Buffer}

/-- Every write of a header stays inside its eight bytes. -/
theorem mem_writes {w : Write UInt8} (hw : w ∈ h.writes offset) :
    offset ≤ w.start ∧ w.stop ≤ offset + encodedLength := by
  simp only [writes, List.mem_cons, List.not_mem_nil, or_false] at hw
  rcases hw with rfl | rfl | rfl | rfl <;> rw [u16Write_stop] <;>
    simp only [u16Write, encodedLength] <;> omega

theorem pairwise_writes (h : MessageHeader) (offset : Nat) :
    (h.writes offset).Pairwise Write.Clear := by
  simp [writes, Write.Clear, apart_of_le, u16Write_start, u16Write_stop]

/-- A header reads as what was written. -/
theorem wrap_of_heldBy (hbuf : ∀ w ∈ h.writes offset, w.HeldBy buf) : wrap buf offset = some h := by
  simp only [writes, List.forall_mem_cons] at hbuf
  obtain ⟨hb, ht, hs, hv, -⟩ := hbuf
  simp [wrap, getU16Le_of_heldBy hb, getU16Le_of_heldBy ht, getU16Le_of_heldBy hs,
    getU16Le_of_heldBy hv]

/-- The buffer holds the header that was read. -/
theorem heldBy_of_wrap (hwrap : wrap buf offset = some h) :
    ∀ w ∈ h.writes offset, w.HeldBy buf := by
  simp only [wrap, bind, bind_eq_some_iff] at hwrap
  obtain ⟨_, hb, _, ht, _, hs, _, hv, heq⟩ := hwrap
  cases heq
  simp only [writes, List.forall_mem_cons]
  exact ⟨heldBy_of_getU16Le hb, heldBy_of_getU16Le ht, heldBy_of_getU16Le hs,
    heldBy_of_getU16Le hv, List.forall_mem_nil _⟩

/-- A header can be read exactly where there are eight bytes. -/
theorem wrap_isSome_iff :
    (wrap buf offset).isSome = true ↔ offset + encodedLength ≤ buf.length := by
  constructor
  · intro h
    obtain ⟨header, hheader⟩ := isSome_iff_exists.mp h
    simp only [wrap, bind, bind_eq_some_iff] at hheader
    obtain ⟨_, _, _, _, _, _, v, hv, _⟩ := hheader
    exact getLe_isSome_iff.mp (isSome_of_eq_some hv)
  · intro h
    have hget : ∀ k, k + 2 ≤ encodedLength → ∃ v, getU16Le buf (offset + k) = some v := by
      intro k hk
      refine isSome_iff_exists.mp (getLe_isSome_iff.mpr ?_)
      show offset + k + 2 ≤ buf.length
      omega
    obtain ⟨b, hb⟩ := hget 0 (by decide)
    obtain ⟨t, ht⟩ := hget 2 (by decide)
    obtain ⟨s, hs⟩ := hget 4 (by decide)
    obtain ⟨v, hv⟩ := hget 6 (by decide)
    rw [Nat.add_zero] at hb
    simp [wrap, hb, ht, hs, hv]

theorem wrap_drop {start : Nat} (h : start ≤ buf.length) (offset : Nat) :
    wrap (buf.drop start) offset = wrap buf (start + offset) := by
  simp only [wrap, getU16Le, getLe_drop h, Nat.add_assoc]

theorem wrap_take {n : Nat} (h : offset + encodedLength ≤ n) :
    wrap (buf.take n) offset = wrap buf offset := by
  have hget : ∀ k, k + 2 ≤ encodedLength →
      getU16Le (buf.take n) (offset + k) = getU16Le buf (offset + k) := by
    intro k hk
    exact getLe_take (show offset + k + 2 ≤ n by omega)
  have hblock := hget 0 (by decide)
  rw [Nat.add_zero] at hblock
  rw [wrap, wrap, hblock, hget 2 (by decide), hget 4 (by decide), hget 6 (by decide)]

end MessageHeader

/-- `GroupHeader`. -/
structure GroupHeader where
  blockLength : UInt16
  numInGroup : UInt16
  deriving DecidableEq, Repr

namespace GroupHeader

/-- `GroupHeader::ENCODED_LENGTH`. -/
def encodedLength : Nat := 4

/-- `GroupHeader::wrap`. -/
def wrap (buf : Buffer) (offset : Nat) : Option GroupHeader := do
  let blockLength ← getU16Le buf offset
  let numInGroup ← getU16Le buf (offset + 2)
  return ⟨blockLength.toUInt16, numInGroup.toUInt16⟩

/-- `GroupHeader::encode`. -/
def encode (h : GroupHeader) (buf : Buffer) (offset : Nat) : Option Buffer := do
  let buf ← putU16Le buf offset (.ofUInt16 h.blockLength)
  putU16Le buf (offset + 2) (.ofUInt16 h.numInGroup)

/-- The writes of `encode`. -/
def writes (h : GroupHeader) (offset : Nat) : List (Write UInt8) :=
  [u16Write offset h.blockLength, u16Write (offset + 2) h.numInGroup]

theorem encode_eq_applyAll (h : GroupHeader) (buf : Buffer) (offset : Nat) :
    h.encode buf offset = applyAll (h.writes offset) buf := by
  simp only [encode, writes, applyAll, putU16Le_eq, bind, bind_fun_some]

variable {h : GroupHeader} {offset : Nat} {buf : Buffer}

theorem mem_writes {w : Write UInt8} (hw : w ∈ h.writes offset) :
    offset ≤ w.start ∧ w.stop ≤ offset + encodedLength := by
  simp only [writes, List.mem_cons, List.not_mem_nil, or_false] at hw
  rcases hw with rfl | rfl <;> rw [u16Write_stop] <;>
    simp only [u16Write, encodedLength] <;> omega

theorem pairwise_writes (h : GroupHeader) (offset : Nat) :
    (h.writes offset).Pairwise Write.Clear := by
  simp [writes, Write.Clear, apart_of_le, u16Write_start, u16Write_stop]

theorem wrap_of_heldBy (hbuf : ∀ w ∈ h.writes offset, w.HeldBy buf) : wrap buf offset = some h := by
  simp only [writes, List.forall_mem_cons] at hbuf
  obtain ⟨hb, hn, -⟩ := hbuf
  simp [wrap, getU16Le_of_heldBy hb, getU16Le_of_heldBy hn]

/-- A group header can be read exactly where there are four bytes. -/
theorem wrap_isSome_iff :
    (wrap buf offset).isSome = true ↔ offset + encodedLength ≤ buf.length := by
  constructor
  · intro h
    obtain ⟨header, hheader⟩ := isSome_iff_exists.mp h
    simp only [wrap, bind, bind_eq_some_iff] at hheader
    obtain ⟨_, _, n, hn, _⟩ := hheader
    exact getLe_isSome_iff.mp (isSome_of_eq_some hn)
  · intro h
    have hlen : offset + 4 ≤ buf.length := h
    have hb : (getU16Le buf offset).isSome = true :=
      getLe_isSome_iff.mpr (show offset + 2 ≤ buf.length by omega)
    have hn : (getU16Le buf (offset + 2)).isSome = true :=
      getLe_isSome_iff.mpr (show offset + 2 + 2 ≤ buf.length by omega)
    obtain ⟨b, hb⟩ := isSome_iff_exists.mp hb
    obtain ⟨n, hn⟩ := isSome_iff_exists.mp hn
    simp [wrap, hb, hn]

theorem wrap_drop {start : Nat} (h : start ≤ buf.length) (offset : Nat) :
    wrap (buf.drop start) offset = wrap buf (start + offset) := by
  simp only [wrap, getU16Le, getLe_drop h, Nat.add_assoc]

/-- The buffer holds the header that was read. -/
theorem heldBy_writes_of_wrap (hwrap : wrap buf offset = some h) :
    ∀ w ∈ h.writes offset, w.HeldBy buf := by
  simp only [wrap, bind, bind_eq_some_iff] at hwrap
  obtain ⟨_, hb, _, hn, heq⟩ := hwrap
  cases heq
  simp only [writes, List.forall_mem_cons]
  exact ⟨heldBy_of_getU16Le hb, heldBy_of_getU16Le hn, List.forall_mem_nil _⟩

/-- The buffer holds the count of the header that was read. -/
theorem heldBy_of_wrap (hwrap : wrap buf offset = some h) :
    (u16Write (offset + 2) h.numInGroup).HeldBy buf :=
  heldBy_writes_of_wrap hwrap _ (by simp [writes])

end GroupHeader

end IronSbe.Core
