import IronSbe.Core.Header

/-!
# The laws of the buffer primitives

`ReadBuffer` and `WriteBuffer` have a `get` and a `put` for each primitive type.  A `get` and
the `put` of its type are the two halves of a lens at an offset, and lenses on ranges that do
not overlap know nothing of each other.  Codecs are built from these two facts; the headers
are the first of them.

* `RustType.lawful`: the laws of the methods of one type.
* `headerLaws_of_writes`: a header whose `encode` is a run of writes, and whose `wrap` reads
  what the writes left, has the laws of a lens again.
* `primitives_lawful`: the laws of all of them.
-/

namespace IronSbe.Core

open Lib.Slice

/-! ## The methods of a type -/

namespace RustType

/-- The method of `ReadBuffer` for the type. -/
def get : RustType → Buffer → Nat → Option Scalar
  | .u8 => getU8
  | .i8 => getI8
  | .u16 => getU16Le
  | .i16 => getI16Le
  | .u32 => getU32Le
  | .i32 => getI32Le
  | .u64 => getU64Le
  | .i64 => getI64Le
  | .f32 => getF32Le
  | .f64 => getF64Le

/-- The method of `WriteBuffer` for the type. -/
def put : RustType → Buffer → Nat → Scalar → Option Buffer
  | .u8 => putU8
  | .i8 => putI8
  | .u16 => putU16Le
  | .i16 => putI16Le
  | .u32 => putU32Le
  | .i32 => putI32Le
  | .u64 => putU64Le
  | .i64 => putI64Le
  | .f32 => putF32Le
  | .f64 => putF64Le

theorem get_eq (t : RustType) : t.get = getLe t := by cases t <;> rfl

theorem put_eq (t : RustType) : t.put = putTyped t := by cases t <;> rfl

/-- The laws of the two methods of a type.  A value of the type is a scalar `v` with
`v.type = t`. -/
structure Lawful (t : RustType) : Prop where
  /-- Inside the buffer a value is written, and it is read back. -/
  get_put : ∀ (buf : Buffer) (offset : Nat) (v : Scalar), v.type = t →
    offset + t.size ≤ buf.length →
    ∃ buf', t.put buf offset v = some buf' ∧ t.get buf' offset = some v
  /-- The bytes outside the written range are as before. -/
  put_frame : ∀ (buf buf' : Buffer) (offset : Nat) (v : Scalar), t.put buf offset v = some buf' →
    buf'.length = buf.length ∧
      ∀ i, i < offset ∨ offset + t.size ≤ i → buf'[i]? = buf[i]?
  /-- The order of two writes to ranges that do not overlap does not matter. -/
  put_comm : ∀ (t' : RustType) (buf : Buffer) (offset offset' : Nat) (v v' : Scalar),
    v.type = t → v'.type = t' → Apart (offset, offset + t.size) (offset', offset' + t'.size) →
    ((t.put buf offset v).bind fun buf => t'.put buf offset' v') =
      (t'.put buf offset' v').bind fun buf => t.put buf offset v
  /-- A range that does not overlap the written one reads as before. -/
  get_frame : ∀ (t' : RustType) (buf buf' : Buffer) (offset offset' : Nat) (v : Scalar),
    t.put buf offset v = some buf' → Apart (offset, offset + t.size) (offset', offset' + t'.size) →
    t'.get buf' offset' = t'.get buf offset'

end RustType

/-- The write that the `put` of the type of `v` makes. -/
def scalarWrite (offset : Nat) (v : Scalar) : Write UInt8 := ⟨offset, v.bytes⟩

theorem scalarWrite_stop (offset : Nat) (v : Scalar) :
    (scalarWrite offset v).stop = offset + v.type.size := by
  rw [Write.stop, scalarWrite, Scalar.length_bytes]

theorem put_type_eq (v : Scalar) (buf : Buffer) (offset : Nat) :
    v.type.put buf offset v = (scalarWrite offset v).apply buf := by
  rw [RustType.put_eq]
  exact putTyped_eq rfl buf offset

/-- A `put` that returns was made with a value of its type, inside the buffer. -/
theorem put_eq_some {t : RustType} {buf buf' : Buffer} {offset : Nat} {v : Scalar}
    (h : t.put buf offset v = some buf') :
    v.type = t ∧ applyAll [scalarWrite offset v] buf = some buf' := by
  rw [RustType.put_eq, putTyped] at h
  split_ifs at h with ht
  refine ⟨ht, ?_⟩
  simp only [applyAll, Option.bind_fun_some]
  exact h

theorem clear_scalarWrite {offset offset' : Nat} {v v' : Scalar}
    (h : Apart (offset, offset + v.type.size) (offset', offset' + v'.type.size)) :
    (scalarWrite offset v).Clear (scalarWrite offset' v') := by
  rw [Write.Clear, scalarWrite_stop, scalarWrite_stop]
  exact h

theorem RustType.lawful (t : RustType) : t.Lawful where
  get_put := by
    rintro buf offset v rfl hfit
    have hstop : (scalarWrite offset v).stop ≤ buf.length := by rwa [scalarWrite_stop]
    have hput := Write.apply_eq_some hstop
    refine ⟨_, (put_type_eq v buf offset).trans hput, ?_⟩
    rw [RustType.get_eq]
    apply getLe_of_slice
    rw [← Scalar.length_bytes]
    exact slice_of_blit hput
  put_frame := by
    intro buf buf' offset v hput
    obtain ⟨rfl, hrun⟩ := put_eq_some hput
    refine ⟨length_of_applyAll hrun, fun i hi => applyAll_frame hrun fun w hw => ?_⟩
    rw [List.mem_singleton.mp hw, Write.Covers, scalarWrite_stop]
    show ¬ (offset ≤ i ∧ i < offset + v.type.size)
    omega
  put_comm := by
    rintro t' buf offset offset' v v' rfl rfl hapart
    simp only [put_type_eq]
    exact (clear_scalarWrite hapart).apply_comm buf
  get_frame := by
    intro t' buf buf' offset offset' v hput hapart
    obtain ⟨rfl, hrun⟩ := put_eq_some hput
    rw [RustType.get_eq, getLe, getLe, slice_applyAll_frame hrun]
    intro w hw
    rw [List.mem_singleton.mp hw, scalarWrite_stop]
    exact hapart

/-! ## Headers -/

/-- The laws of a header of `size` bytes: it is read back where it was encoded, and encoding
what was read changes nothing. -/
structure HeaderLaws {H : Type} (size : Nat) (wrap : Buffer → Nat → Option H)
    (encode : H → Buffer → Nat → Option Buffer) : Prop where
  wrap_encode : ∀ (h : H) (buf : Buffer) (offset : Nat), offset + size ≤ buf.length →
    ∃ buf', encode h buf offset = some buf' ∧ wrap buf' offset = some h
  encode_wrap : ∀ (buf : Buffer) (offset : Nat), offset + size ≤ buf.length →
    ∃ h, wrap buf offset = some h ∧ encode h buf offset = some buf

/-- A header that is written as a run of writes, clear of each other, and read from what they
leave. -/
theorem headerLaws_of_writes {H : Type} {size : Nat} {wrap : Buffer → Nat → Option H}
    {encode : H → Buffer → Nat → Option Buffer} {writes : H → Nat → List (Write UInt8)}
    (hencode : ∀ h buf offset, encode h buf offset = applyAll (writes h offset) buf)
    (hinside : ∀ h offset, ∀ w ∈ writes h offset, w.stop ≤ offset + size)
    (hclear : ∀ h offset, (writes h offset).Pairwise Write.Clear)
    (hread : ∀ h buf offset, (∀ w ∈ writes h offset, w.HeldBy buf) → wrap buf offset = some h)
    (hheld : ∀ h buf offset, wrap buf offset = some h → ∀ w ∈ writes h offset, w.HeldBy buf)
    (hsome : ∀ buf offset, offset + size ≤ buf.length → (wrap buf offset).isSome = true) :
    HeaderLaws size wrap encode where
  wrap_encode := by
    intro h buf offset hfit
    have hstop : ∀ w ∈ writes h offset, w.stop ≤ buf.length := fun w hw =>
      Nat.le_trans (hinside h offset w hw) hfit
    obtain ⟨buf', hrun, -⟩ := applyAll_eq_some hstop
    refine ⟨buf', (hencode h buf offset).trans hrun, hread h buf' offset ?_⟩
    exact heldBy_applyAll hrun (hclear h offset)
  encode_wrap := by
    intro buf offset hfit
    obtain ⟨h, hwrap⟩ := Option.isSome_iff_exists.mp (hsome buf offset hfit)
    refine ⟨h, hwrap, ?_⟩
    rw [hencode]
    exact applyAll_of_heldBy (hheld h buf offset hwrap)

theorem MessageHeader.laws : HeaderLaws encodedLength wrap encode :=
  headerLaws_of_writes encode_eq_applyAll (fun _ _ _ hw => (mem_writes hw).2) pairwise_writes
    (fun _ _ _ => wrap_of_heldBy) (fun _ _ _ => heldBy_of_wrap) fun _ _ => wrap_isSome_iff.mpr

theorem GroupHeader.laws : HeaderLaws encodedLength wrap encode :=
  headerLaws_of_writes encode_eq_applyAll (fun _ _ _ hw => (mem_writes hw).2) pairwise_writes
    (fun _ _ _ => wrap_of_heldBy) (fun _ _ _ => heldBy_writes_of_wrap)
    fun _ _ => wrap_isSome_iff.mpr

/-- The primitives of every type have their laws, and the two headers inherit them. -/
theorem primitives_lawful :
    (∀ t : RustType, t.Lawful) ∧
      HeaderLaws MessageHeader.encodedLength MessageHeader.wrap MessageHeader.encode ∧
      HeaderLaws GroupHeader.encodedLength GroupHeader.wrap GroupHeader.encode :=
  ⟨RustType.lawful, MessageHeader.laws, GroupHeader.laws⟩

end IronSbe.Core
