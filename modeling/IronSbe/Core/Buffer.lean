import IronSbe.Lib.LittleEndian
import IronSbe.Lib.Slice

/-!
# Buffers and the primitive values in them

`ReadBuffer` and `WriteBuffer` read and write one primitive value at an offset,
little endian.  A value of a Rust primitive type is its bit pattern: a `Scalar`
has the type and a number that fits it.  `none` is the panic of an index
outside the buffer.

The traits have one method for each type.  They are all `getLe` or `putTyped`
at that type:

* `Scalar.ofBytes_bytes`, `Scalar.bytes_ofBytes`: the conversion is exact in
  both directions.
* `Scalar.toInt_ofInt`: an integer that fits the type survives the cast to it.
-/

namespace IronSbe.Core

open Lib.Bytes Lib.Slice

/-- A byte buffer. -/
abbrev Buffer := List UInt8

/-- The primitive types of the generated code. -/
inductive RustType where
  | u8 | i8 | u16 | i16 | u32 | i32 | u64 | i64 | f32 | f64
  deriving DecidableEq, Repr

namespace RustType

/-- `size_of` of the type. -/
def size : RustType → Nat
  | .u8 | .i8 => 1
  | .u16 | .i16 => 2
  | .u32 | .i32 | .f32 => 4
  | .u64 | .i64 | .f64 => 8

/-- The signed integers. -/
def isSigned : RustType → Bool
  | .i8 | .i16 | .i32 | .i64 => true
  | _ => false

/-- The integers, signed and unsigned. -/
def isInteger : RustType → Bool
  | .f32 | .f64 => false
  | _ => true

theorem size_pos (t : RustType) : 0 < t.size := by cases t <;> decide

/-- How many integers of the type are not negative. -/
def limit (t : RustType) : Nat := if t.isSigned then 256 ^ t.size / 2 else 256 ^ t.size

/-- The integers of the type, for the integer types. -/
def InRange (t : RustType) (n : Int) : Prop :=
  (if t.isSigned then -t.limit else 0 : Int) ≤ n ∧ n < t.limit

instance (t : RustType) (n : Int) : Decidable (t.InRange n) :=
  inferInstanceAs (Decidable (_ ∧ _))

end RustType

/-- A value of a primitive type: its bits, floats included. -/
structure Scalar where
  type : RustType
  bits : Nat
  bits_lt : bits < 256 ^ type.size
  deriving DecidableEq, Repr

namespace Scalar

/-- `to_le_bytes`. -/
def bytes (v : Scalar) : List UInt8 := leBytes v.type.size v.bits

/-- `from_le_bytes`, of a byte string of the size of the type. -/
def ofBytes (t : RustType) (bytes : List UInt8) : Scalar :=
  ⟨t, leNat bytes % 256 ^ t.size, Nat.mod_lt _ (Nat.pow_pos (by decide))⟩

@[simp] theorem length_bytes (v : Scalar) : v.bytes.length = v.type.size := length_leBytes _ _

theorem ofBytes_bytes (v : Scalar) : ofBytes v.type v.bytes = v := by
  obtain ⟨t, n, hn⟩ := v
  simp only [ofBytes, bytes, leNat_leBytes hn, Nat.mod_eq_of_lt hn]

variable {t : RustType}

theorem bytes_ofBytes {bytes : List UInt8} (h : bytes.length = t.size) :
    (ofBytes t bytes).bytes = bytes := by
  have hlt : leNat bytes < 256 ^ t.size := h ▸ leNat_lt bytes
  simp only [Scalar.bytes, ofBytes, Nat.mod_eq_of_lt hlt]
  rw [← h, leBytes_leNat]

/-- The number that an integer stands for: two's complement for the signed
types. -/
def toInt (v : Scalar) : Int :=
  if v.type.limit ≤ v.bits then (v.bits : Int) - (256 ^ v.type.size : Nat) else v.bits

/-- The `as` cast of an integer to the type. -/
def ofInt (t : RustType) (n : Int) : Scalar :=
  ⟨t, (n % (256 ^ t.size : Nat)).toNat, by
    have hpos : (0 : Int) < (256 ^ t.size : Nat) := by exact_mod_cast Nat.pow_pos (by decide)
    have hlt := Int.emod_lt_of_pos n hpos
    have hnonneg := Int.emod_nonneg n (Int.ne_of_gt hpos)
    omega⟩

/-- An integer of the type survives the cast. -/
theorem toInt_ofInt {n : Int} (h : t.InRange n) : (ofInt t n).toInt = n := by
  have hpow : 256 ^ t.size = 2 * (256 ^ t.size / 2) := by cases t <;> decide
  have hpos : 0 < 256 ^ t.size := Nat.pow_pos (by decide)
  unfold RustType.InRange RustType.limit at h
  simp only [toInt, ofInt, RustType.limit]
  obtain ⟨m, hm⟩ : ∃ m, 256 ^ t.size = m := ⟨_, rfl⟩
  simp only [hm] at h hpow hpos ⊢
  by_cases hs : t.isSigned = true
  · simp only [hs, if_true] at h ⊢
    by_cases hn : 0 ≤ n
    · rw [Int.emod_eq_of_lt hn (by omega), if_neg (by omega)]
      omega
    · have hwrap : n % (m : Int) = n + m := by
        rw [← Int.add_emod_right, Int.emod_eq_of_lt (by omega) (by omega)]
      rw [hwrap, if_pos (by omega)]
      omega
  · simp only [hs, if_false, Bool.false_eq_true] at h ⊢
    rw [Int.emod_eq_of_lt h.1 h.2, if_neg (by omega)]
    omega

/-- A `u16`. -/
def ofUInt16 (n : UInt16) : Scalar := ⟨.u16, n.toNat, n.toNat_lt⟩

/-- A `u16` again. -/
def toUInt16 (v : Scalar) : UInt16 := UInt16.ofNat v.bits

@[simp] theorem toUInt16_ofUInt16 (n : UInt16) : (ofUInt16 n).toUInt16 = n :=
  UInt16.ofNat_toNat

end Scalar

/-! ## `ReadBuffer` -/

/-- Read a value of type `t` at `offset`. -/
def getLe (t : RustType) (buf : Buffer) (offset : Nat) : Option Scalar :=
  (slice buf offset (offset + t.size)).map (Scalar.ofBytes t)

variable {buf : Buffer} {offset : Nat} {t : RustType}

theorem getLe_of_slice (v : Scalar) (h : slice buf offset (offset + v.type.size) = some v.bytes) :
    getLe v.type buf offset = some v := by
  rw [getLe, h, Option.map_some, Scalar.ofBytes_bytes]

theorem getLe_isSome_iff :
    (getLe t buf offset).isSome = true ↔ offset + t.size ≤ buf.length := by
  rw [getLe, Option.isSome_map, slice_isSome_iff]
  exact and_iff_right (Nat.le_add_right _ _)

theorem getLe_drop (h : offset ≤ buf.length) (t : RustType) (pos : Nat) :
    getLe t (buf.drop offset) pos = getLe t buf (offset + pos) := by
  rw [getLe, getLe, slice_drop h, Nat.add_assoc]

theorem getLe_take {n : Nat} {pos : Nat} (h : pos + t.size ≤ n) :
    getLe t (buf.take n) pos = getLe t buf pos := by
  rw [getLe, getLe, slice_of_take h]

/-- `get_u8`. -/
def getU8 : Buffer → Nat → Option Scalar := getLe .u8

/-- `get_i8`. -/
def getI8 : Buffer → Nat → Option Scalar := getLe .i8

/-- `get_u16_le`. -/
def getU16Le : Buffer → Nat → Option Scalar := getLe .u16

/-- `get_i16_le`. -/
def getI16Le : Buffer → Nat → Option Scalar := getLe .i16

/-- `get_u32_le`. -/
def getU32Le : Buffer → Nat → Option Scalar := getLe .u32

/-- `get_i32_le`. -/
def getI32Le : Buffer → Nat → Option Scalar := getLe .i32

/-- `get_u64_le`. -/
def getU64Le : Buffer → Nat → Option Scalar := getLe .u64

/-- `get_i64_le`. -/
def getI64Le : Buffer → Nat → Option Scalar := getLe .i64

/-- `get_f32_le`. -/
def getF32Le : Buffer → Nat → Option Scalar := getLe .f32

/-- `get_f64_le`. -/
def getF64Le : Buffer → Nat → Option Scalar := getLe .f64

/-! ## `WriteBuffer` -/

/-- Write a value of type `t` at `offset`.  There is no call with a value of
another type. -/
def putTyped (t : RustType) (buf : Buffer) (offset : Nat) (v : Scalar) : Option Buffer :=
  if v.type = t then blit buf offset v.bytes else none

/-- `put_u8`. -/
def putU8 : Buffer → Nat → Scalar → Option Buffer := putTyped .u8

/-- `put_i8`. -/
def putI8 : Buffer → Nat → Scalar → Option Buffer := putTyped .i8

/-- `put_u16_le`. -/
def putU16Le : Buffer → Nat → Scalar → Option Buffer := putTyped .u16

/-- `put_i16_le`. -/
def putI16Le : Buffer → Nat → Scalar → Option Buffer := putTyped .i16

/-- `put_u32_le`. -/
def putU32Le : Buffer → Nat → Scalar → Option Buffer := putTyped .u32

/-- `put_i32_le`. -/
def putI32Le : Buffer → Nat → Scalar → Option Buffer := putTyped .i32

/-- `put_u64_le`. -/
def putU64Le : Buffer → Nat → Scalar → Option Buffer := putTyped .u64

/-- `put_i64_le`. -/
def putI64Le : Buffer → Nat → Scalar → Option Buffer := putTyped .i64

/-- `put_f32_le`. -/
def putF32Le : Buffer → Nat → Scalar → Option Buffer := putTyped .f32

/-- `put_f64_le`. -/
def putF64Le : Buffer → Nat → Scalar → Option Buffer := putTyped .f64

theorem putTyped_eq {v : Scalar} (h : v.type = t) (buf : Buffer) (offset : Nat) :
    putTyped t buf offset v = blit buf offset v.bytes :=
  if_pos h

end IronSbe.Core
