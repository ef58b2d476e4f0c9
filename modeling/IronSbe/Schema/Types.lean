import IronSbe.Core.Buffer

/-!
# Schema definitions

The data of a parsed schema: type definitions, messages, fields, groups and
variable data, with every field that the parser fills in.  Sizes and offsets
(`usize`) are natural numbers, with `usizeAdd` and `usizeMul` where they are
computed from numbers of the text; identifiers, versions and block lengths are
`u16`.

A `HashMap` is an association list with the newest entry first, so `lookup`
finds the last value inserted under a key.
-/

namespace IronSbe

open IronSbe.Core

namespace Schema

/-! ## `str::parse` for integers -/

/-- The value of a nonempty string of decimal digits. -/
def parseDigits : List Char → Option Nat
  | [] => none
  | cs => cs.foldlM (fun n c => if c.isDigit then some (10 * n + (c.toNat - 48)) else none) 0

/-- `str::parse` of an unsigned type with `bound` values. -/
def parseUnsigned (bound : Nat) (s : String) : Option Nat :=
  let digits := match s.toList with
    | '+' :: cs => parseDigits cs
    | cs => parseDigits cs
  digits.filter (· < bound)

/-- `str::parse` of `i64`. -/
def parseI64 (s : String) : Option Int :=
  let number : Option Int := match s.toList with
    | '-' :: cs => (parseDigits cs).map fun n => -n
    | '+' :: cs => (parseDigits cs).map fun n => n
    | cs => (parseDigits cs).map fun n => n
  number.filter fun n => -2 ^ 63 ≤ n ∧ n < 2 ^ 63

/-- `str::parse::<u8>`. -/
def parseU8 (s : String) : Option UInt8 := (parseUnsigned (2 ^ 8) s).map UInt8.ofNat

/-- `str::parse::<u16>`. -/
def parseU16 (s : String) : Option UInt16 := (parseUnsigned (2 ^ 16) s).map UInt16.ofNat

/-- `str::parse::<u64>`. -/
def parseU64 (s : String) : Option Nat := parseUnsigned (2 ^ 64) s

/-- `str::parse::<usize>`, on 64 bits. -/
def parseUsize (s : String) : Option Nat := parseUnsigned (2 ^ 64) s

/-! ## Arithmetic of `usize` -/

/-- Addition of `usize`, which wraps in a release build. -/
def usizeAdd (a b : Nat) : Nat := (a + b) % 2 ^ 64

/-- Multiplication of `usize`. -/
def usizeMul (a b : Nat) : Nat := a * b % 2 ^ 64

theorem usizeAdd_lt (a b : Nat) : usizeAdd a b < 2 ^ 64 := Nat.mod_lt _ (by decide)

theorem usizeMul_lt (a b : Nat) : usizeMul a b < 2 ^ 64 := Nat.mod_lt _ (by decide)

theorem usizeMul_one {a : Nat} (h : a < 2 ^ 64) : usizeMul a 1 = a := by
  rw [usizeMul, Nat.mul_one, Nat.mod_eq_of_lt h]

/-- A factor wraps to a product of its own only if it is zero, unless the other one is odd. -/
theorem eq_zero_of_usizeMul_eq {a b : Nat} (ha : Nat.Coprime (2 ^ 64) (a - 1)) (hb : b < 2 ^ 64)
    (h : usizeMul a b = b) : b = 0 := by
  have hdvd : 2 ^ 64 ∣ a * b - usizeMul a b := Nat.dvd_sub_mod (a * b)
  rw [h, ← Nat.sub_one_mul] at hdvd
  exact Nat.eq_zero_of_dvd_of_lt (ha.dvd_of_dvd_mul_left hdvd) hb

/-- A running sum is the sum, taken once. -/
theorem foldl_usizeAdd {a : Nat} (ha : a < 2 ^ 64) (ns : List Nat) :
    ns.foldl usizeAdd a = (a + ns.sum) % 2 ^ 64 := by
  induction ns generalizing a with
  | nil => exact (Nat.mod_eq_of_lt ha).symm
  | cons n rest ih =>
    rw [List.foldl_cons, ih (usizeAdd_lt a n), usizeAdd, Nat.mod_add_mod, List.sum_cons,
      Nat.add_assoc]

/-! ## Types -/

/-- `ByteOrder`. -/
inductive ByteOrder where
  | littleEndian | bigEndian
  deriving DecidableEq, Repr

/-- `Presence`. -/
inductive Presence where
  | required | optional | constant
  deriving DecidableEq, Repr

/-- `PrimitiveType`. -/
inductive PrimitiveType where
  | char | int8 | int16 | int32 | int64 | uint8 | uint16 | uint32 | uint64 | float | double
  deriving DecidableEq, Repr

namespace PrimitiveType

/-- `PrimitiveType::rust_type`. -/
def rustType : PrimitiveType → RustType
  | .char => .u8
  | .int8 => .i8
  | .int16 => .i16
  | .int32 => .i32
  | .int64 => .i64
  | .uint8 => .u8
  | .uint16 => .u16
  | .uint32 => .u32
  | .uint64 => .u64
  | .float => .f32
  | .double => .f64

/-- `PrimitiveType::size`. -/
def size : PrimitiveType → Nat
  | .char | .int8 | .uint8 => 1
  | .int16 | .uint16 => 2
  | .int32 | .uint32 | .float => 4
  | .int64 | .uint64 | .double => 8

/-- `PrimitiveType::from_sbe_name`. -/
def fromSbeName : String → Option PrimitiveType
  | "char" => some .char
  | "int8" => some .int8
  | "int16" => some .int16
  | "int32" => some .int32
  | "int64" => some .int64
  | "uint8" => some .uint8
  | "uint16" => some .uint16
  | "uint32" => some .uint32
  | "uint64" => some .uint64
  | "float" => some .float
  | "double" => some .double
  | _ => none

/-- `PrimitiveType::sbe_name`. -/
def sbeName : PrimitiveType → String
  | .char => "char"
  | .int8 => "int8"
  | .int16 => "int16"
  | .int32 => "int32"
  | .int64 => "int64"
  | .uint8 => "uint8"
  | .uint16 => "uint16"
  | .uint32 => "uint32"
  | .uint64 => "uint64"
  | .float => "float"
  | .double => "double"

/-- `PrimitiveType::is_signed`. -/
def isSigned : PrimitiveType → Bool
  | .int8 | .int16 | .int32 | .int64 => true
  | _ => false

/-- The size of a primitive type is that of its Rust type. -/
@[simp] theorem size_rustType (p : PrimitiveType) : p.rustType.size = p.size := by
  cases p <;> rfl

theorem size_pos (p : PrimitiveType) : 0 < p.size := by cases p <;> decide

theorem size_lt (p : PrimitiveType) : p.size < 2 ^ 64 := by cases p <;> decide

end PrimitiveType

/-- `PrimitiveDef`. -/
structure PrimitiveDef where
  name : String
  primitiveType : PrimitiveType
  length : Option UInt64 := none
  nullValue : Option String := none
  minValue : Option String := none
  maxValue : Option String := none
  characterEncoding : Option String := none
  semanticType : Option String := none
  description : Option String := none
  constantValue : Option String := none
  deriving DecidableEq, Repr

namespace PrimitiveDef

/-- `PrimitiveDef::encoded_length`. -/
def encodedLength (p : PrimitiveDef) : Nat :=
  match p.length with
  | none => p.primitiveType.size
  | some len => usizeMul p.primitiveType.size len.toNat

/-- `PrimitiveDef::is_array`. -/
def isArray (p : PrimitiveDef) : Bool := p.length.isSome && p.length != some 1

/-- A scalar takes the size of its type. -/
theorem encodedLength_of_not_isArray {p : PrimitiveDef} (h : p.isArray = false) :
    p.encodedLength = p.primitiveType.size := by
  unfold encodedLength
  cases hlen : p.length with
  | none => rfl
  | some len =>
    simp only [isArray, hlen, Option.isSome_some, Bool.true_and, bne_eq_false_iff_eq,
      Option.some.injEq] at h
    rw [h]
    exact usizeMul_one p.primitiveType.size_lt

theorem exists_length {p : PrimitiveDef} (h : p.isArray = true) : ∃ len, p.length = some len := by
  rw [isArray, Bool.and_eq_true] at h
  exact Option.isSome_iff_exists.mp h.1

/-- An array has as many bytes as elements exactly if the elements are bytes or there are none. -/
theorem encodedLength_eq_iff {p : PrimitiveDef} {len : UInt64} (h : p.length = some len) :
    p.encodedLength = len.toNat ↔ p.primitiveType.size = 1 ∨ len.toNat = 0 := by
  have hlt : len.toNat < 2 ^ 64 := len.toNat_lt
  have hwraps : ∀ {size}, Nat.Coprime (2 ^ 64) (size - 1) →
      usizeMul size len.toNat = len.toNat → len.toNat = 0 :=
    fun hodd heq => eq_zero_of_usizeMul_eq hodd hlt heq
  rw [encodedLength, h]
  refine ⟨fun heq => ?_, fun hor => ?_⟩
  · dsimp only at heq
    generalize p.primitiveType = t at heq ⊢
    cases t
    case char | int8 | uint8 => exact .inl rfl
    all_goals exact .inr (hwraps (by decide) heq)
  · dsimp only
    rcases hor with hone | hzero
    · rw [hone, usizeMul, Nat.one_mul, Nat.mod_eq_of_lt hlt]
    · rw [hzero]
      rfl

end PrimitiveDef

/-- `CompositeField`. -/
structure CompositeField where
  name : String
  typeName : String
  primitiveType : Option PrimitiveType := none
  offset : Option Nat := none
  encodedLength : Nat
  semanticType : Option String := none
  description : Option String := none
  constantValue : Option String := none
  deriving DecidableEq, Repr

/-- `CompositeDef`. -/
structure CompositeDef where
  name : String
  fields : List CompositeField := []
  description : Option String := none
  semanticType : Option String := none
  deriving DecidableEq, Repr

/-- `CompositeDef::encoded_length`. -/
def CompositeDef.encodedLength (c : CompositeDef) : Nat :=
  (c.fields.map (·.encodedLength)).foldl usizeAdd 0

theorem CompositeDef.encodedLength_eq (c : CompositeDef) :
    c.encodedLength = (c.fields.map (·.encodedLength)).sum % 2 ^ 64 := by
  rw [encodedLength, foldl_usizeAdd (by decide), Nat.zero_add]

/-- `EnumValue`. -/
structure EnumValue where
  name : String
  value : String
  description : Option String := none
  sinceVersion : Option UInt16 := none
  deprecated : Option UInt16 := none
  deriving DecidableEq, Repr

/-- `EnumValue::as_u64`. -/
def EnumValue.asU64 (v : EnumValue) : Option Nat := parseU64 v.value

/-- `EnumValue::as_i64`. -/
def EnumValue.asI64 (v : EnumValue) : Option Int := parseI64 v.value

/-- `EnumDef`. -/
structure EnumDef where
  name : String
  encodingType : PrimitiveType
  validValues : List EnumValue := []
  nullValue : Option String := none
  description : Option String := none
  deriving DecidableEq, Repr

/-- `SetChoice`. -/
structure SetChoice where
  name : String
  bitPosition : UInt8
  description : Option String := none
  sinceVersion : Option UInt16 := none
  deprecated : Option UInt16 := none
  deriving DecidableEq, Repr

/-- `SetDef`. -/
structure SetDef where
  name : String
  encodingType : PrimitiveType
  choices : List SetChoice := []
  description : Option String := none
  deriving DecidableEq, Repr

/-- `TypeDef`. -/
inductive TypeDef where
  | primitive (p : PrimitiveDef)
  | composite (c : CompositeDef)
  | enum (e : EnumDef)
  | set (s : SetDef)
  deriving DecidableEq, Repr

namespace TypeDef

/-- `TypeDef::name`. -/
def name : TypeDef → String
  | .primitive p => p.name
  | .composite c => c.name
  | .enum e => e.name
  | .set s => s.name

/-- `TypeDef::encoded_length`. -/
def encodedLength : TypeDef → Nat
  | .primitive p => p.encodedLength
  | .composite c => c.encodedLength
  | .enum e => e.encodingType.size
  | .set s => s.encodingType.size

theorem encodedLength_lt (t : TypeDef) : t.encodedLength < 2 ^ 64 := by
  cases t with
  | primitive p =>
    rw [encodedLength, PrimitiveDef.encodedLength]
    cases p.length with
    | none => exact p.primitiveType.size_lt
    | some len => exact usizeMul_lt _ _
  | composite c =>
    rw [encodedLength, CompositeDef.encodedLength_eq]
    exact Nat.mod_lt _ (by decide)
  | enum e => exact e.encodingType.size_lt
  | set s => exact s.encodingType.size_lt

end TypeDef

/-! ## Messages -/

/-- `FieldDef`. -/
structure FieldDef where
  name : String
  id : UInt16
  typeName : String
  offset : Nat
  presence : Presence := .required
  semanticType : Option String := none
  description : Option String := none
  sinceVersion : Option UInt16 := none
  deprecated : Option UInt16 := none
  valueRef : Option String := none
  encodedLength : Nat := 0
  deriving DecidableEq, Repr

/-- `DataFieldDef`. -/
structure DataFieldDef where
  name : String
  id : UInt16
  typeName : String
  description : Option String := none
  sinceVersion : Option UInt16 := none
  deprecated : Option UInt16 := none
  deriving DecidableEq, Repr

/-- `GroupDef`. -/
structure GroupDef where
  name : String
  id : UInt16
  blockLength : UInt16
  dimensionType : String := "groupSizeEncoding"
  description : Option String := none
  sinceVersion : Option UInt16 := none
  deprecated : Option UInt16 := none
  fields : List FieldDef := []
  nestedGroups : List GroupDef := []
  dataFields : List DataFieldDef := []

/-- `MessageDef`. -/
structure MessageDef where
  name : String
  id : UInt16
  blockLength : UInt16
  semanticType : Option String := none
  description : Option String := none
  sinceVersion : Option UInt16 := none
  deprecated : Option UInt16 := none
  fields : List FieldDef := []
  groups : List GroupDef := []
  dataFields : List DataFieldDef := []

end Schema

/-- `Schema`. -/
structure Schema where
  package : String
  id : UInt16
  version : UInt16
  semanticVersion : String := ""
  description : Option String := none
  byteOrder : Schema.ByteOrder := .littleEndian
  headerType : String := "messageHeader"
  types : List Schema.TypeDef := []
  messages : List Schema.MessageDef := []
  typeMap : List (String × Nat) := []

namespace Schema

/-- `Schema::add_type`. -/
def addType (s : Schema) (typeDef : TypeDef) : Schema :=
  { s with
    types := s.types ++ [typeDef]
    typeMap := (typeDef.name, s.types.length) :: s.typeMap }

/-- `Schema::get_type`. -/
def getType (s : Schema) (name : String) : Option TypeDef :=
  (s.typeMap.lookup name).bind fun index => s.types[index]?

/-- `Schema::has_type`. -/
def hasType (s : Schema) (name : String) : Bool := (s.typeMap.lookup name).isSome

end Schema

end IronSbe
