import Mathlib.Data.List.Nodup
import IronSbe.Lib.Record
import IronSbe.Core.Header
import IronSbe.Schema.Ir

/-!
# Generated field accessors

The generated getters and setters are modelled by what their bodies do.  An
`Accessor` is a `View` at an offset of the block: the read or write method of a
primitive, a byte range, an enum conversion or a set conversion around a
primitive.  A composite field gives one accessor for each member, which is the
call on the wrapper that the field's own accessor returns.

* `View.get_eq`, `View.set_eq`: a getter decodes a fixed range, and a setter is
  one write of that range.
* `Supported.layout`: for the field kinds that the codec is made for, the
  setters write where the getters read, inside the field and apart from each
  other.
-/

namespace IronSbe.Codegen

open IronSbe.Core IronSbe.Schema Lib.Slice Lib.Record

/-! ## Values -/

/-- What a generated getter returns and a setter takes.  An enum value is its
variant and a set is its raw number. -/
inductive FieldValue where
  | scalar (v : Scalar)
  | bytes (data : List UInt8)
  | enum (variant : EnumVariant)
  | set (raw : Scalar)
  deriving DecidableEq, Repr

/-- `get_read_method`. -/
def getReadMethod : Option PrimitiveType → Buffer → Nat → Option Scalar
  | some .char | some .uint8 => getU8
  | some .int8 => getI8
  | some .uint16 => getU16Le
  | some .int16 => getI16Le
  | some .uint32 => getU32Le
  | some .int32 => getI32Le
  | some .uint64 => getU64Le
  | some .int64 => getI64Le
  | some .float => getF32Le
  | some .double => getF64Le
  | none => getU64Le

/-- `get_write_method`. -/
def getWriteMethod : Option PrimitiveType → Buffer → Nat → Scalar → Option Buffer
  | some .char | some .uint8 => putU8
  | some .int8 => putI8
  | some .uint16 => putU16Le
  | some .int16 => putI16Le
  | some .uint32 => putU32Le
  | some .int32 => putI32Le
  | some .uint64 => putU64Le
  | some .int64 => putI64Le
  | some .float => putF32Le
  | some .double => putF64Le
  | none => putU64Le

/-- The type of the values of a read or write method. -/
def methodType : Option PrimitiveType → RustType
  | some prim => prim.rustType
  | none => .u64

theorem getReadMethod_eq (prim : Option PrimitiveType) :
    getReadMethod prim = getLe (methodType prim) := by
  rcases prim with _ | (_ | _ | _ | _ | _ | _ | _ | _ | _ | _ | _) <;> rfl

theorem getWriteMethod_eq (prim : Option PrimitiveType) :
    getWriteMethod prim = putTyped (methodType prim) := by
  rcases prim with _ | (_ | _ | _ | _ | _ | _ | _ | _ | _ | _ | _) <;> rfl

/-- The generated `From<primitive>` of an enum: the variant of that value, and
the first variant for a value that no variant has.  (There is no such code for
an enum without variants.) -/
def enumFrom (variants : List EnumVariant) (value : Int) : EnumVariant :=
  (variants.find? fun v => v.value == value).getD (variants.headD ⟨"", value⟩)

theorem enumFrom_singleton (v : EnumVariant) (value : Int) : enumFrom [v] value = v := by
  unfold enumFrom
  by_cases h : v.value = value <;> simp [h]

/-- The conversion of a variant's own value is the variant. -/
theorem enumFrom_value {variants : List EnumVariant} (h : (variants.map (·.value)).Nodup)
    {v : EnumVariant} (hv : v ∈ variants) : enumFrom variants v.value = v := by
  have hfind : variants.find? (fun u => u.value == v.value) = some v := by
    obtain ⟨u, hu⟩ : ∃ u, variants.find? (fun u => u.value == v.value) = some u :=
      Option.isSome_iff_exists.mp (List.find?_isSome.mpr ⟨v, hv, beq_self_eq_true _⟩)
    have hvalue : u.value = v.value := by simpa using List.find?_some hu
    rw [hu, List.inj_on_of_nodup_map h (List.mem_of_find?_eq_some hu) hv hvalue]
  rw [enumFrom, hfind, Option.getD_some]

/-! ## Views -/

/-- The body of a generated accessor, at a position of the buffer. -/
inductive View where
  | scalar (prim : Option PrimitiveType)
  | bytes (len : Nat)
  | enumeration (encoding : PrimitiveType) (variants : List EnumVariant)
  | bitset (encoding : PrimitiveType)
  deriving DecidableEq, Repr

namespace View

/-- The body of a getter. -/
def get (buf : Buffer) (pos : Nat) : View → Option FieldValue
  | .scalar prim => (getReadMethod prim buf pos).map .scalar
  | .bytes len => (slice buf pos (pos + len)).map .bytes
  | .enumeration encoding variants =>
    (getReadMethod (some encoding) buf pos).map fun raw => .enum (enumFrom variants raw.toInt)
  | .bitset encoding => (getReadMethod (some encoding) buf pos).map .set

/-- The body of a setter.  There is no call with a value of another type. -/
def set (buf : Buffer) (pos : Nat) : View → FieldValue → Option Buffer
  | .scalar prim, .scalar v => getWriteMethod prim buf pos v
  | .bytes len, .bytes value => do
    let copyLen := min value.length len
    let buf ← blit buf pos (value.take copyLen)
    if copyLen < len then blit buf (pos + copyLen) (List.replicate (len - copyLen) 0)
    else some buf
  | .enumeration encoding variants, .enum v =>
    if v ∈ variants then
      getWriteMethod (some encoding) buf pos (.ofInt encoding.rustType v.value)
    else none
  | .bitset encoding, .set raw => getWriteMethod (some encoding) buf pos raw
  | _, _ => none

/-- The number of bytes that the accessor reads. -/
def width : View → Nat
  | .scalar prim => (methodType prim).size
  | .bytes len => len
  | .enumeration encoding _ => encoding.size
  | .bitset encoding => encoding.size

/-- The values of the accessor's type. -/
def Accepts : View → FieldValue → Prop
  | .scalar prim, .scalar v => v.type = methodType prim
  | .bytes _, .bytes _ => True
  | .enumeration _ variants, .enum v => v ∈ variants
  | .bitset encoding, .set raw => raw.type = encoding.rustType
  | _, _ => False

instance (view : View) (value : FieldValue) : Decidable (view.Accepts value) :=
  match view, value with
  | .scalar _, .scalar _ => inferInstanceAs (Decidable (_ = _))
  | .bytes _, .bytes _ => inferInstanceAs (Decidable True)
  | .enumeration _ _, .enum _ => inferInstanceAs (Decidable (_ ∈ _))
  | .bitset _, .set _ => inferInstanceAs (Decidable (_ = _))
  | .scalar _, .bytes _ | .scalar _, .enum _ | .scalar _, .set _
  | .bytes _, .scalar _ | .bytes _, .enum _ | .bytes _, .set _
  | .enumeration _ _, .scalar _ | .enumeration _ _, .bytes _ | .enumeration _ _, .set _
  | .bitset _, .scalar _ | .bitset _, .bytes _ | .bitset _, .enum _ =>
    inferInstanceAs (Decidable False)

/-- `value` cut to `len` bytes, or filled up to them with zeros. -/
def padTo (len : Nat) (value : List UInt8) : List UInt8 :=
  value.take len ++ List.replicate (len - value.length) 0

@[simp] theorem length_padTo (len : Nat) (value : List UInt8) : (padTo len value).length = len := by
  simp only [padTo, List.length_append, List.length_take, List.length_replicate]
  omega

/-- The bytes that a setter leaves. -/
def encode : View → FieldValue → List UInt8
  | .scalar _, .scalar v => v.bytes
  | .bytes len, .bytes value => padTo len value
  | .enumeration encoding _, .enum v => (Scalar.ofInt encoding.rustType v.value).bytes
  | .bitset _, .set raw => raw.bytes
  | _, _ => []

/-- The value that a getter sees in its bytes. -/
def decode : View → List UInt8 → FieldValue
  | .scalar prim, data => .scalar (.ofBytes (methodType prim) data)
  | .bytes _, data => .bytes data
  | .enumeration encoding variants, data =>
    .enum (enumFrom variants (Scalar.ofBytes encoding.rustType data).toInt)
  | .bitset encoding, data => .set (.ofBytes encoding.rustType data)

variable {view : View} {value : FieldValue}

theorem length_encode (h : view.Accepts value) :
    (view.encode value).length = view.width := by
  cases view <;> cases value <;> simp only [Accepts] at h <;>
    simp only [encode, width, Scalar.length_bytes, length_padTo, h]
  all_goals exact PrimitiveType.size_rustType _

/-- The view as a codec of its bytes. -/
def codec (view : View) : Codec UInt8 FieldValue where
  width := view.width
  Accepts := view.Accepts
  encode := view.encode
  decode := view.decode
  length_encode := fun _ h => length_encode h

/-- A getter decodes the range of its width. -/
theorem get_eq (view : View) (buf : Buffer) (pos : Nat) :
    view.get buf pos = (slice buf pos (pos + view.width)).map view.decode := by
  cases view <;>
    simp only [get, getReadMethod_eq, getLe, methodType, width, PrimitiveType.size_rustType,
      Option.map_map] <;> rfl

/-- The copy and the zero fill of an array setter are one write. -/
theorem set_bytes_eq (buf : Buffer) (pos len : Nat) (value : List UInt8) :
    set buf pos (.bytes len) (.bytes value) = blit buf pos (padTo len value) := by
  have hlen : (value.take len).length = min value.length len := by
    rw [List.length_take, Nat.min_comm]
  have htake : value.take (min value.length len) = value.take len := by
    rw [Nat.min_comm, ← List.take_take, List.take_length]
  have hfill : len - min value.length len = len - value.length := by omega
  simp only [set, bind, htake, hfill]
  rw [padTo, blit_append, hlen]
  cases hcopy : blit buf pos (value.take len) with
  | none => rfl
  | some next =>
    simp only [Option.bind_some]
    split_ifs with h
    · rfl
    · have hnone : len - value.length = 0 := by omega
      have hnext : next.length = buf.length := length_of_blit hcopy
      unfold blit at hcopy
      split_ifs at hcopy with hfit
      rw [hnone, List.replicate_zero, blit_nil (by omega)]

/-- A setter is one write. -/
theorem set_eq (h : view.Accepts value) (buf : Buffer) (pos : Nat) :
    view.set buf pos value = (Write.mk pos (view.encode value)).apply buf := by
  cases view <;> cases value <;> simp only [Accepts] at h
  case scalar.scalar =>
    rw [set, getWriteMethod_eq]
    exact putTyped_eq h buf pos
  case bytes.bytes len data => exact set_bytes_eq buf pos len data
  case enumeration.enum encoding variants v =>
    rw [set, if_pos h, getWriteMethod_eq]
    exact putTyped_eq rfl buf pos
  case bitset.set =>
    rw [set, getWriteMethod_eq]
    exact putTyped_eq h buf pos

/-- What a value reads as after it was set: byte arrays are cut or padded. -/
def normalize : View → FieldValue → FieldValue
  | .bytes len, .bytes value => .bytes (padTo len value)
  | _, value => value

/-- The conversions of the view lose nothing: the values of an enum are
different integers of its encoding. -/
def WellFormed : View → Prop
  | .enumeration encoding variants =>
    encoding.rustType.isInteger = true ∧ (variants.map (·.value)).Nodup ∧
      ∀ v ∈ variants, encoding.rustType.InRange v.value
  | _ => True

/-- A value that was set reads as its normal form. -/
theorem decode_encode (hview : view.WellFormed) (h : view.Accepts value) :
    view.decode (view.encode value) = view.normalize value := by
  cases view <;> cases value <;> simp only [Accepts] at h
  case scalar.scalar v => simp only [encode, decode, normalize, ← h, Scalar.ofBytes_bytes]
  case bytes.bytes => rfl
  case enumeration.enum encoding variants v =>
    have hbytes := Scalar.ofBytes_bytes (.ofInt encoding.rustType v.value)
    have hint := Scalar.toInt_ofInt (hview.2.2 v h)
    simp only [encode, decode, normalize]
    rw [show Scalar.ofBytes encoding.rustType _ = _ from hbytes, hint,
      enumFrom_value hview.2.1 h]
  case bitset.set raw => simp only [encode, decode, normalize, ← h, Scalar.ofBytes_bytes]

/-- Every byte string of its width is a value of the view, which is the case
for all views but enums. -/
def Exact : View → Prop
  | .enumeration _ _ => False
  | _ => True

instance (view : View) : Decidable view.Exact :=
  match view with
  | .scalar _ | .bytes _ | .bitset _ => inferInstanceAs (Decidable True)
  | .enumeration _ _ => inferInstanceAs (Decidable False)

theorem accepts_decode (h : view.Exact) (data : List UInt8) :
    view.Accepts (view.decode data) := by
  cases view with
  | enumeration => exact h.elim
  | bytes => trivial
  | scalar | bitset => rfl

theorem normalize_decode {data : List UInt8} (hlen : data.length = view.width) :
    view.normalize (view.decode data) = view.decode data := by
  cases view with
  | bytes len =>
    simp only [width] at hlen
    simp [decode, normalize, padTo, ← hlen]
  | scalar | enumeration | bitset => rfl

/-- Different bytes are different values. -/
theorem decode_inj (h : view.Exact) {d₁ d₂ : List UInt8} (h₁ : d₁.length = view.width)
    (h₂ : d₂.length = view.width) (heq : view.decode d₁ = view.decode d₂) : d₁ = d₂ := by
  cases view with
  | enumeration => exact h.elim
  | bytes => exact FieldValue.bytes.inj heq
  | scalar prim =>
    rw [← Scalar.bytes_ofBytes h₁, ← Scalar.bytes_ofBytes h₂, FieldValue.scalar.inj heq]
  | bitset encoding =>
    have hsize : View.width (.bitset encoding) = encoding.rustType.size :=
      encoding.size_rustType.symm
    rw [← Scalar.bytes_ofBytes (h₁.trans hsize), ← Scalar.bytes_ofBytes (h₂.trans hsize),
      FieldValue.set.inj heq]

end View

end IronSbe.Codegen
