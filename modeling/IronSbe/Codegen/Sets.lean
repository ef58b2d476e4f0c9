import IronSbe.Lib.Bits
import IronSbe.Codegen.Accessor
import IronSbe.Schema.Acceptance

/-!
# Generated sets

`EnumGenerator::generate_set` makes a struct around the raw number of the encoding, with
`is_set`, `set` and `clear` for a bit and three methods for each choice.  The methods shift
by the position of the bit; for a signed encoding `>>` is the arithmetic shift.  `none` is
the panic of a shift by the width or more.

The validator keeps the positions below the width and different from each other.

* `BitSet.run_eq`: calls of the methods of the choices are changes to single bits.
* `setMethods_refine`: after any calls a choice is in the set if its last call has put it
  there, the bits of no choice are as they were, and the raw value determines the set.
-/

namespace IronSbe.Codegen

open IronSbe.Core IronSbe.Schema Lib.Bits Lib.Record List

/-! ## The generated struct -/

/-- The struct that is generated for a set. -/
structure BitSet (encoding : PrimitiveType) where
  value : BitVec (8 * encoding.size)
  deriving DecidableEq

/-- A shift by `bit` that is defined: the type is an integer and the width is not reached. -/
def Shiftable (encoding : PrimitiveType) (bit : UInt8) : Prop :=
  encoding.rustType.isInteger = true ∧ bit.toNat < 8 * encoding.size

instance (encoding : PrimitiveType) (bit : UInt8) : Decidable (Shiftable encoding bit) :=
  inferInstanceAs (Decidable (_ ∧ _))

theorem pow_size (encoding : PrimitiveType) :
    256 ^ encoding.rustType.size = 2 ^ (8 * encoding.size) := by
  rw [PrimitiveType.size_rustType, Nat.pow_mul]

namespace BitSet

variable {encoding : PrimitiveType}

/-- The generated `from_raw`. -/
def fromRaw (raw : Scalar) : BitSet encoding := ⟨BitVec.ofNat _ raw.bits⟩

/-- The generated `raw`. -/
def raw (s : BitSet encoding) : Scalar :=
  ⟨encoding.rustType, s.value.toNat, pow_size encoding ▸ s.value.isLt⟩

/-- `self.0 >> bit`. -/
def shiftRight (s : BitSet encoding) (bit : UInt8) : Option (BitVec (8 * encoding.size)) :=
  if Shiftable encoding bit then
    some (if encoding.rustType.isSigned then s.value.sshiftRight bit.toNat
      else s.value >>> bit.toNat)
  else none

/-- `1 << bit`. -/
def oneShiftLeft (encoding : PrimitiveType) (bit : UInt8) :
    Option (BitVec (8 * encoding.size)) :=
  if Shiftable encoding bit then some (1#_ <<< bit.toNat) else none

/-- The generated `is_set`. -/
def isSet (s : BitSet encoding) (bit : UInt8) : Option Bool :=
  (s.shiftRight bit).map fun x => x &&& 1#_ != 0#_

/-- The generated `set`. -/
def set (s : BitSet encoding) (bit : UInt8) : Option (BitSet encoding) :=
  (oneShiftLeft encoding bit).map fun mask => ⟨s.value ||| mask⟩

/-- The generated `clear`. -/
def clear (s : BitSet encoding) (bit : UInt8) : Option (BitSet encoding) :=
  (oneShiftLeft encoding bit).map fun mask => ⟨s.value &&& ~~~mask⟩

end BitSet

/-- A call of one of the two methods that are generated for a choice and change the set. -/
inductive SetCall where
  | set (choice : SetVariant)
  | clear (choice : SetVariant)
  deriving DecidableEq, Repr

namespace SetCall

/-- The choice that the call is about. -/
def choice : SetCall → SetVariant
  | .set choice | .clear choice => choice

/-- Whether the call puts the choice into the set. -/
def puts : SetCall → Bool
  | .set _ => true
  | .clear _ => false

/-- The last call on the choice. -/
def lastOn (choice : SetVariant) (calls : List SetCall) : Option SetCall :=
  calls.reverse.find? fun c => c.choice = choice

end SetCall

namespace BitSet

variable {encoding : PrimitiveType}

/-- The generated `is_<choice>`. -/
def isChoice (s : BitSet encoding) (choice : SetVariant) : Option Bool :=
  s.isSet choice.bitPosition

/-- The generated `set_<choice>` and `clear_<choice>`. -/
def call (s : BitSet encoding) : SetCall → Option (BitSet encoding)
  | .set choice => s.set choice.bitPosition
  | .clear choice => s.clear choice.bitPosition

/-- The calls, one after the other. -/
def run (s : BitSet encoding) (calls : List SetCall) : Option (BitSet encoding) :=
  calls.foldlM call s

/-! ## Bits -/

theorem isSet_eq {bit : UInt8} (h : Shiftable encoding bit) (s : BitSet encoding) :
    s.isSet bit = some (s.value.getLsbD bit.toNat) := by
  rw [isSet, shiftRight, if_pos h, Option.map_some]
  split_ifs
  · rw [lowBit_sshiftRight _ h.2]
  · rw [lowBit_ushiftRight]

theorem call_eq {c : SetCall} (h : Shiftable encoding c.choice.bitPosition)
    (s : BitSet encoding) :
    s.call c = some ⟨put s.value c.choice.bitPosition.toNat c.puts⟩ := by
  cases c with
  | set choice =>
    have hmask : oneShiftLeft encoding choice.bitPosition = some _ := if_pos h
    show s.set choice.bitPosition = _
    rw [set, hmask]
    rfl
  | clear choice =>
    have hmask : oneShiftLeft encoding choice.bitPosition = some _ := if_pos h
    show s.clear choice.bitPosition = _
    rw [clear, hmask]
    rfl

/-- The change that a call makes. -/
def change (c : SetCall) : Nat × Bool := (c.choice.bitPosition.toNat, c.puts)

/-- Calls whose shifts are defined are changes to single bits. -/
theorem run_eq {calls : List SetCall}
    (h : ∀ c ∈ calls, Shiftable encoding c.choice.bitPosition) (s : BitSet encoding) :
    s.run calls = some ⟨putAll s.value (calls.map change)⟩ := by
  induction calls generalizing s with
  | nil => rfl
  | cons c rest ih =>
    rw [forall_mem_cons] at h
    rw [run, foldlM_cons, call_eq h.1]
    exact ih h.2 _

theorem value_fromRaw (r : Scalar) (htype : r.type = encoding.rustType) (i : Nat) :
    (fromRaw r : BitSet encoding).value.getLsbD i = r.bits.testBit i := by
  have hlt : r.bits < 2 ^ (8 * encoding.size) := by
    rw [← pow_size, ← htype]
    exact r.bits_lt
  show (BitVec.ofNat _ r.bits).getLsbD i = _
  rw [BitVec.getLsbD, BitVec.toNat_ofNat, Nat.mod_eq_of_lt hlt]

theorem fromRaw_raw (s : BitSet encoding) : fromRaw s.raw = s := by
  show BitSet.mk (BitVec.ofNat _ s.value.toNat) = s
  rw [BitVec.ofNat_toNat, BitVec.setWidth_eq]

theorem testBit_raw (s : BitSet encoding) (i : Nat) :
    s.raw.bits.testBit i = s.value.getLsbD i := rfl

end BitSet

/-! ## Choices -/

/-- The last change of the bit of a choice is the last call on it, if no other choice has
its bit. -/
theorem lastAssigned_change {choices : List SetVariant}
    (hinj : ∀ c ∈ choices, ∀ d ∈ choices, c.bitPosition = d.bitPosition → c = d)
    {calls : List SetCall} (hcalls : ∀ c ∈ calls, c.choice ∈ choices) {y : SetVariant}
    (hy : y ∈ choices) :
    lastAssigned (calls.map BitSet.change) y.bitPosition.toNat =
      (SetCall.lastOn y calls).map SetCall.puts := by
  induction calls with
  | nil => rfl
  | cons c rest ih =>
    rw [forall_mem_cons] at hcalls
    rw [map_cons, lastAssigned, ih hcalls.2, SetCall.lastOn, SetCall.lastOn,
      reverse_cons, find?_append, Option.map_or]
    congr 1
    show (if c.choice.bitPosition.toNat = y.bitPosition.toNat then some c.puts else none) = _
    by_cases hc : c.choice = y
    · rw [if_pos (by rw [hc]), find?_cons_of_pos (by simpa using hc), Option.map_some]
    · have hne : c.choice.bitPosition.toNat ≠ y.bitPosition.toNat := by
        intro hpos
        exact hc (hinj _ hcalls.1 y hy (UInt8.toNat_inj.mp hpos))
      rw [if_neg hne, find?_cons_of_neg (by simpa using hc), find?_nil, Option.map_none]

/-- The choices that methods are generated for. -/
def choicesOf (setDef : SetDef) : List SetVariant :=
  match (ResolvedType.fromTypeDef (.set setDef)).kind with
  | .set _ choices => choices
  | _ => []

theorem mem_choicesOf {setDef : SetDef} {y : SetVariant} :
    y ∈ choicesOf setDef ↔ ∃ c ∈ setDef.choices, SetVariant.mk c.name c.bitPosition = y :=
  mem_map

/-- In a set that passes its check, the shifts are defined and a choice is given by its bit. -/
theorem choicesOf_of_validateSet {setDef : SetDef} (h : validateSet setDef = .ok ()) :
    (∀ y ∈ choicesOf setDef, y.bitPosition.toNat < 8 * setDef.encodingType.size) ∧
      ∀ y ∈ choicesOf setDef, ∀ z ∈ choicesOf setDef, y.bitPosition = z.bitPosition → y = z := by
  obtain ⟨hmax, -, hnodup⟩ := validateChoices_eq_ok_iff.mp h
  refine ⟨fun y hy => ?_, fun y hy z hz heq => ?_⟩
  · obtain ⟨c, hc, rfl⟩ := mem_choicesOf.mp hy
    have hlt := hmax c hc
    rwa [Nat.mul_comm] at hlt
  · obtain ⟨c, hc, rfl⟩ := mem_choicesOf.mp hy
    obtain ⟨d, hd, rfl⟩ := mem_choicesOf.mp hz
    rw [inj_on_of_nodup_map hnodup hc hd heq]

/-- For every set over an integer type in a schema that validates, every raw value and every
sequence of `set_x` and `clear_x` calls: no shift overflows, `is_y` is what the last call on
`y` made it or what the bit of `y` was in the raw value, the bits of no choice are those of
the raw value, and the raw value gives the set back. -/
theorem setMethods_refine {schema : Schema} (hvalid : validateSchema schema = .ok ())
    {setDef : SetDef} (hset : .set setDef ∈ schema.types)
    (hinteger : setDef.encodingType.rustType.isInteger = true)
    (r : Scalar) (htype : r.type = setDef.encodingType.rustType)
    (calls : List SetCall) (hcalls : ∀ c ∈ calls, c.choice ∈ choicesOf setDef) :
    ∃ s : BitSet setDef.encodingType, (BitSet.fromRaw r).run calls = some s ∧
      (∀ y ∈ choicesOf setDef, s.isChoice y = some (match SetCall.lastOn y calls with
        | some c => c.puts
        | none => r.bits.testBit y.bitPosition.toNat)) ∧
      (∀ i, (∀ y ∈ choicesOf setDef, y.bitPosition.toNat ≠ i) →
        s.raw.bits.testBit i = r.bits.testBit i) ∧
      BitSet.fromRaw s.raw = s := by
  obtain ⟨hmax, hinj⟩ := choicesOf_of_validateSet (checked_of_validateSchema hvalid hset)
  have hshift : ∀ y ∈ choicesOf setDef, Shiftable setDef.encodingType y.bitPosition :=
    fun y hy => ⟨hinteger, hmax y hy⟩
  have hbits : ∀ c ∈ calls.map BitSet.change, c.1 < 8 * setDef.encodingType.size := by
    rw [forall_mem_map]
    exact fun c hc => hmax _ (hcalls c hc)
  refine ⟨_, BitSet.run_eq (fun c hc => hshift _ (hcalls c hc)) _, ?_, ?_, BitSet.fromRaw_raw _⟩
  · intro y hy
    rw [BitSet.isChoice, BitSet.isSet_eq (hshift y hy)]
    rw [getLsbD_putAll hbits, BitSet.value_fromRaw r htype, lastAssigned_change hinj hcalls hy]
    cases SetCall.lastOn y calls <;> rfl
  · intro i hi
    rw [BitSet.testBit_raw]
    have hnone : lastAssigned (calls.map BitSet.change) i = none := by
      rw [Option.eq_none_iff_forall_ne_some]
      intro b hb
      obtain ⟨c, hc, heq⟩ := mem_map.mp (mem_of_lastAssigned hb)
      exact hi _ (hcalls c hc) (Prod.mk.inj heq).1
    rw [getLsbD_putAll hbits, hnone, Option.getD_none, BitSet.value_fromRaw r htype]

/-- A set over `int8` whose second choice is the sign bit. -/
def flagsSet : SetDef where
  name := "Flags"
  encodingType := .int8
  choices := [⟨"hidden", 1, none, none, none⟩, ⟨"urgent", 7, none, none, none⟩]

theorem setMethods_refine_flags :
    ∃ s : BitSet .int8,
      (BitSet.fromRaw (.ofInt .i8 5)).run
        [.set ⟨"urgent", 7⟩, .set ⟨"hidden", 1⟩, .clear ⟨"hidden", 1⟩] = some s ∧
      s.isChoice ⟨"urgent", 7⟩ = some true ∧ s.isChoice ⟨"hidden", 1⟩ = some false ∧
      s.raw.bits.testBit 2 = true := by
  have hvalid : validateSchema { package := "", id := 1, version := 1, types := [.set flagsSet] } =
      .ok () := rfl
  obtain ⟨s, hrun, hchoice, hother, -⟩ := setMethods_refine hvalid mem_cons_self rfl
    (.ofInt .i8 5) rfl [.set ⟨"urgent", 7⟩, .set ⟨"hidden", 1⟩, .clear ⟨"hidden", 1⟩] (by decide)
  refine ⟨s, hrun, ?_, ?_, ?_⟩
  · exact hchoice ⟨"urgent", 7⟩ (by decide)
  · exact hchoice ⟨"hidden", 1⟩ (by decide)
  · exact (hother 2 (by decide)).trans rfl

end IronSbe.Codegen
