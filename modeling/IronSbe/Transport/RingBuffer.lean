import IronSbe.Lib.LittleEndian
import IronSbe.Lib.Ring

/-!
# The shared-memory ring buffer as a mapped file

`SharedRingBuffer` is a file that two processes map: a control block at the
front and a data region behind it.  This module is that file byte by byte.
The control block is the `repr(C)` struct (`headOffset`, `tailOffset`,
`capacityOffset`, `maskOffset`, `controlBlockSize`), the data region starts at
`headerSize`, and every call reads its fields from the file again.

The struct is 144 bytes long and the data region starts at byte 128, so the
last two fields lie in the data region.

* `write_of_refused`, `read_of_fresh`: the calls that leave a fresh file alone.
* `load_capacity_of_write`: what the first message that fits puts in place of
  the capacity.
* `controlBlockSafe_iff`: the control block survives exactly the calls that
  never write anything.

Field accesses outside the file and panics are told apart by `Fault`.
Arithmetic is that of a build with overflow checks: an overflow is a panic.
-/

namespace IronSbe.Transport

open Lib.Bytes Lib.Slice List

/-- Why a call did not return. -/
inductive Fault where
  | outsideFile
  | panic
  deriving DecidableEq, Repr

/-- The bytes of the mapped file. -/
abbrev Mapping := List UInt8

namespace SharedRingBuffer

/-! ## Layout -/

/-- `HEADER_SIZE`, where the data region starts. -/
def headerSize : Nat := 128

/-- `head: AtomicU64` is the first field. -/
def headOffset : Nat := 0

/-- `tail: AtomicU64` follows `head` and its 56 bytes of padding. -/
def tailOffset : Nat := headOffset + 8 + 56

/-- `capacity: u64` follows `tail` and its 56 bytes of padding. -/
def capacityOffset : Nat := tailOffset + 8 + 56

/-- `mask: u64` follows `capacity`. -/
def maskOffset : Nat := capacityOffset + 8

/-- `size_of::<SharedRingBuffer>()`. -/
def controlBlockSize : Nat := maskOffset + 8

/-- Read a field of the control block. -/
def load (mmap : Mapping) (offset : Nat) : Except Fault Nat :=
  match slice mmap offset (offset + 8) with
  | some bytes => .ok (leNat bytes)
  | none => .error .outsideFile

/-- Write a field of the control block. -/
def store (mmap : Mapping) (offset value : Nat) : Except Fault Mapping :=
  match blit mmap offset (leBytes 8 value) with
  | some mmap => .ok mmap
  | none => .error .outsideFile

/-- Subtraction of `u64`. -/
def checkedSub (a b : Nat) : Except Fault Nat :=
  if b ≤ a then .ok (a - b) else .error .panic

/-- Addition of `u64`. -/
def checkedAdd (a b : Nat) : Except Fault Nat :=
  if a + b < 2 ^ 64 then .ok (a + b) else .error .panic

/-- `is_power_of_two`. -/
def isPowerOfTwo (n : Nat) : Bool := 2 ^ n.log2 == n

/-- `SharedRingBuffer::create` once the file is open: `set_len` fills the file
with zeros and the four fields are stored. -/
def create (capacity : Nat) : Except Fault Mapping := do
  if isPowerOfTwo capacity then
    let mmap := List.replicate (headerSize + capacity) 0
    let mmap ← store mmap headOffset 0
    let mmap ← store mmap tailOffset 0
    let mmap ← store mmap capacityOffset capacity
    store mmap maskOffset (capacity - 1)
  else
    .error .panic

/-! ## Calls -/

/-- `write_with_wrap` on the data region, a slice of `capacity` bytes; `none`
is a panic. -/
def writeWithWrap (dataRegion : List UInt8) (offset : Nat) (data : List UInt8)
    (capacity : Nat) : Option (List UInt8) :=
  if capacity = 0 then none
  else Lib.Ring.copyIn dataRegion ((offset - headerSize) % capacity) data

/-- `read_with_wrap` on the data region. -/
def readWithWrap (dataRegion : List UInt8) (offset len capacity : Nat) : Option (List UInt8) :=
  if capacity = 0 then none
  else Lib.Ring.copyOut dataRegion ((offset - headerSize) % capacity) len

/-- The data region of the file, `mmap[HEADER_SIZE..HEADER_SIZE + capacity]`. -/
def dataRegion (mmap : Mapping) (capacity : Nat) : Except Fault (List UInt8) :=
  match slice mmap headerSize (headerSize + capacity) with
  | some region => .ok region
  | none => .error .panic

/-- `write_with_wrap` on the file. -/
def writeMapping (mmap : Mapping) (offset : Nat) (data : List UInt8) (capacity : Nat) :
    Except Fault Mapping := do
  let region ← dataRegion mmap capacity
  match writeWithWrap region offset data capacity with
  | some region => .ok (overwrite mmap headerSize region)
  | none => .error .panic

/-- `read_with_wrap` on the file. -/
def readMapping (mmap : Mapping) (offset len capacity : Nat) : Except Fault (List UInt8) := do
  let region ← dataRegion mmap capacity
  match readWithWrap region offset len capacity with
  | some data => .ok data
  | none => .error .panic

/-- `SharedProducer::write`. -/
def write (mmap : Mapping) (data : List UInt8) : Except Fault (Bool × Mapping) := do
  let head ← load mmap headOffset
  let tail ← load mmap tailOffset
  let capacity ← load mmap capacityOffset
  let mask ← load mmap maskOffset
  let used ← checkedSub head tail
  let available ← checkedSub capacity used
  let needed := 4 + data.length
  if available < needed then
    return (false, mmap)
  let offset := headerSize + (head &&& mask)
  let mmap ← writeMapping mmap offset (leBytes 4 (data.length % 2 ^ 32)) capacity
  let mmap ← writeMapping mmap (offset + 4) data capacity
  let head ← checkedAdd head needed
  let mmap ← store mmap headOffset head
  return (true, mmap)

/-- `SharedConsumer::read`. -/
def read (mmap : Mapping) : Except Fault (Option (List UInt8) × Mapping) := do
  let tail ← load mmap tailOffset
  let head ← load mmap headOffset
  if head ≤ tail then
    return (none, mmap)
  let mask ← load mmap maskOffset
  let offset := headerSize + (tail &&& mask)
  let capacity ← load mmap capacityOffset
  let lenBytes ← readMapping mmap offset 4 capacity
  let len := leNat lenBytes
  let capacity ← load mmap capacityOffset
  let data ← readMapping mmap (offset + 4) len capacity
  let tail ← checkedAdd tail (4 + len)
  let mmap ← store mmap tailOffset tail
  return (some data, mmap)

/-- One call on the mapping by its producer or its consumer. -/
inductive Call where
  | write (data : List UInt8)
  | read
  deriving DecidableEq, Repr

/-- The mapping after the call, if it does not fail. -/
def Call.exec (mmap : Mapping) : Call → Except Fault Mapping
  | .write data => (SharedRingBuffer.write mmap data).map Prod.snd
  | .read => (SharedRingBuffer.read mmap).map Prod.snd

/-- The file after the calls, made one after the other. -/
def runCalls : Mapping → List Call → Except Fault Mapping
  | mmap, [] => .ok mmap
  | mmap, call :: calls => do
    let mmap ← call.exec mmap
    runCalls mmap calls

/-! ## Fields of the control block -/

variable {mmap : Mapping} {value offset capacity : Nat} {data : List UInt8} {calls : List Call}

theorem load_eq_ok_iff :
    load mmap offset = .ok value ↔
      ∃ bytes, slice mmap offset (offset + 8) = some bytes ∧ leNat bytes = value := by
  unfold load
  cases slice mmap offset (offset + 8) with
  | none | some bytes => simp

/-- A store inside the file: the field holds the value, and every other field
what it held. -/
theorem store_spec (mmap : Mapping) (h : offset + 8 ≤ mmap.length) (hvalue : value < 2 ^ 64) :
    ∃ mmap', store mmap offset value = .ok mmap' ∧ mmap'.length = mmap.length ∧
      load mmap' offset = .ok value ∧
      ∀ o, o + 8 ≤ offset ∨ offset + 8 ≤ o → load mmap' o = load mmap o := by
  have hfit : offset + (leBytes 8 value).length ≤ mmap.length := by rwa [length_leBytes]
  refine ⟨overwrite mmap offset (leBytes 8 value), ?_, length_overwrite hfit, ?_, fun o ho => ?_⟩
  · rw [store, blit, if_pos hfit]
  · refine load_eq_ok_iff.mpr ⟨leBytes 8 value, ?_, leNat_leBytes (by simpa using hvalue)⟩
    have hsame := slice_overwrite_same hfit
    rwa [length_leBytes] at hsame
  · have hapart : Apart (offset, offset + (leBytes 8 value).length) (o, o + 8) := by
      rw [length_leBytes, Apart]
      omega
    rw [load, slice_overwrite_frame hfit hapart, load]

theorem store_eq_error (h : mmap.length < offset + 8) (value : Nat) :
    store mmap offset value = .error .outsideFile := by
  rw [store, blit, length_leBytes, if_neg (by omega)]

/-- The file as `create` leaves it. -/
structure Fresh (capacity : Nat) (mmap : Mapping) : Prop where
  length_eq : mmap.length = headerSize + capacity
  load_head : load mmap headOffset = .ok 0
  load_tail : load mmap tailOffset = .ok 0
  load_capacity : load mmap capacityOffset = .ok capacity
  load_mask : load mmap maskOffset = .ok (capacity - 1)

/-- With room for the whole control block `create` stores its four fields. -/
theorem create_fresh (hpow : isPowerOfTwo capacity = true) (hroom : 16 ≤ capacity)
    (hfit : capacity < 2 ^ 64) :
    ∃ mmap, create capacity = .ok mmap ∧ Fresh capacity mmap := by
  have hlen : (replicate (headerSize + capacity) (0 : UInt8)).length =
      headerSize + capacity := length_replicate
  have hh : headOffset = 0 := rfl
  have ht : tailOffset = 64 := rfl
  have hc : capacityOffset = 128 := rfl
  have hm : maskOffset = 136 := rfl
  have hs : headerSize = 128 := rfl
  obtain ⟨m₁, e₁, l₁, v₁, f₁⟩ := store_spec (replicate (headerSize + capacity) 0)
    (show headOffset + 8 ≤ _ by omega) (show 0 < 2 ^ 64 by omega)
  obtain ⟨m₂, e₂, l₂, v₂, f₂⟩ := store_spec m₁ (show tailOffset + 8 ≤ _ by omega)
    (show 0 < 2 ^ 64 by omega)
  obtain ⟨m₃, e₃, l₃, v₃, f₃⟩ := store_spec m₂ (show capacityOffset + 8 ≤ _ by omega) hfit
  obtain ⟨m₄, e₄, l₄, v₄, f₄⟩ := store_spec m₃ (show maskOffset + 8 ≤ _ by omega)
    (show capacity - 1 < 2 ^ 64 by omega)
  refine ⟨m₄, ?_, by omega, ?_, ?_, ?_, v₄⟩
  · rw [create, if_pos hpow]
    simp only [bind, Except.bind, e₁, e₂, e₃, e₄]
  · rw [f₄ _ (by omega), f₃ _ (by omega), f₂ _ (by omega), v₁]
  · rw [f₄ _ (by omega), f₃ _ (by omega), v₂]
  · rw [f₄ _ (by omega), v₃]

/-- With less room the store of `mask` at the latest falls outside the file. -/
theorem create_eq_error (hpow : isPowerOfTwo capacity = true) (hroom : capacity < 16) :
    create capacity = .error .outsideFile := by
  have hlen : (replicate (headerSize + capacity) (0 : UInt8)).length =
      headerSize + capacity := length_replicate
  have hh : headOffset = 0 := rfl
  have ht : tailOffset = 64 := rfl
  have hc : capacityOffset = 128 := rfl
  have hm : maskOffset = 136 := rfl
  have hs : headerSize = 128 := rfl
  obtain ⟨m₁, e₁, l₁, -⟩ := store_spec (replicate (headerSize + capacity) 0)
    (show headOffset + 8 ≤ _ by omega) (show 0 < 2 ^ 64 by omega)
  obtain ⟨m₂, e₂, l₂, -⟩ := store_spec m₁ (show tailOffset + 8 ≤ _ by omega)
    (show 0 < 2 ^ 64 by omega)
  rw [create, if_pos hpow]
  simp only [bind, Except.bind, e₁, e₂]
  by_cases hsmall : capacity < 8
  · rw [store_eq_error (by omega)]
  · obtain ⟨m₃, e₃, l₃, -⟩ := store_spec m₂ (show capacityOffset + 8 ≤ _ by omega)
      (show capacity < 2 ^ 64 by omega)
    simp only [e₃]
    exact store_eq_error (by omega) _

/-! ## Calls on a fresh file -/

variable {capacity : Nat} {mmap : Mapping}

/-- A message that does not fit is refused, and the file stays as it is. -/
theorem write_of_refused (hf : Fresh capacity mmap) (hbig : capacity < 4 + data.length) :
    write mmap data = .ok (false, mmap) := by
  simp only [write, bind, Except.bind, hf.load_head, hf.load_tail, hf.load_capacity, hf.load_mask,
    checkedSub, if_pos (Nat.le_refl 0), Nat.sub_self, if_pos (Nat.zero_le capacity), Nat.sub_zero,
    if_pos hbig]
  rfl

/-- There is nothing to read in a fresh file. -/
theorem read_of_fresh (hf : Fresh capacity mmap) : read mmap = .ok (none, mmap) := by
  simp only [read, bind, Except.bind, hf.load_head, hf.load_tail, if_pos (Nat.le_refl 0)]
  rfl

/-- Calls that write nothing leave a fresh file as it is. -/
theorem runCalls_of_refused (hf : Fresh capacity mmap)
    (hcalls : ∀ data, .write data ∈ calls → capacity < 4 + data.length) :
    runCalls mmap calls = .ok mmap := by
  induction calls with
  | nil => rfl
  | cons call calls ih =>
    have hexec : call.exec mmap = .ok mmap := by
      cases call with
      | write data =>
        rw [Call.exec, write_of_refused hf (hcalls data mem_cons_self)]
        rfl
      | read =>
        rw [Call.exec, read_of_fresh hf]
        rfl
    simp only [runCalls, bind, Except.bind, hexec]
    exact ih (fun data hd => hcalls data (mem_cons_of_mem call hd))

/-- A block that ends before the data region does is one write into the file. -/
theorem writeMapping_eq_ok (hlen : mmap.length = headerSize + capacity) (offset : Nat)
    (data : List UInt8) (hoffset : offset < capacity) (hfit : offset + data.length ≤ capacity) :
    writeMapping mmap (headerSize + offset) data capacity =
      .ok (overwrite mmap (headerSize + offset) data) := by
  have hregion : dataRegion mmap capacity = .ok (mmap.drop headerSize) := by
    rw [dataRegion, slice_eq_some (by omega) (by omega), Nat.add_sub_cancel_left,
      take_of_length_le (by rw [length_drop]; omega)]
  have hlen' : (mmap.drop headerSize).length = capacity := by
    rw [length_drop]
    omega
  have hcopy : writeWithWrap (mmap.drop headerSize) (headerSize + offset) data capacity =
      some (overwrite (mmap.drop headerSize) offset data) := by
    rw [writeWithWrap, if_neg (by omega), Nat.add_sub_cancel_left, Nat.mod_eq_of_lt hoffset,
      Lib.Ring.copyIn, hlen', if_pos hfit, blit, hlen', if_pos hfit]
  simp only [writeMapping, bind, Except.bind, hregion, hcopy]
  rw [overwrite_overwrite_drop (by omega)]

/-- The first message that fits is written, and its length then stands where
the low half of the capacity was. -/
theorem load_capacity_of_write (hf : Fresh capacity mmap) (hroom : 16 ≤ capacity)
    (hcap : capacity < 2 ^ 64) (hdata : 4 + data.length ≤ capacity) :
    ∃ mmap' value, write mmap data = .ok (true, mmap') ∧
      load mmap' capacityOffset = .ok value ∧ value % 2 ^ 32 = data.length % 2 ^ 32 := by
  have hlen := hf.length_eq
  have hh : headOffset = 0 := rfl
  have hc : capacityOffset = headerSize := rfl
  have hs : headerSize = 128 := rfl
  set len := leBytes 4 (data.length % 2 ^ 32) with hlendef
  have hlen4 : len.length = 4 := length_leBytes 4 _
  have e₁ := writeMapping_eq_ok hlen 0 len (by omega) (by omega)
  have l₁ : (overwrite mmap (headerSize + 0) len).length = mmap.length :=
    length_overwrite (by omega)
  have e₂ := writeMapping_eq_ok (l₁.trans hlen) 4 data (by omega) hdata
  have l₂ : (overwrite (overwrite mmap (headerSize + 0) len) (headerSize + 4) data).length =
      mmap.length := (length_overwrite (by omega)).trans l₁
  obtain ⟨m₃, e₃, l₃, -, f₃⟩ := store_spec
    (overwrite (overwrite mmap (headerSize + 0) len) (headerSize + 4) data)
    (show headOffset + 8 ≤ _ by omega) (show 4 + data.length < 2 ^ 64 by omega)
  -- The field's first four bytes are the length prefix, whatever the data is.
  have hfront : slice (overwrite (overwrite mmap (headerSize + 0) len) (headerSize + 4) data)
      headerSize (headerSize + 4) = some len := by
    rw [slice_overwrite_frame (by omega) (Apart.symm (apart_of_le (Nat.le_refl _))), ← hlen4]
    exact slice_overwrite_same (by omega)
  obtain ⟨bytes, hbytes⟩ := Option.isSome_iff_exists.mp (slice_isSome_iff.mpr
    (show headerSize ≤ headerSize + 8 ∧ headerSize + 8 ≤
      (overwrite (overwrite mmap (headerSize + 0) len) (headerSize + 4) data).length by omega))
  have htake := slice_take hbytes (show headerSize ≤ headerSize + 4 by omega) (by omega)
  rw [hfront, Nat.add_sub_cancel_left] at htake
  have hsplit : bytes = len ++ bytes.drop 4 := by
    rw [Option.some.inj htake, take_append_drop]
  have hlow : leNat len = data.length % 2 ^ 32 :=
    leNat_leBytes (show data.length % 2 ^ 32 < 256 ^ 4 by omega)
  have hvalue : leNat bytes = data.length % 2 ^ 32 + 2 ^ 32 * leNat (bytes.drop 4) := by
    calc leNat bytes = leNat (len ++ bytes.drop 4) := congrArg leNat hsplit
      _ = _ := by rw [leNat_append, hlen4, hlow]; rfl
  refine ⟨m₃, leNat bytes, ?_, ?_, by omega⟩
  · simp only [write, bind, Except.bind, hf.load_head, hf.load_tail, hf.load_capacity,
      hf.load_mask, checkedSub, if_pos (Nat.le_refl 0), Nat.sub_self,
      if_pos (Nat.zero_le capacity), Nat.sub_zero, if_neg (Nat.not_lt.mpr hdata), Nat.zero_and,
      ← hlendef, e₁, Nat.add_assoc, Nat.zero_add, e₂, checkedAdd,
      if_pos (show 4 + data.length < 2 ^ 64 by omega), e₃]
    rfl
  · rw [f₃ _ (by omega)]
    exact load_eq_ok_iff.mpr ⟨bytes, hbytes, rfl⟩

/-! ## Integrity of the control block -/

/-- The two constant fields hold what `create` stored. -/
def Intact (capacity : Nat) (mmap : Mapping) : Prop :=
  load mmap capacityOffset = .ok capacity ∧ load mmap maskOffset = .ok (capacity - 1)

/-- Along the calls on a new ring buffer the constant fields keep their values
and no field access leaves the file.  A call that panics ends the run. -/
def ControlBlockSafe (capacity : Nat) (calls : List Call) : Prop :=
  ∀ made, made <+: calls →
    (create capacity).bind (fun mmap => runCalls mmap made) ≠ .error .outsideFile ∧
    ∀ mmap, (create capacity).bind (fun mmap => runCalls mmap made) = .ok mmap →
      Intact capacity mmap

/-- Every message offered to the producer is too long for the ring buffer, so
that nothing is ever written. -/
def NothingFits (capacity : Nat) (calls : List Call) : Prop :=
  ∀ data, .write data ∈ calls → capacity < 4 + data.length

theorem runCalls_append (mmap : Mapping) (calls calls' : List Call) :
    runCalls mmap (calls ++ calls') =
      (runCalls mmap calls).bind (fun mmap => runCalls mmap calls') := by
  induction calls generalizing mmap with
  | nil => rfl
  | cons call calls ih =>
    simp only [cons_append, runCalls, bind, Except.bind]
    cases call.exec mmap with
    | error fault => rfl
    | ok next => exact ih next

/-- A run in which some message fits has a first such message. -/
theorem exists_first_fitting (h : ¬ NothingFits capacity calls) :
    ∃ made data, made ++ [.write data] <+: calls ∧ NothingFits capacity made ∧
      4 + data.length ≤ capacity := by
  induction calls with
  | nil => exact absurd (fun data hd => absurd hd not_mem_nil) h
  | cons call calls ih =>
    by_cases hfirst : NothingFits capacity [call]
    · have hrest : ¬ NothingFits capacity calls := by
        intro hrest
        refine h (fun data hd => ?_)
        rcases mem_cons.mp hd with rfl | hd
        · exact hfirst data mem_cons_self
        · exact hrest data hd
      obtain ⟨made, data, hpre, hmade, hdata⟩ := ih hrest
      refine ⟨call :: made, data, ?_, ?_, hdata⟩
      · simpa using hpre
      · intro data hd
        rcases mem_cons.mp hd with rfl | hd
        · exact hfirst data mem_cons_self
        · exact hmade data hd
    · cases call with
      | read => exact absurd (fun data hd => by simp at hd) hfirst
      | write data =>
        refine ⟨[], data, by simp, fun _ hd => absurd hd not_mem_nil, ?_⟩
        by_contra hbig
        refine hfirst (fun data' hd => ?_)
        rw [mem_singleton, Call.write.injEq] at hd
        rw [hd]
        omega

/-- The control block survives the calls if the file has room for it and no
message fits.  Below 4 GiB there is no other way. -/
theorem controlBlockSafe_iff {capacity : Nat} (hpow : isPowerOfTwo capacity = true)
    (hcap : capacity < 2 ^ 64) (calls : List Call) :
    (16 ≤ capacity ∧ NothingFits capacity calls → ControlBlockSafe capacity calls) ∧
    (capacity < 2 ^ 32 →
      (ControlBlockSafe capacity calls ↔ 16 ≤ capacity ∧ NothingFits capacity calls)) := by
  have hsafe : 16 ≤ capacity ∧ NothingFits capacity calls → ControlBlockSafe capacity calls := by
    rintro ⟨hroom, hcalls⟩ made hmade
    obtain ⟨mmap, hcreate, hf⟩ := create_fresh hpow hroom hcap
    have hrun : runCalls mmap made = .ok mmap :=
      runCalls_of_refused hf (fun data hd => hcalls data (hmade.subset hd))
    rw [hcreate, Except.bind, hrun]
    refine ⟨nofun, fun mmap' h => ?_⟩
    cases h
    exact ⟨hf.load_capacity, hf.load_mask⟩
  refine ⟨hsafe, fun hsmall => ⟨fun h => ?_, hsafe⟩⟩
  have hroom : 16 ≤ capacity := by
    by_contra hroom
    refine (h [] nil_prefix).1 ?_
    rw [create_eq_error hpow (by omega)]
    rfl
  refine ⟨hroom, ?_⟩
  by_contra hfits
  obtain ⟨made, data, hpre, hmade, hdata⟩ := exists_first_fitting hfits
  obtain ⟨mmap, hcreate, hf⟩ := create_fresh hpow hroom hcap
  obtain ⟨mmap', value, hwrite, hload, hvalue⟩ := load_capacity_of_write hf hroom hcap hdata
  have hrun : runCalls mmap (made ++ [.write data]) = .ok mmap' := by
    rw [runCalls_append, runCalls_of_refused hf hmade]
    simp only [Except.bind, runCalls, Call.exec, hwrite]
    rfl
  have hintact := ((h _ hpre).2 mmap' (by rw [hcreate]; exact hrun)).1
  have hsame : value = capacity := Except.ok.inj (hload.symm.trans hintact)
  omega

/-- A 16-byte ring buffer that only ever refuses and finds nothing to read is
safe, and with any message that it takes it is not. -/
theorem controlBlockSafe_sixteen :
    ControlBlockSafe 16 [.read, .write (List.replicate 13 1), .read] ∧
      (ControlBlockSafe 16 [.write []] ↔ 16 ≤ 16 ∧ NothingFits 16 [.write []]) := by
  refine ⟨(controlBlockSafe_iff (by decide) (by decide) _).1 ⟨by decide, fun data hd => ?_⟩,
    (controlBlockSafe_iff (by decide) (by decide) _).2 (by decide)⟩
  simp only [mem_cons, reduceCtorEq, Call.write.injEq, not_mem_nil, or_false,
    false_or] at hd
  rw [hd]
  decide

/-- One written byte replaces the capacity of a 16-byte ring buffer. -/
theorem not_controlBlockSafe_write_byte : ¬ ControlBlockSafe 16 [.write [7]] := by
  intro h
  have hload : ((create 16).bind fun mmap => runCalls mmap [.write [7]]).bind
      (fun mmap => load mmap capacityOffset) = .ok (1 + 7 * 2 ^ 32) := by decide +kernel
  have hintact := (h _ (prefix_refl _)).2
  cases hrun : (create 16).bind (fun mmap => runCalls mmap [.write [7]]) with
  | error fault =>
    rw [hrun] at hload
    cases hload
  | ok mmap =>
    rw [hrun] at hload
    exact absurd (hload.symm.trans (hintact mmap hrun).1) (by decide)

end SharedRingBuffer

end IronSbe.Transport
