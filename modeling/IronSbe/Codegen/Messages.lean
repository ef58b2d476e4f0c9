import IronSbe.Core.Decoder
import IronSbe.Codegen.Groups

/-!
# Generated message codecs

`generateEncoder` and `generateDecoder` give the constants, the accessors and
the group accessors of a message.  The position of a group accessor is a
constant of the generated code: the first group follows the block, and every
further one is a group header further on.

* `EncoderCode.run_eq`: a header and any sequence of setter calls are a run of
  writes.
* `rootBlock_roundTrip`: after such a sequence every getter returns the last
  value set, or what was there before, the header is intact and nothing
  outside the header and the block has changed.
-/

namespace IronSbe.Codegen

open IronSbe.Core IronSbe.Schema Lib.Slice Lib.Record MessageHeader List

/-- The groups with the offsets of their accessors. -/
def groupOffsets : Nat → List ResolvedGroup → List (Nat × ResolvedGroup)
  | _, [] => []
  | groupOffset, group :: rest => (groupOffset, group) :: groupOffsets (groupOffset + 4) rest

/-! ## The encoder -/

/-- What `MessageGenerator::generate_encoder` generates. -/
structure EncoderCode where
  templateId : UInt16
  schemaId : UInt16
  schemaVersion : UInt16
  blockLength : UInt16
  setters : List Accessor
  /-- The `<group>_count` methods, by the offset behind the header. -/
  groups : List (Nat × GroupEncoderCode)

/-- `MessageGenerator::generate_encoder`. -/
def generateEncoder (ir : SchemaIr) (msg : ResolvedMessage) : EncoderCode where
  templateId := msg.templateId
  schemaId := ir.schemaId
  schemaVersion := ir.schemaVersion
  blockLength := msg.blockLength
  setters := setters ir msg.fields
  groups := (groupOffsets msg.blockLength.toNat msg.groups).map fun (offset, group) =>
    (offset, generateGroupEncoder ir group)

namespace EncoderCode

/-- The header that `wrap` writes. -/
def header (code : EncoderCode) : MessageHeader :=
  ⟨code.blockLength, code.templateId, code.schemaId, code.schemaVersion⟩

/-- The generated `wrap`, which writes the header. -/
def wrap (code : EncoderCode) (buf : Buffer) (offset : Nat) : Option Buffer :=
  code.header.encode buf offset

/-- Call setter number `call.1` with the value `call.2`. -/
def call (code : EncoderCode) (offset : Nat) (buf : Buffer) (call : Nat × FieldValue) :
    Option Buffer := do
  let setter ← code.setters[call.1]?
  setter.set buf offset call.2

/-- `wrap` and then a sequence of setter calls. -/
def run (code : EncoderCode) (buf : Buffer) (offset : Nat) (calls : List (Nat × FieldValue)) :
    Option Buffer := do
  let buf ← code.wrap buf offset
  calls.foldlM (code.call offset) buf

/-- Every call is of a setter of the message with a value of its type. -/
def ValidCalls (code : EncoderCode) (calls : List (Nat × FieldValue)) : Prop :=
  ∀ c ∈ calls, ∃ a, code.setters[c.1]? = some a ∧ a.view.Accepts c.2

end EncoderCode

/-! ## The decoder -/

/-- What `MessageGenerator::generate_decoder` generates. -/
structure DecoderCode where
  templateId : UInt16
  schemaId : UInt16
  schemaVersion : UInt16
  blockLength : UInt16
  getters : List Accessor
  /-- The group accessors, by the offset behind the header, each with the
  getters of its entry decoder. -/
  groups : List (Nat × List Accessor)

/-- `MessageGenerator::generate_decoder`. -/
def generateDecoder (ir : SchemaIr) (msg : ResolvedMessage) : DecoderCode where
  templateId := msg.templateId
  schemaId := ir.schemaId
  schemaVersion := ir.schemaVersion
  blockLength := msg.blockLength
  getters := getters ir msg.fields
  groups := (groupOffsets msg.blockLength.toNat msg.groups).map fun (offset, group) =>
    (offset, getters ir group.fields)

/-- Call the getter on a decoder. -/
def Accessor.on (getter : Accessor) (d : MessageDecoder) : Option FieldValue :=
  getter.get d.buffer d.offset

/-! ## The root block -/

section RootBlock

variable {schema : Schema} {m : ResolvedMessage}

theorem fields_resolvedIn (hm : m ∈ (SchemaIr.fromSchema schema).messages) :
    ResolvedIn schema m.fields :=
  fun _ hf => SchemaIr.field_of_mem hm (.inl hf)

/-- The message setters write behind the header where the getters read. -/
theorem setters_eq_getters (hm : m ∈ (SchemaIr.fromSchema schema).messages)
    (hkinds : SupportedKinds (.fromSchema schema) m.fields) :
    (generateEncoder (.fromSchema schema) m).setters =
      (getters (.fromSchema schema) m.fields).map (.shift MessageHeader.encodedLength) := by
  rw [generateEncoder, setters_eq, hkinds.entrySetters_eq (fields_resolvedIn hm)]

variable {code : EncoderCode} {accessors : List Accessor} {calls : List (Nat × FieldValue)}
  {buf buf' : Buffer} {base : Nat} {getter : Accessor}

section

variable (hcode : code.setters = accessors.map (.shift MessageHeader.encodedLength))
  (hcalls : code.ValidCalls calls)
include hcode hcalls

/-- `wrap` and setter calls are a run of writes. -/
theorem EncoderCode.run_eq (buf : Buffer) (offset : Nat) :
    code.run buf offset calls =
      applyAll (code.header.writes offset ++
        assign (slots accessors) (offset + MessageHeader.encodedLength) calls) buf := by
  rw [run, wrap, encode_eq_applyAll, applyAll_append]
  refine congrArg _ (funext fun mid => ?_)
  induction calls generalizing mid with
  | nil => rfl
  | cons c rest ih =>
    obtain ⟨setter, hsetter, hvalue⟩ := hcalls c mem_cons_self
    have hset := hsetter
    rw [hcode, getElem?_map] at hset
    obtain ⟨a, ha, rfl⟩ := Option.map_eq_some_iff.mp hset
    have hslot : (slots accessors)[c.1]? = some a.slot := by
      rw [slots, getElem?_map, ha, Option.map_some]
    have hcall : code.call offset mid c =
        (a.slot.write (offset + encodedLength) c.2).apply mid := by
      rw [call, hsetter]
      show (a.shift encodedLength).set mid offset c.2 = _
      rw [Accessor.set_shift]
      exact Accessor.set_eq_apply (a := a) hvalue mid _
    rw [foldlM_cons, hcall, assign, filterMap_cons, hslot, Option.map_some, applyAll]
    exact congrArg _ (funext fun next =>
      ih (fun d hd => hcalls d (mem_cons_of_mem c hd)) next)

/-- The calls of the message are assignments to the slots of its block. -/
theorem EncoderCode.ValidCalls.slots :
    Lib.Record.ValidCalls (Codegen.slots accessors) calls := by
  intro c hc
  obtain ⟨setter, hsetter, hvalue⟩ := hcalls c hc
  rw [hcode, getElem?_map] at hsetter
  obtain ⟨a, ha, rfl⟩ := Option.map_eq_some_iff.mp hsetter
  exact ⟨a.slot, by rw [Codegen.slots, getElem?_map, ha, Option.map_some], hvalue⟩

end

/-- What a getter returns after a sequence of calls: the last value set, or
what was there before. -/
def readsAs (calls : List (Nat × FieldValue)) (i : Nat) (getter : Accessor)
    (before : Option FieldValue) : Option FieldValue :=
  match lastAssigned calls i with
  | some value => some (getter.view.normalize value)
  | none => before

/-- The getters after a sequence of assignments to their slots. -/
theorem get_after_assign {size : Nat} (hlaid : Laid accessors size)
    (hcalls : Lib.Record.ValidCalls (slots accessors) calls)
    (hrun : applyAll (assign (slots accessors) base calls) buf = some buf') {i : Nat}
    (hget : accessors[i]? = some getter) :
    getter.get buf' base = readsAs calls i getter (getter.get buf base) := by
  have hslot : (slots accessors)[i]? = some getter.slot := by
    rw [slots, getElem?_map, hget, Option.map_some]
  rw [Accessor.get_eq_read, Accessor.get_eq_read, read_assign hlaid.disjoint hcalls hrun hslot,
    readsAs]
  cases hlast : lastAssigned calls i with
  | none => rfl
  | some value =>
    obtain ⟨s, hs, hvalue⟩ := hcalls _ (mem_of_lastAssigned hlast)
    cases hs.symm.trans hslot
    have hwf := hlaid.wellFormed getter (mem_of_getElem? hget)
    exact congrArg some (View.decode_encode hwf hvalue)

/-- Writes before the block do not change what its getters return. -/
theorem Accessor.get_frame {ws : List (Write UInt8)} (hrun : applyAll ws buf = some buf')
    (hws : ∀ w ∈ ws, w.stop ≤ base) :
    getter.get buf' base = getter.get buf base := by
  rw [get_eq_read, get_eq_read, Slot.read, Slot.read,
    slice_applyAll_frame hrun fun w hw => apart_of_le (Nat.le_add_right_of_le (hws w hw))]

/-- After `wrap` and any sequence of setter calls, every getter of the decoder
behind the header returns the last value that its setter was called with, byte
arrays cut or zero padded, or what was there before when there was no call; the
header is intact, and nothing outside the header and the block has changed. -/
theorem rootBlock_roundTrip (hm : m ∈ (SchemaIr.fromSchema schema).messages)
    (hkinds : SupportedKinds (.fromSchema schema) m.fields)
    (hlayout : BlockSound m.fields m.blockLength.toNat) {buf : Buffer} {offset : Nat}
    (hbuf : offset + MessageHeader.encodedLength + m.blockLength.toNat ≤ buf.length)
    {calls : List (Nat × FieldValue)}
    (hcalls : (generateEncoder (.fromSchema schema) m).ValidCalls calls) :
    ∃ buf', (generateEncoder (.fromSchema schema) m).run buf offset calls = some buf' ∧
      (∀ i getter version, (generateDecoder (.fromSchema schema) m).getters[i]? = some getter →
        getter.on (.wrap buf' (offset + MessageHeader.encodedLength) version) =
          readsAs calls i getter
            (getter.on (.wrap buf (offset + MessageHeader.encodedLength) version))) ∧
      MessageHeader.wrap buf' offset =
        some ⟨m.blockLength, m.templateId, (SchemaIr.fromSchema schema).schemaId,
          (SchemaIr.fromSchema schema).schemaVersion⟩ ∧
      buf'.length = buf.length ∧
      ∀ k, k < offset ∨ offset + MessageHeader.encodedLength + m.blockLength.toNat ≤ k →
        buf'[k]? = buf[k]? := by
  have hcode := setters_eq_getters hm hkinds
  have hlaid := hkinds.laid (fields_resolvedIn hm) hlayout
  have hslots := hcalls.slots hcode
  have hblock : ∀ w ∈ assign (slots (getters (.fromSchema schema) m.fields))
      (offset + encodedLength) calls,
      offset + encodedLength ≤ w.start ∧
        w.stop ≤ offset + encodedLength + m.blockLength.toNat :=
    fun w hw => assign_within hlaid.within hslots hw
  have hwithin : ∀ w ∈ (generateEncoder (.fromSchema schema) m).header.writes offset ++
      assign (slots (getters (.fromSchema schema) m.fields))
        (offset + encodedLength) calls,
      offset ≤ w.start ∧ w.stop ≤ offset + encodedLength + m.blockLength.toNat := by
    intro w hw
    rcases mem_append.mp hw with hw | hw
    · have := mem_writes hw
      omega
    · have := hblock w hw
      omega
  obtain ⟨buf', hrun, hlen⟩ := applyAll_eq_some fun w hw => Nat.le_trans (hwithin w hw).2 hbuf
  -- the header first, then the calls
  have hsplit := hrun
  rw [applyAll_append] at hsplit
  obtain ⟨mid, hmid, hlast⟩ := Option.bind_eq_some_iff.mp hsplit
  refine ⟨buf', by rw [EncoderCode.run_eq hcode hcalls, hrun], ?_, ?_, hlen, ?_⟩
  · intro i getter version hget
    have hframe : getter.get mid (offset + encodedLength) = getter.get buf _ :=
      Accessor.get_frame hmid fun w hw => (mem_writes hw).2
    have hread := get_after_assign hlaid hslots hlast hget
    rw [hframe] at hread
    exact hread
  · refine wrap_of_heldBy (h := (generateEncoder (.fromSchema schema) m).header)
      fun w hw => ?_
    refine (heldBy_applyAll hmid (pairwise_writes _ _) w hw).applyAll hlast ?_
    exact fun v hv => apart_of_le (Nat.le_trans (mem_writes hw).2 (hblock v hv).1)
  · intro k hk
    refine applyAll_frame hrun fun w hw hc => ?_
    have hin := hwithin w hw
    have hcov : w.start ≤ k ∧ k < w.stop := hc
    omega

end RootBlock

/-- A schema with a field of every supported kind. -/
def orderSchema : Schema where
  package := "orders"
  id := 9
  version := 1
  types := [
    .primitive { name := "Symbol", primitiveType := .char, length := some 4 },
    .enum { name := "Side", encodingType := .uint8, validValues := [⟨"Buy", "1", none, none, none⟩,
      ⟨"Sell", "2", none, none, none⟩] },
    .set { name := "Flags", encodingType := .uint8, choices := [⟨"Hidden", 0, none, none, none⟩] },
    .composite { name := "Price", fields := [
      { name := "mantissa", typeName := "int64", primitiveType := some .int64, encodedLength := 8 },
      { name := "exponent", typeName := "int8", primitiveType := some .int8,
        encodedLength := 1 }] }]
  messages := [{ name := "Order", id := 3, blockLength := 19, fields := [
    { name := "quantity", id := 1, typeName := "uint32", offset := 0 },
    { name := "symbol", id := 2, typeName := "Symbol", offset := 4 },
    { name := "side", id := 3, typeName := "Side", offset := 8 },
    { name := "flags", id := 4, typeName := "Flags", offset := 9 },
    { name := "price", id := 5, typeName := "Price", offset := 10 }] }]

/-- The order message of `orderSchema`. -/
def orderMessage : ResolvedMessage :=
  (SchemaIr.fromSchema orderSchema).messages.headD ⟨"", 0, 0, [], [], []⟩

/-- Two calls for the quantity, one for a symbol that is too long, one for the
side, one for the exponent of the price. -/
def orderCalls : List (Nat × FieldValue) :=
  [(0, .scalar ⟨.u32, 7, by decide⟩), (1, .bytes [65, 66, 67, 68, 69]),
    (2, .enum ⟨"Sell", 2⟩), (5, .scalar ⟨.i8, 254, by decide⟩), (0, .scalar ⟨.u32, 9, by decide⟩)]

theorem rootBlock_roundTrip_order :
    ∃ buf', (generateEncoder (.fromSchema orderSchema) orderMessage).run
        (List.replicate 30 255) 2 orderCalls = some buf' ∧
      Accessor.on ⟨0, .scalar (some .uint32)⟩ (.wrap buf' 10 1) =
        some (.scalar ⟨.u32, 9, by decide⟩) ∧
      Accessor.on ⟨4, .bytes 4⟩ (.wrap buf' 10 1) = some (.bytes [65, 66, 67, 68]) ∧
      Accessor.on ⟨9, .bitset .uint8⟩ (.wrap buf' 10 1) = some (.set ⟨.u8, 255, by decide⟩) ∧
      Accessor.on ⟨18, .scalar (some .int8)⟩ (.wrap buf' 10 1) =
        some (.scalar ⟨.i8, 254, by decide⟩) ∧
      MessageHeader.wrap buf' 2 = some ⟨19, 3, 9, 1⟩ := by
  have hm : orderMessage ∈ (SchemaIr.fromSchema orderSchema).messages := mem_cons_self
  have hkinds : SupportedKinds (.fromSchema orderSchema) orderMessage.fields := by decide
  have hlayout : BlockSound orderMessage.fields orderMessage.blockLength.toNat := by decide
  have hbuf : 2 + encodedLength + orderMessage.blockLength.toNat ≤
      (replicate 30 (255 : UInt8)).length := by decide
  have hcalls : (generateEncoder (.fromSchema orderSchema) orderMessage).ValidCalls orderCalls := by
    intro c hc
    simp only [orderCalls, mem_cons, not_mem_nil, or_false] at hc
    rcases hc with rfl | rfl | rfl | rfl | rfl <;> exact ⟨_, rfl, by decide⟩
  obtain ⟨buf', hrun, hget, hheader, -⟩ := rootBlock_roundTrip hm hkinds hlayout hbuf hcalls
  exact ⟨buf', hrun, hget 0 _ 1 rfl, hget 1 _ 1 rfl, (hget 3 _ 1 rfl).trans (by decide),
    hget 5 _ 1 rfl, hheader⟩

end IronSbe.Codegen
