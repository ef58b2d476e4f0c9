import IronSbe.Core.Header

/-!
# The decoder trait

`SbeDecoder::decode` checks the length of the header, the template and schema
ids, and then that the buffer has the block length that the header names.
-/

namespace IronSbe.Core

/-- The errors of `SbeDecoder::decode`. -/
inductive DecodeError where
  | bufferTooShort (required available : Nat)
  | templateMismatch (expected actual : UInt16)
  | schemaMismatch (expected actual : UInt16)
  deriving DecidableEq, Repr

/-- A message decoder: the struct that every generated decoder has. -/
structure MessageDecoder where
  buffer : Buffer
  offset : Nat
  actingVersion : UInt16
  deriving DecidableEq, Repr

/-- `SbeDecoder::wrap`. -/
def MessageDecoder.wrap (buffer : Buffer) (offset : Nat) (actingVersion : UInt16) :
    MessageDecoder :=
  ⟨buffer, offset, actingVersion⟩

namespace SbeDecoder

/-- `SbeDecoder::validate_header`. -/
def validateHeader (templateId schemaId : UInt16) (header : MessageHeader) :
    Except DecodeError Unit :=
  if header.templateId ≠ templateId then .error (.templateMismatch templateId header.templateId)
  else if header.schemaId ≠ schemaId then .error (.schemaMismatch schemaId header.schemaId)
  else .ok ()

/-- `SbeDecoder::decode`; `none` is a panic. -/
def decode (templateId schemaId : UInt16) (buffer : Buffer) :
    Option (Except DecodeError MessageDecoder) :=
  if buffer.length < MessageHeader.encodedLength then
    some (.error (.bufferTooShort MessageHeader.encodedLength buffer.length))
  else do
    let header ← MessageHeader.wrap buffer 0
    match validateHeader templateId schemaId header with
    | .error e => return .error e
    | .ok () =>
      let requiredLen := MessageHeader.encodedLength + header.blockLength.toNat
      if buffer.length < requiredLen then
        return .error (.bufferTooShort requiredLen buffer.length)
      else return .ok (.wrap buffer MessageHeader.encodedLength header.version)

/-- What `decode` returned `Ok` for: a header with the expected ids and as many
bytes as it says, and the decoder is behind it. -/
theorem decode_eq_ok_iff {templateId schemaId : UInt16} {buffer : Buffer} {d : MessageDecoder} :
    decode templateId schemaId buffer = some (.ok d) ↔
      ∃ header, MessageHeader.wrap buffer 0 = some header ∧
        header.templateId = templateId ∧ header.schemaId = schemaId ∧
        MessageHeader.encodedLength + header.blockLength.toNat ≤ buffer.length ∧
        d = .wrap buffer MessageHeader.encodedLength header.version := by
  have hwrap : (MessageHeader.wrap buffer 0).isSome = true ↔ 0 + 8 ≤ buffer.length :=
    MessageHeader.wrap_isSome_iff
  have hlen : MessageHeader.encodedLength = 8 := rfl
  unfold decode
  split_ifs with hshort
  · constructor
    · simp
    · rintro ⟨header, hheader, -⟩
      rw [hheader] at hwrap
      have := hwrap.mp rfl
      omega
  · obtain ⟨header, hheader⟩ := Option.isSome_iff_exists.mp (hwrap.mpr (by omega))
    simp only [hheader, bind, Option.bind_some, pure, Option.some.injEq, exists_eq_left',
      validateHeader]
    by_cases ht : header.templateId = templateId
    · by_cases hs : header.schemaId = schemaId
      · by_cases hb : buffer.length < MessageHeader.encodedLength + header.blockLength.toNat
        · simp [ht, hs, hb, Nat.not_le.mpr hb]
        · simp [ht, hs, hb, Nat.not_lt.mp hb, eq_comm]
      · simp [ht, hs]
    · simp [ht]

end SbeDecoder

end IronSbe.Core
