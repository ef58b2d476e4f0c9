import IronSbe.Codegen.Constants
import IronSbe.Codegen.Length
import IronSbe.Schema.Acceptance
import IronSbe.Schema.Soundness
import IronSbe.Transport.Receivers

/-!
# From a schema to the handlers of a server

A sender encodes a message with the generated encoder and sends as many bytes as
`encoded_length` says.  The frame codec puts the length in front, the stream arrives in
chunks, `handle_session` reads the header of each frame, and `MessageDispatcher` calls the
handler that is registered for its template id, which decodes the frame.

* `blockSound_of_validateSchema`: the root blocks of a valid schema are laid out well.
* `handlers_registerAll`: the validator has found the template ids distinct, and so no
  registration replaces another one.
* `Outgoing.Sendable.decodesFrom`: the bytes that are sent decode to the values that were set.
* `messages_reach_handlers`: all of this together, for any messages and any chunks.
-/

namespace IronSbe.Server

open IronSbe.Core IronSbe.Schema IronSbe.Codegen IronSbe.Transport Lib.Slice Lib.Record
  Lib.Framing Lib.Accumulate List

/-- The typed handlers by template id, and the default handler. -/
structure MessageDispatcher (α β : Type) where
  handlers : UInt16 → Option α := fun _ => none
  defaultHandler : Option β := none

/-- A call of one of the handlers. -/
inductive HandlerCall (α β : Type) where
  | handle (handler : α) (sessionId : UInt64) (buffer : Buffer)
  | onMessage (handler : β) (sessionId : UInt64) (header : MessageHeader) (buffer : Buffer)
  | onError (handler : β) (sessionId : UInt64) (error : String)
  deriving DecidableEq

namespace MessageDispatcher

variable {α β : Type}

/-- `register`; a handler that is there already is replaced. -/
def register (d : MessageDispatcher α β) (templateId : UInt16) (handler : α) :
    MessageDispatcher α β :=
  { d with handlers := fun id => if id = templateId then some handler else d.handlers id }

/-- The handler of the template, or the default handler. -/
def onMessage (d : MessageDispatcher α β) (sessionId : UInt64) (header : MessageHeader)
    (buffer : Buffer) : List (HandlerCall α β) :=
  match d.handlers header.templateId with
  | some handler => [.handle handler sessionId buffer]
  | none =>
    match d.defaultHandler with
    | some default => [.onMessage default sessionId header buffer]
    | none => []

/-- An error goes to the default handler. -/
def onError (d : MessageDispatcher α β) (sessionId : UInt64) (error : String) :
    List (HandlerCall α β) :=
  match d.defaultHandler with
  | some default => [.onError default sessionId error]
  | none => []

/-- What `handle_session` does with the data of one `recv`; `none` is a panic. -/
def handleData (d : MessageDispatcher α β) (sessionId : UInt64) (data : Buffer) :
    Option (List (HandlerCall α β)) :=
  if MessageHeader.encodedLength ≤ data.length then do
    let header ← MessageHeader.wrap data 0
    return d.onMessage sessionId header data
  else some (d.onError sessionId "Message too short for header")

/-- A handler for each of the messages, under its template id. -/
def registerAll (d : MessageDispatcher ResolvedMessage β) (messages : List ResolvedMessage) :
    MessageDispatcher ResolvedMessage β :=
  messages.foldl (fun d m => d.register m.templateId m) d

/-- A registration that is not repeated stays. -/
theorem handlers_registerAll_of_not_mem {messages : List ResolvedMessage} {id : UInt16}
    (d : MessageDispatcher ResolvedMessage β) (hid : id ∉ messages.map (·.templateId)) :
    (d.registerAll messages).handlers id = d.handlers id := by
  induction messages generalizing d with
  | nil => rfl
  | cons first rest ih =>
    rw [map_cons, mem_cons, not_or] at hid
    exact (ih (d.register first.templateId first) hid.2).trans (if_neg hid.1)

theorem handlers_registerAll {messages : List ResolvedMessage} {m : ResolvedMessage}
    (d : MessageDispatcher ResolvedMessage β) (hids : (messages.map (·.templateId)).Nodup)
    (hm : m ∈ messages) : (d.registerAll messages).handlers m.templateId = some m := by
  induction messages generalizing d with
  | nil => cases hm
  | cons first rest ih =>
    rw [map_cons, nodup_cons] at hids
    rcases mem_cons.mp hm with rfl | hm
    · exact (handlers_registerAll_of_not_mem (d.register m.templateId m) hids.1).trans (if_pos rfl)
    · exact ih (d.register first.templateId first) hids.2 hm

end MessageDispatcher

/-! ## The schema -/

section Schema

variable {events : List Event} {schema : Schema} {m : ResolvedMessage}
  (hvalid : validateSchema schema = .ok ())
  (hjudged : ∀ msg ∈ schema.messages, Judged schema.types msg.fields)
include hvalid hjudged

theorem templateIds_nodup_of_validateSchema :
    ((SchemaIr.fromSchema schema).messages.map (·.templateId)).Nodup := by
  have hmessages := (validateMessages_eq_ok_iff fun msg hmsg => (hjudged msg hmsg).stops).mp
    (validateMessages_of_validateSchema hvalid)
  have hids := fresh_empty_iff.mp hmessages.1.1
  show ((schema.messages.map _).map _).Nodup
  rw [map_map]
  exact hids

/-- The fields of a root block do not overlap and stay inside it. -/
theorem blockSound_of_validateSchema (hparse : parseSchema events = .ok schema)
    (hm : m ∈ (SchemaIr.fromSchema schema).messages) :
    BlockSound m.fields m.blockLength.toNat := by
  obtain ⟨msg, hmsg, rfl⟩ := mem_map.mp hm
  exact (hjudged msg hmsg).blockSound (typed_of_parseSchema hparse (.message hmsg)) rfl
    (validateMessageFields_of_mem (validateMessages_of_validateSchema hvalid) msg hmsg)

end Schema

/-! ## One message -/

/-- A message to send: what is encoded, and where. -/
structure Outgoing where
  message : ResolvedMessage
  value : MessageValue
  buffer : Buffer
  offset : Nat

namespace Outgoing

variable (schema : Schema) (o : Outgoing)

/-- The encoder of the message. -/
abbrev encoder : EncoderCode := generateEncoder (.fromSchema schema) o.message

/-- The decoder of the message. -/
abbrev decoder : DecoderCode := generateDecoder (.fromSchema schema) o.message

/-- Encode the message and take as many bytes as its encoder says. -/
def packet : Option Buffer :=
  ((o.encoder schema).encode o.value o.buffer o.offset).map fun buf =>
    (o.encoder schema).copy buf o.offset

/-- The message is one of the schema without groups and with field types that the codec is
made for, the values have the types of its fields, and the encoded message fits the buffer and
a frame. -/
structure Sendable (maxFrameSize : Nat) : Prop where
  mem : o.message ∈ (SchemaIr.fromSchema schema).messages
  groups : o.message.groups = []
  kinds : SupportedKinds (.fromSchema schema) o.message.fields
  fits : (o.encoder schema).Fits o.value
  room : o.offset + (o.encoder schema).encodedLength ≤ o.buffer.length
  allowed : (o.encoder schema).encodedLength ≤ maxFrameSize

/-- The generated decoder accepts the frame, and its getters give the values that were set. -/
def DecodesFrom (frame : Buffer) : Prop :=
  ∃ d, SbeDecoder.decode (o.decoder schema).templateId (o.decoder schema).schemaId frame =
      some (.ok d) ∧
    (o.decoder schema).readMessage d =
      some ⟨normalizeAll (o.decoder schema).getters o.value.root, []⟩

variable {schema o}

theorem Sendable.decodesFrom {maxFrameSize : Nat} (ho : o.Sendable schema maxFrameSize)
    (h : Codable schema o.message) :
    ∃ frame, o.packet schema = some frame ∧ frame.length ≤ maxFrameSize ∧
      o.DecodesFrom schema frame := by
  have hnone : (o.encoder schema).groups = [] := encoder_groups_eq_nil ho.groups
  have hsize : (o.encoder schema).encodedSize (o.value.groups.map length) =
      (o.encoder schema).encodedLength := by
    rw [EncoderCode.encodedSize, hnone]
    rfl
  obtain ⟨buf, hrun, hwrites, hlen⟩ := h.encode_eq_some ho.fits (hsize ▸ ho.room)
  have hend : Codegen.blockEnd (getters (.fromSchema schema) o.message.fields) ≤
      o.message.blockLength.toNat := by
    rw [Codegen.blockEnd, largest_le_iff, forall_mem_map]
    exact fun a ha => h.root_laid.within _ (mem_map_of_mem ha)
  obtain ⟨d, read, hdecode, hread, hwhole⟩ :=
    decode_copy ho.fits hrun ho.groups (hlen ▸ ho.room) hend
  refine ⟨_, by rw [packet, hrun, Option.map_some], (length_copy_le _ _ _).trans ho.allowed, d,
    hdecode, hread.trans ?_⟩
  -- nothing else is written where the setters write
  have hheld := heldBy_applyAll hwrites (h.pairwise_messageWrites ho.fits (by
    rw [hnone]
    exact Pairwise.nil))
  have haccepts : AcceptsAll (slots ((o.decoder schema).getters ++ [])) o.value.root := by
    rw [append_nil]
    exact h.root_accepts ho.fits.root
  have hroot : getAll (o.decoder schema).getters buf (o.offset + MessageHeader.encodedLength) =
      some (normalizeAll (o.decoder schema).getters o.value.root) := by
    refine getAll_of_heldBy h.root_laid.wellFormed haccepts fun w hw => ?_
    rw [append_nil] at hw
    exact hheld w (mem_append_right _ (mem_append_left _ (h.root_writes _ _ ▸ hw)))
  rw [← hwhole]
  show (getAll (o.decoder schema).getters buf (o.offset + MessageHeader.encodedLength) >>= _) = _
  rw [hroot, decoder_groups_eq_nil ho.groups]
  rfl

end Outgoing

/-! ## The way of the messages -/

/-- The part of a stream of frames that has arrived, in whatever chunks, is received as the
first of the messages. -/
theorem feed_of_prefix {c : SbeFrameCodec} (hmax : c.maxFrameSize < 2 ^ 32)
    {frames chunks : List (List UInt8)} (hframes : ∀ f ∈ frames, f.length ≤ c.maxFrameSize)
    (hchunks : chunks.flatten <+: (frames.map frame).flatten) :
    ∃ received buffer, c.feed chunks [] = some ⟨received, .ok (), buffer⟩ ∧ received <+: frames ∧
      (chunks.flatten = (frames.map frame).flatten → received = frames ∧ buffer = []) := by
  have hall := parse_flatten_frames hmax hframes
  obtain ⟨missing, hmissing⟩ := hchunks
  obtain ⟨⟨received, outcome, buffer⟩, hfeed, hreceived, hends⟩ :=
    c.implements_decode.feedWith_nil chunks
  have hsplit := hall
  rw [← hmissing, parse_append, Prod.mk.injEq] at hsplit
  rcases hends with ⟨hrefused, -⟩ | ⟨-, hok, hbuffer⟩
  · -- the refused length would still be in front of what is missing
    have hlater := hrefused.append missing
    rw [parse_of_refused hlater] at hsplit
    obtain ⟨length, hlength⟩ := hlater
    rw [show _ ++ missing = [] from hsplit.2] at hlength
    simp [Lib.Framing.head] at hlength
  · obtain rfl : outcome = .ok () := hok
    obtain rfl : received = _ := hreceived
    obtain rfl : buffer = _ := hbuffer
    refine ⟨_, _, hfeed, ⟨_, hsplit.1⟩, fun hwhole => ?_⟩
    rw [hwhole, hall]
    exact ⟨rfl, rfl⟩

section Way

variable {events : List Event} {schema : Schema} {β : Type}
  (hparse : parseSchema events = .ok schema) (hvalid : validateSchema schema = .ok ())
  (hjudged : ∀ msg ∈ schema.messages, Judged schema.types msg.fields)
  (d : MessageDispatcher ResolvedMessage β) (sessionId : UInt64)

/-- The frame goes to the handler of the message, and decodes there to the values set. -/
structure Handled (schema : Schema) (o : Outgoing) (frame : Buffer) : Prop where
  call : (d.registerAll (SchemaIr.fromSchema schema).messages).handleData sessionId frame =
    some [.handle o.message sessionId frame]
  values : o.DecodesFrom schema frame

include hparse hvalid hjudged

theorem handled_of_sendable {maxFrameSize : Nat} {o : Outgoing}
    (ho : o.Sendable schema maxFrameSize) :
    ∃ frame, o.packet schema = some frame ∧ frame.length ≤ maxFrameSize ∧
      Handled d sessionId schema o frame := by
  have hcodable : Codable schema o.message :=
    ⟨⟨ho.mem, blockSound_of_validateSchema hvalid hjudged hparse ho.mem, by simp [ho.groups]⟩,
      ho.kinds, by simp [ho.groups]⟩
  obtain ⟨frame, hpacket, hlen, hvalues⟩ := ho.decodesFrom hcodable
  refine ⟨frame, hpacket, hlen, ?_, hvalues⟩
  obtain ⟨decoder, hdecode, -⟩ := hvalues
  obtain ⟨header, hheader, htemplate, -, hsize, -⟩ := SbeDecoder.decode_eq_ok_iff.mp hdecode
  have hhandler := d.handlers_registerAll
    (templateIds_nodup_of_validateSchema hvalid hjudged) ho.mem
  have htemplate : header.templateId = o.message.templateId := htemplate
  rw [MessageDispatcher.handleData, if_pos (by omega), hheader]
  show some (MessageDispatcher.onMessage _ _ _ _) = _
  rw [MessageDispatcher.onMessage, htemplate, hhandler]

/-- Any messages of an accepted schema, encoded by the generated code and framed, reach the
handlers of their templates in the order in which they were sent, and decode there to the
values that were set.  Of a stream that breaks off, the messages that have arrived do. -/
theorem messages_reach_handlers {c : SbeFrameCodec} (hmax : c.maxFrameSize < 2 ^ 32)
    {messages : List Outgoing} (hsend : ∀ o ∈ messages, o.Sendable schema c.maxFrameSize) :
    ∃ frames bytes, messages.map (Outgoing.packet schema) = frames.map some ∧
      c.encodeAll frames [] = (.ok (), bytes) ∧
      List.Forall₂ (Handled d sessionId schema) messages frames ∧
      ∀ chunks : List (List UInt8), chunks.flatten <+: bytes →
        ∃ received buffer, c.feed chunks [] = some ⟨received, .ok (), buffer⟩ ∧
          received <+: frames ∧ (chunks.flatten = bytes → received = frames ∧ buffer = []) := by
  have hall : ∃ frames, messages.map (Outgoing.packet schema) = frames.map some ∧
      (∀ f ∈ frames, f.length ≤ c.maxFrameSize) ∧
      List.Forall₂ (Handled d sessionId schema) messages frames := by
    induction messages with
    | nil => exact ⟨[], rfl, by simp, .nil⟩
    | cons o rest ih =>
      rw [forall_mem_cons] at hsend
      obtain ⟨first, hpacket, hlen, hhandled⟩ :=
        handled_of_sendable hparse hvalid hjudged d sessionId hsend.1
      obtain ⟨frames, hpackets, hlens, hall⟩ := ih hsend.2
      refine ⟨first :: frames, ?_, forall_mem_cons.mpr ⟨hlen, hlens⟩, .cons hhandled hall⟩
      rw [map_cons, map_cons, hpacket, hpackets]
  obtain ⟨frames, hpackets, hlens, hhandled⟩ := hall
  refine ⟨frames, (frames.map frame).flatten, hpackets, ?_, hhandled, fun chunks hchunks => ?_⟩
  · rw [SbeFrameCodec.encodeAll_eq_frames hmax hlens, nil_append]
  · exact feed_of_prefix hmax hlens hchunks

end Way

/-- An order for the message of `sideSchema`, at an odd place of a buffer. -/
def sellOrder (schema : Schema) : Outgoing where
  message := (SchemaIr.fromSchema schema).messages.headD ⟨"", 0, 0, [], [], []⟩
  value := ⟨[.scalar ⟨.u32, 250, by decide⟩, .enum ⟨"Sell", 2⟩], []⟩
  buffer := List.replicate 20 255
  offset := 3

theorem messages_reach_handlers_order :
    let schema := sideSchema sellOnly [qtyField 0, sideField 4]
    let d : MessageDispatcher ResolvedMessage Unit := {}
    parseSchema (sideEvents sellValue [qtyTag, sideTag]) = .ok schema ∧
      ∃ frames, [(sellOrder schema).packet schema] = frames.map some ∧
        List.Forall₂ (Handled d 5 schema) [sellOrder schema] frames := by
  intro schema d
  have hparse : parseSchema (sideEvents sellValue [qtyTag, sideTag]) = .ok schema := rfl
  have hsend : ∀ o ∈ [sellOrder schema], o.Sendable schema 64 := by
    rw [forall_mem_singleton]
    exact ⟨mem_cons_self, rfl, by decide, ⟨.cons rfl (.cons mem_cons_self .nil), .nil⟩,
      by decide, by decide⟩
  obtain ⟨frames, -, hpackets, -, hhandled, -⟩ :=
    messages_reach_handlers (c := ⟨64⟩) hparse (by decide) (by decide) d 5 (by decide) hsend
  exact ⟨hparse, frames, hpackets, hhandled⟩

end IronSbe.Server
