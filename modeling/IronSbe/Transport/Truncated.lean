import IronSbe.Lib.EndOfStream
import IronSbe.Transport.Uring

/-!
# Streams that end inside a frame

A peer may close its side in the middle of a length prefix or of a frame.  A tokio `Framed`
stream over `SbeFrameCodec` then reports the bytes that are left as an error; that is the default
`decode_eof`.  `UringConnection::recv` returns `Ok(None)` as soon as a read returns nothing,
whatever is in `pending`.

The two deliver the same frames (`receive_eq`, both times), and they report the end alike exactly
if no incomplete frame is left (`reportedAlike_iff`).
-/

namespace IronSbe.Transport

open Lib.Framing

/-- An error of a `Framed` stream. -/
inductive StreamError where
  | codec (e : IoError)
  /-- `"bytes remaining on stream"`. -/
  | bytesRemaining
  deriving DecidableEq, Repr

namespace SbeFrameCodec

/-- `decode` in a `Framed` stream. -/
def decodeStream (c : SbeFrameCodec) (src : List UInt8) :
    Except StreamError (Option (List UInt8)) × List UInt8 :=
  ((c.decode src).1.mapError .codec, (c.decode src).2)

/-- The default `Decoder::decode_eof`. -/
def decodeEof (c : SbeFrameCodec) (src : List UInt8) :
    Except StreamError (Option (List UInt8)) × List UInt8 :=
  match c.decodeStream src with
  | (.ok none, src) => (if src = [] then .ok none else .error .bytesRemaining, src)
  | result => result

/-- `Framed::next`, with the bytes in its buffer and the reads to come. -/
def next (c : SbeFrameCodec) (src : List UInt8) (reads : List (List UInt8)) :
    Except StreamError (Option (List UInt8)) × List UInt8 × List (List UInt8) :=
  recvWith c.decodeStream c.decodeEof src reads

/-- The frames of a new `Framed` stream, and how it ends. -/
def receive (c : SbeFrameCodec) (reads : List (List UInt8)) :
    Option (List (List UInt8) × Except StreamError Unit) :=
  receiveWith c.next (reads.flatten.length + 1) [] reads

theorem implements_decodeStream (c : SbeFrameCodec) :
    Implements c.maxFrameSize c.decodeStream := by
  have heq : c.decodeStream =
      takeHead (fun src length => (.codec (c.frameTooLarge length), src)) c.maxFrameSize := by
    funext src
    rw [decodeStream, decode_eq_head, takeHead]
    cases head c.maxFrameSize src with
    | incomplete | oversized length | complete payload rest => rfl
  rw [heq]
  exact implements_takeHead _ _

theorem decodeEof_of_incomplete {c : SbeFrameCodec} {rest : List UInt8}
    (h : head c.maxFrameSize rest = .incomplete) :
    c.decodeEof rest = (if rest = [] then .ok none else .error .bytesRemaining, rest) := by
  rw [decodeEof, c.implements_decodeStream.incomplete rest h]

end SbeFrameCodec

namespace UringConnection

/-- A read has returned nothing: `Ok(None)`. -/
def peerClosed (pending : List UInt8) : Except IoError (Option (List UInt8)) × List UInt8 :=
  (.ok none, pending)

/-- `recv`, with the reads to come. -/
def recv (c : UringConnection) (reads : List (List UInt8)) :
    Except IoError (Option (List UInt8)) × List UInt8 × List (List UInt8) :=
  recvWith (takeFrom c.maxFrameSize) peerClosed c.pending reads

/-- The frames of a new connection, and how it ends. -/
def receive (maxFrameSize : Nat) (reads : List (List UInt8)) :
    Option (List (List UInt8) × Except IoError Unit) :=
  receiveWith (fun pending => recv ⟨maxFrameSize, pending⟩) (reads.flatten.length + 1) [] reads

end UringConnection

/-- The two receivers deliver the same frames and agree on the outcome: both end on an error, or
both report a clean end of the stream. -/
def ReportedAlike (maxFrameSize : Nat) (tcpReads uringReads : List (List UInt8)) : Prop :=
  ∃ frames tcp uring, SbeFrameCodec.receive ⟨maxFrameSize⟩ tcpReads = some (frames, tcp) ∧
    UringConnection.receive maxFrameSize uringReads = some (frames, uring) ∧
    ((∃ e, tcp = .error e) ↔ ∃ e, uring = .error e)

/-- Bytes that no complete frame is in front of, and no refused length, are an incomplete frame. -/
theorem head_parse {limit : Nat} {bytes : List UInt8}
    (h : ¬ Refused limit (parse limit bytes).2) :
    head limit (parse limit bytes).2 = .incomplete := by
  cases hhead : head limit (parse limit bytes).2 with
  | incomplete => rfl
  | oversized length => exact absurd ⟨length, hhead⟩ h
  | complete payload rest =>
    have hparse := parse_parse limit bytes
    rw [parse_of_complete hhead] at hparse
    cases congrArg Prod.fst hparse

section Ends

variable (maxFrameSize : Nat) {reads : List (List UInt8)}

/-- A `Framed` stream delivers the frames of the stream, and ends on an error exactly if
something is left behind them. -/
theorem SbeFrameCodec.receive_eq (hreads : [] ∉ reads) :
    ∃ outcome, SbeFrameCodec.receive ⟨maxFrameSize⟩ reads =
        some ((parse maxFrameSize reads.flatten).1, outcome) ∧
      ((∃ e, outcome = .error e) ↔ (parse maxFrameSize reads.flatten).2 ≠ []) := by
  have himplements := SbeFrameCodec.implements_decodeStream ⟨maxFrameSize⟩
  have hfinish : ∀ rest payload, head maxFrameSize rest = .incomplete →
      (SbeFrameCodec.decodeEof ⟨maxFrameSize⟩ rest).1 ≠ .ok (some payload) := by
    intro rest payload hhead
    rw [SbeFrameCodec.decodeEof_of_incomplete hhead]
    split_ifs <;> rintro ⟨⟩
  obtain ⟨outcome, hreceive, hends⟩ :=
    receiveWith_eq himplements hfinish hreads (Nat.lt_succ_self ([] ++ reads.flatten).length)
  rw [List.nil_append] at hreceive hends
  refine ⟨outcome, hreceive, ?_⟩
  obtain ⟨⟨length, hhead⟩, herror⟩ | ⟨hopen, rfl⟩ := hends
  · refine iff_of_true herror fun hnil => ?_
    rw [hnil] at hhead
    cases hhead
  · rw [SbeFrameCodec.decodeEof_of_incomplete (head_parse hopen)]
    by_cases hnil : (parse maxFrameSize reads.flatten).2 = []
    · rw [if_pos hnil]
      refine iff_of_false ?_ (not_not.mpr hnil)
      rintro ⟨e, ⟨⟩⟩
    · rw [if_neg hnil]
      exact iff_of_true ⟨.bytesRemaining, rfl⟩ hnil

/-- A connection over io_uring delivers the same frames, and ends on an error exactly if a refused
length is behind them. -/
theorem UringConnection.receive_eq (hreads : [] ∉ reads) :
    ∃ outcome, UringConnection.receive maxFrameSize reads =
        some ((parse maxFrameSize reads.flatten).1, outcome) ∧
      ((∃ e, outcome = .error e) ↔ Refused maxFrameSize (parse maxFrameSize reads.flatten).2) := by
  have hfinish : ∀ rest payload, head maxFrameSize rest = .incomplete →
      (UringConnection.peerClosed rest).1 ≠ .ok (some payload) := by
    rintro rest payload - ⟨⟩
  obtain ⟨outcome, hreceive, hends⟩ :=
    receiveWith_eq (UringConnection.implements_tryTakeFrame maxFrameSize) hfinish hreads
      (Nat.lt_succ_self ([] ++ reads.flatten).length)
  rw [List.nil_append] at hreceive hends
  refine ⟨outcome, hreceive, ?_⟩
  obtain ⟨hrefused, herror⟩ | ⟨hopen, rfl⟩ := hends
  · exact iff_of_true herror hrefused
  · refine iff_of_false ?_ hopen
    rintro ⟨e, ⟨⟩⟩

end Ends

/-- A stream is reported alike, however each receiver sees it cut, exactly if it ends behind a
complete frame, or does not get past a refused length.  If it ends inside a prefix or a frame, one
receiver reports an error and the other one a clean end. -/
theorem reportedAlike_iff (maxFrameSize : Nat) (bytes : List UInt8)
    {tcpReads uringReads : List (List UInt8)} (htcp : tcpReads.flatten = bytes)
    (htcpReads : [] ∉ tcpReads) (huring : uringReads.flatten = bytes)
    (huringReads : [] ∉ uringReads) :
    ReportedAlike maxFrameSize tcpReads uringReads ↔
      (parse maxFrameSize bytes).2 = [] ∨ Refused maxFrameSize (parse maxFrameSize bytes).2 := by
  obtain ⟨tcp, htcpReceive, htcpError⟩ := SbeFrameCodec.receive_eq maxFrameSize htcpReads
  obtain ⟨uring, huringReceive, huringError⟩ :=
    UringConnection.receive_eq maxFrameSize huringReads
  rw [htcp] at htcpReceive htcpError
  rw [huring] at huringReceive huringError
  have hwhole : ReportedAlike maxFrameSize tcpReads uringReads ↔
      ((parse maxFrameSize bytes).2 ≠ [] ↔ Refused maxFrameSize (parse maxFrameSize bytes).2) := by
    rw [← htcpError, ← huringError]
    constructor
    · rintro ⟨frames, tcp', uring', htcp', huring', halike⟩
      obtain ⟨-, rfl⟩ := Prod.mk.inj (Option.some.inj (htcpReceive.symm.trans htcp'))
      obtain ⟨-, rfl⟩ := Prod.mk.inj (Option.some.inj (huringReceive.symm.trans huring'))
      exact halike
    · intro halike
      exact ⟨_, tcp, uring, htcpReceive, huringReceive, halike⟩
  have hnonempty : Refused maxFrameSize (parse maxFrameSize bytes).2 →
      (parse maxFrameSize bytes).2 ≠ [] := by
    rintro ⟨length, hhead⟩ hnil
    rw [hnil] at hhead
    cases hhead
  rw [hwhole]
  constructor
  · intro halike
    by_cases hnil : (parse maxFrameSize bytes).2 = []
    · exact Or.inl hnil
    · exact Or.inr (halike.mp hnil)
  · rintro (hnil | hrefused)
    · exact iff_of_false (not_not.mpr hnil) fun hrefused => hnonempty hrefused hnil
    · exact iff_of_true (hnonempty hrefused) hrefused

/-- One frame, in one read or in two. -/
theorem reportedAlike_frame : ReportedAlike 16 [[2, 0, 0, 0, 7, 8]] [[2, 0], [0, 0, 7, 8]] := by
  have hhead : head 16 [2, 0, 0, 0, 7, 8] = .complete [7, 8] [] := by decide
  refine (reportedAlike_iff 16 [2, 0, 0, 0, 7, 8] rfl (by decide) rfl (by decide)).mpr ?_
  rw [parse_of_complete hhead, parse_of_not_complete (by rintro payload rest ⟨⟩)]
  exact Or.inl rfl

theorem not_reportedAlike_of {maxFrameSize : Nat} {e : StreamError}
    {tcpReads uringReads frames frames' : List (List UInt8)}
    (htcp : SbeFrameCodec.receive ⟨maxFrameSize⟩ tcpReads = some (frames, .error e))
    (huring : UringConnection.receive maxFrameSize uringReads = some (frames', .ok ())) :
    ¬ ReportedAlike maxFrameSize tcpReads uringReads := by
  rintro ⟨both, tcp, uring, htcp', huring', halike⟩
  obtain ⟨-, rfl⟩ := Prod.mk.inj (Option.some.inj (htcp.symm.trans htcp'))
  obtain ⟨-, rfl⟩ := Prod.mk.inj (Option.some.inj (huring.symm.trans huring'))
  obtain ⟨e', hclean⟩ := halike.mp ⟨e, rfl⟩
  cases hclean

/-- The first two bytes of a length; and a frame of two bytes, of which one has come. -/
theorem not_reportedAlike :
    ¬ ReportedAlike 16 [[2, 0]] [[2, 0]] ∧
      ¬ ReportedAlike 16 [[2, 0, 0, 0, 7]] [[2, 0, 0, 0, 7]] :=
  ⟨not_reportedAlike_of rfl rfl, not_reportedAlike_of rfl rfl⟩

end IronSbe.Transport
