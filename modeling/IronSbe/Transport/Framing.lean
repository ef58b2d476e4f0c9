import IronSbe.Lib.Framing

/-!
# The TCP frame codec

`SbeFrameCodec` puts the length of a message in front of it, four bytes little
endian, and takes frames off the bytes a connection has received so far.  The
codec keeps no state between calls: what it has not used stays in the buffer.

The loop around `decode` belongs to the connection: append what was received,
call `decode` until it has no frame to give, wait for more.  That loop is `feed`.

* `decode_eq_head`, `implements_decode`: `decode` is a receiver of `Lib.Framing`, so
  what the loop gives depends on the bytes of the stream and not on where it was cut.
* `feed_encodeAll`: what was encoded comes out again, whatever the chunks are.
-/

namespace IronSbe.Transport

open Lib.Bytes Lib.Framing

/-- The kinds of `std::io::Error` that the codec builds. -/
inductive IoErrorKind where
  | invalidData
  deriving DecidableEq, Repr

/-- A `std::io::Error` with its text. -/
structure IoError where
  kind : IoErrorKind
  message : String
  deriving DecidableEq, Repr

/-- The frame codec and its limit on the size of a frame. -/
structure SbeFrameCodec where
  maxFrameSize : Nat
  deriving DecidableEq, Repr

namespace SbeFrameCodec

/-- The error of both directions for a frame above the limit. -/
def frameTooLarge (c : SbeFrameCodec) (length : Nat) : IoError where
  kind := .invalidData
  message := "frame too large: " ++ toString length ++ " bytes exceeds maximum " ++
    toString c.maxFrameSize ++ " bytes"

/-- `Decoder::decode`: the result, and the buffer `src` after the call. -/
def decode (c : SbeFrameCodec) (src : List UInt8) :
    Except IoError (Option (List UInt8)) × List UInt8 :=
  if src.length < 4 then (.ok none, src)
  else
    let length := leNat (src.take 4)
    if c.maxFrameSize < length then (.error (c.frameTooLarge length), src)
    -- `src.reserve` changes the capacity of the buffer and none of its bytes.
    else if src.length < 4 + length then (.ok none, src)
    else
      let src := src.drop 4
      (.ok (some (src.take length)), src.drop length)

/-- `Encoder::encode`: the result, and the buffer `dst` after the call.  The
length goes through `as u32`. -/
def encode (c : SbeFrameCodec) (item dst : List UInt8) : Except IoError Unit × List UInt8 :=
  if c.maxFrameSize < item.length then (.error (c.frameTooLarge item.length), dst)
  else (.ok (), dst ++ leBytes 4 (item.length % 2 ^ 32) ++ item)

/-- Encode one message after the other into `dst`, up to the first error. -/
def encodeAll (c : SbeFrameCodec) :
    List (List UInt8) → List UInt8 → Except IoError Unit × List UInt8
  | [], dst => (.ok (), dst)
  | item :: items, dst =>
    match c.encode item dst with
    | (.ok (), dst) => encodeAll c items dst
    | (.error e, dst) => (.error e, dst)

/-- Receive the chunks one at a time and call `decode` after each until it has no frame to
give. -/
def feed (c : SbeFrameCodec) (chunks : List (List UInt8)) (src : List UInt8) :
    Option (Received IoError) :=
  feedWith c.decode chunks src

/-! ## The calls against the frames of the stream -/

/-- `decode` reports the front of the buffer, and takes only a complete frame
off it. -/
theorem decode_eq_head (c : SbeFrameCodec) (src : List UInt8) :
    c.decode src =
      match head c.maxFrameSize src with
      | .incomplete => (.ok none, src)
      | .oversized length => (.error (c.frameTooLarge length), src)
      | .complete payload rest => (.ok (some payload), rest) := by
  simp only [decode, head, List.drop_drop]
  split_ifs <;> rfl

variable {c : SbeFrameCodec} {src : List UInt8}

/-- The only call that changes the buffer is one that gives a frame. -/
theorem buffer_unchanged_of_decode {src' : List UInt8}
    {result : Except IoError (Option (List UInt8))} (h : c.decode src = (result, src'))
    (hno : ∀ frame, result ≠ .ok (some frame)) : src' = src := by
  rw [decode_eq_head] at h
  cases hhead : head c.maxFrameSize src with
  | incomplete | oversized length => rw [hhead] at h; exact (Prod.mk.inj h).2.symm
  | complete payload rest =>
    rw [hhead] at h
    exact absurd (Prod.mk.inj h).1.symm (hno payload)

theorem implements_decode (c : SbeFrameCodec) : Implements c.maxFrameSize c.decode := by
  have heq : c.decode =
      takeHead (fun src length => (c.frameTooLarge length, src)) c.maxFrameSize :=
    funext c.decode_eq_head
  rw [heq]
  exact implements_takeHead _ _

/-! ## Encoding -/

/-- Messages within the limit are encoded to their frames, one behind the
other. -/
theorem encodeAll_eq_frames (hmax : c.maxFrameSize < 2 ^ 32) {messages : List (List UInt8)}
    (h : ∀ m ∈ messages, m.length ≤ c.maxFrameSize) (dst : List UInt8) :
    c.encodeAll messages dst = (.ok (), dst ++ (messages.map frame).flatten) := by
  induction messages generalizing dst with
  | nil => simp [encodeAll]
  | cons m rest ih =>
    have hm : m.length ≤ c.maxFrameSize := h m List.mem_cons_self
    have hmod : m.length % 2 ^ 32 = m.length := Nat.mod_eq_of_lt (by omega)
    rw [encodeAll, encode, if_neg (by omega), hmod]
    simp only
    rw [ih (fun q hq => h q (List.mem_cons_of_mem m hq))]
    simp [frame]

/-- What was encoded comes out of the receiving loop, in order and with nothing
left in the buffer, wherever the stream was cut; and a call of `decode` that
gives no frame leaves the buffer as it was. -/
theorem feed_encodeAll (c : SbeFrameCodec) :
    (c.maxFrameSize < 2 ^ 32 →
      ∀ messages : List (List UInt8), (∀ m ∈ messages, m.length ≤ c.maxFrameSize) →
        ∃ stream, c.encodeAll messages [] = (.ok (), stream) ∧
          ∀ chunks : List (List UInt8), chunks.flatten = stream →
            c.feed chunks [] = some ⟨messages, .ok (), []⟩) ∧
    (∀ src src', c.decode src = (.ok none, src') → src' = src) ∧
    (∀ src src' e, c.decode src = (.error e, src') → src' = src) := by
  refine ⟨fun hmax messages hm => ?_, fun src src' h => ?_, fun src src' e h => ?_⟩
  · refine ⟨(messages.map frame).flatten, ?_, fun chunks hchunks => ?_⟩
    · rw [encodeAll_eq_frames hmax hm, List.nil_append]
    · exact c.implements_decode.feedWith_frames hmax hm hchunks
  all_goals exact buffer_unchanged_of_decode h (by simp)

/-- Two messages, one of them empty, cut inside the length prefix. -/
theorem feed_encodeAll_two :
    let c : SbeFrameCodec := ⟨16⟩
    c.encodeAll [[7, 8], []] [] = (.ok (), [2, 0, 0, 0, 7, 8, 0, 0, 0, 0]) ∧
      c.feed [[2, 0], [], [0, 0, 7, 8, 0], [0, 0, 0]] [] = some ⟨[[7, 8], []], .ok (), []⟩ := by
  intro c
  obtain ⟨stream, hstream, hfeed⟩ :=
    (feed_encodeAll c).1 (by decide) [[7, 8], []] (by decide)
  have hbytes : c.encodeAll [[7, 8], []] [] = (.ok (), [2, 0, 0, 0, 7, 8, 0, 0, 0, 0]) := by rfl
  refine ⟨hbytes, hfeed _ ?_⟩
  rw [hbytes] at hstream
  exact (Prod.mk.inj hstream).2

end SbeFrameCodec

end IronSbe.Transport
