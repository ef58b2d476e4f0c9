import IronSbe.Lib.LittleEndian
import Mathlib.Data.List.Basic

/-!
# Streams of length-prefixed frames

A frame is a payload behind its length as four little-endian bytes.  A
receiver has a limit on the length, and it sees the stream in pieces.  This
module is the receiver's view of the bytes it holds so far: `head` says what
the next frame is, and `parse` takes every frame that is complete.

The two laws that make a receiver independent of how the stream was cut:

* `parse_append`: taking the frames of a piece and then those of the rest is
  taking the frames of the whole.
* `parse_flatten_frames`: a stream of frames within the limit parses to its
  payloads, and nothing is left over.

A receiver is a function that takes one frame off its buffer, called in a loop.
`Implements` is what such a function has to do, and `Implements.feedWith_eq` what
the loop then delivers for every way to cut the stream.

A receiver may also go on behind a refused length.  `resume` is one that then forgets
its buffer, and `resume_eq_parse_iff` says when it still delivers the frames of the
stream and no other.
-/

namespace Lib.Framing

open Lib.Bytes List

/-- A payload behind its four-byte length. -/
def frame (payload : List UInt8) : List UInt8 := leBytes 4 payload.length ++ payload

/-- The frames of the payloads, one behind the other. -/
def stream (payloads : List (List UInt8)) : List UInt8 := (payloads.map frame).flatten

@[simp] theorem length_frame (payload : List UInt8) :
    (frame payload).length = payload.length + 4 := by
  simp [frame, Nat.add_comm]

@[simp] theorem stream_cons (payload : List UInt8) (payloads : List (List UInt8)) :
    stream (payload :: payloads) = frame payload ++ stream payloads := rfl

@[simp] theorem stream_append (payloads more : List (List UInt8)) :
    stream (payloads ++ more) = stream payloads ++ stream more := by
  simp [stream]

/-- What a receiver finds at the front of the bytes it holds. -/
inductive Head where
  | incomplete
  | oversized (length : Nat)
  | complete (payload rest : List UInt8)
  deriving DecidableEq, Repr

/-- The front of the stream, for a receiver that accepts payloads of at most
`limit` bytes. -/
def head (limit : Nat) (stream : List UInt8) : Head :=
  if stream.length < 4 then .incomplete
  else if limit < leNat (stream.take 4) then .oversized (leNat (stream.take 4))
  else if stream.length < 4 + leNat (stream.take 4) then .incomplete
  else .complete ((stream.drop 4).take (leNat (stream.take 4)))
    (stream.drop (4 + leNat (stream.take 4)))

variable {limit : Nat} {rest payload : List UInt8} {payloads : List (List UInt8)}

/-- A complete frame takes at least its four length bytes off the stream. -/
theorem length_rest_lt {stream : List UInt8} (h : head limit stream = .complete payload rest) :
    rest.length < stream.length := by
  unfold head at h
  split_ifs at h with h4 hlim hlen
  obtain ⟨-, rfl⟩ := Head.complete.inj h
  rw [length_drop]
  omega

/-- More bytes behind a complete frame change only what follows it. -/
theorem head_append_of_complete {stream : List UInt8}
    (h : head limit stream = .complete payload rest) (more : List UInt8) :
    head limit (stream ++ more) = .complete payload (rest ++ more) := by
  unfold head at h
  split_ifs at h with h4 hlim hlen
  obtain ⟨rfl, rfl⟩ := Head.complete.inj h
  have htake : (stream ++ more).take 4 = stream.take 4 :=
    take_append_of_le_length (by omega)
  have hlen' : (stream ++ more).length = stream.length + more.length := length_append
  unfold head
  rw [htake, hlen', if_neg (by omega), if_neg hlim, if_neg (by omega)]
  congr 1
  · rw [drop_append_of_le_length (by omega), take_append_of_le_length]
    rw [length_drop]
    omega
  · exact drop_append_of_le_length (by omega)

/-- A refused length stays refused whatever follows it. -/
theorem head_append_of_oversized {length : Nat} {stream : List UInt8}
    (h : head limit stream = .oversized length) (more : List UInt8) :
    head limit (stream ++ more) = .oversized length := by
  unfold head at h
  split_ifs at h with h4 hlim
  obtain rfl := Head.oversized.inj h
  have htake : (stream ++ more).take 4 = stream.take 4 :=
    take_append_of_le_length (by omega)
  unfold head
  rw [htake, if_neg (by rw [length_append]; omega), if_pos hlim]

/-- The length in front of a stream that starts with a frame. -/
theorem leNat_take_frame_append (hfit : payload.length < 2 ^ 32) (more : List UInt8) :
    leNat ((frame payload ++ more).take 4) = payload.length := by
  rw [frame, append_assoc, take_left' (length_leBytes 4 _)]
  exact leNat_leBytes (by simpa using hfit)

/-- The frame at the front of a stream that starts with one. -/
theorem head_frame_append (hlimit : payload.length ≤ limit) (hfit : payload.length < 2 ^ 32)
    (more : List UInt8) :
    head limit (frame payload ++ more) = .complete payload more := by
  have hpre : (leBytes 4 payload.length).length = 4 := length_leBytes 4 _
  rw [head, leNat_take_frame_append hfit, length_append, length_frame, if_neg (by omega),
    if_neg (by omega), if_neg (by omega)]
  congr 1
  · rw [frame, append_assoc, drop_left' hpre, take_left]
  · exact drop_left' (by simp [frame, Nat.add_comm])

/-- The front of a stream that starts with a frame above the limit. -/
theorem head_frame_append_of_lt (hlimit : limit < payload.length) (hfit : payload.length < 2 ^ 32)
    (more : List UInt8) :
    head limit (frame payload ++ more) = .oversized payload.length := by
  rw [head, leNat_take_frame_append hfit, length_append, length_frame, if_neg (by omega),
    if_pos hlimit]

/-- Take every complete frame off the front of the stream.  The second part
is what the receiver still holds: an incomplete frame, or a length it
refuses. -/
def parse (limit : Nat) (stream : List UInt8) : List (List UInt8) × List UInt8 :=
  match h : head limit stream with
  | .complete payload rest =>
    have : rest.length < stream.length := length_rest_lt h
    (payload :: (parse limit rest).1, (parse limit rest).2)
  | _ => ([], stream)
termination_by stream.length

theorem parse_of_complete {stream : List UInt8} (h : head limit stream = .complete payload rest) :
    parse limit stream = (payload :: (parse limit rest).1, (parse limit rest).2) := by
  rw [parse]
  split
  · rename_i p r hpr
    obtain ⟨rfl, rfl⟩ := Head.complete.inj (hpr.symm.trans h)
    rfl
  · rename_i hno
    exact absurd h (hno payload rest)

theorem parse_of_not_complete {stream : List UInt8}
    (h : ∀ payload rest, head limit stream ≠ .complete payload rest) :
    parse limit stream = ([], stream) := by
  rw [parse]
  split
  · rename_i p r hpr
    exact absurd hpr (h p r)
  · rfl

/-- Taking the frames of a piece, and then those of what is left together
with the next piece, is taking the frames of both pieces at once. -/
theorem parse_append (limit : Nat) (stream more : List UInt8) :
    parse limit (stream ++ more) =
      ((parse limit stream).1 ++ (parse limit ((parse limit stream).2 ++ more)).1,
        (parse limit ((parse limit stream).2 ++ more)).2) := by
  induction hn : stream.length using Nat.strongRecOn generalizing stream with
  | ind n ih =>
    subst hn
    cases hhead : head limit stream with
    | complete payload rest =>
      have hlt := length_rest_lt hhead
      rw [parse_of_complete hhead, parse_of_complete (head_append_of_complete hhead more),
        ih rest.length hlt rest rfl]
      simp
    | incomplete | oversized length =>
      have hstop : parse limit stream = ([], stream) :=
        parse_of_not_complete (by rw [hhead]; simp)
      simp [hstop]

/-- A stream of frames parses to the payloads before the first one above the limit. -/
theorem parse_frames (h : ∀ p ∈ payloads, p.length < 2 ^ 32) :
    parse limit (payloads.map frame).flatten =
      (payloads.takeWhile (·.length ≤ limit),
        ((payloads.dropWhile (·.length ≤ limit)).map frame).flatten) := by
  induction payloads with
  | nil => exact parse_of_not_complete (by simp [head])
  | cons p rest ih =>
    rw [forall_mem_cons] at h
    rw [map_cons, flatten_cons]
    by_cases hp : p.length ≤ limit
    · rw [parse_of_complete (head_frame_append hp h.1 _), ih h.2,
        takeWhile_cons_of_pos (by simpa using hp), dropWhile_cons_of_pos (by simpa using hp)]
    · rw [parse_of_not_complete (by simp [head_frame_append_of_lt (Nat.lt_of_not_le hp) h.1]),
        takeWhile_cons_of_neg (by simpa using hp), dropWhile_cons_of_neg (by simpa using hp),
        map_cons, flatten_cons]

/-- A stream of frames within the limit parses to its payloads. -/
theorem parse_flatten_frames (hlimit : limit < 2 ^ 32) (h : ∀ p ∈ payloads, p.length ≤ limit) :
    parse limit (payloads.map frame).flatten = (payloads, []) := by
  induction payloads with
  | nil =>
    exact parse_of_not_complete (by simp [head])
  | cons p rest ih =>
    have hp : p.length ≤ limit := h p mem_cons_self
    have hrest := ih (fun q hq => h q (mem_cons_of_mem p hq))
    rw [map_cons, flatten_cons,
      parse_of_complete (head_frame_append hp (by omega) _), hrest]

/-! ## Receivers -/

section Receivers

variable {ε : Type} {limit : Nat} {take : List UInt8 → Except ε (Option (List UInt8)) × List UInt8}

/-- What a receiving loop has at its end: the frames it got, whether it ended on an
error, and the bytes still in the buffer. -/
structure Received (ε : Type) where
  frames : List (List UInt8)
  outcome : Except ε Unit
  buffer : List UInt8

/-- Put the frames of an earlier part of the loop in front. -/
def Received.prepend (frames : List (List UInt8)) (r : Received ε) : Received ε :=
  { r with frames := frames ++ r.frames }

/-- Call `take` until it has no frame to give; `none` when that needs more than
`fuel` calls. -/
def drainWith (take : List UInt8 → Except ε (Option (List UInt8)) × List UInt8) :
    Nat → List UInt8 → Option (Received ε)
  | 0, _ => none
  | fuel + 1, buffer =>
    match take buffer with
    | (.ok none, buffer) => some ⟨[], .ok (), buffer⟩
    | (.error e, buffer) => some ⟨[], .error e, buffer⟩
    | (.ok (some payload), buffer) => (drainWith take fuel buffer).map (.prepend [payload])

/-- Receive the chunks one at a time and drain the buffer after each, up to the
first error. -/
def feedWith (take : List UInt8 → Except ε (Option (List UInt8)) × List UInt8) :
    List (List UInt8) → List UInt8 → Option (Received ε)
  | [], buffer => some ⟨[], .ok (), buffer⟩
  | chunk :: chunks, buffer =>
    match drainWith take ((buffer ++ chunk).length + 1) (buffer ++ chunk) with
    | none => none
    | some ⟨frames, .error e, buffer⟩ => some ⟨frames, .error e, buffer⟩
    | some ⟨frames, .ok (), buffer⟩ => (feedWith take chunks buffer).map (.prepend frames)

/-- A call of `take` reports the front of the buffer.  What it leaves in the buffer
behind an error is its own affair. -/
structure Implements (limit : Nat)
    (take : List UInt8 → Except ε (Option (List UInt8)) × List UInt8) : Prop where
  incomplete : ∀ buffer, head limit buffer = .incomplete → take buffer = (.ok none, buffer)
  oversized : ∀ buffer length, head limit buffer = .oversized length →
    ∃ e buffer', take buffer = (.error e, buffer')
  complete : ∀ buffer payload rest, head limit buffer = .complete payload rest →
    take buffer = (.ok (some payload), rest)

/-- Take the front of the buffer; `refuse` gives the error for a length above the limit
and what is left in the buffer behind it. -/
def takeHead (refuse : List UInt8 → Nat → ε × List UInt8) (limit : Nat) (buffer : List UInt8) :
    Except ε (Option (List UInt8)) × List UInt8 :=
  match head limit buffer with
  | .incomplete => (.ok none, buffer)
  | .oversized length => (.error (refuse buffer length).1, (refuse buffer length).2)
  | .complete payload rest => (.ok (some payload), rest)

theorem implements_takeHead (refuse : List UInt8 → Nat → ε × List UInt8) (limit : Nat) :
    Implements limit (takeHead refuse limit) := by
  constructor
  · intro buffer h
    rw [takeHead, h]
  · intro buffer length h
    rw [takeHead, h]
    exact ⟨_, _, rfl⟩
  · intro buffer payload rest h
    rw [takeHead, h]

/-- The bytes start with a length above the limit. -/
def Refused (limit : Nat) (stream : List UInt8) : Prop :=
  ∃ length, head limit stream = .oversized length

/-- The loop ended on an error exactly if a refused length was in its way, and else
it holds the incomplete frame. -/
def EndsAt (limit : Nat) (rest : List UInt8) (r : Received ε) : Prop :=
  (Refused limit rest ∧ ∃ e, r.outcome = .error e) ∨
    (¬ Refused limit rest ∧ r.outcome = .ok () ∧ r.buffer = rest)

theorem EndsAt.error_iff {rest : List UInt8} {r : Received ε} (h : EndsAt limit rest r) :
    (∃ e, r.outcome = .error e) ↔ Refused limit rest := by
  rcases h with ⟨hrefused, herror⟩ | ⟨hrefused, hok, -⟩
  · exact ⟨fun _ => hrefused, fun _ => herror⟩
  · exact ⟨fun ⟨e, he⟩ => absurd (hok.symm.trans he) nofun, fun h => absurd h hrefused⟩

theorem Refused.append {stream : List UInt8} (h : Refused limit stream) (more : List UInt8) :
    Refused limit (stream ++ more) := by
  obtain ⟨length, hhead⟩ := h
  exact ⟨length, head_append_of_oversized hhead more⟩

theorem parse_of_refused {stream : List UInt8} (h : Refused limit stream) :
    parse limit stream = ([], stream) := by
  obtain ⟨length, hhead⟩ := h
  exact parse_of_not_complete (by simp [hhead])

variable {buffer : List UInt8}

/-- With more calls than bytes the loop ends, and it has taken every complete frame. -/
theorem Implements.drainWith_eq (h : Implements limit take) {fuel : Nat}
    (hfuel : buffer.length < fuel) :
    ∃ r, drainWith take fuel buffer = some r ∧ r.frames = (parse limit buffer).1 ∧
      EndsAt limit (parse limit buffer).2 r := by
  induction fuel generalizing buffer with
  | zero => exact absurd hfuel (Nat.not_lt_zero _)
  | succ fuel ih =>
    rw [drainWith]
    cases hhead : head limit buffer with
    | incomplete =>
      rw [parse_of_not_complete (by simp [hhead]), h.incomplete buffer hhead]
      exact ⟨_, rfl, rfl, .inr ⟨by simp [Refused, hhead], rfl, rfl⟩⟩
    | oversized length =>
      obtain ⟨e, buffer', htake⟩ := h.oversized buffer length hhead
      rw [parse_of_not_complete (by simp [hhead]), htake]
      exact ⟨_, rfl, rfl, .inl ⟨⟨length, hhead⟩, e, rfl⟩⟩
    | complete payload rest =>
      have hlt := length_rest_lt hhead
      obtain ⟨r, hr, hframes, hends⟩ := ih (show rest.length < fuel by omega)
      rw [parse_of_complete hhead, h.complete buffer payload rest hhead]
      refine ⟨r.prepend [payload], ?_, ?_, hends⟩
      · exact congrArg (Option.map (Received.prepend [payload])) hr
      · rw [← hframes]
        rfl

/-- What is left behind the complete frames has no complete frame at its front. -/
theorem parse_parse (limit : Nat) (stream : List UInt8) :
    parse limit (parse limit stream).2 = ([], (parse limit stream).2) := by
  have happend := parse_append limit stream []
  rw [append_nil, append_nil] at happend
  have hframes := congrArg Prod.fst happend
  rw [self_eq_append_right] at hframes
  exact Prod.ext hframes (congrArg Prod.snd happend).symm

/-- The frames and the outcome of receiving `chunks` are those of the bytes in the
buffer and the chunks together.  The buffer has been drained before, as it is when
the loop waits. -/
theorem Implements.feedWith_eq (h : Implements limit take) (chunks : List (List UInt8))
    (hbuffer : parse limit buffer = ([], buffer)) (hok : ¬ Refused limit buffer) :
    ∃ r, feedWith take chunks buffer = some r ∧
      r.frames = (parse limit (buffer ++ chunks.flatten)).1 ∧
      EndsAt limit (parse limit (buffer ++ chunks.flatten)).2 r := by
  induction chunks generalizing buffer with
  | nil =>
    rw [flatten_nil, append_nil, hbuffer]
    exact ⟨_, rfl, rfl, .inr ⟨hok, rfl, rfl⟩⟩
  | cons chunk chunks ih =>
    obtain ⟨⟨frames, outcome, left⟩, hdrain, hframes, hends⟩ :=
      h.drainWith_eq (Nat.lt_succ_self (buffer ++ chunk).length)
    rw [flatten_cons, ← append_assoc, parse_append limit (buffer ++ chunk), feedWith, hdrain]
    rcases hends with ⟨hrefused, e, he⟩ | ⟨hrefused, hokay, hleft⟩
    · -- a refused length stays at the front of whatever arrives later
      obtain rfl : outcome = .error e := he
      have hstop := parse_of_refused (hrefused.append chunks.flatten)
      rw [hstop]
      refine ⟨_, rfl, ?_, .inl ⟨hrefused.append _, e, rfl⟩⟩
      rw [append_nil]
      exact hframes
    · obtain rfl : outcome = .ok () := hokay
      obtain rfl : left = (parse limit (buffer ++ chunk)).2 := hleft
      obtain ⟨r, hr, hrframes, hrends⟩ := ih (parse_parse limit (buffer ++ chunk)) hrefused
      refine ⟨r.prepend frames, ?_, ?_, hrends⟩
      · exact congrArg (Option.map (Received.prepend frames)) hr
      · rw [← hrframes, ← hframes]
        rfl

/-- A receiver that starts with nothing in its buffer. -/
theorem Implements.feedWith_nil (h : Implements limit take) (chunks : List (List UInt8)) :
    ∃ r, feedWith take chunks [] = some r ∧ r.frames = (parse limit chunks.flatten).1 ∧
      EndsAt limit (parse limit chunks.flatten).2 r := by
  have hnil : head limit [] = .incomplete := by simp [head]
  exact h.feedWith_eq chunks (parse_of_not_complete (by simp [hnil])) (by simp [Refused, hnil])

/-- What was framed comes out, with nothing left over. -/
theorem Implements.feedWith_frames (h : Implements limit take) (hlimit : limit < 2 ^ 32)
    {payloads chunks : List (List UInt8)} (hpayloads : ∀ p ∈ payloads, p.length ≤ limit)
    (hchunks : chunks.flatten = (payloads.map frame).flatten) :
    feedWith take chunks [] = some ⟨payloads, .ok (), []⟩ := by
  obtain ⟨⟨frames, outcome, left⟩, hfeed, hframes, hends⟩ := h.feedWith_nil chunks
  rw [hchunks, parse_flatten_frames hlimit hpayloads] at hframes hends
  rcases hends with ⟨⟨length, hhead⟩, -⟩ | ⟨-, hok, hleft⟩
  · simp [head] at hhead
  · obtain rfl : frames = payloads := hframes
    obtain rfl : outcome = .ok () := hok
    obtain rfl : left = [] := hleft
    exact hfeed

end Receivers

/-! ## Receivers that go on behind a refused length -/

section Resuming

variable {limit : Nat}

instance (limit : Nat) (stream : List UInt8) : Decidable (Refused limit stream) :=
  match h : head limit stream with
  | .oversized length => isTrue ⟨length, h⟩
  | .incomplete | .complete _ _ => isFalse (by simp [Refused, h])

/-- The bytes that such a receiver keeps: it forgets all of them at a refused length. -/
def kept (limit : Nat) (rest : List UInt8) : List UInt8 :=
  if Refused limit rest then [] else rest

/-- The frames that a receiver gets that takes up the next chunk as if it were the start of
a stream, and its buffer at the end. -/
def resume (limit : Nat) : List UInt8 → List (List UInt8) → List (List UInt8) × List UInt8
  | buffer, [] => ([], buffer)
  | buffer, chunk :: chunks =>
    let r := parse limit (buffer ++ chunk)
    let later := resume limit (kept limit r.2) chunks
    (r.1 ++ later.1, later.2)

/-- The chunks behind the one that has brought a refused length. -/
def behindRefusal (limit : Nat) : List UInt8 → List (List UInt8) → List (List UInt8)
  | _, [] => []
  | buffer, chunk :: chunks =>
    let rest := (parse limit (buffer ++ chunk)).2
    if Refused limit rest then chunks else behindRefusal limit rest chunks

/-- No chunk completes a frame, for a receiver that starts again behind a refused length. -/
def Frameless (limit : Nat) : List UInt8 → List (List UInt8) → Prop
  | _, [] => True
  | buffer, chunk :: chunks =>
    match head limit (buffer ++ chunk) with
    | .complete _ _ => False
    | .oversized _ => Frameless limit [] chunks
    | .incomplete => Frameless limit (buffer ++ chunk) chunks

variable {buffer : List UInt8}

/-- The loop of a receiver that forgets its buffer at a refused length. -/
theorem Implements.buffer_drainWith {ε : Type}
    {take : List UInt8 → Except ε (Option (List UInt8)) × List UInt8} (h : Implements limit take)
    (hforget : ∀ buffer, Refused limit buffer → (take buffer).2 = []) {fuel : Nat} {r : Received ε}
    (hr : drainWith take fuel buffer = some r) :
    r.buffer = kept limit (parse limit buffer).2 := by
  induction fuel generalizing buffer r with
  | zero => cases hr
  | succ fuel ih =>
    rw [drainWith] at hr
    cases hhead : head limit buffer with
    | incomplete =>
      rw [h.incomplete buffer hhead] at hr
      cases hr
      rw [parse_of_not_complete (by simp [hhead]), kept, if_neg (by simp [Refused, hhead])]
    | oversized length =>
      have hrefused : Refused limit buffer := ⟨length, hhead⟩
      obtain ⟨e, buffer', htake⟩ := h.oversized buffer length hhead
      have hnil := hforget buffer hrefused
      rw [htake] at hr hnil
      cases hr
      rw [parse_of_refused hrefused, kept, if_pos hrefused]
      exact hnil
    | complete payload rest =>
      rw [h.complete buffer payload rest hhead] at hr
      obtain ⟨later, hlater, rfl⟩ := Option.map_eq_some_iff.mp hr
      rw [parse_of_complete hhead]
      show later.buffer = _
      exact ih hlater

theorem resume_concat (buffer : List UInt8) (chunks : List (List UInt8)) (chunk : List UInt8) :
    resume limit buffer (chunks ++ [chunk]) =
      ((resume limit buffer chunks).1 ++ (parse limit ((resume limit buffer chunks).2 ++ chunk)).1,
        kept limit (parse limit ((resume limit buffer chunks).2 ++ chunk)).2) := by
  induction chunks generalizing buffer with
  | nil => simp [resume]
  | cons first chunks ih =>
    rw [cons_append, resume, ih]
    simp [resume]

/-- Behind the frames of the stream come those that the receiver makes of the chunks behind
the refused length. -/
theorem resume_eq (chunks : List (List UInt8)) (hbuffer : parse limit buffer = ([], buffer))
    (hok : ¬ Refused limit buffer) :
    (resume limit buffer chunks).1 =
      (parse limit (buffer ++ chunks.flatten)).1 ++
        (resume limit [] (behindRefusal limit buffer chunks)).1 := by
  induction chunks generalizing buffer with
  | nil =>
    rw [flatten_nil, append_nil, hbuffer]
    rfl
  | cons chunk chunks ih =>
    rw [flatten_cons, ← append_assoc, parse_append limit (buffer ++ chunk), resume,
      behindRefusal]
    by_cases hrefused : Refused limit (parse limit (buffer ++ chunk)).2
    · rw [kept, if_pos hrefused, if_pos hrefused, parse_of_refused (hrefused.append chunks.flatten),
        append_nil]
    · rw [kept, if_neg hrefused, if_neg hrefused, ih (parse_parse limit (buffer ++ chunk)) hrefused,
        append_assoc]

theorem resume_eq_nil_iff (buffer : List UInt8) (chunks : List (List UInt8)) :
    (resume limit buffer chunks).1 = [] ↔ Frameless limit buffer chunks := by
  induction chunks generalizing buffer with
  | nil => exact ⟨fun _ => trivial, fun _ => rfl⟩
  | cons chunk chunks ih =>
    rw [resume, Frameless, append_eq_nil_iff]
    cases hhead : head limit (buffer ++ chunk) with
    | complete payload rest =>
      rw [parse_of_complete hhead]
      simp
    | oversized length =>
      rw [parse_of_refused ⟨length, hhead⟩, kept, if_pos ⟨length, hhead⟩, ih]
      simp
    | incomplete =>
      rw [parse_of_not_complete (by simp [hhead]), kept, if_neg (by simp [Refused, hhead]), ih]
      simp

/-- Such a receiver gets the frames of the stream and no other exactly if the chunks behind
the refused length complete no frame. -/
theorem resume_eq_parse_iff (chunks : List (List UInt8)) :
    (resume limit [] chunks).1 = (parse limit chunks.flatten).1 ↔
      Frameless limit [] (behindRefusal limit [] chunks) := by
  have hnil : head limit [] = .incomplete := by simp [head]
  have heq := resume_eq chunks (parse_of_not_complete (by simp [hnil]))
    (show ¬ Refused limit [] by simp [Refused, hnil])
  rw [nil_append] at heq
  rw [heq, append_right_eq_self, resume_eq_nil_iff]

end Resuming

end Lib.Framing
