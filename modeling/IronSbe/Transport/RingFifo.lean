import IronSbe.Lib.Fallible
import IronSbe.Lib.Framing
import IronSbe.Lib.Transition
import IronSbe.Transport.RingBuffer

/-!
# The ring buffer between a producer and a consumer

One producer calls `write` and one consumer calls `read`, each in its own
process.  A call is a sequence of steps: load the two positions, copy the
length prefix, copy the data, publish the new position.  `step` is one step of
one side, and a `run` is any interleaving of steps.  The capacity and the mask
are constants here, and the data region is memory of its own.

The history of the calls that have returned is part of the state: `writes` with
what was offered and the result, `reads` with what came out.

* `Inv`: the positions are lengths of the byte stream of the accepted messages,
  and the live window of the region holds that stream.
* `inv_step`, `inv_run`: every interleaving keeps it.
* `consume_eq_some`: the consumer never panics.
* `run_of_refused`: a write that returns `false` might as well not have been
  called.
* `readUntilNone_eq_some`: reading to the end gives everything.
* `write_refines`, `read_refines`: a call on the mapped file is a run of the
  steps of one side.
* `ring_fifo`: nothing is lost, invented or reordered.
-/

namespace IronSbe.Transport.SharedRingBuffer

open Lib.Bytes Lib.Fallible Lib.Framing Lib.Ring Lib.Transition Option Nat

/-! ## Steps -/

/-- What the two sides share. -/
structure Shared where
  head : Nat
  tail : Nat
  region : List UInt8
  deriving DecidableEq, Repr

/-- Where the producer is in a call of `write`, with the values it has loaded. -/
inductive Producer where
  | idle
  | loadedHead (data : List UInt8) (head : Nat)
  | loaded (data : List UInt8) (head tail : Nat)
  | copiedLen (data : List UInt8) (head : Nat)
  | copiedData (data : List UInt8) (head : Nat)
  deriving DecidableEq, Repr

/-- Where the consumer is in a call of `read`, with the values it has loaded. -/
inductive Consumer where
  | idle
  | loadedTail (tail : Nat)
  | loaded (tail head : Nat)
  | copiedLen (tail len : Nat)
  | copiedData (tail len : Nat) (data : List UInt8)
  deriving DecidableEq, Repr

/-- The shared memory, both sides, and the calls that have returned. -/
structure System where
  shared : Shared
  producer : Producer
  consumer : Consumer
  writes : List (List UInt8 × Bool)
  reads : List (Option (List UInt8))
  deriving DecidableEq, Repr

/-- A new ring buffer with any bytes in its data region. -/
def System.start (region : List UInt8) : System :=
  ⟨⟨0, 0, region⟩, .idle, .idle, [], []⟩

/-- The messages whose `write` returned `true`, in order. -/
def System.accepted (s : System) : List (List UInt8) :=
  s.writes.filterMap fun w => if w.2 then some w.1 else none

/-- The messages that `read` returned, in order. -/
def System.delivered (s : System) : List (List UInt8) := s.reads.filterMap id

/-- What can happen next: the producer calls `write`, it makes the next step of
its call, or the consumer makes one, calling `read` when it is idle. -/
inductive Action where
  | write (data : List UInt8)
  | produce
  | consume
  deriving DecidableEq, Repr

/-- The offset of position `pos`: `HEADER_SIZE + (pos & mask)`. -/
def offsetOf (capacity pos : Nat) : Nat := headerSize + (pos &&& (capacity - 1))

/-- The next step of a call of `write`; `none` when there is no call or the
step panics. -/
def produce (capacity : Nat) (s : System) : Option System :=
  match s.producer with
  | .idle => none
  | .loadedHead data head => some { s with producer := .loaded data head s.shared.tail }
  | .loaded data head tail =>
    if head < tail ∨ capacity < head - tail then none
    else if capacity - (head - tail) < 4 + data.length then
      some { s with producer := .idle, writes := s.writes ++ [(data, false)] }
    else
      (writeWithWrap s.shared.region (offsetOf capacity head) (leBytes 4 (data.length % 2 ^ 32))
        capacity).map fun region =>
          { s with shared := { s.shared with region }, producer := .copiedLen data head }
  | .copiedLen data head =>
    (writeWithWrap s.shared.region (offsetOf capacity head + 4) data capacity).map fun region =>
      { s with shared := { s.shared with region }, producer := .copiedData data head }
  | .copiedData data head =>
    if head + (4 + data.length) < 2 ^ 64 then
      some { s with
        shared := { s.shared with head := head + (4 + data.length) }
        producer := .idle
        writes := s.writes ++ [(data, true)] }
    else none

/-- The next step of a call of `read`; `none` when it panics. -/
def consume (capacity : Nat) (s : System) : Option System :=
  match s.consumer with
  | .idle => some { s with consumer := .loadedTail s.shared.tail }
  | .loadedTail tail =>
    if s.shared.head ≤ tail then some { s with consumer := .idle, reads := s.reads ++ [none] }
    else some { s with consumer := .loaded tail s.shared.head }
  | .loaded tail _ =>
    (readWithWrap s.shared.region (offsetOf capacity tail) 4 capacity).map fun lenBytes =>
      { s with consumer := .copiedLen tail (leNat lenBytes) }
  | .copiedLen tail len =>
    (readWithWrap s.shared.region (offsetOf capacity tail + 4) len capacity).map fun data =>
      { s with consumer := .copiedData tail len data }
  | .copiedData tail len data =>
    if tail + (4 + len) < 2 ^ 64 then
      some { s with
        shared := { s.shared with tail := tail + (4 + len) }
        consumer := .idle
        reads := s.reads ++ [some data] }
    else none

/-- One step of the system. -/
def step (capacity : Nat) (s : System) : Action → Option System
  | .write data =>
    match s.producer with
    | .idle => some { s with producer := .loadedHead data s.shared.head }
    | _ => none
  | .produce => produce capacity s
  | .consume => consume capacity s

/-- Consumer steps up to the end of the pending call of `read`; a call has at
most `fuel` of them left. -/
def finishRead (capacity : Nat) : Nat → System → Option System
  | 0, s => if s.consumer = .idle then some s else none
  | fuel + 1, s =>
    if s.consumer = .idle then some s
    else (consume capacity s).bind (finishRead capacity fuel)

/-- One whole call of `read`, with the producer at rest. -/
def readCall (capacity : Nat) (s : System) : Option System :=
  (consume capacity s).bind (finishRead capacity 4)

/-- Call `read` until it returns `None`; `none` when that takes more than
`fuel` calls. -/
def readUntilNone (capacity : Nat) : Nat → System → Option System
  | 0, _ => none
  | fuel + 1, s =>
    (readCall capacity s).bind fun s =>
      if s.reads.getLast? = some none then some s else readUntilNone capacity fuel s

/-!
## The byte stream of a list of messages

Position `i` of the ring buffer is byte `i` of the frames of the accepted messages.
-/

theorem stream_concat (messages : List (List UInt8)) (message : List UInt8) :
    stream (messages ++ [message]) = stream messages ++ frame message := by
  rw [stream_append, stream_cons]
  exact congrArg (stream messages ++ ·) (List.append_nil (frame message))

/-- The bytes of a message in a stream, after those of the messages before it. -/
theorem getElem?_stream_of_lt (before after : List (List UInt8)) {message : List UInt8} {k : Nat}
    (hk : k < 4 + message.length) :
    (stream (before ++ message :: after))[(stream before).length + k]? = (frame message)[k]? := by
  rw [stream_append, stream_cons, List.getElem?_append_right (by omega),
    Nat.add_sub_cancel_left, List.getElem?_append_left (by rw [length_frame]; omega)]

/-! ## Copies at a position -/

section Copies

variable {capacity : Nat} (hpow : isPowerOfTwo capacity = true)

include hpow

theorem capacity_pos : 0 < capacity := by
  have hlog : 2 ^ capacity.log2 = capacity := by simpa [isPowerOfTwo] using hpow
  rw [← hlog]
  exact Nat.two_pow_pos _

/-- Masking is reduction modulo the capacity. -/
theorem and_mask_eq_mod (pos : Nat) : pos &&& (capacity - 1) = pos % capacity := by
  have hlog : 2 ^ capacity.log2 = capacity := by simpa [isPowerOfTwo] using hpow
  rw [← hlog, and_two_pow_sub_one_eq_mod]

theorem relative_offset_eq (pos extra : Nat) :
    (offsetOf capacity pos + extra - headerSize) % capacity = (pos + extra) % capacity := by
  rw [offsetOf, and_mask_eq_mod hpow, Nat.add_assoc, Nat.add_sub_cancel_left, Nat.mod_add_mod]

variable {data region : List UInt8}

theorem writeWithWrap_spec (hregion : region.length = capacity) (hdata : data.length ≤ capacity)
    (pos extra : Nat) :
    ∃ region', writeWithWrap region (offsetOf capacity pos + extra) data capacity = some region' ∧
      region'.length = capacity ∧
      (∀ k, k < data.length → cell region' (pos + extra + k) = data[k]?) ∧
      ∀ i, pos + extra + data.length ≤ i + capacity →
        i < pos + extra ∨ pos + extra + data.length ≤ i → i < pos + extra + capacity →
        cell region' i = cell region i := by
  have hpos := capacity_pos hpow
  subst hregion
  rw [writeWithWrap, if_neg (by omega), relative_offset_eq hpow]
  exact cell_copyIn (pos + extra) hpos hdata

theorem readWithWrap_spec (hregion : region.length = capacity) (hdata : data.length ≤ capacity)
    {pos extra : Nat} (hcells : ∀ k, k < data.length → cell region (pos + extra + k) = data[k]?) :
    readWithWrap region (offsetOf capacity pos + extra) data.length capacity = some data := by
  have hpos := capacity_pos hpow
  subst hregion
  rw [readWithWrap, if_neg (by omega), relative_offset_eq hpow]
  exact copyOut_eq_some hpos hdata hcells

end Copies

/-! ## The invariant -/

/-- What the producer knows in the middle of a call. -/
def ProducerInv (capacity : Nat) (sh : Shared) : Producer → Prop
  | .idle => True
  | .loadedHead data head => head = sh.head ∧ data.length < 2 ^ 32
  -- The tail may have moved on since it was loaded, never back.
  | .loaded data head tail =>
    head = sh.head ∧ data.length < 2 ^ 32 ∧ tail ≤ sh.tail ∧ head ≤ tail + capacity
  | .copiedLen data head =>
    head = sh.head ∧ data.length < 2 ^ 32 ∧ head + (4 + data.length) ≤ sh.tail + capacity ∧
      ∀ k, k < 4 → cell sh.region (head + k) = (frame data)[k]?
  | .copiedData data head =>
    head = sh.head ∧ data.length < 2 ^ 32 ∧ head + (4 + data.length) ≤ sh.tail + capacity ∧
      ∀ k, k < 4 + data.length → cell sh.region (head + k) = (frame data)[k]?

/-- What the consumer knows in the middle of a call: `pending` are the messages
that have been accepted and not delivered. -/
def ConsumerInv (sh : Shared) (pending : List (List UInt8)) : Consumer → Prop
  | .idle => True
  | .loadedTail tail => tail = sh.tail
  | .loaded tail head => tail = sh.tail ∧ tail < head ∧ head ≤ sh.head
  | .copiedLen tail len => tail = sh.tail ∧ ∃ m rest, pending = m :: rest ∧ len = m.length
  | .copiedData tail len data =>
    tail = sh.tail ∧ len = data.length ∧ ∃ rest, pending = data :: rest

/-- The state of the system at any moment: with `pending` the messages on their
way, the region holds their frames between the two positions. -/
structure Inv (capacity : Nat) (s : System) (pending : List (List UInt8)) : Prop where
  length_region : s.shared.region.length = capacity
  accepted_eq : s.accepted = s.delivered ++ pending
  head_eq : s.shared.head = (stream s.accepted).length
  tail_eq : s.shared.tail = (stream s.delivered).length
  head_lt : s.shared.head < 2 ^ 64
  room : s.shared.head ≤ s.shared.tail + capacity
  fits : ∀ m ∈ s.accepted, m.length < 2 ^ 32
  live : ∀ i, s.shared.tail ≤ i → i < s.shared.head →
    cell s.shared.region i = (stream s.accepted)[i]?
  producer : ProducerInv capacity s.shared s.producer
  consumer : ConsumerInv s.shared pending s.consumer

theorem accepted_concat (s : System) (data : List UInt8) (ok : Bool) :
    { s with writes := s.writes ++ [(data, ok)] }.accepted =
      s.accepted ++ if ok then [data] else [] := by
  cases ok <;> simp [System.accepted]

theorem delivered_concat (s : System) (result : Option (List UInt8)) :
    { s with reads := s.reads ++ [result] }.delivered = s.delivered ++ result.toList := by
  cases result <;> simp [System.delivered]

open List

variable {sh : Shared}

/-- The consumer's knowledge survives a publication of the producer. -/
theorem ConsumerInv.mono {pending : List (List UInt8)} {c : Consumer} (h : ConsumerInv sh pending c)
    (sh' : Shared) (htail : sh'.tail = sh.tail) (hhead : sh.head ≤ sh'.head)
    (more : List (List UInt8)) :
    ConsumerInv sh' (pending ++ more) c := by
  cases c with
  | idle => exact h
  | loadedTail tail => exact h.trans htail.symm
  | loaded tail head => exact ⟨h.1.trans htail.symm, h.2.1, h.2.2.trans hhead⟩
  | copiedLen tail len =>
    obtain ⟨ht, m, rest, rfl, hlen⟩ := h
    exact ⟨ht.trans htail.symm, m, rest ++ more, rfl, hlen⟩
  | copiedData tail len data =>
    obtain ⟨ht, hlen, rest, rfl⟩ := h
    exact ⟨ht.trans htail.symm, hlen, rest ++ more, rfl⟩

/-- The producer's knowledge survives a publication of the consumer. -/
theorem ProducerInv.mono {capacity : Nat} {sh' : Shared} {p : Producer}
    (h : ProducerInv capacity sh p) (hhead : sh'.head = sh.head) (hregion : sh'.region = sh.region)
    (htail : sh.tail ≤ sh'.tail) :
    ProducerInv capacity sh' p := by
  cases p with
  | idle => exact h
  | loadedHead data head => exact ⟨h.1.trans hhead.symm, h.2⟩
  | loaded data head tail =>
    exact ⟨h.1.trans hhead.symm, h.2.1, h.2.2.1.trans htail, h.2.2.2⟩
  | copiedLen data head | copiedData data head =>
    obtain ⟨hh, hd, hroom, hcells⟩ := h
    exact ⟨hh.trans hhead.symm, hd, by omega, by rwa [hregion]⟩

section Invariant

variable {capacity : Nat} {s s' : System} {pending : List (List UInt8)}

theorem Inv.head_eq_add (h : Inv capacity s pending) :
    s.shared.head = s.shared.tail + (stream pending).length := by
  rw [h.head_eq, h.accepted_eq, stream_append, length_append, h.tail_eq]

variable {m region : List UInt8} {rest : List (List UInt8)}

/-- The bytes of the next message to read. -/
theorem Inv.cell_tail (h : Inv capacity s (m :: rest)) {k : Nat} (hk : k < 4 + m.length) :
    cell s.shared.region (s.shared.tail + k) = (frame m)[k]? := by
  have hhead := h.head_eq_add
  rw [stream_cons, length_append, length_frame] at hhead
  rw [h.live _ (by omega) (by omega), h.accepted_eq, h.tail_eq]
  exact getElem?_stream_of_lt s.delivered rest hk

/-- A message on its way fits the region, and its length the prefix. -/
theorem Inv.bounds (h : Inv capacity s (m :: rest)) :
    4 + m.length ≤ capacity ∧ s.shared.tail + (4 + m.length) ≤ s.shared.head ∧
      m.length < 2 ^ 32 := by
  have hhead := h.head_eq_add
  rw [stream_cons, length_append, length_frame] at hhead
  have hroom := h.room
  refine ⟨by omega, by omega, h.fits m ?_⟩
  rw [h.accepted_eq]
  exact mem_append_right _ mem_cons_self

/-- There is something to read exactly if a message is on its way. -/
theorem Inv.pending_eq_nil_iff (h : Inv capacity s pending) :
    pending = [] ↔ s.shared.head ≤ s.shared.tail := by
  have hhead := h.head_eq_add
  cases pending with
  | nil => simp [stream] at hhead; simp [hhead]
  | cons m rest =>
    rw [stream_cons, length_append, length_frame] at hhead
    simp only [reduceCtorEq, false_iff]
    omega

theorem inv_start (h : region.length = capacity) :
    Inv capacity (.start region) [] where
  length_region := h
  accepted_eq := rfl
  head_eq := rfl
  tail_eq := rfl
  head_lt := by simp [System.start]
  room := by simp [System.start]
  fits := by simp [System.start, System.accepted]
  live := by simp [System.start]
  producer := trivial
  consumer := trivial

/-! ### Steps of the consumer -/

/-- The copied prefix is the length of the next message. -/
theorem consume_of_loaded (hpow : isPowerOfTwo capacity = true) (h : Inv capacity s (m :: rest))
    {head : Nat} (hc : s.consumer = .loaded s.shared.tail head) :
    consume capacity s = some { s with consumer := .copiedLen s.shared.tail m.length } := by
  obtain ⟨hcap, -, hfit⟩ := h.bounds
  have hread : readWithWrap s.shared.region (offsetOf capacity s.shared.tail) 4 capacity =
      some (leBytes 4 m.length) := by
    have hcells : ∀ k, k < (leBytes 4 m.length).length →
        cell s.shared.region (s.shared.tail + 0 + k) = (leBytes 4 m.length)[k]? := by
      intro k hk
      rw [length_leBytes] at hk
      rw [add_zero, h.cell_tail (by omega), frame, getElem?_append_left (by simpa)]
    have hcopy := readWithWrap_spec hpow h.length_region (by rw [length_leBytes]; omega) hcells
    rwa [length_leBytes] at hcopy
  rw [consume, hc]
  simp only [hread, map_some, leNat_leBytes (show m.length < 256 ^ 4 by omega)]

/-- The copied data is the next message. -/
theorem consume_of_copiedLen (hpow : isPowerOfTwo capacity = true) (h : Inv capacity s (m :: rest))
    (hc : s.consumer = .copiedLen s.shared.tail m.length) :
    consume capacity s = some { s with consumer := .copiedData s.shared.tail m.length m } := by
  obtain ⟨hcap, -, -⟩ := h.bounds
  have hcells : ∀ k, k < m.length → cell s.shared.region (s.shared.tail + 4 + k) = m[k]? := by
    intro k hk
    rw [add_assoc, h.cell_tail (by omega), frame,
      getElem?_append_right (by rw [length_leBytes]; omega), length_leBytes,
      Nat.add_sub_cancel_left]
  have hread := readWithWrap_spec hpow h.length_region (by omega) hcells
  rw [consume, hc]
  simp only [hread, map_some]

/-- The state after a `read` that returned `m`. -/
def System.afterRead (s : System) (m : List UInt8) : System :=
  { s with
    shared := { s.shared with tail := s.shared.tail + (4 + m.length) }
    consumer := .idle
    reads := s.reads ++ [some m] }

theorem consume_of_copiedData (h : Inv capacity s (m :: rest))
    (hc : s.consumer = .copiedData s.shared.tail m.length m) :
    consume capacity s = some (s.afterRead m) := by
  obtain ⟨-, htail, -⟩ := h.bounds
  have hlt := h.head_lt
  simp only [consume, hc]
  rw [if_pos (by omega)]
  rfl

theorem inv_afterRead (h : Inv capacity s (m :: rest)) : Inv capacity (s.afterRead m) rest := by
  obtain ⟨-, htail, -⟩ := h.bounds
  have hdelivered : (s.afterRead m).delivered = s.delivered ++ [m] := delivered_concat s (some m)
  have haccepted : (s.afterRead m).accepted = s.accepted := rfl
  have hroom := h.room
  refine
    { length_region := h.length_region
      accepted_eq := ?_
      head_eq := h.head_eq
      tail_eq := ?_
      head_lt := h.head_lt
      room := ?_
      fits := h.fits
      live := fun i hlo hhi => h.live i ?_ hhi
      producer := h.producer.mono rfl rfl (le_add_right _ _)
      consumer := trivial }
  · rw [hdelivered, haccepted, h.accepted_eq, append_assoc, singleton_append]
  · rw [hdelivered, stream_concat, length_append, length_frame, ← h.tail_eq, Nat.add_comm m.length]
    rfl
  · show s.shared.head ≤ s.shared.tail + (4 + m.length) + capacity
    omega
  · exact (le_add_right _ _).trans hlo

/-- The consumer always has a next step, and it keeps the invariant. -/
theorem consume_eq_some (hpow : isPowerOfTwo capacity = true) (h : Inv capacity s pending) :
    ∃ s' pending', consume capacity s = some s' ∧ Inv capacity s' pending' := by
  have hcinv := h.consumer
  cases hc : s.consumer with
  | idle =>
    refine ⟨_, pending, by rw [consume, hc], ?_⟩
    exact { h with consumer := rfl }
  | loadedTail tail =>
    rw [hc] at hcinv
    obtain rfl : tail = s.shared.tail := hcinv
    by_cases hempty : s.shared.head ≤ s.shared.tail
    · refine ⟨_, pending, by simp only [consume, hc]; rw [if_pos hempty], ?_⟩
      have hdelivered : { s with consumer := .idle, reads := s.reads ++ [none] }.delivered =
          s.delivered := (delivered_concat s none).trans (append_nil _)
      exact { h with
        accepted_eq := by rw [hdelivered]; exact h.accepted_eq
        tail_eq := by rw [hdelivered]; exact h.tail_eq
        consumer := trivial }
    · refine ⟨_, pending, by simp only [consume, hc]; rw [if_neg hempty], ?_⟩
      exact { h with consumer := ⟨rfl, by omega, le_refl _⟩ }
  | loaded tail head =>
    rw [hc] at hcinv
    obtain ⟨rfl, hlt, hle⟩ := hcinv
    cases pending with
    | nil => exact absurd (h.pending_eq_nil_iff.mp rfl) (by omega)
    | cons m rest =>
      refine ⟨_, m :: rest, consume_of_loaded hpow h hc, ?_⟩
      exact { h with consumer := ⟨rfl, m, rest, rfl, rfl⟩ }
  | copiedLen tail len =>
    rw [hc] at hcinv
    obtain ⟨rfl, m, rest, rfl, rfl⟩ := hcinv
    refine ⟨_, m :: rest, consume_of_copiedLen hpow h hc, ?_⟩
    exact { h with consumer := ⟨rfl, rfl, rest, rfl⟩ }
  | copiedData tail len data =>
    rw [hc] at hcinv
    obtain ⟨rfl, rfl, rest, rfl⟩ := hcinv
    exact ⟨_, rest, consume_of_copiedData h hc, inv_afterRead h⟩

/-! ### Steps of the producer -/

/-- A copy into free cells: the messages on their way stay as they are. -/
theorem Inv.live_of_copy (h : Inv capacity s pending) {pos stop : Nat} (hpos : s.shared.head ≤ pos)
    (hstop : stop ≤ s.shared.tail + capacity)
    (hframe : ∀ i, stop ≤ i + capacity → i < pos ∨ stop ≤ i → i < pos + capacity →
      cell region i = cell s.shared.region i) :
    ∀ i, s.shared.tail ≤ i → i < s.shared.head → cell region i = (stream s.accepted)[i]? := by
  intro i hlo hhi
  rw [hframe i (by omega) (Or.inl (by omega)) (by omega)]
  exact h.live i hlo hhi

/-- A message is refused: only the history grows. -/
theorem Inv.refused (h : Inv capacity s pending) (data : List UInt8) :
    Inv capacity { s with producer := .idle, writes := s.writes ++ [(data, false)] } pending := by
  have haccepted : { s with producer := .idle, writes := s.writes ++ [(data, false)] }.accepted =
      s.accepted := (accepted_concat s data false).trans (append_nil _)
  exact { h with
    accepted_eq := by rw [haccepted]; exact h.accepted_eq
    head_eq := by rw [haccepted]; exact h.head_eq
    fits := by rw [haccepted]; exact h.fits
    live := by rw [haccepted]; exact h.live
    producer := trivial }

/-- The state after a `write` that published `data`. -/
def System.afterWrite (s : System) (data : List UInt8) : System :=
  { s with
    shared := { s.shared with head := s.shared.head + (4 + data.length) }
    producer := .idle
    writes := s.writes ++ [(data, true)] }

/-- The publication: the message is the last one on its way. -/
theorem inv_afterWrite (h : Inv capacity s pending) {data : List UInt8}
    (hfit : data.length < 2 ^ 32) (hlt : s.shared.head + (4 + data.length) < 2 ^ 64)
    (hroom : s.shared.head + (4 + data.length) ≤ s.shared.tail + capacity)
    (hcells : ∀ k, k < 4 + data.length →
      cell s.shared.region (s.shared.head + k) = (frame data)[k]?) :
    Inv capacity (s.afterWrite data) (pending ++ [data]) := by
  have haccepted : (s.afterWrite data).accepted = s.accepted ++ [data] :=
    accepted_concat s data true
  refine { h with
    accepted_eq := ?_
    head_eq := ?_
    head_lt := hlt
    room := hroom
    fits := ?_
    live := ?_
    producer := trivial
    consumer := h.consumer.mono (s.afterWrite data).shared rfl (le_add_right _ _) [data] }
  · rw [haccepted, h.accepted_eq, append_assoc]
    rfl
  · rw [haccepted, stream_concat, length_append, length_frame, ← h.head_eq,
      Nat.add_comm data.length]
    rfl
  · rw [haccepted]
    exact forall_mem_append.mpr ⟨h.fits, forall_mem_singleton.mpr hfit⟩
  · rw [haccepted, stream_concat]
    intro i hlo hhi
    by_cases hi : i < s.shared.head
    · rw [getElem?_append_left (by rw [← h.head_eq]; exact hi)]
      exact h.live i hlo hi
    · obtain ⟨k, rfl⟩ := Nat.exists_eq_add_of_le (Nat.le_of_not_lt hi)
      have hk : k < 4 + data.length := by
        have hhi' : s.shared.head + k < s.shared.head + (4 + data.length) := hhi
        omega
      rw [getElem?_append_right (by rw [← h.head_eq]; omega), ← h.head_eq,
        Nat.add_sub_cancel_left]
      exact hcells k hk

section

variable (hpow : isPowerOfTwo capacity = true) (h : Inv capacity s pending)
include hpow h

/-- A step of a call of `write` keeps the invariant. -/
theorem inv_produce (hstep : produce capacity s = some s') :
    ∃ pending', Inv capacity s' pending' := by
  have hpinv := h.producer
  have hle : s.shared.tail ≤ s.shared.head := by
    rw [h.head_eq_add]
    exact le_add_right _ _
  unfold produce at hstep
  cases hp : s.producer with
  | idle =>
    simp only [hp] at hstep
    cases hstep
  | loadedHead data head =>
    simp only [hp] at hstep hpinv
    cases hstep
    obtain ⟨rfl, hfit⟩ := hpinv
    exact ⟨pending, { h with producer := ⟨rfl, hfit, le_refl _, h.room⟩ }⟩
  | loaded data head tail =>
    simp only [hp] at hstep hpinv
    obtain ⟨rfl, hfit, htail, hroom⟩ := hpinv
    split_ifs at hstep with hpanic hfull
    · cases hstep
      exact ⟨pending, h.refused data⟩
    · have hmod : data.length % 2 ^ 32 = data.length := mod_eq_of_lt hfit
      have hlen4 : (leBytes 4 data.length).length ≤ capacity := by rw [length_leBytes]; omega
      obtain ⟨region, hcopy, hlen, hcells, hframe⟩ :=
        writeWithWrap_spec hpow h.length_region hlen4 s.shared.head 0
      rw [add_zero] at hcopy
      rw [hmod, hcopy] at hstep
      cases hstep
      simp only [length_leBytes, add_zero] at hcells hframe
      refine ⟨pending, { h with
        length_region := hlen
        live := h.live_of_copy (le_refl _) (by omega) hframe
        producer := ⟨rfl, hfit, ?_, fun k hk => ?_⟩
        consumer := by
          simpa using h.consumer.mono { s.shared with region } rfl (le_refl _) [] }⟩
      · show s.shared.head + (4 + data.length) ≤ s.shared.tail + capacity
        omega
      · rw [frame, getElem?_append_left (by rwa [length_leBytes])]
        exact hcells k hk
  | copiedLen data head =>
    simp only [hp] at hstep hpinv
    obtain ⟨rfl, hfit, hroom, hfront⟩ := hpinv
    obtain ⟨region, hcopy, hlen, hcells, hframe⟩ :=
      writeWithWrap_spec hpow h.length_region (show data.length ≤ capacity by omega)
        s.shared.head 4
    rw [hcopy] at hstep
    cases hstep
    refine ⟨pending, { h with
      length_region := hlen
      live := h.live_of_copy (by omega) (by omega) hframe
      producer := ⟨rfl, hfit, hroom, fun k hk => ?_⟩
      consumer := by
          simpa using h.consumer.mono { s.shared with region } rfl (le_refl _) [] }⟩
    by_cases hk4 : k < 4
    · -- The prefix is still there: the copy started behind it.
      refine Eq.trans ?_ (hfront k hk4)
      exact hframe _ (by omega) (Or.inl (by omega)) (by omega)
    · rw [frame, getElem?_append_right (by rw [length_leBytes]; omega), length_leBytes]
      have hcell := hcells (k - 4) (by omega)
      rwa [show s.shared.head + 4 + (k - 4) = s.shared.head + k by omega] at hcell
  | copiedData data head =>
    simp only [hp] at hstep hpinv
    obtain ⟨rfl, hfit, hroom, hcells⟩ := hpinv
    split_ifs at hstep with hover
    cases hstep
    exact ⟨pending ++ [data], inv_afterWrite h hfit hover hroom hcells⟩

/-- A step of either side keeps the invariant. -/
theorem inv_step {a : Action} (hfit : ∀ data, a = .write data → data.length < 2 ^ 32)
    (hstep : step capacity s a = some s') :
    ∃ pending', Inv capacity s' pending' := by
  cases a with
  | write data =>
    unfold step at hstep
    cases hp : s.producer with
    | idle =>
      simp only [hp] at hstep
      cases hstep
      exact ⟨pending, { h with producer := ⟨rfl, hfit data rfl⟩ }⟩
    | _ =>
      simp only [hp] at hstep
      cases hstep
  | produce => exact inv_produce hpow h hstep
  | consume =>
    obtain ⟨s'', pending', hconsume, h'⟩ := consume_eq_some hpow h
    cases hconsume.symm.trans hstep
    exact ⟨pending', h'⟩

/-- Every interleaving keeps the invariant. -/
theorem inv_run {actions : List Action}
    (hfit : ∀ data, .write data ∈ actions → data.length < 2 ^ 32)
    (hrun : run (step capacity) s actions = some s') : ∃ pending', Inv capacity s' pending' := by
  refine run_invariant (fun s => ∃ pending, Inv capacity s pending) ?_ ⟨pending, h⟩ hrun
  rintro s a s' ha ⟨pending, h⟩ hstep
  exact inv_step hpow h (fun data hdata => hfit data (hdata ▸ ha)) hstep

end

end Invariant

/-! ## What one side cannot see of the other -/

section Frames

variable {capacity : Nat}

/-- The consumer neither looks at the producer's call nor changes it. -/
theorem consume_with (s : System) (p : Producer) (w : List (List UInt8 × Bool)) :
    consume capacity { s with producer := p, writes := w } =
      (consume capacity s).map fun t => { t with producer := p, writes := w } := by
  unfold consume
  cases s.consumer with
  | idle => rfl
  | loadedTail tail | copiedData tail len data => dsimp only; split_ifs <;> rfl
  | loaded tail head | copiedLen tail len => simp only [Option.map_map]; rfl

theorem run_consume_with (n : Nat) (s : System) (p : Producer) (w : List (List UInt8 × Bool)) :
    run (step capacity) { s with producer := p, writes := w } (List.replicate n .consume) =
      (run (step capacity) s (List.replicate n .consume)).map
        fun t => { t with producer := p, writes := w } := by
  induction n generalizing s with
  | zero => rfl
  | succ n ih =>
    rw [replicate_succ, run, run, step, step, consume_with]
    cases consume capacity s with
    | none => rfl
    | some t => exact ih t

variable {s s' : System}

/-- The producer's part of the state after any number of consumer steps. -/
theorem producer_of_run_consume {n : Nat}
    (h : run (step capacity) s (List.replicate n .consume) = some s') :
    s'.producer = s.producer ∧ s'.writes = s.writes := by
  have hwith : run (step capacity) s (replicate n .consume) =
      (run (step capacity) s (replicate n .consume)).map
        fun t => { t with producer := s.producer, writes := s.writes } :=
    run_consume_with n s s.producer s.writes
  rw [h, map_some] at hwith
  have hproducer := congrArg System.producer (some.inj hwith)
  have hwrites := congrArg System.writes (some.inj hwith)
  exact ⟨hproducer, hwrites⟩

/-- The steps of a call of `write` up to its decision to refuse, with the
consumer's steps in between. -/
def refusedCall (data : List UInt8) (j k : Nat) : List Action :=
  .write data :: (List.replicate j .consume ++
    .produce :: (List.replicate k .consume ++ [.produce]))

/-- Without a call of `write` that returned `false` the same consumer steps end
in the same state. -/
theorem run_of_refused {data : List UInt8} {j k : Nat}
    (hrun : run (step capacity) s (refusedCall data j k) = some s')
    (hrefused : s'.writes = s.writes ++ [(data, false)]) :
    run (step capacity) s (List.replicate j .consume ++ List.replicate k .consume) =
      some { s' with writes := s.writes } := by
  rw [refusedCall, run, step] at hrun
  cases hp : s.producer with
  | idle =>
    simp only [hp, bind_some] at hrun
    rw [run_append, run_consume_with j s _ s.writes] at hrun
    cases ht : run (step capacity) s (replicate j .consume) with
    | none => simp [ht] at hrun
    | some t =>
      obtain ⟨htp, htw⟩ := producer_of_run_consume ht
      rw [ht, map_some, bind_some, run, step, produce, bind_some, run_append,
        run_consume_with k t _ s.writes] at hrun
      cases hu : run (step capacity) t (replicate k .consume) with
      | none => simp [hu] at hrun
      | some u =>
        obtain ⟨hup, huw⟩ := producer_of_run_consume hu
        rw [run_append, ht, bind_some, hu]
        rw [hu, map_some, bind_some, run, step, produce] at hrun
        dsimp only at hrun
        split_ifs at hrun with hpanic hfull
        · cases hrun
        · cases hrun
          simp only [← htw, ← huw, ← hp, ← htp, ← hup]
        · -- A copied prefix is not the end of a call.
          obtain ⟨next, hnext, hs'⟩ := bind_eq_some_iff.mp hrun
          obtain ⟨region, -, rfl⟩ := map_eq_some_iff.mp hnext
          cases hs'
          simp at hrefused
  | _ =>
    simp only [hp] at hrun
    cases hrun

end Frames

/-! ## Reading to the end -/

section Drain

variable {capacity : Nat} {s s' : System} {pending : List (List UInt8)}

theorem finishRead_of_idle (h : s.consumer = .idle) (fuel : Nat) :
    finishRead capacity fuel s = some s := by
  cases fuel <;> rw [finishRead, if_pos h]

theorem finishRead_of_ne_idle (h : s.consumer ≠ .idle) (fuel : Nat) :
    finishRead capacity (fuel + 1) s = (consume capacity s).bind (finishRead capacity fuel) := by
  rw [finishRead, if_neg h]

/-- How many steps a call of `read` has left. -/
def Consumer.stepsLeft : Consumer → Nat
  | .idle => 0
  | .loadedTail _ => 4
  | .loaded _ _ => 3
  | .copiedLen _ _ => 2
  | .copiedData _ _ _ => 1

theorem stepsLeft_consume (hidle : s.consumer ≠ .idle) (h : consume capacity s = some s') :
    s'.consumer.stepsLeft < s.consumer.stepsLeft := by
  unfold consume at h
  cases hc : s.consumer with
  | idle => exact absurd hc hidle
  | loadedTail tail | copiedData tail len data =>
    simp only [hc] at h
    split_ifs at h <;> obtain rfl := some.inj h <;> simp [Consumer.stepsLeft]
  | loaded tail head | copiedLen tail len =>
    simp only [hc] at h
    obtain ⟨bytes, -, rfl⟩ := map_eq_some_iff.mp h
    simp [Consumer.stepsLeft]

variable {fuel : Nat}

/-- A pending call of `read` comes to its end. -/
theorem finishRead_eq_some (hpow : isPowerOfTwo capacity = true) (h : Inv capacity s pending)
    (hfuel : s.consumer.stepsLeft ≤ fuel) :
    ∃ s' pending', finishRead capacity fuel s = some s' ∧ Inv capacity s' pending' ∧
      s'.consumer = .idle ∧ s'.writes = s.writes := by
  induction fuel generalizing s pending with
  | zero =>
    have hidle : s.consumer = .idle := by
      cases hc : s.consumer <;> simp [hc, Consumer.stepsLeft] at hfuel ⊢
    exact ⟨s, pending, finishRead_of_idle hidle 0, h, hidle, rfl⟩
  | succ fuel ih =>
    by_cases hidle : s.consumer = .idle
    · exact ⟨s, pending, finishRead_of_idle hidle _, h, hidle, rfl⟩
    · obtain ⟨t, pending', hstep, ht⟩ := consume_eq_some hpow h
      have hless := stepsLeft_consume hidle hstep
      obtain ⟨s', pending'', hfin, hs', hidle', hwrites⟩ := ih ht (by omega)
      have hone : run (step capacity) s (replicate 1 .consume) = some t := by
        rw [replicate_one, run, step, hstep]
        rfl
      refine ⟨s', pending'', ?_, hs', hidle', hwrites.trans (producer_of_run_consume hone).2⟩
      rw [finishRead_of_ne_idle hidle, hstep]
      exact hfin

/-- With nothing on its way a call of `read` returns `None`. -/
theorem readCall_of_nil (h : Inv capacity s []) (hidle : s.consumer = .idle) :
    readCall capacity s = some { s with consumer := .idle, reads := s.reads ++ [none] } := by
  have hempty := h.pending_eq_nil_iff.mp rfl
  simp only [readCall, consume, hidle, bind_some]
  rw [finishRead_of_ne_idle (by simp)]
  simp only [consume]
  rw [if_pos hempty, bind_some, finishRead_of_idle rfl]

/-- Otherwise it returns the first message on its way. -/
theorem readCall_of_cons (hpow : isPowerOfTwo capacity = true) {m : List UInt8}
    {rest : List (List UInt8)} (h : Inv capacity s (m :: rest)) (hidle : s.consumer = .idle) :
    readCall capacity s = some (s.afterRead m) := by
  have hsome : ¬ s.shared.head ≤ s.shared.tail := fun hle =>
    absurd (h.pending_eq_nil_iff.mpr hle) (by simp)
  have h₁ : Inv capacity { s with consumer := .loaded s.shared.tail s.shared.head } (m :: rest) :=
    { h with consumer := ⟨rfl, by omega, le_refl _⟩ }
  have h₂ : Inv capacity { s with consumer := .copiedLen s.shared.tail m.length } (m :: rest) :=
    { h with consumer := ⟨rfl, m, rest, rfl, rfl⟩ }
  have h₃ : Inv capacity { s with consumer := .copiedData s.shared.tail m.length m } (m :: rest) :=
    { h with consumer := ⟨rfl, rfl, rest, rfl⟩ }
  have hload : consume capacity { s with consumer := .loadedTail s.shared.tail } =
      some { s with consumer := .loaded s.shared.tail s.shared.head } := by
    simp only [consume]
    rw [if_neg hsome]
  rw [readCall, consume, hidle]
  simp only [bind_some]
  rw [finishRead_of_ne_idle (by simp), hload, bind_some,
    finishRead_of_ne_idle (by simp), consume_of_loaded hpow h₁ rfl, bind_some,
    finishRead_of_ne_idle (by simp), consume_of_copiedLen hpow h₂ rfl, bind_some,
    finishRead_of_ne_idle (by simp), consume_of_copiedData h₃ rfl, bind_some]
  exact finishRead_of_idle rfl 0

/-- Calls of `read` until the first `None` deliver every message on its way. -/
theorem readUntilNone_eq_some (hpow : isPowerOfTwo capacity = true) (h : Inv capacity s pending)
    (hidle : s.consumer = .idle) (hfuel : pending.length < fuel) :
    ∃ s', readUntilNone capacity fuel s = some s' ∧ s'.writes = s.writes ∧
      s'.delivered = s.delivered ++ pending := by
  induction pending generalizing s fuel with
  | nil =>
    obtain ⟨fuel, rfl⟩ := exists_eq_succ_of_ne_zero (ne_of_gt hfuel)
    refine ⟨{ s with consumer := .idle, reads := s.reads ++ [none] }, ?_, rfl,
      delivered_concat s none⟩
    rw [readUntilNone, readCall_of_nil h hidle, bind_some, if_pos (by simp)]
  | cons m rest ih =>
    obtain ⟨fuel, rfl⟩ := exists_eq_succ_of_ne_zero (ne_of_gt (zero_lt_of_lt hfuel))
    have hless : rest.length < fuel := lt_of_succ_lt_succ hfuel
    obtain ⟨s', hread, hwrites, hdelivered⟩ := ih (inv_afterRead h) rfl hless
    refine ⟨s', ?_, hwrites, ?_⟩
    · rw [readUntilNone, readCall_of_cons hpow h hidle, bind_some,
        if_neg (by simp [System.afterRead])]
      exact hread
    · rw [hdelivered, show (s.afterRead m).delivered = s.delivered ++ [m] from
        delivered_concat s (some m), append_assoc, singleton_append]

end Drain

/-! ## Calls on the file

A call on the mapped file is a run of the steps of one side alone, as long as
the constants in the control block are what `create` stored. -/

section Mapping

open Lib.Slice

variable {capacity : Nat} {mmap mmap' : Mapping} {sh : Shared}

/-- The positions and the data region of the file. -/
structure Views (capacity : Nat) (mmap : Mapping) (sh : Shared) : Prop where
  length_eq : mmap.length = headerSize + capacity
  load_head : load mmap headOffset = .ok sh.head
  load_tail : load mmap tailOffset = .ok sh.tail
  region : dataRegion mmap capacity = .ok sh.region

theorem slice_of_dataRegion {region : List UInt8} (h : dataRegion mmap capacity = .ok region) :
    slice mmap headerSize (headerSize + capacity) = some region := by
  unfold dataRegion at h
  cases hs : slice mmap headerSize (headerSize + capacity) with
  | none => simp [hs] at h
  | some bytes =>
    rw [hs] at h
    rw [Except.ok.inj h]

variable {a b c value offset : Nat} {data : List UInt8} {s : System}

/-- A copy into the data region of the file is one into the region, and leaves
the positions alone. -/
theorem Views.of_writeMapping (h : Views capacity mmap sh)
    (hwrite : writeMapping mmap offset data capacity = .ok mmap') :
    ∃ region, writeWithWrap sh.region offset data capacity = some region ∧
      Views capacity mmap' { sh with region } := by
  simp only [writeMapping, bind, Except.bind, h.region] at hwrite
  cases hcopy : writeWithWrap sh.region offset data capacity with
  | none => simp [hcopy] at hwrite
  | some region =>
    simp only [hcopy] at hwrite
    cases hwrite
    have hold := length_of_slice (slice_of_dataRegion h.region)
    have hlen : region.length = capacity := by
      unfold writeWithWrap at hcopy
      split_ifs at hcopy
      rw [Lib.Ring.length_of_copyIn hcopy]
      omega
    have hsize := h.length_eq
    have hfit : headerSize + region.length ≤ mmap.length := by omega
    have hbefore : ∀ offset, offset + 8 ≤ headerSize →
        load (overwrite mmap headerSize region) offset = load mmap offset := by
      intro offset ho
      rw [load, slice_overwrite_frame hfit (Apart.symm (apart_of_le ho)), load]
    refine ⟨region, rfl, (length_overwrite hfit).trans hsize,
      (hbefore _ (by decide)).trans h.load_head, (hbefore _ (by decide)).trans h.load_tail, ?_⟩
    have hsame := slice_overwrite_same hfit
    rw [hlen] at hsame
    rw [dataRegion, hsame]

/-- A store of a position leaves the other one and the data region alone. -/
theorem Views.of_store (h : Views capacity mmap sh) (hoffset : offset + 8 ≤ headerSize)
    (hvalue : value < 2 ^ 64) (hstore : store mmap offset value = .ok mmap') :
    mmap'.length = headerSize + capacity ∧ load mmap' offset = .ok value ∧
      (∀ other, other + 8 ≤ offset ∨ offset + 8 ≤ other → load mmap' other = load mmap other) ∧
      dataRegion mmap' capacity = .ok sh.region := by
  have hsize := h.length_eq
  obtain ⟨m, hm, hlen, hload, hframe⟩ := store_spec mmap
    (show offset + 8 ≤ mmap.length by omega) hvalue
  cases hm.symm.trans hstore
  refine ⟨hlen.trans hsize, hload, hframe, ?_⟩
  have hfit : offset + (leBytes 8 value).length ≤ mmap.length := by
    rw [length_leBytes]
    omega
  rw [store, blit, if_pos hfit] at hstore
  cases hstore
  rw [dataRegion, slice_overwrite_frame hfit (apart_of_le (by rwa [length_leBytes])), ← dataRegion,
    h.region]

theorem Views.of_store_head (h : Views capacity mmap sh) (hvalue : value < 2 ^ 64)
    (hstore : store mmap headOffset value = .ok mmap') :
    Views capacity mmap' { sh with head := value } := by
  obtain ⟨hlen, hload, hframe, hregion⟩ := h.of_store (by decide) hvalue hstore
  exact ⟨hlen, hload, (hframe tailOffset (by decide)).trans h.load_tail, hregion⟩

theorem Views.of_store_tail (h : Views capacity mmap sh) (hvalue : value < 2 ^ 64)
    (hstore : store mmap tailOffset value = .ok mmap') :
    Views capacity mmap' { sh with tail := value } := by
  obtain ⟨hlen, hload, hframe, hregion⟩ := h.of_store (by decide) hvalue hstore
  exact ⟨hlen, (hframe headOffset (by decide)).trans h.load_head, hload, hregion⟩

theorem checkedSub_eq_ok (h : checkedSub a b = .ok c) : b ≤ a ∧ c = a - b := by
  unfold checkedSub at h
  split_ifs at h with hle
  exact ⟨hle, (Except.ok.inj h).symm⟩

theorem checkedAdd_eq_ok (h : checkedAdd a b = .ok c) :
    a + b < 2 ^ 64 ∧ c = a + b := by
  unfold checkedAdd at h
  split_ifs at h with hlt
  exact ⟨hlt, (Except.ok.inj h).symm⟩

/-- A call of `write` on the file is the producer's steps, one after the other. -/
theorem write_refines (hv : Views capacity mmap s.shared) (hintact : Intact capacity mmap)
    (hidle : s.producer = .idle) {ok : Bool}
    (hwrite : SharedRingBuffer.write mmap data = .ok (ok, mmap')) :
    ∃ n sh', run (step capacity) s (.write data :: List.replicate n .produce) =
        some { s with shared := sh', producer := .idle, writes := s.writes ++ [(data, ok)] } ∧
      Views capacity mmap' sh' := by
  unfold SharedRingBuffer.write at hwrite
  obtain ⟨head, hhead, hwrite⟩ := bind_eq_ok hwrite
  obtain ⟨tail, htail, hwrite⟩ := bind_eq_ok hwrite
  obtain ⟨cap, hcap, hwrite⟩ := bind_eq_ok hwrite
  obtain ⟨mask, hmask, hwrite⟩ := bind_eq_ok hwrite
  cases hv.load_head.symm.trans hhead
  cases hv.load_tail.symm.trans htail
  cases hintact.1.symm.trans hcap
  cases hintact.2.symm.trans hmask
  obtain ⟨used, hused, hwrite⟩ := bind_eq_ok hwrite
  obtain ⟨available, havail, hwrite⟩ := bind_eq_ok hwrite
  obtain ⟨hle, rfl⟩ := checkedSub_eq_ok hused
  obtain ⟨hroom, rfl⟩ := checkedSub_eq_ok havail
  have hno : ¬ (s.shared.head < s.shared.tail ∨
      capacity < s.shared.head - s.shared.tail) := by omega
  by_cases hfull : capacity - (s.shared.head - s.shared.tail) < 4 + data.length
  · simp only [hfull, if_true] at hwrite
    cases hwrite
    refine ⟨2, s.shared, ?_, hv⟩
    simp [run, step, hidle, produce, hno, hfull, replicate]
  · simp only [hfull, if_false] at hwrite
    obtain ⟨m₁, hm₁, hwrite⟩ := bind_eq_ok hwrite
    obtain ⟨m₂, hm₂, hwrite⟩ := bind_eq_ok hwrite
    obtain ⟨head, hadd, hwrite⟩ := bind_eq_ok hwrite
    obtain ⟨m₃, hm₃, hwrite⟩ := bind_eq_ok hwrite
    cases hwrite
    obtain ⟨hlt, rfl⟩ := checkedAdd_eq_ok hadd
    obtain ⟨r₁, hr₁, hv₁⟩ := hv.of_writeMapping hm₁
    obtain ⟨r₂, hr₂, hv₂⟩ := hv₁.of_writeMapping hm₂
    refine ⟨4, _, ?_, hv₂.of_store_head hlt hm₃⟩
    have hcopy₁ : writeWithWrap s.shared.region (offsetOf capacity s.shared.head)
        (leBytes 4 (data.length % 2 ^ 32)) capacity = some r₁ := hr₁
    have hcopy₂ : writeWithWrap r₁ (offsetOf capacity s.shared.head + 4) data capacity =
        some r₂ := hr₂
    simp only [run, step, hidle, produce, hno, hfull, hcopy₁, hcopy₂, hlt, replicate,
      bind_some, map_some, if_false, if_true]

/-- A call of `read` on the file is the consumer's steps, one after the other. -/
theorem read_refines (hv : Views capacity mmap s.shared) (hintact : Intact capacity mmap)
    (hidle : s.consumer = .idle) {result : Option (List UInt8)}
    (hread : SharedRingBuffer.read mmap = .ok (result, mmap')) :
    ∃ n sh', run (step capacity) s (List.replicate n .consume) =
        some { s with shared := sh', consumer := .idle, reads := s.reads ++ [result] } ∧
      Views capacity mmap' sh' := by
  unfold SharedRingBuffer.read at hread
  obtain ⟨tail, htail, hread⟩ := bind_eq_ok hread
  obtain ⟨head, hhead, hread⟩ := bind_eq_ok hread
  cases hv.load_head.symm.trans hhead
  cases hv.load_tail.symm.trans htail
  by_cases hempty : s.shared.head ≤ s.shared.tail
  · simp only [hempty, if_true] at hread
    cases hread
    refine ⟨2, s.shared, ?_, hv⟩
    simp [run, step, hidle, consume, hempty, replicate]
  · simp only [hempty, if_false] at hread
    obtain ⟨mask, hmask, hread⟩ := bind_eq_ok hread
    obtain ⟨cap, hcap, hread⟩ := bind_eq_ok hread
    cases hintact.1.symm.trans hcap
    cases hintact.2.symm.trans hmask
    obtain ⟨lenBytes, hlen, hread⟩ := bind_eq_ok hread
    obtain ⟨cap, hcap', hread⟩ := bind_eq_ok hread
    cases hintact.1.symm.trans hcap'
    obtain ⟨data, hdata, hread⟩ := bind_eq_ok hread
    obtain ⟨tail, hadd, hread⟩ := bind_eq_ok hread
    obtain ⟨m, hm, hread⟩ := bind_eq_ok hread
    cases hread
    obtain ⟨hlt, rfl⟩ := checkedAdd_eq_ok hadd
    have hcopy : ∀ {offset len : Nat} {bytes : List UInt8},
        readMapping mmap offset len capacity = .ok bytes →
        readWithWrap s.shared.region offset len capacity = some bytes := by
      intro offset len bytes hb
      simp only [readMapping, bind, Except.bind, hv.region] at hb
      cases hr : readWithWrap s.shared.region offset len capacity with
      | none => simp [hr] at hb
      | some copied =>
        rw [hr] at hb
        rw [Except.ok.inj hb]
    have hcopy₁ : readWithWrap s.shared.region (offsetOf capacity s.shared.tail) 4 capacity =
        some lenBytes := hcopy hlen
    have hcopy₂ : readWithWrap s.shared.region (offsetOf capacity s.shared.tail + 4)
        (leNat lenBytes) capacity = some data := hcopy hdata
    refine ⟨5, _, ?_, hv.of_store_tail hlt hm⟩
    simp only [run, step, hidle, consume, hempty, hcopy₁, hcopy₂, hlt, replicate,
      bind_some, map_some, if_false, if_true]

end Mapping

/-! ## FIFO -/

/-- Whatever the interleaving of the two sides from a new ring buffer: what was
read is the beginning of what was accepted, the positions stay within a
capacity of each other, a refused write leaves no trace, and with the producer
at rest reading until `None` delivers the rest. -/
theorem ring_fifo {capacity : Nat} (hpow : isPowerOfTwo capacity = true) {region : List UInt8}
    (hregion : region.length = capacity) {actions : List Action}
    (hfit : ∀ data, .write data ∈ actions → data.length < 2 ^ 32) {s : System}
    (hrun : run (step capacity) (.start region) actions = some s) :
    s.delivered <+: s.accepted ∧
    s.shared.tail ≤ s.shared.head ∧ s.shared.head ≤ s.shared.tail + capacity ∧
    (∀ data j k s', run (step capacity) s (refusedCall data j k) = some s' →
      s'.writes = s.writes ++ [(data, false)] →
      run (step capacity) s (List.replicate j .consume ++ List.replicate k .consume) =
        some { s' with writes := s.writes }) ∧
    (s.producer = .idle →
      ∃ s₁ s₂, finishRead capacity 4 s = some s₁ ∧
        readUntilNone capacity (s.accepted.length + 1) s₁ = some s₂ ∧
        s₂.accepted = s.accepted ∧ s₂.delivered = s.accepted) := by
  obtain ⟨pending, h⟩ := inv_run hpow (inv_start hregion) hfit hrun
  refine ⟨⟨pending, h.accepted_eq.symm⟩, ?_, h.room, fun data j k s' => run_of_refused, fun _ => ?_⟩
  · rw [h.head_eq_add]
    exact le_add_right _ _
  · have hsteps : s.consumer.stepsLeft ≤ 4 := by cases s.consumer <;> simp [Consumer.stepsLeft]
    obtain ⟨s₁, pending₁, hfin, h₁, hidle, hwrites₁⟩ := finishRead_eq_some hpow h hsteps
    have haccepted₁ : s₁.accepted = s.accepted := by rw [System.accepted, hwrites₁, System.accepted]
    have hlen : pending₁.length < s.accepted.length + 1 := by
      rw [← haccepted₁, h₁.accepted_eq, length_append]
      omega
    obtain ⟨s₂, hread, hwrites₂, hdelivered⟩ := readUntilNone_eq_some hpow h₁ hidle hlen
    refine ⟨s₁, s₂, hfin, hread, ?_, ?_⟩
    · rw [System.accepted, hwrites₂, ← System.accepted, haccepted₁]
    · rw [hdelivered, ← h₁.accepted_eq, haccepted₁]

/-- A message that goes over the end of an 8-byte region, with a `read` in the
middle of the call. -/
theorem ring_fifo_eight :
    let actions : List Action :=
      [.write [1], .produce, .produce, .produce, .produce, .consume, .consume, .consume,
        .consume, .consume, .write [2, 3], .produce, .produce, .consume, .produce, .produce]
    let s : System :=
      ⟨⟨11, 5, [0, 2, 3, 0, 1, 2, 0, 0]⟩, .idle, .loadedTail 5, [([1], true), ([2, 3], true)],
        [some [1]]⟩
    run (step 8) (.start (replicate 8 0)) actions = some s ∧ s.delivered <+: s.accepted ∧
      ∃ s₁ s₂, finishRead 8 4 s = some s₁ ∧ readUntilNone 8 3 s₁ = some s₂ ∧
        s₂.accepted = s.accepted ∧ s₂.delivered = [[1], [2, 3]] := by
  intro actions s
  have hrun : run (step 8) (.start (replicate 8 0)) actions = some s := by decide +kernel
  have hfit : ∀ data, .write data ∈ actions → data.length < 2 ^ 32 := by
    intro data hd
    simp only [actions, mem_cons, Action.write.injEq, reduceCtorEq, not_mem_nil,
      or_false, false_or] at hd
    rcases hd with rfl | rfl <;> decide
  obtain ⟨hfront, -, -, -, hdrain⟩ := ring_fifo (by decide) (by decide) hfit hrun
  exact ⟨hrun, hfront, hdrain rfl⟩

end IronSbe.Transport.SharedRingBuffer
