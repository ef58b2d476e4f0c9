import IronSbe.Lib.Framing

/-!
# Receiving until the end of the stream

A receiver is called for one frame at a time.  A call takes a frame off the buffer, and when
there is none it reads a chunk and tries again.  A read that returns nothing is the end of the
stream, and `finish` says what the call returns then.

* `recvWith_cases`: a call sees the front of all the bytes that are still to come.
* `receiveWith_eq`: the calls up to the end deliver the frames of the stream, wherever it is
  cut, and end on a refused length or with what `finish` makes of the bytes that are left.
-/

namespace Lib.Framing

variable {ε : Type}

section Calls

variable (take finish : List UInt8 → Except ε (Option (List UInt8)) × List UInt8)

/-- One call: what it returns, and the buffer and the chunks that are left behind it. -/
def recvWith : List UInt8 → List (List UInt8) →
    Except ε (Option (List UInt8)) × List UInt8 × List (List UInt8)
  | buffer, [] =>
    match take buffer with
    | (.ok none, buffer) => ((finish buffer).1, (finish buffer).2, [])
    | (result, buffer) => (result, buffer, [])
  | buffer, chunk :: chunks =>
    match take buffer with
    | (.ok none, buffer) =>
      if chunk = [] then ((finish buffer).1, (finish buffer).2, chunks)
      else recvWith (buffer ++ chunk) chunks
    | (result, buffer) => (result, buffer, chunk :: chunks)

end Calls

/-- Call for frames until there is none or an error; `none` when that takes more than `fuel`
calls. -/
def receiveWith (recv : List UInt8 → List (List UInt8) →
    Except ε (Option (List UInt8)) × List UInt8 × List (List UInt8)) :
    Nat → List UInt8 → List (List UInt8) → Option (List (List UInt8) × Except ε Unit)
  | 0, _, _ => none
  | fuel + 1, buffer, chunks =>
    match recv buffer chunks with
    | (.ok (some payload), buffer, chunks) =>
      (receiveWith recv fuel buffer chunks).map fun r => (payload :: r.1, r.2)
    | (.ok none, _, _) => some ([], .ok ())
    | (.error e, _, _) => some ([], .error e)

variable {limit : Nat} {take finish : List UInt8 → Except ε (Option (List UInt8)) × List UInt8}

section Front

variable {buffer payload rest chunk : List UInt8} {chunks : List (List UInt8)} {length : Nat}

theorem recvWith_of_complete (h : Implements limit take)
    (hhead : head limit buffer = .complete payload rest) :
    recvWith take finish buffer chunks = (.ok (some payload), rest, chunks) := by
  have htake := h.complete buffer payload rest hhead
  cases chunks with
  | nil | cons chunk chunks => rw [recvWith, htake]

theorem recvWith_of_oversized (h : Implements limit take)
    (hhead : head limit buffer = .oversized length) :
    ∃ e rest, recvWith take finish buffer chunks = (.error e, rest) := by
  obtain ⟨e, buffer', htake⟩ := h.oversized buffer length hhead
  cases chunks with
  | nil => exact ⟨e, (buffer', []), by rw [recvWith, htake]⟩
  | cons chunk chunks => exact ⟨e, (buffer', chunk :: chunks), by rw [recvWith, htake]⟩

/-- Where there is no frame yet, the call goes on with the next chunk. -/
theorem recvWith_of_incomplete (h : Implements limit take)
    (hhead : head limit buffer = .incomplete) (hchunk : chunk ≠ []) :
    recvWith take finish buffer (chunk :: chunks) =
      recvWith take finish (buffer ++ chunk) chunks := by
  rw [recvWith, h.incomplete buffer hhead]
  exact if_neg hchunk

end Front

/-- What a call returns, by the front of the bytes that are still to come. -/
theorem recvWith_cases (h : Implements limit take)
    (finish : List UInt8 → Except ε (Option (List UInt8)) × List UInt8)
    {chunks : List (List UInt8)} (hchunks : [] ∉ chunks) (buffer : List UInt8) :
    (∃ payload rest chunks', head limit (buffer ++ chunks.flatten) =
        .complete payload (rest ++ chunks'.flatten) ∧ [] ∉ chunks' ∧
        recvWith take finish buffer chunks = (.ok (some payload), rest, chunks')) ∨
    (Refused limit (buffer ++ chunks.flatten) ∧
      ∃ e rest, recvWith take finish buffer chunks = (.error e, rest)) ∨
    (head limit (buffer ++ chunks.flatten) = .incomplete ∧
      recvWith take finish buffer chunks =
        ((finish (buffer ++ chunks.flatten)).1, (finish (buffer ++ chunks.flatten)).2, [])) := by
  cases hhead : head limit buffer with
  | complete payload rest =>
    exact Or.inl ⟨payload, rest, chunks, head_append_of_complete hhead _, hchunks,
      recvWith_of_complete h hhead⟩
  | oversized length =>
    exact Or.inr (Or.inl ⟨⟨length, head_append_of_oversized hhead _⟩,
      recvWith_of_oversized h hhead⟩)
  | incomplete =>
    cases chunks with
    | nil =>
      rw [List.flatten_nil, List.append_nil, recvWith, h.incomplete buffer hhead]
      exact Or.inr (Or.inr ⟨hhead, rfl⟩)
    | cons chunk chunks =>
      rw [List.mem_cons, not_or] at hchunks
      rw [recvWith_of_incomplete h hhead (Ne.symm hchunks.1), List.flatten_cons,
        ← List.append_assoc]
      exact recvWith_cases h finish hchunks.2 (buffer ++ chunk)

/-- The outcome of a loop that leaves `rest`: an error for a refused length, and else what
`finish` returns. -/
def FinishesAt (limit : Nat) (finish : List UInt8 → Except ε (Option (List UInt8)) × List UInt8)
    (rest : List UInt8) (outcome : Except ε Unit) : Prop :=
  (Refused limit rest ∧ ∃ e, outcome = .error e) ∨
    (¬ Refused limit rest ∧ outcome = (finish rest).1.map fun _ => ())

/-- The calls up to the end of the stream deliver its frames, wherever it is cut. -/
theorem receiveWith_eq (h : Implements limit take)
    (hfinish : ∀ rest payload, head limit rest = .incomplete → (finish rest).1 ≠ .ok (some payload))
    {fuel : Nat} {buffer : List UInt8} {chunks : List (List UInt8)} (hchunks : [] ∉ chunks)
    (hfuel : (buffer ++ chunks.flatten).length < fuel) :
    ∃ outcome, receiveWith (recvWith take finish) fuel buffer chunks =
        some ((parse limit (buffer ++ chunks.flatten)).1, outcome) ∧
      FinishesAt limit finish (parse limit (buffer ++ chunks.flatten)).2 outcome := by
  induction fuel generalizing buffer chunks with
  | zero => exact absurd hfuel (Nat.not_lt_zero _)
  | succ fuel ih =>
    rw [receiveWith]
    obtain ⟨payload, rest, chunks', hhead, hchunks', hcall⟩ | ⟨hrefused, e, rest, hcall⟩ |
      ⟨hhead, hcall⟩ := recvWith_cases h finish hchunks buffer
    · have hlt := length_rest_lt hhead
      have hfuel' := Nat.lt_of_lt_of_le hlt (Nat.le_of_lt_succ hfuel)
      obtain ⟨outcome, hrest, hends⟩ := ih hchunks' hfuel'
      rw [hcall, parse_of_complete hhead]
      dsimp only
      rw [hrest]
      exact ⟨outcome, rfl, hends⟩
    · rw [hcall, parse_of_refused hrefused]
      exact ⟨.error e, rfl, Or.inl ⟨hrefused, e, rfl⟩⟩
    · rw [hcall, parse_of_not_complete (by rw [hhead]; simp)]
      have hopen : ¬ Refused limit (buffer ++ chunks.flatten) := by
        rintro ⟨length, hover⟩
        cases hhead.symm.trans hover
      cases hlast : (finish (buffer ++ chunks.flatten)).1 with
      | error e => exact ⟨.error e, rfl, Or.inr ⟨hopen, by rw [hlast]; rfl⟩⟩
      | ok frame =>
        cases frame with
        | none => exact ⟨.ok (), rfl, Or.inr ⟨hopen, by rw [hlast]; rfl⟩⟩
        | some payload => exact absurd hlast (hfinish _ payload hhead)

end Lib.Framing
