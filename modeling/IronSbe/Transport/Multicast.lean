import IronSbe.Lib.LittleEndian
import IronSbe.Lib.Lru

/-!
# Arbitration between two multicast feeds

Every message is sent on two feeds, and the first copy to arrive is processed.
`FeedArbitrator` remembers the numbers of the messages that it let through, the last
`cache_size` of them, and refuses those.  `MulticastReceiver` asks it about every packet
of both sockets; the arbitrator itself is handed out, and may be reset by anybody.

* `Inv`: the cache is a window over the accepted numbers.
* `window_of_history`: what is accepted and refused after any history of calls.
-/

namespace IronSbe.Transport

open Lib Lib.Bytes

/-- The panic of `seq + 1` on `u64`. -/
inductive Overflow where
  | seqPlusOne
  deriving DecidableEq, Repr

/-- `seq + 1` on `u64`. -/
def seqPlusOne (seq : Nat) : Except Overflow Nat :=
  if seq + 1 < 2 ^ 64 then .ok (seq + 1) else .error .seqPlusOne

/-- The body of `check_gap` of both arbitrators: the gap before `seq`, if there is one, and
the number that is stored as the next one to expect, if that changes. -/
def advanceExpected (expected seq : Nat) : Except Overflow (Option (Nat × Nat)) × Option Nat :=
  if expected < seq then
    match seqPlusOne seq with
    | .error e => (.error e, none)
    | .ok next => (.ok (some (expected, seq - 1)), some next)
  else if seq = expected then
    match seqPlusOne seq with
    | .error e => (.error e, none)
    | .ok next => (.ok none, some next)
  else (.ok none, none)

/-- `FeedArbitrator`. -/
structure FeedArbitrator where
  highestSeq : Nat
  processed : LruSet Nat
  expectedSeq : Nat

namespace FeedArbitrator

/-- `new`, which panics on an empty cache. -/
def new (cacheSize : Nat) : Option FeedArbitrator :=
  if cacheSize = 0 then none else some ⟨0, .empty cacheSize, 1⟩

/-- `should_process`: a number that is not in the cache goes into it. -/
def shouldProcess (a : FeedArbitrator) (seq : Nat) : Bool × FeedArbitrator :=
  if a.processed.contains seq then (false, a)
  else
    let a := { a with processed := a.processed.put seq }
    (true, if a.highestSeq < seq then { a with highestSeq := seq } else a)

/-- `check_gap`. -/
def checkGap (a : FeedArbitrator) (seq : Nat) :
    Except Overflow (Option (Nat × Nat)) × FeedArbitrator :=
  let r := advanceExpected a.expectedSeq seq
  (r.1, { a with expectedSeq := r.2.getD a.expectedSeq })

/-- `highest_sequence`. -/
def highestSequence (a : FeedArbitrator) : Nat := a.highestSeq

/-- `expected_sequence`. -/
def expectedSequence (a : FeedArbitrator) : Nat := a.expectedSeq

/-- `reset`. -/
def reset (a : FeedArbitrator) : FeedArbitrator := ⟨0, a.processed.clear, 1⟩

variable {a : FeedArbitrator} {seq : Nat}

/-- A number that the cache holds is refused. -/
theorem shouldProcess_of_mem (h : seq ∈ a.processed.keys) :
    a.shouldProcess seq = (false, a) := by
  rw [shouldProcess, if_pos (LruSet.contains_iff.mpr h)]

/-- Any other number is accepted and put in the cache. -/
theorem shouldProcess_of_not_mem (h : seq ∉ a.processed.keys) :
    a.shouldProcess seq =
      (true, { a with processed := a.processed.put seq, highestSeq := max a.highestSeq seq }) := by
  rw [shouldProcess, if_neg fun hcontains => h (LruSet.contains_iff.mp hcontains)]
  dsimp only
  split_ifs with hhigh
  · rw [Nat.max_eq_right hhigh.le]
  · rw [Nat.max_eq_left (Nat.le_of_not_lt hhigh)]

end FeedArbitrator

/-! ## The receiver -/

/-- `SequencedPacket`, without the time of its arrival. -/
structure SequencedPacket where
  sequence : Nat
  data : List UInt8
  deriving DecidableEq, Repr

/-- The number in the header of a packet, if the packet is long enough. -/
def sequenceOf (data : List UInt8) : Option Nat :=
  if data.length < 8 then none else some (leNat (data.take 8))

/-- `MulticastReceiver::process_packet`, with the arbitrator of the receiver. -/
def processPacket (a : FeedArbitrator) (data : List UInt8) :
    Except Overflow (Option SequencedPacket) × FeedArbitrator :=
  match sequenceOf data with
  | none => (.ok none, a)
  | some seq =>
    match a.shouldProcess seq with
    | (false, a) => (.ok none, a)
    | (true, a) =>
      match a.checkGap seq with
      | (.error e, a) => (.error e, a)
      | (.ok _, a) => (.ok (some ⟨seq, data.drop 8⟩), a)

/-! ## Histories -/

/-- A call to the arbitrator of a receiver. -/
inductive Operation where
  | shouldProcess (seq : Nat)
  | checkGap (seq : Nat)
  /-- A packet arrives on one of the sockets. -/
  | packet (data : List UInt8)
  | reset
  deriving DecidableEq, Repr

/-- The number that `should_process` is called with. -/
def Operation.arrival : Operation → Option Nat
  | .shouldProcess seq => some seq
  | .packet data => sequenceOf data
  | _ => none

/-- The arbitrator with its history since it was created or reset: the numbers that have
arrived, and those for which `should_process` returned `true`, the oldest first. -/
structure History where
  arbitrator : FeedArbitrator
  arrived : List Nat := []
  accepted : List Nat := []

namespace History

/-- The arbitrator after an operation. -/
def call (a : FeedArbitrator) : Operation → FeedArbitrator
  | .shouldProcess seq => (a.shouldProcess seq).2
  | .checkGap seq => (a.checkGap seq).2
  | .packet data => (processPacket a data).2
  | .reset => a.reset

/-- A call, with the numbers that have arrived; `reset` starts a new history. -/
def step (h : History) (op : Operation) : History :=
  if op = .reset then { arbitrator := h.arbitrator.reset }
  else
    { arbitrator := call h.arbitrator op
      arrived := h.arrived ++ op.arrival.toList
      accepted := h.accepted ++
        op.arrival.toList.filter fun seq => (h.arbitrator.shouldProcess seq).1 }

/-- Many calls. -/
def run (h : History) (ops : List Operation) : History := ops.foldl step h

/-- The cache is a window over the accepted numbers. -/
structure Inv (cacheSize : Nat) (h : History) : Prop where
  capacity : h.arbitrator.processed.capacity = cacheSize
  window : h.arbitrator.processed.keys = (h.accepted.rtake cacheSize).reverse
  arrived : h.accepted ⊆ h.arrived
  spaced : LruSet.Spaced cacheSize h.accepted
  highest : h.arbitrator.highestSeq = h.accepted.foldl max 0

/-- An arbitrator that has been created or reset. -/
theorem inv_fresh (cacheSize : Nat) :
    Inv cacheSize { arbitrator := ⟨0, .empty cacheSize, 1⟩ } := by
  refine ⟨rfl, ?_, List.Subset.refl _, ?_, rfl⟩
  · rw [List.rtake_nil]
    rfl
  · intro i j x _ _ hi
    cases hi

variable {cacheSize : Nat} {h : History}

/-- A number is in the cache if and only if it is in the window. -/
theorem Inv.mem_keys_iff (hinv : Inv cacheSize h) (seq : Nat) :
    seq ∈ h.arbitrator.processed.keys ↔ seq ∈ h.accepted.rtake cacheSize := by
  rw [hinv.window, List.mem_reverse]

/-- What a call of `should_process` adds to the history. -/
theorem Inv.shouldProcess (hinv : Inv cacheSize h) (seq : Nat) :
    Inv cacheSize
      { arbitrator := (h.arbitrator.shouldProcess seq).2
        arrived := h.arrived ++ [seq]
        accepted := h.accepted ++
          [seq].filter fun seq => (h.arbitrator.shouldProcess seq).1 } := by
  have harrived : h.accepted ⊆ h.arrived ++ [seq] :=
    List.Subset.trans hinv.arrived (List.subset_append_left _ _)
  by_cases hmem : seq ∈ h.arbitrator.processed.keys
  · have hresult := FeedArbitrator.shouldProcess_of_mem hmem
    have hrefused : ([seq].filter fun seq => (h.arbitrator.shouldProcess seq).1) = [] := by
      simp [hresult]
    rw [hrefused, hresult, List.append_nil]
    exact ⟨hinv.capacity, hinv.window, harrived, hinv.spaced, hinv.highest⟩
  · have hresult := FeedArbitrator.shouldProcess_of_not_mem hmem
    have haccepted : ([seq].filter fun seq => (h.arbitrator.shouldProcess seq).1) = [seq] := by
      simp [hresult]
    rw [haccepted, hresult]
    refine ⟨hinv.capacity, ?_, ?_, ?_, ?_⟩
    · have hwindow := LruSet.keys_put_of_window (hinv.capacity.symm ▸ hinv.window) hmem
      rwa [hinv.capacity] at hwindow
    · exact List.append_subset.mpr ⟨harrived, List.subset_append_right _ _⟩
    · exact hinv.spaced.concat (mt (hinv.mem_keys_iff seq).mpr hmem)
    · show max h.arbitrator.highestSeq seq = _
      rw [List.foldl_append, ← hinv.highest]
      rfl

/-- The rest of the arbitrator plays no part. -/
theorem Inv.congr {h' : History} (hinv : Inv cacheSize h)
    (hprocessed : h'.arbitrator.processed = h.arbitrator.processed)
    (hhighest : h'.arbitrator.highestSeq = h.arbitrator.highestSeq)
    (harrived : h'.arrived = h.arrived) (haccepted : h'.accepted = h.accepted) :
    Inv cacheSize h' := by
  constructor
  · rw [hprocessed]
    exact hinv.capacity
  · rw [hprocessed, haccepted]
    exact hinv.window
  · rw [haccepted, harrived]
    exact hinv.arrived
  · rw [haccepted]
    exact hinv.spaced
  · rw [hhighest, haccepted]
    exact hinv.highest

/-- A packet is as good as its number: the search for gaps leaves the cache alone. -/
theorem processPacket_processed (a : FeedArbitrator) (data : List UInt8) :
    (processPacket a data).2.processed =
        ((sequenceOf data).elim a fun seq => (a.shouldProcess seq).2).processed ∧
      (processPacket a data).2.highestSeq =
        ((sequenceOf data).elim a fun seq => (a.shouldProcess seq).2).highestSeq := by
  unfold processPacket
  cases sequenceOf data with
  | none => exact ⟨rfl, rfl⟩
  | some seq =>
    dsimp only [Option.elim]
    rcases a.shouldProcess seq with ⟨_ | _, a'⟩
    · exact ⟨rfl, rfl⟩
    · rcases hgap : a'.checkGap seq with ⟨_ | _, a''⟩
      all_goals
        obtain rfl : { a' with expectedSeq := _ } = a'' := congrArg Prod.snd hgap
        dsimp only
        rw [hgap]
        exact ⟨rfl, rfl⟩

theorem Inv.step (hinv : Inv cacheSize h) (op : Operation) :
    Inv cacheSize (h.step op) := by
  cases op with
  | reset =>
    show Inv cacheSize { arbitrator := ⟨0, .empty h.arbitrator.processed.capacity, 1⟩ }
    rw [hinv.capacity]
    exact inv_fresh cacheSize
  | checkGap seq => exact hinv.congr rfl rfl (List.append_nil _) (List.append_nil _)
  | shouldProcess seq => exact hinv.shouldProcess seq
  | packet data =>
    obtain ⟨hprocessed, hhighest⟩ := processPacket_processed h.arbitrator data
    cases hseq : sequenceOf data with
    | none =>
      rw [hseq] at hprocessed hhighest
      refine hinv.congr hprocessed hhighest ?_ ?_
      all_goals simp [History.step, Operation.arrival, hseq]
    | some seq =>
      rw [hseq] at hprocessed hhighest
      refine (hinv.shouldProcess seq).congr hprocessed hhighest ?_ ?_
      all_goals simp [History.step, Operation.arrival, hseq]

theorem inv_run (hinv : Inv cacheSize h) (ops : List Operation) :
    Inv cacheSize (h.run ops) := by
  induction ops generalizing h with
  | nil => exact hinv
  | cons op ops ih => exact ih (hinv.step op)

end History

/-- After any history of calls on a new arbitrator, a number is refused if and only if it
is among the last `cacheSize` accepted ones since the last reset.  So a number that has not
arrived is accepted, no number is accepted twice within `cacheSize` acceptances, and the
highest number is the greatest of the accepted ones. -/
theorem window_of_history {cacheSize : Nat} {a : FeedArbitrator}
    (hnew : FeedArbitrator.new cacheSize = some a) (ops : List Operation) :
    let h := History.run { arbitrator := a } ops
    (∀ seq, (h.arbitrator.shouldProcess seq).1 = false ↔ seq ∈ h.accepted.rtake cacheSize) ∧
      (∀ seq, seq ∉ h.arrived → (h.arbitrator.shouldProcess seq).1 = true) ∧
      LruSet.Spaced cacheSize h.accepted ∧
      h.arbitrator.highestSequence = h.accepted.foldl max 0 := by
  have hstart : History.Inv cacheSize { arbitrator := a } := by
    unfold FeedArbitrator.new at hnew
    split_ifs at hnew
    cases hnew
    exact History.inv_fresh cacheSize
  intro h
  have hinv : History.Inv cacheSize h := History.inv_run hstart ops
  have hrefused : ∀ seq,
      (h.arbitrator.shouldProcess seq).1 = false ↔ seq ∈ h.accepted.rtake cacheSize := by
    intro seq
    rw [← hinv.mem_keys_iff]
    by_cases hmem : seq ∈ h.arbitrator.processed.keys
    · simp [FeedArbitrator.shouldProcess_of_mem hmem, hmem]
    · simp [FeedArbitrator.shouldProcess_of_not_mem hmem, hmem]
  refine ⟨hrefused, fun seq hfirst => ?_, hinv.spaced, hinv.highest⟩
  rw [← Bool.not_eq_false, hrefused]
  intro hmem
  exact hfirst (hinv.arrived (List.mem_of_mem_drop hmem))

/-- With room for two numbers, the third one pushes the first one out. -/
theorem window_of_history_two :
    ∃ a, FeedArbitrator.new 2 = some a ∧
      let h := History.run { arbitrator := a }
        [.shouldProcess 9, .reset, .shouldProcess 1, .packet [2, 0, 0, 0, 0, 0, 0, 0, 7],
          .checkGap 5, .shouldProcess 1, .shouldProcess 3]
      h.accepted = [1, 2, 3] ∧ (h.arbitrator.shouldProcess 2).1 = false ∧
        (h.arbitrator.shouldProcess 9).1 = true ∧ (h.arbitrator.shouldProcess 1).1 = true ∧
        h.arbitrator.highestSequence = 3 := by
  have hnew : FeedArbitrator.new 2 = some ⟨0, .empty 2, 1⟩ := rfl
  obtain ⟨hrefused, hfirst, -, hhighest⟩ := window_of_history hnew
    [.shouldProcess 9, .reset, .shouldProcess 1, .packet [2, 0, 0, 0, 0, 0, 0, 0, 7],
      .checkGap 5, .shouldProcess 1, .shouldProcess 3]
  refine ⟨_, hnew, rfl, (hrefused 2).mpr (by decide), hfirst 9 (by decide), ?_, hhighest⟩
  rw [← Bool.not_eq_false, hrefused]
  decide

end IronSbe.Transport
