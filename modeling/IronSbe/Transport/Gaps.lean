import IronSbe.Lib.Tiling
import IronSbe.Transport.Multicast

/-!
# Which numbers are reported missing

`check_gap` of both arbitrators keeps the next number that it expects.  A call with a greater
number reports the numbers in between as missing, and they are behind the expected number
then: a later call does not come back to them.

* `GapLog`: the calls since the last reset, with what they reported and which of them moved
  the expected number.
* `GapLog.Tiled`: the invariant, kept by every call (`Tiled.add`).
* `GapsPartition`: the reports and the numbers of the calls that moved the expected number are a
  partition of the numbers before the expected one.
* `gapsPartition_run`: for any use of a `FeedArbitrator`.
-/

namespace IronSbe.Transport

open Lib

/-- What `check_gap` was called with since the last reset, the gaps that it reported, and the
numbers of the calls that changed the expected number. -/
structure GapLog where
  calls : List Nat := []
  reported : List (Nat × Nat) := []
  advanced : List Nat := []
  deriving DecidableEq, Repr

namespace GapLog

/-- A call with `seq` returned `result`, and the expected number is `expected'` now. -/
def add (log : GapLog) (seq : Nat) (result : Except Overflow (Option (Nat × Nat)))
    (expected expected' : Nat) : GapLog where
  calls := log.calls ++ [seq]
  reported := log.reported ++ (result.toOption.bind fun gap => gap).toList
  advanced := log.advanced ++ if expected' = expected then [] else [seq]

/-- The numbers of a reported gap, which includes both ends. -/
def interval (gap : Nat × Nat) : Set Nat := Set.Icc gap.1 gap.2

/-- The reported gaps and the numbers of the calls that changed the expected number. -/
def pieces (log : GapLog) : List (Set Nat) :=
  log.reported.map interval ++ log.advanced.map fun seq => {seq}

/-- The pieces are the numbers from 1 up to the expected one. -/
structure Tiled (log : GapLog) (expected : Nat) : Prop where
  pos : 1 ≤ expected
  tiles : Tiles log.pieces (Set.Ico 1 expected)
  advanced : log.advanced ⊆ log.calls

theorem tiled_new : Tiled {} 1 := by
  refine ⟨Nat.le_refl 1, ?_, List.Subset.refl _⟩
  rw [Set.Ico_self]
  exact .nil

variable {expected : Nat} {log : GapLog}

/-- What one call adds to the pieces. -/
theorem pieces_add (log : GapLog) (seq : Nat) (gap : Option (Nat × Nat)) {expected' : Nat}
    (hmoved : expected' ≠ expected) :
    (log.add seq (.ok gap) expected expected').pieces.Perm
      (log.pieces ++ (gap.toList.map interval ++ [{seq}])) := by
  have hpieces : (log.add seq (.ok gap) expected expected').pieces =
      (log.reported.map interval ++ gap.toList.map interval) ++
        (log.advanced.map (fun seq => {seq}) ++ [{seq}]) := by
    simp only [pieces, add, if_neg hmoved, List.map_append, List.map_singleton]
    rfl
  rw [hpieces, pieces, List.append_assoc, List.append_assoc]
  apply List.Perm.append_left
  rw [← List.append_assoc, ← List.append_assoc]
  exact List.perm_append_comm.append_right _

/-- The number that is expected after a call. -/
def expectedAfter (expected seq : Nat) : Nat := (advanceExpected expected seq).2.getD expected

theorem Tiled.moved {seq : Nat} (h : Tiled log expected) (hle : expected ≤ seq)
    {gap : Option (Nat × Nat)} (hgap : Tiles (gap.toList.map interval) (Set.Ico expected seq)) :
    Tiled (log.add seq (.ok gap) expected (seq + 1)) (seq + 1) := by
  refine ⟨by omega, ?_, ?_⟩
  · refine Tiles.perm ?_ (pieces_add log seq gap (by omega)).symm
    have hnew := hgap.append (Tiles.singleton {seq}) (by simp)
    have hall := h.tiles.append hnew ?_
    · have hunion : Set.Ico 1 expected ∪ (Set.Ico expected seq ∪ {seq}) = Set.Ico 1 (seq + 1) := by
        ext n
        have hpos := h.pos
        simp only [Set.mem_union, Set.mem_Ico, Set.mem_singleton_iff]
        omega
      rw [hunion] at hall
      exact hall
    · rw [Set.disjoint_left]
      intro n hn
      simp only [Set.mem_union, Set.mem_Ico, Set.mem_singleton_iff] at hn ⊢
      omega
  · show log.advanced ++ _ ⊆ log.calls ++ [seq]
    rw [if_neg (by omega)]
    exact List.append_subset.mpr
      ⟨List.Subset.trans h.advanced (List.subset_append_left _ _), List.subset_append_right _ _⟩

/-- A call that changes nothing. -/
theorem Tiled.unmoved (h : Tiled log expected) (seq : Nat)
    {result : Except Overflow (Option (Nat × Nat))}
    (hresult : (result.toOption.bind fun gap => gap) = none) :
    Tiled (log.add seq result expected expected) expected := by
  have hpieces : (log.add seq result expected expected).pieces = log.pieces := by
    simp [pieces, add, hresult]
  refine ⟨h.pos, hpieces ▸ h.tiles, ?_⟩
  show log.advanced ++ _ ⊆ log.calls ++ [seq]
  rw [if_pos rfl, List.append_nil]
  exact List.Subset.trans h.advanced (List.subset_append_left _ _)

/-- One call of `check_gap`. -/
theorem Tiled.add (h : Tiled log expected) (seq : Nat) :
    Tiled (log.add seq (advanceExpected expected seq).1 expected (expectedAfter expected seq))
      (expectedAfter expected seq) := by
  unfold expectedAfter advanceExpected seqPlusOne
  by_cases hmax : seq + 1 < 2 ^ 64
  · rw [if_pos hmax]
    split_ifs with hgap heq
    · apply h.moved (by omega)
      have hinterval : interval (expected, seq - 1) = Set.Ico expected seq := by
        ext n
        simp only [interval, Set.mem_Icc, Set.mem_Ico]
        omega
      rw [← hinterval]
      exact Tiles.singleton _
    · apply h.moved (by omega)
      rw [heq, Set.Ico_self]
      exact .nil
    · exact h.unmoved seq rfl
  · -- the addition panics before anything is stored
    rw [if_neg hmax]
    split_ifs <;> exact h.unmoved seq rfl

end GapLog

/-- The reported gaps and the numbers that moved the expected one are disjoint, and together
they are the numbers from 1 to the one before the expected number.  So no number is reported
twice, and a number before the expected one that no call had is reported once. -/
structure GapsPartition (log : GapLog) (expected : Nat) : Prop where
  disjoint : log.pieces.Pairwise Disjoint
  union : ⋃ piece ∈ log.pieces, piece = Set.Icc 1 (expected - 1)
  reported_once : ∀ n, log.reported.countP (fun gap => gap.1 ≤ n ∧ n ≤ gap.2) ≤ 1
  missing_once : ∀ n ∈ Set.Icc 1 (expected - 1), n ∉ log.calls →
    log.reported.countP (fun gap => gap.1 ≤ n ∧ n ≤ gap.2) = 1

theorem GapLog.Tiled.gapsPartition {log : GapLog} {expected : Nat} (h : log.Tiled expected) :
    GapsPartition log expected := by
  have hwhole : Set.Ico 1 expected = Set.Icc 1 (expected - 1) := by
    ext n
    simp only [Set.mem_Ico, Set.mem_Icc]
    omega
  have htiles : Tiles (log.reported.map GapLog.interval ++ log.advanced.map fun seq => {seq})
      (Set.Icc 1 (expected - 1)) := hwhole ▸ h.tiles
  have htest : ∀ (n : Nat) (gap : Nat × Nat),
      decide (gap.1 ≤ n ∧ n ≤ gap.2) = true ↔ n ∈ GapLog.interval gap := by
    intro n gap
    rw [decide_eq_true_iff]
    rfl
  refine ⟨htiles.disjoint, htiles.iUnion_eq, fun n => htiles.countP_le_one (htest n), ?_⟩
  intro n hn hcalls
  refine htiles.countP_eq_one (htest n) hn fun piece hpiece hmem => ?_
  obtain ⟨seq, hseq, rfl⟩ := List.mem_map.mp hpiece
  rw [Set.mem_singleton_iff.mp hmem] at hcalls
  exact hcalls (h.advanced hseq)

/-! ## The arbitrator of the feeds -/

/-- An arbitrator with the calls of `check_gap` since it was created or reset. -/
structure GapHistory where
  arbitrator : FeedArbitrator
  log : GapLog := {}

namespace GapHistory

/-- The call of `check_gap` in an operation: the arbitrator at this time, and the number. -/
def gapCall (a : FeedArbitrator) : Operation → Option (FeedArbitrator × Nat)
  | .shouldProcess _ | .reset => none
  | .checkGap seq => some (a, seq)
  | .packet data =>
    (sequenceOf data).bind fun seq =>
      if (a.shouldProcess seq).1 then some ((a.shouldProcess seq).2, seq) else none

/-- A call on the arbitrator, with its gap in the log; `reset` empties the log. -/
def step (t : GapHistory) (op : Operation) : GapHistory :=
  if op = .reset then { arbitrator := t.arbitrator.reset }
  else
    { arbitrator := History.call t.arbitrator op
      log := match gapCall t.arbitrator op with
        | none => t.log
        | some (a, seq) =>
          t.log.add seq (a.checkGap seq).1 a.expectedSeq (a.checkGap seq).2.expectedSeq }

/-- Many calls. -/
def run (t : GapHistory) (ops : List Operation) : GapHistory := ops.foldl step t

theorem expectedSeq_shouldProcess (a : FeedArbitrator) (seq : Nat) :
    (a.shouldProcess seq).2.expectedSeq = a.expectedSeq := by
  by_cases hmem : seq ∈ a.processed.keys
  · rw [FeedArbitrator.shouldProcess_of_mem hmem]
  · rw [FeedArbitrator.shouldProcess_of_not_mem hmem]

/-- The arbitrator after a packet with a number. -/
theorem processPacket_snd (a : FeedArbitrator) {data : List UInt8} {seq : Nat}
    (hseq : sequenceOf data = some seq) :
    (processPacket a data).2 =
      if (a.shouldProcess seq).1 then ((a.shouldProcess seq).2.checkGap seq).2
      else (a.shouldProcess seq).2 := by
  unfold processPacket
  rw [hseq]
  dsimp only
  rcases a.shouldProcess seq with ⟨_ | _, b⟩
  · rfl
  · dsimp only
    rcases b.checkGap seq with ⟨_ | _, c⟩ <;> rfl

variable {a : FeedArbitrator} {t : GapHistory}

/-- The expected number changes with the call of `check_gap`, if there is one. -/
theorem expectedSeq_call {op : Operation} (hop : op ≠ .reset) :
    match gapCall a op with
    | none => (History.call a op).expectedSeq = a.expectedSeq
    | some (b, seq) => b.expectedSeq = a.expectedSeq ∧
        (History.call a op).expectedSeq = (b.checkGap seq).2.expectedSeq := by
  cases op with
  | reset => exact absurd rfl hop
  | shouldProcess seq => exact expectedSeq_shouldProcess a seq
  | checkGap seq => exact ⟨rfl, rfl⟩
  | packet data =>
    simp only [gapCall, History.call]
    cases hseq : sequenceOf data with
    | none => simp only [Option.bind_none, processPacket, hseq]
    | some seq =>
      have hkept := expectedSeq_shouldProcess a seq
      rw [Option.bind_some, processPacket_snd a hseq]
      split_ifs with haccepted
      · exact ⟨hkept, rfl⟩
      · exact hkept

theorem tiled_step (h : t.log.Tiled t.arbitrator.expectedSeq) (op : Operation) :
    (t.step op).log.Tiled (t.step op).arbitrator.expectedSeq := by
  unfold step
  split_ifs with hop
  · exact GapLog.tiled_new
  · have hcall := expectedSeq_call (a := t.arbitrator) hop
    cases hgap : gapCall t.arbitrator op with
    | none =>
      rw [hgap] at hcall
      rw [hcall]
      exact h
    | some call =>
      obtain ⟨a, seq⟩ := call
      rw [hgap] at hcall
      obtain ⟨hbefore, hafter⟩ := hcall
      rw [hafter]
      rw [← hbefore] at h
      exact h.add seq

theorem tiled_run (h : t.log.Tiled t.arbitrator.expectedSeq) (ops : List Operation) :
    (t.run ops).log.Tiled (t.run ops).arbitrator.expectedSeq := by
  induction ops generalizing t with
  | nil => exact h
  | cons op ops ih => exact ih (tiled_step h op)

/-- A new arbitrator, after any operations. -/
theorem gapsPartition_run {cacheSize : Nat} (hnew : FeedArbitrator.new cacheSize = some a)
    (ops : List Operation) :
    GapsPartition (run { arbitrator := a } ops).log
      (run { arbitrator := a } ops).arbitrator.expectedSequence := by
  apply GapLog.Tiled.gapsPartition
  apply tiled_run
  unfold FeedArbitrator.new at hnew
  split_ifs at hnew
  cases hnew
  exact GapLog.tiled_new

end GapHistory

end IronSbe.Transport
