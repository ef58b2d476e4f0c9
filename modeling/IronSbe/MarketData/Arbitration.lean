import IronSbe.Transport.Multicast
import Mathlib.Logic.Function.Basic

/-!
# Arbitration for each instrument

`InstrumentArbitrator` decides between the two feeds with one number for each instrument,
that of the last message it let through.  It has no memory of what it has not seen: a
number that was missed on one feed and comes later on the other is below the last one, and
is taken for a duplicate.

* `records`: the numbers above all earlier ones, which are those that are accepted
  (`seqsOf_accepted`).
* `acceptsEachOnce_iff`: when every number is accepted once.
-/

namespace IronSbe.MarketData

open Transport (Overflow advanceExpected)

/-- `InstrumentArbitrator`. -/
structure InstrumentArbitrator where
  lastSeq : UInt64 → Option Nat
  expectedSeq : UInt64 → Option Nat

namespace InstrumentArbitrator

/-- No instrument has been seen. -/
def new : InstrumentArbitrator := ⟨fun _ => none, fun _ => none⟩

/-- `should_process`: a number above the last one is new. -/
def shouldProcess (a : InstrumentArbitrator) (instrumentId : UInt64) (seq : Nat) :
    Bool × InstrumentArbitrator :=
  let last := (a.lastSeq instrumentId).getD 0
  if seq ≤ last then (false, a)
  else (true, { a with lastSeq := Function.update a.lastSeq instrumentId (some seq) })

/-- `check_gap`, with the expected number 1 at first. -/
def checkGap (a : InstrumentArbitrator) (instrumentId : UInt64) (seq : Nat) :
    Except Overflow (Option (Nat × Nat)) × InstrumentArbitrator :=
  let r := advanceExpected ((a.expectedSeq instrumentId).getD 1) seq
  match r.2 with
  | none => (r.1, a)
  | some next =>
    (r.1, { a with expectedSeq := Function.update a.expectedSeq instrumentId (some next) })

/-- Forget an instrument. -/
def reset (a : InstrumentArbitrator) (instrumentId : UInt64) : InstrumentArbitrator :=
  ⟨Function.update a.lastSeq instrumentId none, Function.update a.expectedSeq instrumentId none⟩

/-- Forget all instruments. -/
def resetAll (_ : InstrumentArbitrator) : InstrumentArbitrator := new

end InstrumentArbitrator

/-! ## Two feeds -/

/-- The two feeds. -/
inductive Feed where
  | a
  | b
  deriving DecidableEq, Repr

/-- A message arrives on one of the feeds. -/
structure Arrival where
  feed : Feed
  instrumentId : UInt64
  seq : Nat
  deriving DecidableEq, Repr

/-- The arrivals for which `should_process` returns `true`. -/
def InstrumentArbitrator.accepted : InstrumentArbitrator → List Arrival → List Arrival
  | _, [] => []
  | a, arrival :: arrivals =>
    match a.shouldProcess arrival.instrumentId arrival.seq with
    | (true, a) => arrival :: a.accepted arrivals
    | (false, a) => a.accepted arrivals

/-- The numbers for one instrument, in the order of their arrival. -/
def seqsOf (instrumentId : UInt64) (arrivals : List Arrival) : List Nat :=
  (arrivals.filter (·.instrumentId = instrumentId)).map (·.seq)

/-- For every number that arrives on at least one feed, `should_process` returns `true`
exactly once. -/
def AcceptsEachOnce (instrumentId : UInt64) (arrivals : List Arrival) : Prop :=
  ∀ seq, (∃ feed, ⟨feed, instrumentId, seq⟩ ∈ arrivals) →
    (seqsOf instrumentId (InstrumentArbitrator.new.accepted arrivals)).count seq = 1

/-- A number that has not arrived before is above all that have. -/
def FirstArrivalsAscend (seqs : List Nat) : Prop :=
  ∀ before seq after, seqs = before ++ seq :: after → seq ∉ before → ∀ m ∈ before, m < seq

/-! ## What is accepted -/

/-- The numbers above `last` and above all numbers before them. -/
def records : Nat → List Nat → List Nat
  | _, [] => []
  | last, seq :: seqs => if seq ≤ last then records last seqs else seq :: records seq seqs

/-- The records ascend. -/
theorem pairwise_records (last : Nat) (seqs : List Nat) :
    (records last seqs).Pairwise (· < ·) ∧ ∀ seq ∈ records last seqs, last < seq := by
  induction seqs generalizing last with
  | nil => exact ⟨.nil, nofun⟩
  | cons seq seqs ih =>
    rw [records]
    split_ifs with hle
    · exact ih last
    · obtain ⟨hpairs, hbound⟩ := ih seq
      refine ⟨List.pairwise_cons.mpr ⟨hbound, hpairs⟩, ?_⟩
      intro n hn
      rcases List.mem_cons.mp hn with rfl | hn
      · exact Nat.lt_of_not_le hle
      · exact (Nat.lt_of_not_le hle).trans (hbound n hn)

theorem mem_records_iff {last seq : Nat} {seqs : List Nat} :
    seq ∈ records last seqs ↔
      ∃ before after, seqs = before ++ seq :: after ∧ last < seq ∧ ∀ m ∈ before, m < seq := by
  induction seqs generalizing last with
  | nil => simp [records]
  | cons head seqs ih =>
    rw [records]
    constructor
    · intro hmem
      split_ifs at hmem with hle
      · obtain ⟨before, after, rfl, hlast, hbefore⟩ := ih.mp hmem
        refine ⟨head :: before, after, rfl, hlast, ?_⟩
        exact List.forall_mem_cons.mpr ⟨hle.trans_lt hlast, hbefore⟩
      · rcases List.mem_cons.mp hmem with rfl | hmem
        · exact ⟨[], seqs, rfl, Nat.lt_of_not_le hle, nofun⟩
        · obtain ⟨before, after, rfl, hhead, hbefore⟩ := ih.mp hmem
          refine ⟨head :: before, after, rfl, (Nat.lt_of_not_le hle).trans hhead, ?_⟩
          exact List.forall_mem_cons.mpr ⟨hhead, hbefore⟩
    · rintro ⟨before, after, heq, hlast, hbefore⟩
      cases before with
      | nil =>
        cases heq
        rw [if_neg (Nat.not_le.mpr hlast)]
        exact List.mem_cons_self
      | cons first before =>
        cases heq
        rw [List.forall_mem_cons] at hbefore
        split_ifs with hle
        · exact ih.mpr ⟨before, after, rfl, hlast, hbefore.2⟩
        · exact List.mem_cons_of_mem _ (ih.mpr ⟨before, after, rfl, hbefore⟩)

/-- The arbitrator accepts the records of each instrument. -/
theorem seqsOf_accepted (a : InstrumentArbitrator) (instrumentId : UInt64)
    (arrivals : List Arrival) :
    seqsOf instrumentId (a.accepted arrivals) =
      records ((a.lastSeq instrumentId).getD 0) (seqsOf instrumentId arrivals) := by
  induction arrivals generalizing a with
  | nil => rfl
  | cons arrival arrivals ih =>
    rw [InstrumentArbitrator.accepted, InstrumentArbitrator.shouldProcess]
    by_cases hid : arrival.instrumentId = instrumentId
    · subst hid
      have hseqs : ∀ rest, seqsOf arrival.instrumentId (arrival :: rest) =
          arrival.seq :: seqsOf arrival.instrumentId rest := by simp [seqsOf]
      rw [hseqs, records]
      split_ifs with hle
      · exact ih a
      · dsimp only
        rw [hseqs, ih]
        simp
    · have hseqs : ∀ rest, seqsOf instrumentId (arrival :: rest) = seqsOf instrumentId rest := by
        simp [seqsOf, hid]
      rw [hseqs]
      split_ifs
      · exact ih a
      · dsimp only
        rw [hseqs, ih]
        simp [Function.update_of_ne (Ne.symm hid)]

/-- Two ways to cut a list in front of the first occurrence of a number. -/
theorem before_unique {before before' after after' : List Nat} {seq : Nat}
    (heq : before ++ seq :: after = before' ++ seq :: after') (hfirst : seq ∉ before)
    (hfirst' : seq ∉ before') : before = before' := by
  induction before generalizing before' with
  | nil =>
    cases before' with
    | nil => rfl
    | cons n before' => exact absurd ((List.cons.inj heq).1 ▸ List.mem_cons_self) hfirst'
  | cons m before ih =>
    cases before' with
    | nil => exact absurd ((List.cons.inj heq).1 ▸ List.mem_cons_self) hfirst
    | cons n before' =>
      obtain ⟨rfl, htail⟩ := List.cons.inj heq
      rw [ih htail (fun h => hfirst (List.mem_cons_of_mem _ h))
        fun h => hfirst' (List.mem_cons_of_mem _ h)]

theorem forall_mem_records_iff {seqs : List Nat} (hpos : ∀ seq ∈ seqs, 1 ≤ seq) :
    (∀ seq ∈ seqs, seq ∈ records 0 seqs) ↔ FirstArrivalsAscend seqs := by
  constructor
  · intro h before seq after heq hfirst
    have hmem : seq ∈ seqs := heq ▸ List.mem_append_right _ List.mem_cons_self
    obtain ⟨before', after', heq', -, hbefore⟩ := mem_records_iff.mp (h seq hmem)
    obtain rfl : before = before' :=
      before_unique (heq.symm.trans heq') hfirst fun hmem' => Nat.lt_irrefl _ (hbefore seq hmem')
    exact hbefore
  · intro h seq hmem
    obtain ⟨before, after, heq, hfirst⟩ := List.eq_append_cons_of_mem hmem
    exact mem_records_iff.mpr ⟨before, after, heq, hpos seq hmem, h before seq after heq hfirst⟩

/-- Every number is accepted once if and only if no number arrives for the first time, on
either feed, behind a greater one. -/
theorem acceptsEachOnce_iff {arrivals : List Arrival} (hpos : ∀ arrival ∈ arrivals, 1 ≤ arrival.seq)
    (instrumentId : UInt64) :
    AcceptsEachOnce instrumentId arrivals ↔ FirstArrivalsAscend (seqsOf instrumentId arrivals) := by
  have hmem : ∀ seq, (∃ feed, ⟨feed, instrumentId, seq⟩ ∈ arrivals) ↔
      seq ∈ seqsOf instrumentId arrivals := by
    intro seq
    simp only [seqsOf, List.mem_map, List.mem_filter, decide_eq_true_eq]
    constructor
    · rintro ⟨feed, h⟩
      exact ⟨_, ⟨h, rfl⟩, rfl⟩
    · rintro ⟨⟨feed, id, n⟩, ⟨h, rfl⟩, rfl⟩
      exact ⟨feed, h⟩
  have hpos' : ∀ seq ∈ seqsOf instrumentId arrivals, 1 ≤ seq := by
    intro seq hseq
    obtain ⟨feed, h⟩ := (hmem seq).mpr hseq
    exact hpos _ h
  have hnodup : (records 0 (seqsOf instrumentId arrivals)).Nodup :=
    (pairwise_records 0 _).1.imp Nat.ne_of_lt
  rw [AcceptsEachOnce, seqsOf_accepted, ← forall_mem_records_iff hpos']
  refine forall_congr' fun seq => ?_
  rw [hmem]
  refine imp_congr_right fun _ => ?_
  exact ⟨fun hone => List.count_pos_iff.mp (hone ▸ Nat.one_pos),
    fun hrecord => List.count_eq_one_of_mem hnodup hrecord⟩

/-- Feed `a` loses the second message and feed `b` is late, but not too late for it. -/
theorem acceptsEachOnce_of_timely :
    (∀ arrival ∈ [⟨.a, 7, 1⟩, ⟨.b, 7, 1⟩, ⟨.a, 9, 5⟩, ⟨.b, 7, 2⟩, ⟨.a, 7, 3⟩, ⟨.b, 7, 3⟩],
      1 ≤ Arrival.seq arrival) ∧
      AcceptsEachOnce 7
        [⟨.a, 7, 1⟩, ⟨.b, 7, 1⟩, ⟨.a, 9, 5⟩, ⟨.b, 7, 2⟩, ⟨.a, 7, 3⟩, ⟨.b, 7, 3⟩] := by
  have hpos : ∀ arrival ∈ [⟨.a, 7, 1⟩, ⟨.b, 7, 1⟩, ⟨.a, 9, 5⟩, ⟨.b, 7, 2⟩, ⟨.a, 7, 3⟩, ⟨.b, 7, 3⟩],
      1 ≤ Arrival.seq arrival := by decide
  exact ⟨hpos,
    (acceptsEachOnce_iff hpos 7).mpr ((forall_mem_records_iff (by decide)).mp (by decide))⟩

/-- Feed `a` loses the second message, and it comes on feed `b` behind the third one. -/
theorem late_arrival_refused :
    (∀ arrival ∈ [⟨.a, 7, 1⟩, ⟨.a, 7, 3⟩, ⟨.b, 7, 2⟩], 1 ≤ Arrival.seq arrival) ∧
      ¬ AcceptsEachOnce 7 [⟨.a, 7, 1⟩, ⟨.a, 7, 3⟩, ⟨.b, 7, 2⟩] := by
  refine ⟨by decide, fun h => ?_⟩
  have hcount := h 2 ⟨.b, by decide⟩
  exact absurd hcount (by decide)

end IronSbe.MarketData
