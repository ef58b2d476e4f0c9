import IronSbe.Lib.Accumulate
import IronSbe.Transport.Gaps

/-!
# The last sequence number

The sequence numbers are `u64`, and they come from outside.  The number that is expected next
is the one behind a number that was received; behind `u64::MAX` there is none.

* `SeqSafe`: no addition overflows, and what comes behind the last number is old.
* `advanceExpected_max`, `advanceExpected_ok`: `check_gap` of both arbitrators.
* `packetsSafe_iff`: the packets of a receiver.
-/

namespace IronSbe.Transport

open Lib Lib.Accumulate Lib.Bytes

/-- `u64::MAX`. -/
def maxSeq : Nat := 2 ^ 64 - 1

section

variable {α : Type} {Behind : α → α → Prop} {fine old : List α → α → Prop} {calls : List α}

/-- A sequence of calls.  With the calls `before` it, no call overflows (`fine`), and a call that
is `Behind` one with the last number is treated as old. -/
structure SeqSafe (Behind : α → α → Prop) (fine old : List α → α → Prop) (calls : List α) :
    Prop where
  noOverflow : ∀ before call after, calls = before ++ call :: after → fine before call
  isOld : ∀ before first mid later after, calls = before ++ first :: (mid ++ later :: after) →
    Behind first later → old (before ++ first :: mid) later

/-- Where a call with the last number (`L`) always overflows, there is no call behind one. -/
theorem seqSafe_iff {L : α → Prop} (hbehind : ∀ first later, Behind first later → L first)
    (hfine : (∀ before call after, calls = before ++ call :: after → fine before call) ↔
      ∀ call ∈ calls, ¬ L call) :
    SeqSafe Behind fine old calls ↔ ∀ call ∈ calls, ¬ L call := by
  rw [← hfine]
  constructor
  · intro hsafe
    exact hsafe.noOverflow
  · intro hall
    refine ⟨hall, fun before first mid later after hcalls hlater => ?_⟩
    have hmem : first ∈ calls := by
      rw [hcalls]
      exact List.mem_append_right _ List.mem_cons_self
    exact absurd (hbehind first later hlater) (hfine.mp hall first hmem)

end

/-! ## `check_gap` -/

/-- The expected number is not greater than the last one, and there is none behind it. -/
theorem advanceExpected_max {expected : Nat} (h : expected ≤ maxSeq) :
    (advanceExpected expected maxSeq).1 = .error .seqPlusOne := by
  have hnext : seqPlusOne maxSeq = .error .seqPlusOne := rfl
  unfold advanceExpected
  rw [hnext]
  split_ifs with hlt heq
  · rfl
  · rfl
  · omega

theorem advanceExpected_ok {expected seq : Nat} (h : seq < maxSeq) :
    ∃ gap, (advanceExpected expected seq).1 = .ok gap := by
  have hnext : seqPlusOne seq = .ok (seq + 1) := if_pos (by unfold maxSeq at h; omega)
  unfold advanceExpected
  rw [hnext]
  split_ifs <;> exact ⟨_, rfl⟩

/-- What is stored has been computed without an overflow. -/
theorem expectedAfter_le {expected : Nat} (h : expected ≤ maxSeq) (seq : Nat) :
    GapLog.expectedAfter expected seq ≤ maxSeq := by
  unfold GapLog.expectedAfter advanceExpected seqPlusOne
  by_cases hmax : seq + 1 < 2 ^ 64
  · have hnext : seq + 1 ≤ maxSeq := by
      unfold maxSeq
      omega
    rw [if_pos hmax]
    split_ifs
    · exact hnext
    · exact hnext
    · exact h
  · rw [if_neg hmax]
    split_ifs <;> exact h

/-! ## The receiver -/

theorem sequenceOf_le {data : List UInt8} {seq : Nat} (hseq : sequenceOf data = some seq) :
    seq ≤ maxSeq := by
  unfold sequenceOf at hseq
  split_ifs at hseq with hlen
  cases hseq
  have hlt := leNat_lt (data.take 8)
  rw [List.length_take_of_le (Nat.le_of_not_lt hlen)] at hlt
  unfold maxSeq
  omega

/-- The arbitrator of a receiver after the packets. -/
def afterPackets (a : FeedArbitrator) (packets : List (List UInt8)) : FeedArbitrator :=
  packets.foldl (fun a data => (processPacket a data).2) a

/-- The first packet has the last number, and the later one has a smaller one. -/
def PacketBehind (first later : List UInt8) : Prop :=
  sequenceOf first = some maxSeq ∧ ∃ seq, sequenceOf later = some seq ∧ seq < maxSeq

/-- `process_packet` never overflows, and behind the last number there is no gap and nothing
moves the expected number. -/
def PacketsSafe (a : FeedArbitrator) : List (List UInt8) → Prop :=
  SeqSafe PacketBehind
    (fun before data => ∃ result, (processPacket (afterPackets a before) data).1 = .ok result)
    (fun before data => ∀ seq, sequenceOf data = some seq →
      (afterPackets a before).checkGap seq = (.ok none, afterPackets a before))

namespace FeedArbitrator

/-- An arbitrator that has not seen the last number. -/
structure BelowMax (a : FeedArbitrator) : Prop where
  expectedSeq : a.expectedSeq ≤ maxSeq
  processed : maxSeq ∉ a.processed.keys

variable {a : FeedArbitrator} {data : List UInt8}

/-- A packet fails with the search for a gap in front of it. -/
theorem processPacket_ok_iff (a : FeedArbitrator) {seq : Nat} (hseq : sequenceOf data = some seq) :
    (∃ result, (processPacket a data).1 = .ok result) ↔
      ((a.shouldProcess seq).1 = true →
        ∃ gap, ((a.shouldProcess seq).2.checkGap seq).1 = .ok gap) := by
  unfold processPacket
  rw [hseq]
  dsimp only
  rcases a.shouldProcess seq with ⟨_ | _, b⟩
  · exact iff_of_true ⟨_, rfl⟩ (by rintro ⟨⟩)
  · dsimp only
    rcases b.checkGap seq with ⟨_ | gap, c⟩
    · exact iff_of_false (by rintro ⟨_, ⟨⟩⟩) fun h => by obtain ⟨_, ⟨⟩⟩ := h rfl
    · exact iff_of_true ⟨_, rfl⟩ fun _ => ⟨gap, rfl⟩

/-- The last number is new, and then it is too great. -/
theorem BelowMax.processPacket_max (h : BelowMax a) (hseq : sequenceOf data = some maxSeq) :
    ¬ ∃ result, (processPacket a data).1 = .ok result := by
  rw [processPacket_ok_iff a hseq, shouldProcess_of_not_mem h.processed]
  intro hok
  obtain ⟨gap, hgap⟩ := hok rfl
  have herror := advanceExpected_max h.expectedSeq
  rw [show (advanceExpected a.expectedSeq maxSeq).1 = .ok gap from hgap] at herror
  cases herror

/-- The cache holds the numbers that it held, and the one that is put in. -/
theorem mem_keys_shouldProcess {seq n : Nat} (h : n ∈ (a.shouldProcess seq).2.processed.keys) :
    n = seq ∨ n ∈ a.processed.keys := by
  by_cases hmem : seq ∈ a.processed.keys
  · rw [shouldProcess_of_mem hmem] at h
    exact .inr h
  · rw [shouldProcess_of_not_mem hmem] at h
    rw [LruSet.keys_put_of_not_mem hmem] at h
    exact List.mem_cons.mp (List.mem_of_mem_take h)

theorem BelowMax.shouldProcess (h : BelowMax a) {seq : Nat} (hseq : seq < maxSeq) :
    BelowMax (a.shouldProcess seq).2 := by
  refine ⟨?_, fun hmem => ?_⟩
  · rw [GapHistory.expectedSeq_shouldProcess]
    exact h.expectedSeq
  · rcases mem_keys_shouldProcess hmem with heq | hmem
    · omega
    · exact h.processed hmem

theorem BelowMax.checkGap (h : BelowMax a) (seq : Nat) : BelowMax (a.checkGap seq).2 :=
  ⟨expectedAfter_le h.expectedSeq seq, h.processed⟩

/-- Any other packet. -/
theorem BelowMax.processPacket (h : BelowMax a) (hdata : sequenceOf data ≠ some maxSeq) :
    (∃ result, (processPacket a data).1 = .ok result) ∧ BelowMax (processPacket a data).2 := by
  cases hseq : sequenceOf data with
  | none =>
    simp only [Transport.processPacket, hseq]
    exact ⟨⟨_, rfl⟩, h⟩
  | some seq =>
    have hle := sequenceOf_le hseq
    have hlt : seq < maxSeq := by
      apply Nat.lt_of_le_of_ne hle
      rintro rfl
      exact hdata hseq
    have hkept := h.shouldProcess hlt
    refine ⟨(processPacket_ok_iff a hseq).mpr fun _ => advanceExpected_ok hlt, ?_⟩
    rw [GapHistory.processPacket_snd a hseq]
    split_ifs
    · exact hkept.checkGap seq
    · exact hkept

theorem belowMax_of_new {cacheSize : Nat} (hnew : new cacheSize = some a) : BelowMax a := by
  unfold new at hnew
  split_ifs at hnew
  cases hnew
  exact ⟨show 1 ≤ maxSeq by decide, List.not_mem_nil⟩

end FeedArbitrator

/-- A receiver is safe from the packets if and only if none has the last number. -/
theorem packetsSafe_iff {a : FeedArbitrator} (ha : a.BelowMax) (packets : List (List UInt8)) :
    PacketsSafe a packets ↔ ∀ data ∈ packets, sequenceOf data ≠ some maxSeq := by
  refine seqSafe_iff (L := fun data => sequenceOf data = some maxSeq) (fun _ _ h => h.1) ?_
  exact forall_split_foldl_iff (fun a data ha => ha.processPacket_max)
    (fun a data ha => ha.processPacket) ha packets

end IronSbe.Transport
