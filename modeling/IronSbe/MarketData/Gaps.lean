import IronSbe.MarketData.Arbitration
import IronSbe.Transport.Gaps

/-!
# Missing numbers of each instrument

`InstrumentArbitrator::check_gap` does for every instrument what the arbitrator of the feeds
does for all messages.  The log of an instrument starts again with a reset of this instrument
or of all.

* `tiled_step`, `tiled_run`: the logs of all instruments.
* `gaps_partition`: both arbitrators.
-/

namespace IronSbe.MarketData

open Transport (GapLog GapsPartition GapHistory FeedArbitrator advanceExpected)

namespace InstrumentArbitrator

/-- The number that `check_gap` expects for an instrument. -/
def expected (a : InstrumentArbitrator) (instrumentId : UInt64) : Nat :=
  (a.expectedSeq instrumentId).getD 1

/-- A call to the arbitrator. -/
inductive Call where
  | shouldProcess (instrumentId : UInt64) (seq : Nat)
  | checkGap (instrumentId : UInt64) (seq : Nat)
  | reset (instrumentId : UInt64)
  | resetAll
  deriving DecidableEq, Repr

/-- An arbitrator with the calls of `check_gap` for each instrument since the last reset. -/
structure Gaps where
  arbitrator : InstrumentArbitrator
  log : UInt64 → GapLog

namespace Gaps

/-- A new arbitrator, with nothing reported. -/
def new : Gaps := ⟨.new, fun _ => {}⟩

/-- A call, with its gap in the history of the instrument. -/
def step (t : Gaps) : Call → Gaps
  | .shouldProcess instrumentId seq =>
    { t with arbitrator := (t.arbitrator.shouldProcess instrumentId seq).2 }
  | .checkGap instrumentId seq =>
    let r := t.arbitrator.checkGap instrumentId seq
    { arbitrator := r.2
      log := Function.update t.log instrumentId
        ((t.log instrumentId).add seq r.1 (t.arbitrator.expected instrumentId)
          (r.2.expected instrumentId)) }
  | .reset instrumentId =>
    { arbitrator := t.arbitrator.reset instrumentId
      log := Function.update t.log instrumentId {} }
  | .resetAll => { arbitrator := t.arbitrator.resetAll, log := fun _ => {} }

/-- Many calls. -/
def run (t : Gaps) (calls : List Call) : Gaps := calls.foldl step t

/-- The logs of all instruments. -/
def Tiled (t : Gaps) : Prop := ∀ id, (t.log id).Tiled (t.arbitrator.expected id)

theorem tiled_new : Tiled new := fun _ => GapLog.tiled_new

theorem expected_shouldProcess (a : InstrumentArbitrator) (instrumentId id : UInt64) (seq : Nat) :
    (a.shouldProcess instrumentId seq).2.expected id = a.expected id := by
  unfold shouldProcess
  dsimp only
  split_ifs <;> rfl

/-- `check_gap` changes the number of its instrument. -/
theorem expected_checkGap (a : InstrumentArbitrator) (instrumentId : UInt64) (seq : Nat) :
    (a.checkGap instrumentId seq).1 = (advanceExpected (a.expected instrumentId) seq).1 ∧
      (a.checkGap instrumentId seq).2.expected instrumentId =
        GapLog.expectedAfter (a.expected instrumentId) seq ∧
      ∀ id, id ≠ instrumentId →
        (a.checkGap instrumentId seq).2.expected id = a.expected id := by
  unfold checkGap expected GapLog.expectedAfter
  dsimp only
  cases (advanceExpected ((a.expectedSeq instrumentId).getD 1) seq).2 with
  | none => exact ⟨rfl, rfl, fun _ _ => rfl⟩
  | some next =>
    refine ⟨rfl, ?_, fun id hid => ?_⟩
    · simp only [Function.update_self, Option.getD_some]
    · simp only [Function.update_of_ne hid]

theorem tiled_step {t : Gaps} (h : Tiled t) (call : Call) : Tiled (t.step call) := by
  intro id
  cases call with
  | shouldProcess instrumentId seq =>
    show (t.log id).Tiled ((t.arbitrator.shouldProcess instrumentId seq).2.expected id)
    rw [expected_shouldProcess]
    exact h id
  | checkGap instrumentId seq =>
    obtain ⟨hresult, hafter, hothers⟩ := expected_checkGap t.arbitrator instrumentId seq
    show ((Function.update t.log instrumentId _) id).Tiled
      ((t.arbitrator.checkGap instrumentId seq).2.expected id)
    by_cases hid : id = instrumentId
    · subst hid
      rw [Function.update_self, hresult, hafter]
      exact (h id).add seq
    · rw [Function.update_of_ne hid, hothers id hid]
      exact h id
  | reset instrumentId =>
    show ((Function.update t.log instrumentId {}) id).Tiled
      (((Function.update t.arbitrator.expectedSeq instrumentId none) id).getD 1)
    by_cases hid : id = instrumentId
    · subst hid
      rw [Function.update_self, Function.update_self]
      exact GapLog.tiled_new
    · rw [Function.update_of_ne hid, Function.update_of_ne hid]
      exact h id
  | resetAll => exact GapLog.tiled_new

theorem tiled_run {t : Gaps} (h : Tiled t) (calls : List Call) : Tiled (t.run calls) := by
  induction calls generalizing t with
  | nil => exact h
  | cons call calls ih => exact ih (tiled_step h call)

/-- For both arbitrators, and for every instrument, the gaps reported since the last reset and
the numbers of the calls that moved the expected number are a partition of the numbers before
the expected one.  A call with `u64::MAX` panics and reports nothing. -/
theorem gaps_partition :
    (∀ cacheSize a, FeedArbitrator.new cacheSize = some a → ∀ ops,
      let t := GapHistory.run { arbitrator := a } ops
      GapsPartition t.log t.arbitrator.expectedSequence) ∧
    ∀ calls id,
      let t := new.run calls
      GapsPartition (t.log id) (t.arbitrator.expected id) := by
  constructor
  · intro cacheSize a hnew ops
    exact GapHistory.gapsPartition_run hnew ops
  · intro calls id
    exact (tiled_run tiled_new calls id).gapsPartition

/-- Numbers 2 and 3 are missing, and then 5 and 6. -/
theorem gaps_partition_two :
    (∃ a, FeedArbitrator.new 9 = some a ∧
      let t := GapHistory.run { arbitrator := a }
        [.checkGap 8, .reset, .packet [1, 0, 0, 0, 0, 0, 0, 0], .checkGap 4, .checkGap 3]
      t.log.reported = [(2, 3)] ∧ GapsPartition t.log 5) ∧
    let t := new.run [.checkGap 1 1, .checkGap 2 9, .checkGap 1 4, .checkGap 1 7]
    (t.log 1).reported = [(2, 3), (5, 6)] ∧ GapsPartition (t.log 1) 8 := by
  constructor
  · have hnew : FeedArbitrator.new 9 = some ⟨0, .empty 9, 1⟩ := rfl
    exact ⟨_, hnew, by decide, gaps_partition.1 9 _ hnew
      [.checkGap 8, .reset, .packet [1, 0, 0, 0, 0, 0, 0, 0], .checkGap 4, .checkGap 3]⟩
  · exact ⟨by decide,
      gaps_partition.2 [.checkGap 1 1, .checkGap 2 9, .checkGap 1 4, .checkGap 1 7] 1⟩

end Gaps

end InstrumentArbitrator

end IronSbe.MarketData
