import IronSbe.MarketData.Instrument

/-!
# Updates for an active instrument

An active instrument applies the update that it expects and ignores older ones.  The first
one that leaves a gap ends this: it is queued, and so is everything behind it.

* `taken`, `fromGap`: the updates that are applied, and those that are queued.
* `runLog_recovering`, `runLog_active`: the updates of the queue, and all of them, for the
  machine of one instrument.
* `incrementals_from_active`: the same for the handler.
-/

namespace IronSbe.MarketData

open Lib.Transition

/-- The updates that are the expected one when they arrive, up to the first gap. -/
def taken : Nat → List BookUpdate → List BookUpdate
  | _, [] => []
  | expected, u :: us =>
    if u.seqNum = expected then u :: taken (expected + 1) us
    else if expected < u.seqNum then []
    else taken expected us

/-- The first update that is greater than the expected one, and all updates behind it. -/
def fromGap : Nat → List BookUpdate → List BookUpdate
  | _, [] => []
  | expected, u :: us =>
    if u.seqNum = expected then fromGap (expected + 1) us
    else if expected < u.seqNum then u :: us
    else fromGap expected us

/-- The numbers of the applied updates follow each other. -/
theorem seqNums_taken (expected : Nat) (us : List BookUpdate) :
    (taken expected us).map BookUpdate.seqNum =
      List.range' expected (taken expected us).length := by
  induction us generalizing expected with
  | nil => rfl
  | cons u us ih =>
    rw [taken]
    split_ifs with heq
    · rw [List.map_cons, List.length_cons, List.range'_succ, ih, heq]
    · rfl
    · exact ih expected

/-- A gap of an instrument is reported. -/
def MarketDataEvent.isGapOf (id : UInt64) : MarketDataEvent → Bool
  | .gapDetected instrumentId _ _ => instrumentId = id
  | _ => false

/-- The report of the gap in front of the queued updates. -/
def gapReport (id : UInt64) (expected : Nat) : List BookUpdate → List MarketDataEvent
  | [] => []
  | u :: _ => [.gapDetected id expected u.seqNum]

theorem filter_isGapOf_updateEvents (id : UInt64) (book : OrderBook) (u : BookUpdate) :
    (book.updateEvents id u).filter (MarketDataEvent.isGapOf id) = [] := by
  unfold OrderBook.updateEvents
  split_ifs <;> rfl

namespace Slot

/-- An active instrument that has seen a gap, or has not. -/
def afterIncrementals (book : OrderBook) (expected : Nat) : List BookUpdate → Slot
  | [] => ⟨some book, some .active, some expected, none⟩
  | queue => ⟨some book, some .recovering, some expected, some queue⟩

/-- While an instrument recovers, every update is queued. -/
theorem runLog_recovering (book : Option OrderBook) (expected : Option Nat)
    (queue us : List BookUpdate) :
    runLog exec ⟨book, some .recovering, expected, some queue⟩ (us.map .onIncremental) =
      some (⟨book, some .recovering, expected, some (queue ++ us)⟩, []) := by
  induction us generalizing queue with
  | nil => rw [List.append_nil]; rfl
  | cons u us ih =>
    have hexec : exec ⟨book, some .recovering, expected, some queue⟩ (.onIncremental u) =
        some (⟨book, some .recovering, expected, some (queue ++ [u])⟩, []) := rfl
    rw [List.map_cons, runLog_cons hexec, ih, Option.map_some, List.append_assoc]
    rfl

section Active

variable {u : BookUpdate} {expected : Nat} (book : OrderBook)

/-- An old update for an active instrument. -/
theorem exec_old (hold : u.seqNum < expected) :
    exec ⟨some book, some .active, some expected, none⟩ (.onIncremental u) =
      some (⟨some book, some .active, some expected, none⟩, []) := by
  simp only [exec, onIncremental, Option.getD_some, if_pos hold]

/-- The update that an active instrument expects. -/
theorem exec_next (hu : u.seqNum + 1 < 2 ^ 64) :
    exec ⟨some book, some .active, some u.seqNum, none⟩ (.onIncremental u) =
      some (⟨some (book.applyUpdate u), some .active, some (u.seqNum + 1), none⟩,
        book.updateEvents u.instrumentId u) := by
  simp only [exec, onIncremental, Option.getD_some, Nat.lt_irrefl, if_false, applyUpdate,
    if_pos hu]

/-- An update behind a gap. -/
theorem exec_gap (hgap : expected < u.seqNum) :
    exec ⟨some book, some .active, some expected, none⟩ (.onIncremental u) =
      some (⟨some book, some .recovering, some expected, some [u]⟩,
        [.gapDetected u.instrumentId expected u.seqNum,
          .stateChanged u.instrumentId .recovering]) := by
  simp only [exec, onIncremental, Option.getD_some, if_neg (Nat.lt_asymm hgap), if_pos hgap]
  rfl

end Active

/-- The updates for an active instrument.  The induction is on them, with the book and the
expected number that the earlier ones have left. -/
theorem runLog_active {id : UInt64} {us : List BookUpdate} (hid : ∀ u ∈ us, u.instrumentId = id)
    (hrange : ∀ u ∈ us, u.seqNum + 1 < 2 ^ 64) (book : OrderBook) (expected : Nat) :
    ∃ events,
      runLog exec ⟨some book, some .active, some expected, none⟩ (us.map .onIncremental) =
        some (afterIncrementals ((taken expected us).foldl OrderBook.applyUpdate book)
          (expected + (taken expected us).length) (fromGap expected us), events) ∧
      events.filter (MarketDataEvent.isGapOf id) =
        gapReport id (expected + (taken expected us).length) (fromGap expected us) := by
  induction us generalizing book expected with
  | nil => exact ⟨[], rfl, rfl⟩
  | cons u us ih =>
    obtain ⟨rfl, hid'⟩ := List.forall_mem_cons.mp hid
    obtain ⟨hu, hrange'⟩ := List.forall_mem_cons.mp hrange
    rw [List.map_cons, taken, fromGap]
    rcases Nat.lt_trichotomy u.seqNum expected with hold | heq | hgap
    · have hne : u.seqNum ≠ expected := by omega
      have hle : ¬ expected < u.seqNum := by omega
      simp only [if_neg hne, if_neg hle]
      rw [runLog_cons (exec_old book hold)]
      obtain ⟨events, hrun, hreport⟩ := ih hid' hrange' book expected
      exact ⟨events, by rw [hrun]; rfl, hreport⟩
    · subst heq
      rw [if_pos rfl, if_pos rfl, runLog_cons (exec_next book hu)]
      obtain ⟨events, hrun, hreport⟩ := ih hid' hrange' (book.applyUpdate u) (u.seqNum + 1)
      have hcount : u.seqNum + (u :: taken (u.seqNum + 1) us).length =
          u.seqNum + 1 + (taken (u.seqNum + 1) us).length := by
        rw [List.length_cons]
        omega
      rw [hcount]
      refine ⟨book.updateEvents u.instrumentId u ++ events, by rw [hrun]; rfl, ?_⟩
      rw [List.filter_append, filter_isGapOf_updateEvents, List.nil_append]
      exact hreport
    · have hne : u.seqNum ≠ expected := by omega
      simp only [if_neg hne, if_pos hgap]
      rw [runLog_cons (exec_gap book hgap), runLog_recovering]
      refine ⟨_, rfl, ?_⟩
      simp [MarketDataEvent.isGapOf, gapReport]

end Slot

namespace MarketDataHandler

/-- Updates for an active instrument, in any order.  Those that are the expected one when they
arrive are applied.  Without a gap the instrument stays active behind them; otherwise it
recovers, the gap is reported once, and everything from the gap on is queued. -/
theorem incrementals_from_active {ops : List Operation} {h : MarketDataHandler}
    (hrun : new.run ops = some h) {id : UInt64} {expected : Nat}
    (hactive : h.states id = some .active) (hexp : h.expectedSeq id = some expected)
    (us : List BookUpdate) (hid : ∀ u ∈ us, u.instrumentId = id)
    (hrange : ∀ u ∈ us, u.seqNum < 2 ^ 64 - 1) :
    ∃ book h' events, h.books id = some book ∧ h.run (us.map .onIncremental) = some h' ∧
      h'.sent = h.sent ++ events ∧
      (taken expected us).map BookUpdate.seqNum =
        List.range' expected (taken expected us).length ∧
      h'.books id = some ((taken expected us).foldl OrderBook.applyUpdate book) ∧
      (fromGap expected us = [] → h'.states id = some .active ∧
        h'.expectedSeq id = some (expected + (taken expected us).length)) ∧
      ∀ u later, fromGap expected us = u :: later → h'.states id = some .recovering ∧
        events.filter (MarketDataEvent.isGapOf id) =
          [.gapDetected id (expected + (taken expected us).length) u.seqNum] ∧
        h'.pendingIncrementals id = some (u :: later) := by
  obtain ⟨hpending, book, hbook, -⟩ := (linked_of_run hrun id).active hactive
  have hslot : h.slot id = ⟨some book, some .active, some expected, none⟩ := by
    rw [slot_book] at hbook
    rw [slot_pending] at hpending
    rw [slot, hbook, hactive, hexp, hpending]
  obtain ⟨events, hlog, hreport⟩ := Slot.runLog_active hid (fun u hu => by
    have hlt := hrange u hu
    omega) book expected
  have hkey : ∀ op ∈ us.map Operation.onIncremental, op.instrument = id := by
    intro op hop
    obtain ⟨u, hu, rfl⟩ := List.mem_map.mp hop
    exact hid u hu
  have hmap := family_exec.map_run (keyed_of_run hrun) hkey
  rw [hslot, hlog, Option.map_some, ← run_eq] at hmap
  obtain ⟨h', hrun', hseen⟩ := Option.map_eq_some_iff.mp hmap
  obtain ⟨hslot', hsent⟩ := Prod.mk.inj hseen
  refine ⟨book, h', events, hbook, hrun', hsent, seqNums_taken expected us, ?_, ?_, ?_⟩
  · show (h'.slot id).book = _
    rw [hslot']
    cases fromGap expected us <;> rfl
  · intro hnone
    rw [hnone] at hslot'
    exact ⟨congrArg Slot.state hslot', congrArg Slot.expectedSeq hslot'⟩
  · intro u later hgap
    rw [hgap] at hslot' hreport
    exact ⟨congrArg Slot.state hslot', hreport, congrArg Slot.pending hslot'⟩

/-- Snapshot 3, then updates 4, 4, 3, 5, 8, 6 and 1. -/
theorem incrementals_from_active_gap :
    let u (n : Nat) : BookUpdate := ⟨1, n, .bid, 100, n, 1⟩
    ∃ h h', new.run [.subscribe 1, .onSnapshot ⟨1, 3, [], []⟩] = some h ∧
      h.run ([u 4, u 4, u 3, u 5, u 8, u 6, u 1].map .onIncremental) = some h' ∧
      h'.states 1 = some .recovering ∧ h'.pendingIncrementals 1 = some [u 8, u 6, u 1] := by
  intro u
  have hrun : ∃ h, new.run [.subscribe 1, .onSnapshot ⟨1, 3, [], []⟩] = some h ∧
      h.states 1 = some .active ∧ h.expectedSeq 1 = some 4 := ⟨_, rfl, rfl, rfl⟩
  obtain ⟨h, hrun, hactive, hexp⟩ := hrun
  obtain ⟨book, h', events, -, hrun', -, -, -, -, hgap⟩ := incrementals_from_active hrun hactive
    hexp [u 4, u 4, u 3, u 5, u 8, u 6, u 1] (by simp [u]) (by simp [u])
  obtain ⟨hstate, -, hpending⟩ := hgap (u 8) [u 6, u 1] rfl
  exact ⟨h, h', hrun, hrun', hstate, hpending⟩

end MarketDataHandler

end IronSbe.MarketData
