import IronSbe.Lib.Family
import IronSbe.MarketData.Depth
import IronSbe.MarketData.Isolation

/-!
# The life of one instrument

To one instrument the handler is a small machine: four entries, and five operations that
change them and send events.  `Slot.exec` says what the operations do, without maps and
without loops.  `family_exec` is that the handler is nothing but one such machine for each
instrument; the loop of `on_snapshot` over the queue is where there is something to show
(`map_replay`).

* `isolated`: an instrument depends on its own operations, and operations about different
  instruments commute.
* `Slot.Linked`: how the four entries belong together, whatever the sequence numbers are
  (`linked_of_run`).
* `exec_isSome_iff`: which operations panic.
* `always_iff`: what holds at all times, call by call.
-/

namespace IronSbe.MarketData

open Lib.Transition Option List

namespace OrderBook

@[simp] theorem lastUpdateSeq_applyUpdate (book : OrderBook) (u : BookUpdate) :
    (book.applyUpdate u).lastUpdateSeq = u.seqNum := by
  unfold applyUpdate
  cases u.side <;> rfl

/-- The best prices of two books are not the same. -/
def TopDiffers (book book' : OrderBook) : Prop :=
  book.bestBid ≠ book'.bestBid ∨ book.bestAsk ≠ book'.bestAsk

instance (book book' : OrderBook) : Decidable (TopDiffers book book') :=
  inferInstanceAs (Decidable (_ ∨ _))

/-- The events of one update. -/
def updateEvents (id : UInt64) (book : OrderBook) (u : BookUpdate) : List MarketDataEvent :=
  .bookUpdated id ::
    if TopDiffers book (book.applyUpdate u) then [.topOfBookChanged id] else []

/-- The events of several updates, one after the other. -/
def updatesEvents (id : UInt64) : OrderBook → List BookUpdate → List MarketDataEvent
  | _, [] => []
  | book, u :: us => book.updateEvents id u ++ updatesEvents id (book.applyUpdate u) us

end OrderBook

/-- The updates that have the number of a snapshot or a greater one. -/
def notOlder (snapshotSeq : Nat) (us : List BookUpdate) : List BookUpdate :=
  us.filter fun u => snapshotSeq ≤ u.seqNum

theorem notOlder_cons (snapshotSeq : Nat) (u : BookUpdate) (us : List BookUpdate) :
    notOlder snapshotSeq (u :: us) =
      if snapshotSeq ≤ u.seqNum then u :: notOlder snapshotSeq us else notOlder snapshotSeq us := by
  rw [notOlder, filter_cons]
  simp only [decide_eq_true_iff]
  rfl

/-! ## The machine -/

namespace Slot

/-- An instrument that the handler knows nothing about. -/
def empty : Slot := ⟨none, none, none, none⟩

/-- The updates that wait for a snapshot. -/
def queued (s : Slot) : List BookUpdate := s.pending.getD []

/-- Put an update in the queue of the instrument. -/
def enqueue (s : Slot) (u : BookUpdate) : Slot := { s with pending := some (s.queued ++ [u]) }

/-- The queued updates that a snapshot does not make old. -/
def replayed (s : Slot) (snapshotSeq : Nat) : List BookUpdate := notOlder snapshotSeq s.queued

/-- The expected update is applied. -/
def applyUpdate (s : Slot) (u : BookUpdate) : Option (Slot × List MarketDataEvent) :=
  match s.book with
  | none => some (s, [])
  | some book =>
    if u.seqNum + 1 < 2 ^ 64 then
      some ({ s with book := some (book.applyUpdate u), expectedSeq := some (u.seqNum + 1) },
        book.updateEvents u.instrumentId u)
    else none

/-- What `on_incremental` does to the instrument, with its events. -/
def onIncremental (s : Slot) (u : BookUpdate) : Option (Slot × List MarketDataEvent) :=
  match s.state.getD .initializing with
  | .initializing | .recovering => some (s.enqueue u, [])
  | .stale => some ({ s.enqueue u with state := some .recovering }, [])
  | .active =>
    let expected := s.expectedSeq.getD 0
    if u.seqNum < expected then some (s, [])
    else if expected < u.seqNum then
      some ({ s.enqueue u with state := some .recovering },
        [.gapDetected u.instrumentId expected u.seqNum, .stateChanged u.instrumentId .recovering])
    else s.applyUpdate u

/-- What `on_snapshot` does to the instrument, with its events. -/
def onSnapshot (s : Slot) (snapshot : BookSnapshot) : Option (Slot × List MarketDataEvent) :=
  match s.book with
  | none => some (s, [])
  | some book =>
    if snapshot.seqNum + 1 < 2 ^ 64 ∧ ∀ u ∈ s.replayed snapshot.seqNum, u.seqNum + 1 < 2 ^ 64 then
      some (⟨some ((s.replayed snapshot.seqNum).foldl OrderBook.applyUpdate
            (book.applySnapshot snapshot)), some .active,
          some (MarketDataHandler.seqAfter (snapshot.seqNum + 1) (s.replayed snapshot.seqNum)),
          none⟩,
        (book.applySnapshot snapshot).updatesEvents snapshot.instrumentId
            (s.replayed snapshot.seqNum) ++
          [.stateChanged snapshot.instrumentId .active, .bookUpdated snapshot.instrumentId])
    else none

/-- What an operation does to the entries of its instrument, and the events that it sends. -/
def exec (s : Slot) : Operation → Option (Slot × List MarketDataEvent)
  | .subscribe id => some (⟨some (.new id), some .initializing, some 0, s.pending⟩, [])
  | .unsubscribe _ => some (empty, [])
  | .onIncremental u => s.onIncremental u
  | .onSnapshot snapshot => s.onSnapshot snapshot
  | .markStale id =>
    match s.state with
    | none => some (s, [])
    | some _ => some ({ s with state := some .stale }, [.stateChanged id .stale])

end Slot

/-! ## The handler is a family of these machines -/

namespace MarketDataHandler

variable {h h' : MarketDataHandler}

section Entries

variable (h : MarketDataHandler) (id : UInt64) (u : BookUpdate) (state : InstrumentState)
  (event : MarketDataEvent)

@[simp] theorem slot_book : (h.slot id).book = h.books id := rfl

@[simp] theorem slot_state : (h.slot id).state = h.states id := rfl

@[simp] theorem slot_expectedSeq : (h.slot id).expectedSeq = h.expectedSeq id := rfl

@[simp] theorem slot_pending : (h.slot id).pending = h.pendingIncrementals id := rfl

@[simp] theorem slot_send : (h.send event).slot id = h.slot id := rfl

@[simp] theorem sent_send : (h.send event).sent = h.sent ++ [event] := rfl

@[simp] theorem sent_setState : (h.setState id state).sent = h.sent := rfl

@[simp] theorem sent_queue : (h.queue u).sent = h.sent := rfl

end Entries

theorem slot_queue (h : MarketDataHandler) (u : BookUpdate) :
    (h.queue u).slot u.instrumentId =
      { h.slot u.instrumentId with
        pending := some ((h.slot u.instrumentId).pending.getD [] ++ [u]) } := by
  simp only [slot, queue, Function.update_self]

theorem slot_setState (h : MarketDataHandler) (id : UInt64) (state : InstrumentState) :
    (h.setState id state).slot id = { h.slot id with state := some state } := by
  simp only [slot, setState, Function.update_self]

/-- The expected number stays one ahead of the book while updates are applied. -/
theorem seqAfter_eq (book : OrderBook) (us : List BookUpdate) :
    seqAfter (book.lastUpdateSeq + 1) us =
      (us.foldl OrderBook.applyUpdate book).lastUpdateSeq + 1 := by
  induction us generalizing book with
  | nil => rfl
  | cons u rest ih =>
    have hrest := ih (book.applyUpdate u)
    rw [OrderBook.lastUpdateSeq_applyUpdate] at hrest
    exact hrest

/-- What is seen of a handler after a call. -/
def seen (id : UInt64) (h : MarketDataHandler) : Slot × List MarketDataEvent := (h.slot id, h.sent)

theorem map_applyUpdate (h : MarketDataHandler) (u : BookUpdate) :
    (h.applyUpdate u).map (seen u.instrumentId) =
      ((h.slot u.instrumentId).applyUpdate u).map fun r => (r.1, h.sent ++ r.2) := by
  unfold applyUpdate Slot.applyUpdate
  rw [slot_book]
  cases h.books u.instrumentId with
  | none => simp only [map_some, seen, append_nil]
  | some book =>
    dsimp only
    by_cases hseq : u.seqNum + 1 < 2 ^ 64
    · rw [nextSeq_eq_some hseq, if_pos hseq, map_some, map_some, map_some]
      by_cases htop : OrderBook.TopDiffers book (book.applyUpdate u)
      · have hprices : book.bids.top.map PriceLevel.price ≠
              (book.applyUpdate u).bids.top.map PriceLevel.price ∨
            book.asks.top.map PriceLevel.price ≠
              (book.applyUpdate u).asks.top.map PriceLevel.price := htop
        rw [if_pos hprices, OrderBook.updateEvents, if_pos htop]
        simp only [seen, slot, send, Function.update_self, append_assoc]
        rfl
      · have hprices : ¬ (book.bids.top.map PriceLevel.price ≠
              (book.applyUpdate u).bids.top.map PriceLevel.price ∨
            book.asks.top.map PriceLevel.price ≠
              (book.applyUpdate u).asks.top.map PriceLevel.price) := htop
        rw [if_neg hprices, OrderBook.updateEvents, if_neg htop]
        simp only [seen, slot, send, Function.update_self]
    · rw [nextSeq, if_neg hseq, if_neg hseq]
      rfl

variable {book : OrderBook} {snapshot : BookSnapshot} {ops : List Operation}

/-- The loop of `on_snapshot` applies the updates that are not older than the snapshot. -/
theorem map_replay {id : UInt64} (snapshotSeq : Nat) {us : List BookUpdate}
    (hid : ∀ u ∈ us, u.instrumentId = id) {state : Option InstrumentState} {expected : Nat}
    {pending : Option (List BookUpdate)}
    (hslot : h.slot id = ⟨some book, state, some expected, pending⟩) :
    (replay snapshotSeq h us).map (seen id) =
      if ∀ u ∈ notOlder snapshotSeq us, u.seqNum + 1 < 2 ^ 64 then
        some (⟨some ((notOlder snapshotSeq us).foldl OrderBook.applyUpdate book), state,
          some (seqAfter expected (notOlder snapshotSeq us)), pending⟩,
          h.sent ++ book.updatesEvents id (notOlder snapshotSeq us))
      else none := by
  induction us generalizing h book expected with
  | nil => simp [replay, seen, hslot, notOlder, seqAfter, OrderBook.updatesEvents]
  | cons u rest ih =>
    obtain ⟨rfl, hrest⟩ := forall_mem_cons.mp hid
    rw [replay, notOlder_cons]
    by_cases hnew : snapshotSeq ≤ u.seqNum
    · rw [if_pos hnew, if_pos hnew]
      simp only [forall_mem_cons]
      have happly := map_applyUpdate h u
      rw [hslot] at happly
      by_cases hseq : u.seqNum + 1 < 2 ^ 64
      · simp only [Slot.applyUpdate, if_pos hseq, map_some] at happly
        obtain ⟨mid, hmid, hseen⟩ := map_eq_some_iff.mp happly
        obtain ⟨hmidSlot, hsent⟩ := Prod.mk.inj hseen
        rw [hmid, bind_some, ih hrest hmidSlot]
        simp only [hseq, true_and, hsent, append_assoc]
        rfl
      · simp only [Slot.applyUpdate, if_neg hseq, map_none] at happly
        rw [map_eq_none_iff.mp happly, if_neg fun hall => hseq hall.1]
        rfl
    · rw [if_neg hnew, if_neg hnew]
      exact ih hrest hslot

theorem map_onIncremental (h : MarketDataHandler) (u : BookUpdate) :
    (h.onIncremental u).map (seen u.instrumentId) =
      ((h.slot u.instrumentId).onIncremental u).map fun r => (r.1, h.sent ++ r.2) := by
  unfold onIncremental Slot.onIncremental
  rw [slot_state, slot_expectedSeq]
  cases (h.states u.instrumentId).getD .initializing with
  | initializing | recovering =>
    simp only [map_some, seen, slot_queue, sent_queue, append_nil]
    rfl
  | stale =>
    simp only [map_some, seen, slot_queue, slot_setState, sent_queue, sent_setState,
      append_nil]
    rfl
  | active =>
    dsimp only
    split_ifs with hold hgap
    · simp only [map_some, seen, append_nil]
    · simp only [map_some, seen, slot_queue, slot_send, slot_setState, sent_queue,
        sent_send, sent_setState, append_assoc]
      rfl
    · exact map_applyUpdate h u

/-- `on_snapshot` in front of its loop: the snapshot is in the book, and the queue is taken
out. -/
def loaded (h : MarketDataHandler) (snapshot : BookSnapshot) : MarketDataHandler :=
  { h with
    books := Function.update h.books snapshot.instrumentId
      ((h.books snapshot.instrumentId).map (·.applySnapshot snapshot))
    expectedSeq := Function.update h.expectedSeq snapshot.instrumentId (some (snapshot.seqNum + 1))
    pendingIncrementals := Function.update h.pendingIncrementals snapshot.instrumentId none }

theorem slot_loaded (h : MarketDataHandler) (hbook : h.books snapshot.instrumentId = some book) :
    (h.loaded snapshot).slot snapshot.instrumentId =
      ⟨some (book.applySnapshot snapshot), h.states snapshot.instrumentId,
        some (snapshot.seqNum + 1), none⟩ := by
  simp only [slot, loaded, Function.update_self, hbook, map_some]

/-- A snapshot for a subscribed instrument. -/
theorem onSnapshot_eq_replay (hbook : h.books snapshot.instrumentId = some book)
    (hseq : snapshot.seqNum + 1 < 2 ^ 64) :
    h.onSnapshot snapshot =
      (replay snapshot.seqNum (h.loaded snapshot) (h.slot snapshot.instrumentId).queued).map
        fun h => ((h.setState snapshot.instrumentId .active).send
          (.stateChanged snapshot.instrumentId .active)).send
            (.bookUpdated snapshot.instrumentId) := by
  unfold onSnapshot
  dsimp only
  rw [hbook, loaded, hbook]
  dsimp only
  rw [nextSeq_eq_some hseq, bind_some]
  rfl

theorem map_onSnapshot (hkeyed : Keyed h) (snapshot : BookSnapshot) :
    (h.onSnapshot snapshot).map (seen snapshot.instrumentId) =
      ((h.slot snapshot.instrumentId).onSnapshot snapshot).map fun r => (r.1, h.sent ++ r.2) := by
  unfold Slot.onSnapshot
  rw [slot_book]
  cases hbook : h.books snapshot.instrumentId with
  | none => simp only [onSnapshot, hbook, map_some, seen, append_nil]
  | some book =>
    dsimp only
    by_cases hseq : snapshot.seqNum + 1 < 2 ^ 64
    · have hid : ∀ u ∈ (h.slot snapshot.instrumentId).queued,
          u.instrumentId = snapshot.instrumentId := hkeyed.getD snapshot.instrumentId
      have hreplay := map_replay snapshot.seqNum hid (slot_loaded h hbook)
      rw [onSnapshot_eq_replay hbook hseq]
      by_cases hus : ∀ u ∈ (h.slot snapshot.instrumentId).replayed snapshot.seqNum,
          u.seqNum + 1 < 2 ^ 64
      · rw [← Slot.replayed, if_pos hus] at hreplay
        obtain ⟨mid, hmid, hseen⟩ := map_eq_some_iff.mp hreplay
        obtain ⟨hslot, hsent⟩ := Prod.mk.inj hseen
        rw [if_pos ⟨hseq, hus⟩, hmid]
        simp only [map_some, seen, slot_send, slot_setState, sent_send, sent_setState,
          hslot, hsent, append_assoc]
        rfl
      · rw [← Slot.replayed, if_neg hus] at hreplay
        rw [if_neg fun hall => hus hall.2, map_eq_none_iff.mp hreplay]
        rfl
    · rw [if_neg fun hall => hseq hall.1]
      simp only [onSnapshot, hbook, nextSeq, if_neg hseq]
      rfl

/-- The handler is one machine for each instrument. -/
theorem family_exec : Family Keyed exec Operation.instrument slot sent Slot.exec where
  inv := fun hkeyed hop => keyed_exec hkeyed hop
  frame := fun hkeyed hop => writesOnly_exec hkeyed hop
  refine := by
    intro h op hkeyed
    cases op with
    | subscribe id =>
      simp only [exec, Slot.exec, Operation.instrument, map_some, append_nil, slot,
        subscribe, Function.update_self]
    | unsubscribe id =>
      simp only [exec, Slot.exec, Operation.instrument, map_some, append_nil, slot,
        unsubscribe, Function.update_self, Slot.empty]
    | onIncremental u => exact map_onIncremental h u
    | onSnapshot snapshot => exact map_onSnapshot hkeyed snapshot
    | markStale id =>
      simp only [exec, Slot.exec, Operation.instrument, markStale, slot_state, map_some]
      cases h.states id with
      | none => simp only [map_some, append_nil]
      | some state => simp only [map_some, slot_send, slot_setState, sent_send, sent_setState]

/-- One operation, seen from its instrument. -/
theorem slot_exec_of_exec {op : Operation} (hkeyed : Keyed h) (hop : h.exec op = some h') :
    ∃ events, (h.slot op.instrument).exec op = some (h'.slot op.instrument, events) ∧
      h'.sent = h.sent ++ events :=
  family_exec.step_eq_some hkeyed hop

/-- What all machines keep holds of every instrument after every run. -/
theorem slot_invariant (P : UInt64 → Slot → Prop) (Allowed : Operation → Prop)
    (hempty : ∀ id, P id .empty)
    (hexec : ∀ op s s' events, P op.instrument s → Allowed op → s.exec op = some (s', events) →
      P op.instrument s') (hallowed : ∀ op ∈ ops, Allowed op) (hrun : new.run ops = some h) :
    ∀ id, P id (h.slot id) := by
  rw [run_eq] at hrun
  exact (family_exec.invariant P Allowed hexec hallowed keyed_new hempty hrun).2

theorem keyed_of_run (hrun : new.run ops = some h) : Keyed h := by
  rw [run_eq] at hrun
  exact (family_exec.invariant (fun _ _ => True) (fun _ => True) (fun _ _ _ _ _ _ _ => trivial)
    (fun _ _ => trivial) keyed_new (fun _ => trivial) hrun).1

/-! ## Isolation -/

/-- After any operations, an instrument has the book, the state, the expected number and the
queue that its own operations alone, in their order, give it.  Two neighbouring operations
about different instruments may change places: every instrument has the same entries. -/
theorem isolated :
    (∀ ops h i, new.run ops = some h →
      ∃ g, new.run (ops.filter fun op => op.instrument = i) = some g ∧ g.slot i = h.slot i) ∧
    ∀ before op₁ op₂ after, op₁.instrument ≠ op₂.instrument →
      (new.run (before ++ op₁ :: op₂ :: after)).map slot =
        (new.run (before ++ op₂ :: op₁ :: after)).map slot := by
  constructor
  · intro ops h i hrun
    rw [run_eq] at hrun
    rw [run_eq]
    exact family_exec.toLocal.run_filter keyed_new keyed_new rfl hrun
  · intro before op₁ op₂ after hne
    rw [run_eq, run_eq]
    exact family_exec.toLocal.map_view_run_swap keyed_new hne

/-- Instrument 1 is in a gap while instrument 2 gets its snapshot. -/
theorem isolated_two :
    let gap : Operation := .onIncremental ⟨1, 7, .bid, 100, 3, 1⟩
    let snapshot : Operation := .onSnapshot ⟨2, 4, [], []⟩
    (∃ g, new.run [.subscribe 1, .onSnapshot ⟨1, 3, [], []⟩, gap] = some g ∧
      g.states 1 = some .recovering) ∧
    (new.run [.subscribe 2, gap, snapshot]).map slot =
      (new.run [.subscribe 2, snapshot, gap]).map slot := by
  intro gap snapshot
  constructor
  · obtain ⟨g, hg, hslot⟩ := isolated.1 [.subscribe 1, .subscribe 2, .onSnapshot ⟨1, 3, [], []⟩,
      snapshot, gap] _ 1 rfl
    exact ⟨g, hg, (slot_eq_iff.mp hslot).2.1.trans rfl⟩
  · exact isolated.2 [.subscribe 2] gap snapshot [] (by decide)

end MarketDataHandler

/-! ## What always holds -/

namespace Slot

/-- The entries of an instrument are there together, and an active instrument has no queue and
expects the number behind the last one in its book.  No instrument expects a greater number
than that. -/
structure Linked (s : Slot) : Prop where
  state_isSome : s.state.isSome = s.book.isSome
  expectedSeq_isSome : s.expectedSeq.isSome = s.book.isSome
  expected_le : ∀ book expected, s.book = some book → s.expectedSeq = some expected →
    expected ≤ book.lastUpdateSeq + 1 ∧ expected < 2 ^ 64
  active : s.state = some .active →
    s.pending = none ∧ ∃ book, s.book = some book ∧ s.expectedSeq = some (book.lastUpdateSeq + 1)

/-- All that an operation can do to an instrument. -/
inductive Step (s : Slot) : Operation → Slot → List MarketDataEvent → Prop
  | subscribe (id : UInt64) :
      Step s (.subscribe id) ⟨some (.new id), some .initializing, some 0, s.pending⟩ []
  | unsubscribe (id : UInt64) : Step s (.unsubscribe id) empty []
  | queued (u : BookUpdate) (hactive : s.state ≠ some .active) (hstale : s.state ≠ some .stale) :
      Step s (.onIncremental u) (s.enqueue u) []
  | revived (u : BookUpdate) (hstale : s.state = some .stale) :
      Step s (.onIncremental u) { s.enqueue u with state := some .recovering } []
  | old (u : BookUpdate) (expected : Nat) (hactive : s.state = some .active)
      (hexp : s.expectedSeq = some expected) (hold : u.seqNum < expected) :
      Step s (.onIncremental u) s []
  | gap (u : BookUpdate) (expected : Nat) (hactive : s.state = some .active)
      (hexp : s.expectedSeq = some expected) (hgap : expected < u.seqNum) :
      Step s (.onIncremental u) { s.enqueue u with state := some .recovering }
        [.gapDetected u.instrumentId expected u.seqNum, .stateChanged u.instrumentId .recovering]
  | applied (u : BookUpdate) (book : OrderBook) (hactive : s.state = some .active)
      (hexp : s.expectedSeq = some u.seqNum) (hbook : s.book = some book)
      (hseq : u.seqNum + 1 < 2 ^ 64) :
      Step s (.onIncremental u)
        { s with book := some (book.applyUpdate u), expectedSeq := some (u.seqNum + 1) }
        (book.updateEvents u.instrumentId u)
  | unknown (snapshot : BookSnapshot) (hbook : s.book = none) : Step s (.onSnapshot snapshot) s []
  | recovered (snapshot : BookSnapshot) (book : OrderBook) (hbook : s.book = some book)
      (hseq : snapshot.seqNum + 1 < 2 ^ 64)
      (hus : ∀ u ∈ s.replayed snapshot.seqNum, u.seqNum + 1 < 2 ^ 64) :
      Step s (.onSnapshot snapshot)
        ⟨some ((s.replayed snapshot.seqNum).foldl OrderBook.applyUpdate
            (book.applySnapshot snapshot)), some .active,
          some (MarketDataHandler.seqAfter (snapshot.seqNum + 1) (s.replayed snapshot.seqNum)),
          none⟩
        ((book.applySnapshot snapshot).updatesEvents snapshot.instrumentId
            (s.replayed snapshot.seqNum) ++
          [.stateChanged snapshot.instrumentId .active, .bookUpdated snapshot.instrumentId])
  | unmarked (id : UInt64) (hstate : s.state = none) : Step s (.markStale id) s []
  | marked (id : UInt64) (state : InstrumentState) (hstate : s.state = some state) :
      Step s (.markStale id) { s with state := some .stale } [.stateChanged id .stale]

/-- The operation does not panic.  The only arithmetic is the next number behind one that is
applied. -/
def Returns (s : Slot) : Operation → Prop
  | .onIncremental u =>
    s.state = some .active → s.expectedSeq = some u.seqNum → u.seqNum + 1 < 2 ^ 64
  | .onSnapshot snapshot =>
    s.book.isSome = true →
      snapshot.seqNum + 1 < 2 ^ 64 ∧ ∀ u ∈ s.replayed snapshot.seqNum, u.seqNum + 1 < 2 ^ 64
  | _ => True

variable {s s' : Slot} {op : Operation} {events : List MarketDataEvent}

section

variable (hs : s.Linked)
include hs

theorem onIncremental_isSome_iff (u : BookUpdate) :
    (s.onIncremental u).isSome = true ↔ s.Returns (.onIncremental u) := by
  unfold onIncremental Returns
  cases hstate : s.state with
  | none => exact iff_of_true rfl (by rintro ⟨⟩)
  | some state =>
    cases state with
    | initializing | recovering | stale => exact iff_of_true rfl (by rintro ⟨⟩)
    | active =>
      obtain ⟨-, book, hbook, hexp⟩ := hs.active hstate
      simp only [getD_some, hexp, some.injEq, forall_const]
      split_ifs with hold hgap
      · exact iff_of_true rfl (by omega)
      · exact iff_of_true rfl (by omega)
      · have hseq : book.lastUpdateSeq + 1 = u.seqNum := by omega
        simp only [applyUpdate, hbook, hseq, forall_const]
        split_ifs with hmax
        · exact iff_of_true rfl hmax
        · exact iff_of_false (by decide) hmax

theorem exec_isSome_iff (op : Operation) :
    (s.exec op).isSome = true ↔ s.Returns op := by
  cases op with
  | subscribe | unsubscribe => exact iff_of_true rfl trivial
  | onIncremental u => exact onIncremental_isSome_iff hs u
  | onSnapshot snapshot =>
    simp only [exec, onSnapshot, Returns]
    cases hbook : s.book with
    | none => exact iff_of_true rfl (by rintro ⟨⟩)
    | some book =>
      simp only [isSome_some, forall_const]
      split_ifs with hrange
      · exact iff_of_true rfl hrange
      · exact iff_of_false (by decide) hrange
  | markStale id =>
    refine iff_of_true ?_ trivial
    unfold exec
    cases s.state with
    | none | some state => rfl

theorem step_of_onIncremental {u : BookUpdate} (hop : s.onIncremental u = some (s', events)) :
    s.Step (.onIncremental u) s' events := by
  unfold onIncremental at hop
  cases hstate : s.state with
  | none =>
    rw [hstate] at hop
    cases hop
    exact .queued u (by rw [hstate]; decide) (by rw [hstate]; decide)
  | some state =>
    rw [hstate, getD_some] at hop
    cases state with
    | initializing | recovering =>
      cases hop
      exact .queued u (by rw [hstate]; decide) (by rw [hstate]; decide)
    | stale =>
      cases hop
      exact .revived u hstate
    | active =>
      obtain ⟨-, book, hbook, hexp⟩ := hs.active hstate
      simp only [hexp, getD_some] at hop
      split_ifs at hop with hold hgap
      · cases hop
        exact .old u _ hstate hexp hold
      · cases hop
        exact .gap u _ hstate hexp hgap
      · have hseq : book.lastUpdateSeq + 1 = u.seqNum := by omega
        simp only [applyUpdate, hbook] at hop
        split_ifs at hop with hmax
        cases hop
        exact .applied u book hstate (hseq ▸ hexp) hbook hmax

theorem step_of_exec (hop : s.exec op = some (s', events)) :
    s.Step op s' events := by
  cases op with
  | subscribe id =>
    cases hop
    exact .subscribe id
  | unsubscribe id =>
    cases hop
    exact .unsubscribe id
  | onIncremental u => exact step_of_onIncremental hs hop
  | onSnapshot snapshot =>
    simp only [exec, onSnapshot] at hop
    cases hbook : s.book with
    | none =>
      rw [hbook] at hop
      cases hop
      exact .unknown snapshot hbook
    | some book =>
      simp only [hbook] at hop
      split_ifs at hop with hrange
      cases hop
      exact .recovered snapshot book hbook hrange.1 hrange.2
  | markStale id =>
    simp only [exec] at hop
    cases hstate : s.state with
    | none =>
      rw [hstate] at hop
      cases hop
      exact .unmarked id hstate
    | some state =>
      rw [hstate] at hop
      cases hop
      exact .marked id state hstate

variable {old : InstrumentState}

/-- The state of a subscribed instrument changes, and is not active then. -/
theorem Linked.setState {new : InstrumentState} (hold : s.state = some old) (hnew : new ≠ .active) :
    Linked { s with state := some new } where
  state_isSome := by rw [← hs.state_isSome, hold]; rfl
  expectedSeq_isSome := hs.expectedSeq_isSome
  expected_le := hs.expected_le
  active := fun hactive => absurd (some.inj hactive) hnew

theorem Linked.setPending (hstate : s.state ≠ some .active) (pending : Option (List BookUpdate)) :
    Linked { s with pending := pending } where
  state_isSome := hs.state_isSome
  expectedSeq_isSome := hs.expectedSeq_isSome
  expected_le := hs.expected_le
  active := fun hactive => absurd hactive hstate

/-- A subscribed instrument falls into recovery, and the update is queued. -/
theorem Linked.recovering (hold : s.state = some old) (u : BookUpdate) :
    Linked { s.enqueue u with state := some .recovering } :=
  (hs.setState hold (by decide)).setPending (by rintro ⟨⟩) _

end

/-- An instrument with a book that expects the next number. -/
theorem linked_of_book (book : OrderBook) (state : InstrumentState)
    (hseq : book.lastUpdateSeq + 1 < 2 ^ 64) :
    Linked ⟨some book, some state, some (book.lastUpdateSeq + 1), none⟩ where
  state_isSome := rfl
  expectedSeq_isSome := rfl
  expected_le := by
    intro book' expected hbook hexp
    cases hbook
    cases hexp
    exact ⟨Nat.le_refl _, hseq⟩
  active := fun _ => ⟨rfl, book, rfl, rfl⟩

/-- The number of a book behind updates that are all in range. -/
theorem lastUpdateSeq_foldl_lt {book : OrderBook} {us : List BookUpdate}
    (hbook : book.lastUpdateSeq + 1 < 2 ^ 64) (hus : ∀ u ∈ us, u.seqNum + 1 < 2 ^ 64) :
    (us.foldl OrderBook.applyUpdate book).lastUpdateSeq + 1 < 2 ^ 64 := by
  induction us generalizing book with
  | nil => exact hbook
  | cons u rest ih =>
    obtain ⟨hu, hrest⟩ := forall_mem_cons.mp hus
    apply ih _ hrest
    rw [OrderBook.lastUpdateSeq_applyUpdate]
    exact hu

theorem linked_empty : empty.Linked := ⟨rfl, rfl, by rintro _ _ ⟨⟩, by rintro ⟨⟩⟩

theorem linked_step (hs : s.Linked) (hstep : s.Step op s' events) : s'.Linked := by
  cases hstep with
  | subscribe id =>
    refine ⟨rfl, rfl, fun book expected hbook hexp => ?_, by rintro ⟨⟩⟩
    cases hexp
    omega
  | unsubscribe id => exact linked_empty
  | queued u hactive hstale => exact hs.setPending hactive _
  | revived u hstale => exact hs.recovering hstale u
  | old u expected hactive hexp hold | unknown snapshot hbook | unmarked id hstate => exact hs
  | gap u expected hactive hexp hgap => exact hs.recovering hactive u
  | applied u book hactive hexp hbook hseq =>
    have hlast : (book.applyUpdate u).lastUpdateSeq = u.seqNum :=
      OrderBook.lastUpdateSeq_applyUpdate book u
    have hlinked := linked_of_book (book.applyUpdate u) .active (by rw [hlast]; exact hseq)
    rw [hlast] at hlinked
    rw [hactive, (hs.active hactive).1]
    exact hlinked
  | recovered snapshot book hbook hseq hus =>
    have hlinked := linked_of_book
      ((s.replayed snapshot.seqNum).foldl OrderBook.applyUpdate (book.applySnapshot snapshot))
      .active (lastUpdateSeq_foldl_lt hseq hus)
    rw [← MarketDataHandler.seqAfter_eq] at hlinked
    exact hlinked
  | marked id state hstate => exact hs.setState hstate (by decide)

end Slot

namespace MarketDataHandler

variable {h h' : MarketDataHandler} {ops : List Operation} {op : Operation}

/-- The entries of every instrument belong together, whatever has happened. -/
theorem linked_of_run (hrun : new.run ops = some h) (id : UInt64) : (h.slot id).Linked := by
  refine slot_invariant (fun _ => Slot.Linked) (fun _ => True) (fun _ => Slot.linked_empty) ?_
    (fun _ _ => trivial) hrun id
  intro op s s' events hs _ hop
  exact Slot.linked_step hs (Slot.step_of_exec hs hop)

/-- When an operation panics depends on the entries of its instrument alone. -/
theorem exec_isSome_iff (hrun : new.run ops = some h) (op : Operation) :
    (h.exec op).isSome = true ↔ (h.slot op.instrument).Returns op := by
  rw [family_exec.step_isSome (keyed_of_run hrun)]
  exact Slot.exec_isSome_iff (linked_of_run hrun op.instrument) op

/-- The operation is called in the run, and it is called on this handler. -/
def Calls (ops : List Operation) (h : MarketDataHandler) (op : Operation) : Prop :=
  ∃ before after, ops = before ++ op :: after ∧ new.run before = some h

/-- Every call meets the condition, from one call to the next. -/
def EachCall (C : MarketDataHandler → Operation → Prop) :
    MarketDataHandler → List Operation → Prop
  | _, [] => True
  | h, op :: ops => C h op ∧ ∀ h', h.exec op = some h' → EachCall C h' ops

variable {C : MarketDataHandler → Operation → Prop}

theorem EachCall.calls (heach : EachCall C new ops) :
    ∀ h op, Calls ops h op → C h op := by
  rintro h op ⟨before, after, rfl, hrun⟩
  generalize new = start at heach hrun
  induction before generalizing start with
  | nil =>
    cases hrun
    exact heach.1
  | cons first before ih =>
    obtain ⟨mid, hmid, hrest⟩ := bind_eq_some_iff.mp hrun
    exact ih mid (heach.2 mid hmid) hrest

/-- A property of the handler and its history holds at all times of a run if and only if every
call meets a condition `C`, where `C` is the condition for one call.  Of the calls `A` is
known. -/
theorem always_iff {P : List Operation → MarketDataHandler → Prop}
    {A : MarketDataHandler → Operation → Prop} (hnew : P [] new)
    (hcall : ∀ before h op, new.run before = some h → A h op → P before h →
      ((∀ h', h.exec op = some h' → P (before ++ [op]) h') ↔ C h op))
    (hknown : ∀ h op, Calls ops h op → A h op) :
    (∀ before after h, ops = before ++ after → new.run before = some h → P before h) ↔
      ∀ h op, Calls ops h op → C h op := by
  simp only [Calls, run_eq] at hcall hknown ⊢
  exact Lib.Transition.always_iff (I := fun _ _ => True) hnew trivial
    (fun _ _ _ _ _ _ _ _ _ => trivial)
    (fun before h op hrun hA hP _ => hcall before h op hrun hA hP) hknown

/-- One more operation on a handler that has run. -/
theorem step_of_run (hrun : new.run ops = some h) (hop : h.exec op = some h') :
    ∃ events, (h.slot op.instrument).Step op (h'.slot op.instrument) events ∧
      h'.sent = h.sent ++ events ∧ ∀ id, id ≠ op.instrument → h'.slot id = h.slot id := by
  obtain ⟨events, hexec, hsent⟩ := slot_exec_of_exec (keyed_of_run hrun) hop
  exact ⟨events, Slot.step_of_exec (linked_of_run hrun _) hexec, hsent,
    writesOnly_exec (keyed_of_run hrun) hop⟩

end MarketDataHandler

end IronSbe.MarketData
