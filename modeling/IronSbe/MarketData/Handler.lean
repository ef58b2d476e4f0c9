import IronSbe.MarketData.Book
import IronSbe.Lib.Transition
import Mathlib.Logic.Function.Basic
import Mathlib.Data.List.Infix

/-!
# The market data handler

`MarketDataHandler` keeps a book for every subscribed instrument.  An
instrument starts without a book state it can trust, queues incremental updates
until a snapshot arrives, replays the queue over the snapshot, and is `Active`
until it sees a gap or is marked stale.

A hash map is the function it is looked up with.  `sent` are the events handed
to the event channel, in order, whether or not there was room for them.  `none`
is a panic: the only arithmetic is `seq + 1` on `u64` sequence numbers.  No
operation ever returns a `HandlerError`.
-/

namespace IronSbe.MarketData

open List Function

/-- `InstrumentState`. -/
inductive InstrumentState where
  | initializing
  | active
  | recovering
  | stale
  deriving DecidableEq, Repr

/-- `MarketDataEvent`. -/
inductive MarketDataEvent where
  | bookUpdated (instrumentId : UInt64)
  | topOfBookChanged (instrumentId : UInt64)
  | stateChanged (instrumentId : UInt64) (state : InstrumentState)
  | gapDetected (instrumentId : UInt64) (expected received : Nat)
  deriving DecidableEq, Repr

/-- `MarketDataHandler`, with the events it has handed to `update_tx`. -/
structure MarketDataHandler where
  books : UInt64 → Option OrderBook
  states : UInt64 → Option InstrumentState
  expectedSeq : UInt64 → Option Nat
  pendingIncrementals : UInt64 → Option (List BookUpdate)
  sent : List MarketDataEvent

/-- `seq + 1` on `u64`. -/
def nextSeq (seq : Nat) : Option Nat := if seq + 1 < 2 ^ 64 then some (seq + 1) else none

namespace MarketDataHandler

/-- `MarketDataHandler::new`. -/
def new : MarketDataHandler :=
  ⟨fun _ => none, fun _ => none, fun _ => none, fun _ => none, []⟩

/-- `update_tx.send`. -/
def send (h : MarketDataHandler) (event : MarketDataEvent) : MarketDataHandler :=
  { h with sent := h.sent ++ [event] }

/-- `states.insert`. -/
def setState (h : MarketDataHandler) (id : UInt64) (state : InstrumentState) :
    MarketDataHandler :=
  { h with states := Function.update h.states id (some state) }

/-- `pending_incrementals.entry(instrument_id).or_default().push(update)`. -/
def queue (h : MarketDataHandler) (u : BookUpdate) : MarketDataHandler :=
  { h with
    pendingIncrementals := Function.update h.pendingIncrementals u.instrumentId
      (some ((h.pendingIncrementals u.instrumentId).getD [] ++ [u])) }

/-- `MarketDataHandler::subscribe`. -/
def subscribe (h : MarketDataHandler) (id : UInt64) : MarketDataHandler :=
  { h with
    books := Function.update h.books id (some (.new id))
    states := Function.update h.states id (some .initializing)
    expectedSeq := Function.update h.expectedSeq id (some 0) }

/-- `MarketDataHandler::unsubscribe`. -/
def unsubscribe (h : MarketDataHandler) (id : UInt64) : MarketDataHandler :=
  { h with
    books := Function.update h.books id none
    states := Function.update h.states id none
    expectedSeq := Function.update h.expectedSeq id none
    pendingIncrementals := Function.update h.pendingIncrementals id none }

/-- `MarketDataHandler::apply_update`. -/
def applyUpdate (h : MarketDataHandler) (u : BookUpdate) : Option MarketDataHandler :=
  match h.books u.instrumentId with
  | none => some h
  | some book =>
    let oldBid := book.bids.top.map PriceLevel.price
    let oldAsk := book.asks.top.map PriceLevel.price
    let newBook := book.applyUpdate u
    let newBid := newBook.bids.top.map PriceLevel.price
    let newAsk := newBook.asks.top.map PriceLevel.price
    (nextSeq u.seqNum).map fun next =>
      let h := { h with
        books := Function.update h.books u.instrumentId (some newBook)
        expectedSeq := Function.update h.expectedSeq u.instrumentId (some next) }
      let h := h.send (.bookUpdated u.instrumentId)
      if oldBid ≠ newBid ∨ oldAsk ≠ newAsk then h.send (.topOfBookChanged u.instrumentId) else h

/-- `MarketDataHandler::on_incremental`. -/
def onIncremental (h : MarketDataHandler) (u : BookUpdate) : Option MarketDataHandler :=
  match (h.states u.instrumentId).getD .initializing with
  | .initializing => some (h.queue u)
  | .active =>
    let expected := (h.expectedSeq u.instrumentId).getD 0
    if u.seqNum < expected then some h
    else if expected < u.seqNum then
      let h := h.send (.gapDetected u.instrumentId expected u.seqNum)
      let h := h.setState u.instrumentId .recovering
      let h := h.send (.stateChanged u.instrumentId .recovering)
      some (h.queue u)
    else h.applyUpdate u
  | .recovering => some (h.queue u)
  | .stale => some ((h.setState u.instrumentId .recovering).queue u)

/-- The loop of `on_snapshot` over the queued updates. -/
def replay (snapshotSeq : Nat) :
    MarketDataHandler → List BookUpdate → Option MarketDataHandler
  | h, [] => some h
  | h, u :: rest =>
    if snapshotSeq ≤ u.seqNum then (h.applyUpdate u).bind fun h => replay snapshotSeq h rest
    else replay snapshotSeq h rest

/-- `MarketDataHandler::on_snapshot`. -/
def onSnapshot (h : MarketDataHandler) (snapshot : BookSnapshot) : Option MarketDataHandler :=
  let id := snapshot.instrumentId
  match h.books id with
  | none => some h
  | some book =>
    (nextSeq snapshot.seqNum).bind fun next =>
      let pending := (h.pendingIncrementals id).getD []
      let h := { h with
        books := Function.update h.books id (some (book.applySnapshot snapshot))
        expectedSeq := Function.update h.expectedSeq id (some next)
        pendingIncrementals := Function.update h.pendingIncrementals id none }
      (replay snapshot.seqNum h pending).map fun h =>
        ((h.setState id .active).send (.stateChanged id .active)).send (.bookUpdated id)

/-- `MarketDataHandler::mark_stale`. -/
def markStale (h : MarketDataHandler) (id : UInt64) : MarketDataHandler :=
  match h.states id with
  | none => h
  | some _ => (h.setState id .stale).send (.stateChanged id .stale)

end MarketDataHandler

/-- The operations of the handler. -/
inductive Operation where
  | subscribe (id : UInt64)
  | unsubscribe (id : UInt64)
  | onIncremental (u : BookUpdate)
  | onSnapshot (snapshot : BookSnapshot)
  | markStale (id : UInt64)
  deriving DecidableEq, Repr

namespace MarketDataHandler

/-- An operation, unless it panics. -/
def exec (h : MarketDataHandler) : Operation → Option MarketDataHandler
  | .subscribe id => some (h.subscribe id)
  | .unsubscribe id => some (h.unsubscribe id)
  | .onIncremental u => h.onIncremental u
  | .onSnapshot snapshot => h.onSnapshot snapshot
  | .markStale id => some (h.markStale id)

/-- The handler after the operations, called one after the other. -/
def run (h : MarketDataHandler) (ops : List Operation) : Option MarketDataHandler :=
  Lib.Transition.run exec h ops

theorem run_eq (ops : List Operation) (h : MarketDataHandler) :
    h.run ops = Lib.Transition.run exec h ops := rfl

/-! ## Sequence numbers and runs -/

theorem nextSeq_eq_some {seq : Nat} (hseq : seq + 1 < 2 ^ 64) : nextSeq seq = some (seq + 1) :=
  if_pos hseq

/-- The expected sequence number after the updates were applied. -/
def seqAfter (expected : Nat) (us : List BookUpdate) : Nat :=
  us.foldl (fun _ u => u.seqNum + 1) expected

/-- The sequence number that an operation carries is below `u64::MAX`. -/
def SeqInRange : Operation → Prop
  | .onIncremental u => u.seqNum < 2 ^ 64 - 1
  | .onSnapshot snapshot => snapshot.seqNum < 2 ^ 64 - 1
  | _ => True

end MarketDataHandler

end IronSbe.MarketData
