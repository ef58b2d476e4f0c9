import IronSbe.Lib.SortedMap
import Mathlib.Algebra.Order.Ring.Int

/-!
# Order books

A side of a book is a map from prices to levels, and a book is two sides with
the number of the last message applied to it.  An incremental update sets or
removes one level, a snapshot replaces both sides.

* `BookSide.get_update`: what a price holds after an update of the side.
* `OrderBook.applySnapshot_eq`: a snapshot leaves nothing of the levels that
  were there before.
-/

namespace IronSbe.MarketData

/-- `PriceLevel`. -/
structure PriceLevel where
  price : Int
  quantity : Nat
  orderCount : Nat
  deriving DecidableEq, Repr

/-- `Side`. -/
inductive Side where
  | bid
  | ask
  deriving DecidableEq, Repr

/-- `BookSide`. -/
structure BookSide where
  levels : Lib.SortedMap Int PriceLevel
  isBid : Bool
  deriving DecidableEq

namespace BookSide

/-- `BookSide::new`. -/
def new (isBid : Bool) : BookSide := ⟨.empty, isBid⟩

/-- `BookSide::update`: a quantity of zero removes the level. -/
def update (side : BookSide) (price : Int) (quantity orderCount : Nat) : BookSide :=
  if quantity = 0 then { side with levels := side.levels.erase price }
  else { side with levels := side.levels.insert price ⟨price, quantity, orderCount⟩ }

/-- `BookSide::top`: the greatest price of the bids, the least of the asks. -/
def top (side : BookSide) : Option PriceLevel :=
  if side.isBid then side.levels.values.getLast? else side.levels.values.head?

/-- `BookSide::get`. -/
def get (side : BookSide) (price : Int) : Option PriceLevel := side.levels.get? price

/-- `BookSide::clear`. -/
def clear (side : BookSide) : BookSide := { side with levels := .empty }

/-- `update` for each level of a list, in order. -/
def updateAll (side : BookSide) (levels : List PriceLevel) : BookSide :=
  levels.foldl (fun side level => side.update level.price level.quantity level.orderCount) side

theorem get_update (side : BookSide) (price : Int) (quantity orderCount : Nat) (p : Int) :
    (side.update price quantity orderCount).get p =
      if p = price then
        if quantity = 0 then none else some ⟨price, quantity, orderCount⟩
      else side.get p := by
  unfold update get
  split_ifs with hzero hp hp
  · rw [Lib.SortedMap.get?_erase, if_pos hp]
  · rw [Lib.SortedMap.get?_erase, if_neg hp]
  · rw [Lib.SortedMap.get?_insert, if_pos hp]
  · rw [Lib.SortedMap.get?_insert, if_neg hp]

@[simp] theorem isBid_update (side : BookSide) (price : Int) (quantity orderCount : Nat) :
    (side.update price quantity orderCount).isBid = side.isBid := by
  unfold update
  split_ifs <;> rfl

theorem clear_eq_new {side : BookSide} {isBid : Bool} (h : side.isBid = isBid) :
    side.clear = new isBid := by
  rw [clear, new, h]

theorem isBid_updateAll (side : BookSide) (levels : List PriceLevel) :
    (side.updateAll levels).isBid = side.isBid := by
  induction levels generalizing side with
  | nil => rfl
  | cons level rest ih => exact (ih _).trans (isBid_update side _ _ _)

end BookSide

/-- `BookUpdate`, an incremental update of one level. -/
structure BookUpdate where
  instrumentId : UInt64
  seqNum : Nat
  side : Side
  price : Int
  quantity : Nat
  orderCount : Nat
  deriving DecidableEq, Repr

/-- `BookSnapshot`. -/
structure BookSnapshot where
  instrumentId : UInt64
  seqNum : Nat
  bids : List PriceLevel
  asks : List PriceLevel
  deriving DecidableEq, Repr

/-- `OrderBook`. -/
structure OrderBook where
  instrumentId : UInt64
  bids : BookSide
  asks : BookSide
  lastUpdateSeq : Nat
  lastUpdateTime : Nat
  deriving DecidableEq

namespace OrderBook

/-- `OrderBook::new`. -/
def new (instrumentId : UInt64) : OrderBook := ⟨instrumentId, .new true, .new false, 0, 0⟩

/-- `OrderBook::apply_update`. -/
def applyUpdate (book : OrderBook) (u : BookUpdate) : OrderBook :=
  match u.side with
  | .bid => { book with
      bids := book.bids.update u.price u.quantity u.orderCount, lastUpdateSeq := u.seqNum }
  | .ask => { book with
      asks := book.asks.update u.price u.quantity u.orderCount, lastUpdateSeq := u.seqNum }

/-- `OrderBook::apply_snapshot`. -/
def applySnapshot (book : OrderBook) (snapshot : BookSnapshot) : OrderBook :=
  { book with
    bids := book.bids.clear.updateAll snapshot.bids
    asks := book.asks.clear.updateAll snapshot.asks
    lastUpdateSeq := snapshot.seqNum }

/-- The parts of a book that neither updates nor snapshots change are those of
a new book. -/
structure Rooted (id : UInt64) (book : OrderBook) : Prop where
  instrumentId_eq : book.instrumentId = id
  isBid_bids : book.bids.isBid = true
  isBid_asks : book.asks.isBid = false
  lastUpdateTime_eq : book.lastUpdateTime = 0

theorem rooted_new (id : UInt64) : Rooted id (new id) := ⟨rfl, rfl, rfl, rfl⟩

variable {id : UInt64} {book : OrderBook}

theorem Rooted.applyUpdate (h : Rooted id book) (u : BookUpdate) :
    Rooted id (book.applyUpdate u) := by
  unfold OrderBook.applyUpdate
  cases u.side with
  | bid => exact { h with isBid_bids := (BookSide.isBid_update _ _ _ _).trans h.isBid_bids }
  | ask => exact { h with isBid_asks := (BookSide.isBid_update _ _ _ _).trans h.isBid_asks }

theorem Rooted.foldl_applyUpdate (h : Rooted id book) (us : List BookUpdate) :
    Rooted id (us.foldl OrderBook.applyUpdate book) := by
  induction us generalizing book with
  | nil => exact h
  | cons u rest ih => exact ih (h.applyUpdate u)

theorem Rooted.applySnapshot (h : Rooted id book) (snapshot : BookSnapshot) :
    Rooted id (book.applySnapshot snapshot) :=
  { h with
    isBid_bids := (BookSide.isBid_updateAll _ _).trans h.isBid_bids
    isBid_asks := (BookSide.isBid_updateAll _ _).trans h.isBid_asks }

/-- A snapshot gives the same book whatever the levels were before. -/
theorem applySnapshot_eq (h : Rooted id book) (snapshot : BookSnapshot) :
    book.applySnapshot snapshot = (new id).applySnapshot snapshot := by
  unfold applySnapshot
  rw [BookSide.clear_eq_new h.isBid_bids, BookSide.clear_eq_new h.isBid_asks]
  obtain ⟨rfl, -, -, htime⟩ := h
  rw [htime]
  rfl

end OrderBook

end IronSbe.MarketData
