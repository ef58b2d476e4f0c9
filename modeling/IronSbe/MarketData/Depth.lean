import IronSbe.MarketData.Book
import Mathlib.Data.List.Infix

/-!
# Best prices

A side of a book is a map from prices to levels.  What its readers want is the best of the
levels, which are the highest bids and the lowest asks.

* The levels.  `levelAt` is what a price should hold after some calls of `update`, and
  `get_updateAll` is that it does.
* The order of the levels.  `ladder` has the levels of a side with the best one first, and
  `pairwise_ladder` is that each is better than those behind it.  `best_n` and `top` read its
  first levels.
* The prices.  `spread` and `mid_price` compute on `i64`.  The spread overflows only if it is
  not an `i64` itself, but the sum of the two prices does so before it is halved.
-/

namespace IronSbe.MarketData

open List BookSide

namespace BookSide

/-- `BookSide::best_n`. -/
def bestN (side : BookSide) (n : Nat) : List PriceLevel :=
  if side.isBid then side.levels.values.reverse.take n else side.levels.values.take n

/-- `BookSide::len`. -/
def len (side : BookSide) : Nat := side.levels.size

/-- `BookSide::is_empty`. -/
def isEmpty (side : BookSide) : Bool := side.levels.values.isEmpty

/-! ## The levels -/

/-- The last call for a price, unless it removes the level. -/
def levelAt (calls : List PriceLevel) (price : Int) : Option PriceLevel :=
  (calls.reverse.find? (·.price = price)).filter (·.quantity ≠ 0)

theorem levelAt_concat (calls : List PriceLevel) (call : PriceLevel) (price : Int) :
    levelAt (calls ++ [call]) price =
      if price = call.price then
        if call.quantity = 0 then none else some call
      else levelAt calls price := by
  unfold levelAt
  rw [reverse_concat]
  split_ifs with hprice hzero
  · rw [find?_cons_of_pos (by simp [hprice])]
    simp [hzero]
  · rw [find?_cons_of_pos (by simp [hprice])]
    simp [hzero]
  · rw [find?_cons_of_neg (by simpa using Ne.symm hprice)]

theorem updateAll_concat (side : BookSide) (calls : List PriceLevel) (call : PriceLevel) :
    side.updateAll (calls ++ [call]) =
      (side.updateAll calls).update call.price call.quantity call.orderCount := by
  simp only [updateAll, foldl_append, foldl_cons, foldl_nil]

/-- A price holds the last update for it. -/
theorem get_updateAll (isBid : Bool) (calls : List PriceLevel) (price : Int) :
    ((new isBid).updateAll calls).get price = levelAt calls price := by
  induction calls using reverseRecOn with
  | nil => rfl
  | append_singleton calls call ih => rw [updateAll_concat, get_update, levelAt_concat, ih]

variable {level : PriceLevel} {side : BookSide}

theorem levelAt_eq_some {calls : List PriceLevel} {price : Int}
    (h : levelAt calls price = some level) : level ∈ calls ∧ level.price = price := by
  obtain ⟨hfind, -⟩ := Option.filter_eq_some_iff.mp h
  refine ⟨mem_reverse.mp (mem_of_find?_eq_some hfind), ?_⟩
  simpa using find?_some hfind

/-! ## The order of the levels -/

/-- One price is better than another one for this side of the book. -/
def Better (isBid : Bool) (p q : Int) : Prop := if isBid then q < p else p < q

instance (isBid : Bool) (p q : Int) : Decidable (Better isBid p q) := by
  unfold Better
  infer_instance

/-- The levels, the best one first. -/
def ladder (side : BookSide) : List PriceLevel :=
  if side.isBid then side.levels.values.reverse else side.levels.values

theorem bestN_eq (side : BookSide) (n : Nat) : side.bestN n = side.ladder.take n := by
  unfold bestN ladder
  split_ifs <;> rfl

theorem top_eq (side : BookSide) : side.top = side.ladder.head? := by
  unfold top ladder
  split_ifs
  · rw [head?_reverse]
  · rfl

theorem length_ladder (side : BookSide) : side.ladder.length = side.len := by
  unfold ladder len Lib.SortedMap.size Lib.SortedMap.values
  split_ifs <;> simp

/-- Every level is stored under its own price. -/
def Priced (side : BookSide) : Prop := ∀ p level, side.get p = some level → level.price = p

theorem priced_updateAll (isBid : Bool) (calls : List PriceLevel) :
    Priced ((new isBid).updateAll calls) := by
  intro p level hget
  rw [get_updateAll] at hget
  exact (levelAt_eq_some hget).2

theorem mem_ladder_iff (hpriced : Priced side) :
    level ∈ side.ladder ↔ side.get level.price = some level := by
  have hvalues : level ∈ side.ladder ↔ level ∈ side.levels.values := by
    unfold ladder
    split_ifs
    · exact mem_reverse
    · rfl
  rw [hvalues, Lib.SortedMap.mem_values_iff]
  constructor
  · rintro ⟨p, hp⟩
    rw [hpriced p level hp]
    exact hp
  · intro hget
    exact ⟨level.price, hget⟩

/-- Every level is better than those behind it. -/
theorem pairwise_ladder (hpriced : Priced side) :
    side.ladder.Pairwise fun a b => Better side.isBid a.price b.price := by
  have hascend : side.levels.values.Pairwise fun a b => a.price < b.price := by
    apply pairwise_map.mpr
    apply side.levels.sorted.imp_of_mem
    intro a b ha hb hlt
    have hpa := hpriced a.1 a.2 ((side.levels.get?_eq_some_iff _ _).mpr ha)
    have hpb := hpriced b.1 b.2 ((side.levels.get?_eq_some_iff _ _).mpr hb)
    rw [hpa, hpb]
    exact hlt
  unfold ladder Better
  cases side.isBid with
  | true => exact pairwise_reverse.mpr hascend
  | false => exact hascend

/-- A level that is not among the first ones is worse than all of them. -/
theorem better_of_not_mem_bestN (hpriced : Priced side) {n : Nat}
    (hget : side.get level.price = some level) (hout : level ∉ side.bestN n) :
    ∀ best ∈ side.bestN n, Better side.isBid best.price level.price := by
  have hpairs := pairwise_ladder hpriced
  have hmem := (mem_ladder_iff hpriced).mpr hget
  rw [bestN_eq] at hout ⊢
  rw [← take_append_drop n side.ladder] at hpairs hmem
  have hdrop : level ∈ side.ladder.drop n := (mem_append.mp hmem).resolve_left hout
  intro best hbest
  exact (pairwise_append.mp hpairs).2.2 best hbest level hdrop

/-! ## A snapshot -/

/-- The levels do not depend on the side that they are for. -/
theorem levels_updateAll (side side' : BookSide) (h : side.levels = side'.levels)
    (calls : List PriceLevel) :
    (side.updateAll calls).levels = (side'.updateAll calls).levels := by
  induction calls generalizing side side' with
  | nil => exact h
  | cons call rest ih =>
    apply ih
    dsimp only [update]
    split_ifs <;> simp only [h]

/-- A cleared side keeps its kind and nothing else. -/
theorem clear_updateAll (side : BookSide) (isBid : Bool) (calls : List PriceLevel) :
    side.clear.updateAll calls = ⟨((new isBid).updateAll calls).levels, side.isBid⟩ := by
  have hflag : (side.clear.updateAll calls).isBid = side.isBid := isBid_updateAll _ _
  have hlevels := levels_updateAll side.clear (new isBid) rfl calls
  rw [← hflag, ← hlevels]

end BookSide

/-- A side is the map of the last updates, and `best_n` and `top` are the best of its levels.
The two sides of a book after a snapshot are those of the levels of the snapshot. -/
theorem bookSide_as_map :
    (∀ (isBid : Bool) (calls : List PriceLevel) (n : Nat),
      let side := (BookSide.new isBid).updateAll calls
      (∀ price, side.get price = BookSide.levelAt calls price) ∧
      (side.bestN n).length = min n side.len ∧
      (side.bestN n).Pairwise (fun a b => BookSide.Better isBid a.price b.price) ∧
      (∀ level ∈ side.bestN n, side.get level.price = some level) ∧
      (∀ price level, side.get price = some level → level ∉ side.bestN n →
        ∀ best ∈ side.bestN n, BookSide.Better isBid best.price level.price) ∧
      side.top = (side.bestN 1).head?) ∧
    ∀ (book : OrderBook) (snapshot : BookSnapshot),
      let after := book.applySnapshot snapshot
      after.bids = ⟨((new true).updateAll snapshot.bids).levels, book.bids.isBid⟩ ∧
      after.asks = ⟨((new false).updateAll snapshot.asks).levels, book.asks.isBid⟩ ∧
      (∀ price, after.bids.get price = levelAt snapshot.bids price) ∧
      ∀ price, after.asks.get price = levelAt snapshot.asks price := by
  constructor
  · intro isBid calls n side
    have hpriced : BookSide.Priced side := priced_updateAll isBid calls
    have hflag : side.isBid = isBid := isBid_updateAll _ _
    have hpairs := pairwise_ladder hpriced
    rw [hflag] at hpairs
    refine ⟨get_updateAll isBid calls, ?_, ?_, ?_, ?_, ?_⟩
    · rw [bestN_eq, length_take, length_ladder]
    · rw [bestN_eq]
      exact hpairs.sublist (take_sublist _ _)
    · intro level hlevel
      rw [bestN_eq] at hlevel
      exact (mem_ladder_iff hpriced).mp (mem_of_mem_take hlevel)
    · intro price level hget hout
      obtain rfl := hpriced price level hget
      rw [← hflag]
      exact better_of_not_mem_bestN hpriced hget hout
    · rw [top_eq, bestN_eq, head?_take, if_neg (by decide)]
  · intro book snapshot after
    have hbids := clear_updateAll book.bids true snapshot.bids
    have hasks := clear_updateAll book.asks false snapshot.asks
    refine ⟨hbids, hasks, fun price => ?_, fun price => ?_⟩
    · show (book.bids.clear.updateAll snapshot.bids).get price = _
      rw [hbids, ← get_updateAll true]
      rfl
    · show (book.asks.clear.updateAll snapshot.asks).get price = _
      rw [hasks, ← get_updateAll false]
      rfl

/-! ## The prices -/

/-- The numbers of `i64`. -/
def IsI64 (n : Int) : Prop := -2 ^ 63 ≤ n ∧ n < 2 ^ 63

instance (n : Int) : Decidable (IsI64 n) := inferInstanceAs (Decidable (_ ∧ _))

/-- The panics of `spread` and `mid_price`. -/
inductive PriceOverflow where
  | sub
  | add
  deriving DecidableEq, Repr

/-- The result of an operation on `i64`. -/
def checkedI64 (overflow : PriceOverflow) (n : Int) : Except PriceOverflow Int :=
  if IsI64 n then .ok n else .error overflow

namespace OrderBook

/-- `OrderBook::spread`. -/
def spread (book : OrderBook) : Except PriceOverflow (Option Int) :=
  match book.bids.top, book.asks.top with
  | some bid, some ask => (checkedI64 .sub (ask.price - bid.price)).map some
  | _, _ => .ok none

/-- `OrderBook::mid_price`.  The division by 2 cuts the fraction off. -/
def midPrice (book : OrderBook) : Except PriceOverflow (Option Int) :=
  match book.bids.top, book.asks.top with
  | some bid, some ask =>
    (checkedI64 .add (bid.price + ask.price)).map fun sum => some (sum.tdiv 2)
  | _, _ => .ok none

/-- `OrderBook::best_bid`. -/
def bestBid (book : OrderBook) : Option Int := book.bids.top.map PriceLevel.price

/-- `OrderBook::best_ask`. -/
def bestAsk (book : OrderBook) : Option Int := book.asks.top.map PriceLevel.price

/-- A call that changes a book. -/
inductive Call where
  | applyUpdate (u : BookUpdate)
  | applySnapshot (snapshot : BookSnapshot)
  deriving DecidableEq, Repr

/-- The prices that a call brings. -/
def Call.prices : Call → List Int
  | .applyUpdate u => [u.price]
  | .applySnapshot snapshot => (snapshot.bids ++ snapshot.asks).map PriceLevel.price

/-- A call on the book. -/
def call (book : OrderBook) : Call → OrderBook
  | .applyUpdate u => book.applyUpdate u
  | .applySnapshot snapshot => book.applySnapshot snapshot

end OrderBook

/-- Every level of a side has a price with the property. -/
def BookSide.Prices (P : Int → Prop) (side : BookSide) : Prop :=
  ∀ p level, side.get p = some level → P level.price

namespace BookSide

variable {P : Int → Prop} {side : BookSide}

theorem Prices.update (h : Prices P side) {price : Int} (hprice : P price)
    (quantity orderCount : Nat) : Prices P (side.update price quantity orderCount) := by
  intro p level hget
  rw [get_update] at hget
  split_ifs at hget
  · cases hget
    exact hprice
  · exact h p level hget

theorem Prices.updateAll (h : Prices P side) {calls : List PriceLevel}
    (hcalls : ∀ call ∈ calls, P call.price) : Prices P (side.updateAll calls) := by
  induction calls generalizing side with
  | nil => exact h
  | cons call rest ih =>
    obtain ⟨hcall, hrest⟩ := forall_mem_cons.mp hcalls
    exact ih (h.update hcall _ _) hrest

theorem Prices.clear (P : Int → Prop) (side : BookSide) : Prices P side.clear := by
  intro p level hget
  cases hget

/-- The price of the best level. -/
theorem Prices.top (h : Prices P side) {level : PriceLevel} (htop : side.top = some level) :
    P level.price := by
  have hmem : level ∈ side.levels.values := by
    unfold BookSide.top at htop
    split_ifs at htop
    · exact mem_of_getLast? htop
    · exact mem_of_head? htop
  obtain ⟨p, hp⟩ := (side.levels.mem_values_iff level).mp hmem
  exact h p level hp

/-- A side with levels has a best one. -/
theorem exists_top (h : side.isEmpty = false) : ∃ level, side.top = some level := by
  have hne : side.levels.values ≠ [] := by
    intro hnil
    rw [isEmpty, hnil] at h
    cases h
  unfold top
  split_ifs
  · exact ⟨_, getLast?_eq_some_getLast hne⟩
  · exact ⟨_, head?_eq_some_head hne⟩

end BookSide

namespace OrderBook

/-- The levels of both sides have prices with the property. -/
structure Prices (P : Int → Prop) (book : OrderBook) : Prop where
  bids : book.bids.Prices P
  asks : book.asks.Prices P

variable {P : Int → Prop} {book : OrderBook}

theorem Prices.call (h : Prices P book) {c : Call} (hc : ∀ p ∈ c.prices, P p) :
    Prices P (book.call c) := by
  cases c with
  | applyUpdate u =>
    have hprice : P u.price := hc u.price mem_cons_self
    show Prices P (book.applyUpdate u)
    unfold applyUpdate
    cases u.side with
    | bid => exact ⟨h.bids.update hprice _ _, h.asks⟩
    | ask => exact ⟨h.bids, h.asks.update hprice _ _⟩
  | applySnapshot snapshot =>
    have hlevels : ∀ level ∈ snapshot.bids ++ snapshot.asks, P level.price := by
      intro level hlevel
      exact hc _ (mem_map_of_mem hlevel)
    rw [forall_mem_append] at hlevels
    exact ⟨(BookSide.Prices.clear P _).updateAll hlevels.1,
      (BookSide.Prices.clear P _).updateAll hlevels.2⟩

theorem Prices.calls (h : Prices P book) {calls : List Call}
    (hcalls : ∀ c ∈ calls, ∀ p ∈ c.prices, P p) : Prices P (calls.foldl OrderBook.call book) := by
  induction calls generalizing book with
  | nil => exact h
  | cons c rest ih =>
    obtain ⟨hc, hrest⟩ := forall_mem_cons.mp hcalls
    exact ih (h.call hc) hrest

theorem prices_new (P : Int → Prop) (id : UInt64) : Prices P (new id) :=
  ⟨BookSide.Prices.clear P (.new true), BookSide.Prices.clear P (.new false)⟩

/-- The spread is the difference of the best prices whenever it is an `i64`, no result that is
an `i64` is lost to an overflow on the way, and the mid price is between best prices that do
not cross. -/
structure ExactPrices (book : OrderBook) (bid ask : Int) : Prop where
  spread : IsI64 (ask - bid) → book.spread = .ok (some (ask - bid))
  midPrice : IsI64 ((bid + ask).tdiv 2) → ∃ mid, book.midPrice = .ok mid
  between : bid ≤ ask → ∃ mid, book.midPrice = .ok (some mid) ∧ bid ≤ mid ∧ mid ≤ ask

/-- A half is rounded towards 0. -/
theorem tdiv_two_eq (n : Int) : n.tdiv 2 = if 0 ≤ n then n / 2 else -(-n / 2) := by
  split_ifs with hn
  · exact Int.tdiv_eq_ediv_of_nonneg hn
  · rw [← Int.tdiv_eq_ediv_of_nonneg (by omega : 0 ≤ -n), Int.neg_tdiv, Int.neg_neg]

/-- Half of a sum is between its parts. -/
theorem tdiv_two_between {bid ask : Int} (h : bid ≤ ask) :
    bid ≤ (bid + ask).tdiv 2 ∧ (bid + ask).tdiv 2 ≤ ask := by
  rw [tdiv_two_eq]
  split_ifs <;> omega

theorem exactPrices_iff_of_top {bid ask : PriceLevel} (hbid : book.bids.top = some bid)
    (hask : book.asks.top = some ask) (hbidPrice : IsI64 bid.price) (haskPrice : IsI64 ask.price) :
    ExactPrices book bid.price ask.price ↔ IsI64 (bid.price + ask.price) := by
  constructor
  · intro h
    by_contra hsum
    -- the half is always an `i64`
    have hmid : IsI64 ((bid.price + ask.price).tdiv 2) := by
      unfold IsI64 at hbidPrice haskPrice ⊢
      rw [tdiv_two_eq]
      split_ifs <;> omega
    obtain ⟨mid, hok⟩ := h.midPrice hmid
    rw [midPrice, hbid, hask] at hok
    simp only [checkedI64, if_neg hsum] at hok
    cases hok
  · intro hsum
    have hmid : book.midPrice = .ok (some ((bid.price + ask.price).tdiv 2)) := by
      rw [midPrice, hbid, hask]
      simp only [checkedI64, if_pos hsum]
      rfl
    refine ⟨fun hdiff => ?_, fun _ => ⟨_, hmid⟩, fun hle => ⟨_, hmid, tdiv_two_between hle⟩⟩
    rw [OrderBook.spread, hbid, hask]
    simp only [checkedI64, if_pos hdiff]
    rfl

/-- A book with levels on both sides has exact prices if and only if the sum of its best
prices is an `i64`. -/
theorem exactPrices_iff (id : UInt64) (calls : List Call)
    (hprices : ∀ c ∈ calls, ∀ p ∈ c.prices, IsI64 p) :
    let book := calls.foldl OrderBook.call (new id)
    book.bids.isEmpty = false → book.asks.isEmpty = false →
      ∃ bid ask, book.bestBid = some bid ∧ book.bestAsk = some ask ∧
        (ExactPrices book bid ask ↔ IsI64 (bid + ask)) := by
  intro book hbids hasks
  have hbook : Prices IsI64 book := (prices_new IsI64 id).calls hprices
  obtain ⟨bid, hbid⟩ := exists_top hbids
  obtain ⟨ask, hask⟩ := exists_top hasks
  refine ⟨bid.price, ask.price, by rw [bestBid, hbid]; rfl, by rw [bestAsk, hask]; rfl, ?_⟩
  exact exactPrices_iff_of_top hbid hask (hbook.bids.top hbid) (hbook.asks.top hask)

/-- The best prices are -3 and 4. -/
theorem exactPrices_of_small :
    let book := [Call.applySnapshot ⟨1, 1, [⟨-3, 5, 1⟩, ⟨-7, 1, 1⟩], []⟩,
      .applyUpdate ⟨1, 2, .ask, 4, 6, 1⟩].foldl OrderBook.call (new 1)
    ExactPrices book (-3) 4 := by
  intro book
  obtain ⟨bid, ask, hbid, hask, hiff⟩ := exactPrices_iff 1
    [.applySnapshot ⟨1, 1, [⟨-3, 5, 1⟩, ⟨-7, 1, 1⟩], []⟩, .applyUpdate ⟨1, 2, .ask, 4, 6, 1⟩]
    (by decide) (by decide) (by decide)
  obtain rfl : -3 = bid := Option.some.inj hbid
  obtain rfl : 4 = ask := Option.some.inj hask
  exact hiff.mpr (by decide)

/-- The best prices are `2 ^ 62` and `2 ^ 62 + 2`, and the mid price `2 ^ 62 + 1` is lost. -/
theorem midPrice_overflow :
    let calls := [Call.applyUpdate ⟨1, 1, .bid, 2 ^ 62, 5, 1⟩,
      .applyUpdate ⟨1, 2, .ask, 2 ^ 62 + 2, 5, 1⟩]
    let book := calls.foldl OrderBook.call (new 1)
    (∀ c ∈ calls, ∀ p ∈ c.prices, IsI64 p) ∧ book.bestBid = some (2 ^ 62) ∧
      book.bestAsk = some (2 ^ 62 + 2) ∧ book.midPrice = .error .add ∧
      ¬ ExactPrices book (2 ^ 62) (2 ^ 62 + 2) := by
  intro calls book
  refine ⟨by decide, by decide, by decide, by decide, fun h => ?_⟩
  obtain ⟨mid, hmid, -⟩ := h.between (by decide)
  exact absurd (show book.midPrice = .error .add by decide) (by rw [hmid]; rintro ⟨⟩)

end OrderBook

end IronSbe.MarketData
