import IronSbe.MarketData.Consistency

/-!
# The time of a book

The number of the last message in a book is its time.  Incremental updates are applied one
after the other, so the time goes forward with them.  A snapshot is never compared with the
book: an old one puts the book back, and so do queued updates that are not in order.

* `foldl_unchanged_iff`: when updates that come too late change nothing.
* `Forward`: what is asked of one operation, and `forward_of_timely` is that an operation other
  than a late snapshot has it.
* `bookTimeForward_iff`: in a run, only late snapshots and queues out of order put a book back.
-/

namespace IronSbe.MarketData

open List

/-! ## Queued updates -/

theorem lastUpdateSeq_foldl_concat (book : OrderBook) (us : List BookUpdate) (u : BookUpdate) :
    ((us ++ [u]).foldl OrderBook.applyUpdate book).lastUpdateSeq = u.seqNum := by
  rw [foldl_append]
  exact OrderBook.lastUpdateSeq_applyUpdate _ u

theorem notOlder_append (snapshotSeq : Nat) (us vs : List BookUpdate) :
    notOlder snapshotSeq (us ++ vs) = notOlder snapshotSeq us ++ notOlder snapshotSeq vs :=
  filter_append ..

variable {us : List BookUpdate} {u : BookUpdate}

theorem mem_notOlder {snapshotSeq : Nat} :
    u ∈ notOlder snapshotSeq us ↔ u ∈ us ∧ snapshotSeq ≤ u.seqNum := by
  rw [notOlder, mem_filter, decide_eq_true_iff]

/-- The numbers do not go down. -/
def Ascending (us : List BookUpdate) : Prop := us.Pairwise fun u v => u.seqNum ≤ v.seqNum

/-- A book is at least at the time of a snapshot when the updates behind it are applied. -/
theorem le_lastUpdateSeq_foldl {book : OrderBook} {n : Nat} (hbook : n ≤ book.lastUpdateSeq)
    (hus : ∀ u ∈ us, n ≤ u.seqNum) :
    n ≤ (us.foldl OrderBook.applyUpdate book).lastUpdateSeq := by
  rcases us.eq_nil_or_concat with rfl | ⟨front, u, rfl⟩
  · exact hbook
  · rw [concat_eq_append] at hus ⊢
    rw [lastUpdateSeq_foldl_concat]
    exact hus u (mem_append_right _ mem_cons_self)

/-- Updates in order put a book at the time of the last one, which is the latest. -/
theorem Ascending.le_lastUpdateSeq (h : Ascending us) (hu : u ∈ us) (book : OrderBook) :
    u.seqNum ≤ (us.foldl OrderBook.applyUpdate book).lastUpdateSeq := by
  rcases us.eq_nil_or_concat with rfl | ⟨front, last, rfl⟩
  · cases hu
  · rw [concat_eq_append] at h hu ⊢
    rw [lastUpdateSeq_foldl_concat]
    rcases mem_append.mp hu with hfront | hlast
    · exact (pairwise_append.mp h).2.2 u hfront last mem_cons_self
    · rw [mem_singleton.mp hlast]

/-- No update that is older than one that was applied before it changes the book, if and only
if the updates that are applied are in order.  The first update out of order is the one that
would have to change nothing, and it does not: it puts the book back to its own number. -/
theorem foldl_unchanged_iff (snapshotSeq : Nat) (book : OrderBook) (us : List BookUpdate) :
    (∀ before u after, us = before ++ u :: after →
      (∃ v ∈ notOlder snapshotSeq before, u.seqNum < v.seqNum) →
      (notOlder snapshotSeq (before ++ [u])).foldl OrderBook.applyUpdate book =
        (notOlder snapshotSeq before).foldl OrderBook.applyUpdate book) ↔
      Ascending (notOlder snapshotSeq us) := by
  constructor
  · intro h
    induction us using reverseRecOn with
    | nil => exact .nil
    | append_singleton front u ih =>
      have hfront : Ascending (notOlder snapshotSeq front) := by
        apply ih
        intro before v after hsplit
        exact h before v (after ++ [u]) (by simp [hsplit])
      rw [notOlder_append]
      refine pairwise_append.mpr ⟨hfront, pairwise_singleton .. |>.sublist
        filter_sublist, ?_⟩
      intro v hv w hw
      obtain ⟨hw, hnew⟩ := mem_notOlder.mp hw
      rw [mem_singleton.mp hw] at hnew ⊢
      by_contra hlate
      have hsame := h front u [] rfl ⟨v, hv, by omega⟩
      have hlast := congrArg OrderBook.lastUpdateSeq hsame
      have hu : notOlder snapshotSeq [u] = [u] := by
        rw [notOlder_cons, if_pos hnew]
        rfl
      rw [notOlder_append, hu, lastUpdateSeq_foldl_concat] at hlast
      have hle := hfront.le_lastUpdateSeq hv book
      omega
  · rintro h before u after rfl ⟨v, hv, hlate⟩
    have hold : ¬ snapshotSeq ≤ u.seqNum := by
      intro hnew
      rw [notOlder_append, notOlder_cons, if_pos hnew] at h
      have hle := (pairwise_append.mp h).2.2 v hv u mem_cons_self
      omega
    rw [notOlder_append, notOlder_cons, if_neg hold]
    simp [notOlder]

namespace MarketDataHandler

variable {h h' : MarketDataHandler}

/-! ## One operation -/

/-- The time of a book and the expected number do not go back.  A snapshot that is older than
the book leaves the book as it is, and so does a queued update that is older than one that the
loop has applied before it.  The handlers `g` and `g'` are those in front of this update and
behind it. -/
structure Forward (id : UInt64) (h : MarketDataHandler) (op : Operation) (h' : MarketDataHandler) :
    Prop where
  lastUpdateSeq : ∀ book book', h.books id = some book → h'.books id = some book' →
    book.lastUpdateSeq ≤ book'.lastUpdateSeq
  expectedSeq : ∀ expected expected', h.expectedSeq id = some expected →
    h'.expectedSeq id = some expected' → expected ≤ expected'
  snapshot : ∀ snapshot book, op = .onSnapshot snapshot → snapshot.instrumentId = id →
    h.books id = some book → snapshot.seqNum < book.lastUpdateSeq →
    (h.loaded snapshot).books id = some book
  queued : ∀ snapshot before u after g g', op = .onSnapshot snapshot →
    snapshot.instrumentId = id → (h.slot id).queued = before ++ u :: after →
    (∃ v ∈ notOlder snapshot.seqNum before, u.seqNum < v.seqNum) →
    replay snapshot.seqNum (h.loaded snapshot) before = some g →
    replay snapshot.seqNum g [u] = some g' → g'.books id = g.books id

/-- A snapshot is not older than the book, and the queued updates from its number on are in
order. -/
def Timely (h : MarketDataHandler) (snapshot : BookSnapshot) : Prop :=
  ∀ book, h.books snapshot.instrumentId = some book →
    book.lastUpdateSeq ≤ snapshot.seqNum ∧
      Ascending ((h.slot snapshot.instrumentId).replayed snapshot.seqNum)

theorem replay_append (snapshotSeq : Nat) (h : MarketDataHandler) (us vs : List BookUpdate) :
    replay snapshotSeq h (us ++ vs) =
      (replay snapshotSeq h us).bind fun h => replay snapshotSeq h vs := by
  induction us generalizing h with
  | nil => rfl
  | cons u us ih =>
    rw [cons_append, replay, replay]
    split_ifs
    · rw [Option.bind_assoc]
      congr 1
      funext mid
      exact ih mid
    · exact ih h

variable {snapshot : BookSnapshot} {book : OrderBook} {us : List BookUpdate}

section

variable (hbook : h.books snapshot.instrumentId = some book)
include hbook

/-- The loop of `on_snapshot` gets through updates with numbers in range, and this is the book
behind them. -/
theorem exists_replay (hid : ∀ u ∈ us, u.instrumentId = snapshot.instrumentId)
    (hrange : ∀ u ∈ us, u.seqNum + 1 < 2 ^ 64) :
    ∃ g, replay snapshot.seqNum (h.loaded snapshot) us = some g ∧
      g.books snapshot.instrumentId = some ((notOlder snapshot.seqNum us).foldl
        OrderBook.applyUpdate (book.applySnapshot snapshot)) := by
  have hmap := map_replay snapshot.seqNum hid (slot_loaded h hbook)
  rw [if_pos fun u hu => hrange u (mem_notOlder.mp hu).1] at hmap
  obtain ⟨g, hg, hseen⟩ := Option.map_eq_some_iff.mp hmap
  exact ⟨g, hg, congrArg (fun r => r.1.book) hseen⟩

/-- The loop in front of one of the updates, and behind it. -/
theorem exists_replay_step {before after : List BookUpdate} {u : BookUpdate}
    (hid : ∀ v ∈ before ++ u :: after, v.instrumentId = snapshot.instrumentId)
    (hrange : ∀ v ∈ before ++ u :: after, v.seqNum + 1 < 2 ^ 64) :
    ∃ g g', replay snapshot.seqNum (h.loaded snapshot) before = some g ∧
      replay snapshot.seqNum g [u] = some g' ∧
      g.books snapshot.instrumentId = some ((notOlder snapshot.seqNum before).foldl
        OrderBook.applyUpdate (book.applySnapshot snapshot)) ∧
      g'.books snapshot.instrumentId = some ((notOlder snapshot.seqNum (before ++ [u])).foldl
        OrderBook.applyUpdate (book.applySnapshot snapshot)) := by
  rw [← singleton_append, ← append_assoc, forall_mem_append] at hid hrange
  obtain ⟨g', hg', hbooks'⟩ := exists_replay hbook hid.1 hrange.1
  rw [forall_mem_append] at hid hrange
  obtain ⟨g, hg, hbooks⟩ := exists_replay hbook hid.1.1 hrange.1.1
  rw [replay_append, hg, Option.bind_some] at hg'
  exact ⟨g, g', hg, hg', hbooks, hbooks'⟩

/-- The loop leaves the book alone at late updates if and only if the queue is in order. -/
theorem queue_unchanged_iff (hid : ∀ u ∈ us, u.instrumentId = snapshot.instrumentId)
    (hrange : ∀ u ∈ us, u.seqNum + 1 < 2 ^ 64) :
    (∀ before u after g g', us = before ++ u :: after →
      (∃ v ∈ notOlder snapshot.seqNum before, u.seqNum < v.seqNum) →
      replay snapshot.seqNum (h.loaded snapshot) before = some g →
      replay snapshot.seqNum g [u] = some g' →
      g'.books snapshot.instrumentId = g.books snapshot.instrumentId) ↔
      Ascending (notOlder snapshot.seqNum us) := by
  rw [← foldl_unchanged_iff snapshot.seqNum (book.applySnapshot snapshot) us]
  refine forall_congr' fun before => forall_congr' fun u => forall_congr' fun after => ?_
  constructor
  · rintro hall rfl hlate
    obtain ⟨g, g', hg, hg', hbooks, hbooks'⟩ := exists_replay_step hbook hid hrange
    have hsame := hall g g' rfl hlate hg hg'
    rw [hbooks, hbooks'] at hsame
    exact Option.some.inj hsame
  · rintro hall g g' rfl hlate hg hg'
    obtain ⟨g₁, g₁', hg₁, hg₁', hbooks, hbooks'⟩ := exists_replay_step hbook hid hrange
    cases hg.symm.trans hg₁
    cases hg'.symm.trans hg₁'
    rw [hbooks, hbooks', hall rfl hlate]

/-- An old snapshot puts the book back. -/
theorem books_loaded_ne (hold : snapshot.seqNum < book.lastUpdateSeq) :
    (h.loaded snapshot).books snapshot.instrumentId ≠ some book := by
  intro hsame
  have hloaded := congrArg Slot.book (slot_loaded h hbook)
  rw [slot_book, hsame] at hloaded
  have hlast : book.lastUpdateSeq = snapshot.seqNum :=
    congrArg OrderBook.lastUpdateSeq (Option.some.inj hloaded)
  omega

end

end MarketDataHandler

/-- The time of the book and the expected number have not gone back. -/
structure Slot.NotBack (s s' : Slot) : Prop where
  lastUpdateSeq : ∀ book book', s.book = some book → s'.book = some book' →
    book.lastUpdateSeq ≤ book'.lastUpdateSeq
  expectedSeq : ∀ expected expected', s.expectedSeq = some expected →
    s'.expectedSeq = some expected' → expected ≤ expected'

theorem Slot.NotBack.of_eq {s s' : Slot} (hbook : s'.book = s.book)
    (hexp : s'.expectedSeq = s.expectedSeq) : s.NotBack s' where
  lastUpdateSeq book book' h h' := by
    cases h.symm.trans (hbook.symm.trans h')
    exact Nat.le_refl _
  expectedSeq expected expected' h h' := by
    cases h.symm.trans (hexp.symm.trans h')
    exact Nat.le_refl _

/-- An operation on a subscribed instrument, other than a snapshot that is older than the book,
does not move its time back. -/
theorem Slot.Step.notBack {s s' : Slot} {op : Operation} {events : List MarketDataEvent}
    (hstep : s.Step op s' events) (hs : s.Linked)
    (hsub : op ≠ .subscribe op.instrument) (hunsub : op ≠ .unsubscribe op.instrument)
    (htimely : ∀ snapshot book, op = .onSnapshot snapshot → s.book = some book →
      book.lastUpdateSeq ≤ snapshot.seqNum) : s.NotBack s' := by
  cases hstep with
  | subscribe id => exact absurd rfl hsub
  | unsubscribe id => exact absurd rfl hunsub
  | queued | revived | old | gap | unknown | unmarked | marked => exact .of_eq rfl rfl
  | applied u book hactive hexp hbook hseq =>
    obtain ⟨-, book₀, hbook₀, hexp₀⟩ := hs.active hactive
    cases hbook.symm.trans hbook₀
    have hnext : u.seqNum = book.lastUpdateSeq + 1 := Option.some.inj (hexp.symm.trans hexp₀)
    constructor
    · intro b b' hb hb'
      cases hbook.symm.trans hb
      cases hb'
      rw [OrderBook.lastUpdateSeq_applyUpdate]
      omega
    · intro e e' he he'
      cases hexp.symm.trans he
      cases he'
      omega
  | recovered snapshot book hbook hseq hus =>
    have hle := htimely snapshot book rfl hbook
    have hlast : snapshot.seqNum ≤ ((s.replayed snapshot.seqNum).foldl OrderBook.applyUpdate
        (book.applySnapshot snapshot)).lastUpdateSeq :=
      le_lastUpdateSeq_foldl (Nat.le_refl _) fun u hu => (mem_notOlder.mp hu).2
    constructor
    · intro b b' hb hb'
      cases hbook.symm.trans hb
      cases hb'
      omega
    · intro e e' he he'
      have hbound := (hs.expected_le book e hbook he).1
      cases he'
      have hafter := MarketDataHandler.seqAfter_eq (book.applySnapshot snapshot)
        (s.replayed snapshot.seqNum)
      rw [show (book.applySnapshot snapshot).lastUpdateSeq = snapshot.seqNum from rfl] at hafter
      omega

namespace MarketDataHandler

variable {h h' : MarketDataHandler}

/-! ## Runs -/

/-- All operations of a run keep the time of an instrument that stays subscribed. -/
def BookTimeForward (ops : List Operation) (id : UInt64) : Prop :=
  ∀ h op h', Calls ops h op → h.exec op = some h' → (h.books id).isSome = true →
    op ≠ .subscribe id → op ≠ .unsubscribe id → Forward id h op h'

/-- No snapshot for the instrument is older than its book, and the queue that a snapshot finds
is in order. -/
def SnapshotsTimely (ops : List Operation) (id : UInt64) : Prop :=
  ∀ h snapshot, Calls ops h (.onSnapshot snapshot) → snapshot.instrumentId = id → Timely h snapshot

theorem queued_in_range (hs : Sound h) (id : UInt64) :
    ∀ u ∈ (h.slot id).queued, u.seqNum + 1 < 2 ^ 64 :=
  (hs.slot id).inRange

theorem forward_of_timely {before : List Operation} {op : Operation} {id : UInt64}
    (hrun : new.run before = some h) (hs : Sound h) (hop : h.exec op = some h')
    (hbook : (h.books id).isSome = true) (hsub : op ≠ .subscribe id) (hunsub : op ≠ .unsubscribe id)
    (htimely : ∀ snapshot, op = .onSnapshot snapshot → snapshot.instrumentId = id →
      Timely h snapshot) :
    Forward id h op h' := by
  obtain ⟨events, hstep, -, hframe⟩ := step_of_run hrun hop
  have htime : (h.slot id).NotBack (h'.slot id) := by
    by_cases hid : id = op.instrument
    · subst hid
      refine hstep.notBack (linked_of_run hrun _) hsub hunsub ?_
      rintro snapshot book rfl hbook
      exact (htimely snapshot rfl rfl book hbook).1
    · rw [hframe id hid]
      exact .of_eq rfl rfl
  refine ⟨htime.1, htime.2, ?_, ?_⟩
  · rintro snapshot book rfl rfl hbook hold
    have hle := (htimely snapshot rfl rfl book hbook).1
    omega
  · rintro snapshot front u back g g' rfl rfl hsplit hlate hg hg'
    obtain ⟨book, hbook⟩ := Option.isSome_iff_exists.mp hbook
    have hiff := queue_unchanged_iff hbook (hs.keyed.getD snapshot.instrumentId)
      (queued_in_range hs snapshot.instrumentId)
    exact hiff.mpr (htimely snapshot rfl rfl book hbook).2 front u back g g' hsplit hlate hg hg'

/-- The time of an instrument never goes back while it is subscribed if and only if no snapshot
for it is older than its book or finds a queue that is not in order. -/
theorem bookTimeForward_iff (ops : List Operation) (hrange : ∀ op ∈ ops, SeqInRange op)
    (id : UInt64) : BookTimeForward ops id ↔ SnapshotsTimely ops id := by
  have hsound : ∀ before op after, ops = before ++ op :: after →
      ∃ h, new.run before = some h ∧ Sound h := by
    rintro before op after rfl
    exact sound_run (fun o ho => hrange o (mem_append_left _ ho)) sound_new
  constructor
  · rintro hforward h snapshot ⟨before, after, hsplit, hrun⟩ rfl book hbook
    obtain ⟨h₁, hrun₁, hs⟩ := hsound before _ after hsplit
    cases hrun.symm.trans hrun₁
    obtain ⟨h', hop, -⟩ := sound_exec hs
      (hrange (.onSnapshot snapshot) (by rw [hsplit]; simp))
    have hstep := hforward h _ h' ⟨before, after, hsplit, hrun⟩ hop (by rw [hbook]; rfl)
      (by rintro ⟨⟩) (by rintro ⟨⟩)
    constructor
    · by_contra hold
      exact books_loaded_ne hbook (by omega)
        (hstep.snapshot snapshot book rfl rfl hbook (by omega))
    · refine (queue_unchanged_iff hbook (hs.keyed.getD snapshot.instrumentId)
        (queued_in_range hs snapshot.instrumentId)).mp ?_
      intro front u back g g' hqueue
      exact hstep.queued snapshot front u back g g' rfl rfl hqueue
  · rintro htimely h op h' ⟨before, after, hsplit, hrun⟩ hop hbook hsub hunsub
    obtain ⟨h₁, hrun₁, hs⟩ := hsound before _ after hsplit
    cases hrun.symm.trans hrun₁
    refine forward_of_timely hrun hs hop hbook hsub hunsub ?_
    rintro snapshot rfl hid
    exact htimely h snapshot ⟨before, after, hsplit, hrun⟩ hid

/-- An update is queued, and the snapshot finds it. -/
theorem bookTimeForward_of_queued :
    BookTimeForward [.subscribe 1, .onIncremental ⟨1, 8, .bid, 100, 3, 1⟩,
      .onSnapshot ⟨1, 7, [], []⟩] 1 := by
  refine (bookTimeForward_iff _ (by simp [SeqInRange]) 1).mpr fun h snapshot hcall _ => ?_
  suffices heach : EachCall (fun h op => ∀ snapshot, op = .onSnapshot snapshot → Timely h snapshot)
      new _ from heach.calls h _ hcall snapshot rfl
  refine ⟨by rintro _ ⟨⟩, ?_⟩
  rintro _ ⟨⟩
  refine ⟨by rintro _ ⟨⟩, ?_⟩
  rintro _ ⟨⟩
  refine ⟨?_, ?_⟩
  · rintro _ ⟨⟩ book hbook
    cases hbook
    exact ⟨by decide, pairwise_singleton _ _⟩
  · rintro _ ⟨⟩
    trivial

/-- Snapshot 3 arrives behind snapshot 5. -/
theorem not_bookTimeForward_old_snapshot :
    ¬ BookTimeForward [.subscribe 1, .onSnapshot ⟨1, 5, [], []⟩, .onSnapshot ⟨1, 3, [], []⟩] 1 := by
  intro hforward
  have hstep := hforward _ (.onSnapshot ⟨1, 3, [], []⟩) _
    ⟨[.subscribe 1, .onSnapshot ⟨1, 5, [], []⟩], [], rfl, rfl⟩ rfl rfl (by decide) (by decide)
  have hle : 5 ≤ 3 := hstep.lastUpdateSeq _ _ rfl rfl
  exact absurd hle (by decide)

end MarketDataHandler

end IronSbe.MarketData
