import IronSbe.MarketData.Consistency

/-!
# The book of an active instrument

`CorrectBook` is what the book of an active instrument should be.  `Slot.Faithful` is this for
one instrument, with what is in its queue, and each of the steps of the instrument keeps it;
only the snapshot asks for something, a queue without a gap (`Contiguous`).

* `Slot.Faithful.step`: one operation, seen from its instrument.
* `inv_run`: any sequence of operations.
* `correctBook_of_contiguous`: while every snapshot finds the updates that
  follow it queued without a gap and in order, an active instrument has the
  book of its last snapshot and the updates since.
-/

namespace IronSbe.MarketData

open List MarketDataHandler

namespace MarketDataHandler

/-- An active instrument has a book, and it is that of the last snapshot for
the instrument followed by the updates with the next sequence numbers, each
once and in order, up to the expected one.  All of them were received. -/
def CorrectBook (history : List Operation) (h : MarketDataHandler) (id : UInt64) : Prop :=
  h.states id = some .active →
    ∃ (snapshot : BookSnapshot) (before after : List Operation) (us : List BookUpdate),
      history = before ++ .onSnapshot snapshot :: after ∧ snapshot.instrumentId = id ∧
      (∀ later, .onSnapshot later ∈ after → later.instrumentId ≠ id) ∧
      (∀ u ∈ us, .onIncremental u ∈ history ∧ u.instrumentId = id) ∧
      us.map BookUpdate.seqNum = List.range' (snapshot.seqNum + 1) us.length ∧
      h.expectedSeq id = some (snapshot.seqNum + 1 + us.length) ∧
      h.books id = some (us.foldl OrderBook.applyUpdate ((OrderBook.new id).applySnapshot snapshot))

/-- The queue that a snapshot finds: its updates from the snapshot's sequence
number on are those that follow the snapshot, without a gap and in order. -/
def Contiguous (h : MarketDataHandler) (snapshot : BookSnapshot) : Prop :=
  let newer := ((h.pendingIncrementals snapshot.instrumentId).getD []).filter
    fun u => snapshot.seqNum ≤ u.seqNum
  newer.map BookUpdate.seqNum = List.range' (snapshot.seqNum + 1) newer.length

instance (h : MarketDataHandler) (snapshot : BookSnapshot) : Decidable (Contiguous h snapshot) :=
  inferInstanceAs (Decidable (_ = _))

/-- Every snapshot of the run that is for a subscribed instrument finds its
queue contiguous. -/
def ContiguousRun (ops : List Operation) : Prop :=
  ∀ before snapshot after h, ops = before ++ .onSnapshot snapshot :: after →
    new.run before = some h → (h.books snapshot.instrumentId).isSome = true →
      Contiguous h snapshot

end MarketDataHandler

/-! ## The steps of an instrument -/

namespace Slot

/-- `CorrectBook`, of the entries of the instrument. -/
def Correct (history : List Operation) (id : UInt64) (s : Slot) : Prop :=
  s.state = some .active →
    ∃ (snapshot : BookSnapshot) (before after : List Operation) (us : List BookUpdate),
      history = before ++ .onSnapshot snapshot :: after ∧ snapshot.instrumentId = id ∧
      (∀ later, .onSnapshot later ∈ after → later.instrumentId ≠ id) ∧
      (∀ u ∈ us, .onIncremental u ∈ history ∧ u.instrumentId = id) ∧
      us.map BookUpdate.seqNum = List.range' (snapshot.seqNum + 1) us.length ∧
      s.expectedSeq = some (snapshot.seqNum + 1 + us.length) ∧
      s.book = some (us.foldl OrderBook.applyUpdate ((OrderBook.new id).applySnapshot snapshot))

/-- What holds of the entries of an instrument after the operations of `history`. -/
structure Faithful (history : List Operation) (id : UInt64) (s : Slot) : Prop where
  rooted : ∀ book, s.book = some book → OrderBook.Rooted id book
  received : ∀ u ∈ s.queued, .onIncremental u ∈ history ∧ u.instrumentId = id
  correct : s.Correct history id

variable {history : List Operation} {s s' : Slot} {id : UInt64} {op : Operation}
  {events : List MarketDataEvent} {us : List BookUpdate}

theorem received_concat (op : Operation)
    (h : ∀ u ∈ us, .onIncremental u ∈ history ∧ u.instrumentId = id) :
    ∀ u ∈ us, .onIncremental u ∈ history ++ [op] ∧ u.instrumentId = id :=
  fun u hu => ⟨mem_append_left _ (h u hu).1, (h u hu).2⟩

theorem later_concat {after : List Operation}
    (hlast : ∀ later, .onSnapshot later ∈ after → later.instrumentId ≠ id)
    (hop : ∀ snapshot, op = .onSnapshot snapshot → snapshot.instrumentId ≠ id) :
    ∀ later, .onSnapshot later ∈ after ++ [op] → later.instrumentId ≠ id := by
  intro later hlater
  rcases mem_append.mp hlater with hl | hl
  · exact hlast later hl
  · exact hop later (mem_singleton.mp hl).symm

/-- An operation that changes nothing for the instrument, and is no snapshot for it. -/
theorem Faithful.unchanged (hs : s.Faithful history id)
    (hop : ∀ snapshot, op = .onSnapshot snapshot → snapshot.instrumentId ≠ id) :
    s.Faithful (history ++ [op]) id := by
  refine ⟨hs.rooted, received_concat op hs.received, fun hactive => ?_⟩
  obtain ⟨snapshot, before, after, us, rfl, hid, hlast, hus, hrest⟩ := hs.correct hactive
  exact ⟨snapshot, before, after ++ [op], us, by simp, hid, later_concat hlast hop,
    received_concat op hus, hrest⟩

/-- An instrument that is not active has no book to answer for. -/
theorem Faithful.inactive (hs : s.Faithful history id)
    (hbook : ∀ book, s'.book = some book → OrderBook.Rooted id book)
    (hqueued : ∀ u ∈ s'.queued, u ∈ s.queued ∨ op = .onIncremental u ∧ u.instrumentId = id)
    (hstate : s'.state ≠ some .active) : s'.Faithful (history ++ [op]) id := by
  refine ⟨hbook, fun u hu => ?_, fun hactive => absurd hactive hstate⟩
  rcases hqueued u hu with hold | ⟨rfl, hid⟩
  · exact received_concat op hs.received u hold
  · exact ⟨mem_append_right _ mem_cons_self, hid⟩

/-- An update joins the queue. -/
theorem Faithful.enqueue {u : BookUpdate} (hs : s.Faithful history u.instrumentId)
    {state : Option InstrumentState} (hstate : state ≠ some .active) :
    Faithful (history ++ [.onIncremental u]) u.instrumentId { s.enqueue u with state } := by
  refine hs.inactive hs.rooted (fun v hv => ?_) hstate
  rcases mem_append.mp hv with hv | hv
  · exact .inl hv
  · obtain rfl := mem_singleton.mp hv
    exact .inr ⟨rfl, rfl⟩

/-- The expected number after updates that follow a snapshot without a gap. -/
theorem seqAfter_of_range' {start : Nat}
    (h : us.map BookUpdate.seqNum = List.range' start us.length) :
    seqAfter start us = start + us.length := by
  rcases us.eq_nil_or_concat with rfl | ⟨front, u, rfl⟩
  · rfl
  · rw [concat_eq_append, map_append, length_append, length_singleton,
      range'_concat, map_singleton] at h
    have hlast := append_inj_right' h rfl
    have hu : u.seqNum = start + 1 * front.length := (cons.inj hlast).1
    simp only [concat_eq_append, seqAfter, foldl_append, foldl_cons,
      foldl_nil, length_append, length_singleton, hu]
    omega

/-- The expected update is applied, behind those applied before. -/
theorem Faithful.applied {u : BookUpdate} {book : OrderBook}
    (hs : s.Faithful history u.instrumentId) (hactive : s.state = some .active)
    (hexpected : s.expectedSeq = some u.seqNum) (hbook : s.book = some book) :
    Faithful (history ++ [.onIncremental u]) u.instrumentId
      { s with book := some (book.applyUpdate u), expectedSeq := some (u.seqNum + 1) } := by
  obtain ⟨snapshot, before, after, us, rfl, hid, hlast, hus, hnums, hseq, hold⟩ :=
    hs.correct hactive
  have hseq : u.seqNum = snapshot.seqNum + 1 + us.length :=
    Option.some.inj (hexpected.symm.trans hseq)
  refine ⟨?_, received_concat _ hs.received, fun _ => ⟨snapshot, before,
    after ++ [.onIncremental u], us ++ [u], by simp, hid, later_concat hlast nofun, ?_, ?_, ?_, ?_⟩⟩
  · rintro _ ⟨⟩
    exact (hs.rooted book hbook).applyUpdate u
  · exact forall_mem_append.mpr ⟨received_concat _ hus, by simp⟩
  · rw [map_append, hnums, length_append, length_singleton,
      range'_concat, map_singleton, hseq, Nat.one_mul]
  · rw [length_append, length_singleton, hseq]
    rfl
  · rw [foldl_append, Option.some.inj (hbook.symm.trans hold)]
    rfl

/-- A snapshot that finds the updates behind it queued. -/
theorem Faithful.recovered {snapshot : BookSnapshot} {book : OrderBook}
    (hs : s.Faithful history snapshot.instrumentId) (hbook : s.book = some book)
    (hnums : (s.replayed snapshot.seqNum).map BookUpdate.seqNum =
      List.range' (snapshot.seqNum + 1) (s.replayed snapshot.seqNum).length) :
    Faithful (history ++ [.onSnapshot snapshot]) snapshot.instrumentId
      ⟨some ((s.replayed snapshot.seqNum).foldl OrderBook.applyUpdate
          (book.applySnapshot snapshot)), some .active,
        some (seqAfter (snapshot.seqNum + 1) (s.replayed snapshot.seqNum)), none⟩ := by
  have hroot := hs.rooted book hbook
  refine ⟨?_, fun u hu => absurd hu not_mem_nil, fun _ => ⟨snapshot, history, [], _, rfl, rfl,
    fun _ hl => absurd hl not_mem_nil, ?_, hnums, ?_, ?_⟩⟩
  · rintro _ ⟨⟩
    exact (hroot.applySnapshot snapshot).foldl_applyUpdate _
  · exact fun u hu => received_concat _ hs.received u (mem_of_mem_filter hu)
  · rw [seqAfter_of_range' hnums]
  · rw [OrderBook.applySnapshot_eq hroot]

/-- Any operation, provided that a snapshot for a subscribed instrument finds
its queue contiguous. -/
theorem Faithful.step (hs : s.Faithful history op.instrument) (hstep : s.Step op s' events)
    (hqueue : ∀ snapshot, op = .onSnapshot snapshot → s.book.isSome = true →
      (s.replayed snapshot.seqNum).map BookUpdate.seqNum =
        List.range' (snapshot.seqNum + 1) (s.replayed snapshot.seqNum).length) :
    s'.Faithful (history ++ [op]) op.instrument := by
  cases hstep with
  | subscribe id =>
    refine hs.inactive ?_ (fun u hu => .inl hu) nofun
    rintro _ ⟨⟩
    exact OrderBook.rooted_new id
  | unsubscribe id => exact hs.inactive nofun (fun u hu => absurd hu not_mem_nil) nofun
  | queued u hactive hstale => exact hs.enqueue hactive
  | revived u | gap u => exact hs.enqueue nofun
  | old u | unmarked id => exact hs.unchanged nofun
  | applied u book hactive hexp hbook hseq => exact hs.applied hactive hexp hbook
  | unknown snapshot hbook =>
    refine hs.inactive hs.rooted (fun u hu => .inl hu) fun hactive => ?_
    obtain ⟨_, _, _, _, _, _, _, _, _, _, hb⟩ := hs.correct hactive
    exact absurd (hb.symm.trans hbook) nofun
  | recovered snapshot book hbook hseq hus =>
    exact hs.recovered hbook (hqueue snapshot rfl (by rw [hbook]; rfl))
  | marked id state hstate => exact hs.inactive hs.rooted (fun u hu => .inl hu) nofun

end Slot

/-! ## Runs -/

namespace MarketDataHandler

/-- What holds of the handler after the operations of `history`. -/
structure Inv (history : List Operation) (h : MarketDataHandler) : Prop where
  faithful : ∀ id, (h.slot id).Faithful history id

theorem Inv.correct {history : List Operation} {h : MarketDataHandler} (hi : Inv history h)
    (id : UInt64) : CorrectBook history h id := (hi.faithful id).correct

theorem inv_run {ops : List Operation} (hrange : ∀ op ∈ ops, SeqInRange op)
    (hqueue : ContiguousRun ops) : ∃ h, new.run ops = some h ∧ Inv ops h := by
  obtain ⟨h, hrun, -⟩ := sound_run hrange sound_new
  refine ⟨h, hrun, ?_⟩
  clear hrange
  induction ops using reverseRecOn generalizing h with
  | nil =>
    cases hrun
    exact ⟨fun _ => ⟨nofun, fun u hu => absurd hu not_mem_nil, nofun⟩⟩
  | append_singleton ops op ih =>
    rw [run_eq, Lib.Transition.run_concat] at hrun
    obtain ⟨mid, hmid, hop⟩ := Option.bind_eq_some_iff.mp hrun
    have hi := ih (fun before snapshot after h hsplit =>
      hqueue before snapshot (after ++ [op]) h (by simp [hsplit])) mid hmid
    obtain ⟨events, hstep, -, hframe⟩ := step_of_run hmid hop
    refine ⟨fun id => ?_⟩
    by_cases hid : id = op.instrument
    · subst hid
      refine (hi.faithful _).step hstep ?_
      rintro snapshot rfl
      exact hqueue ops snapshot [] mid rfl hmid
    · rw [hframe id hid]
      refine (hi.faithful id).unchanged ?_
      rintro snapshot rfl
      exact Ne.symm hid

/-- As long as every snapshot finds the updates behind it queued without a gap,
in order and once each, the handler gets through every sequence of operations
and an active instrument always has the right book. -/
theorem correctBook_of_contiguous (ops : List Operation) (hrange : ∀ op ∈ ops, SeqInRange op)
    (hqueue : ContiguousRun ops) :
    ∃ h, new.run ops = some h ∧ ∀ id, CorrectBook ops h id := by
  obtain ⟨h, hrun, hi⟩ := inv_run hrange hqueue
  exact ⟨h, hrun, hi.correct⟩

/-- An update is queued, the snapshot before it arrives, and the next update is
applied at once. -/
theorem correctBook_of_contiguous_three :
    let u (n : Nat) : BookUpdate := ⟨1, n, .bid, 100, n, 1⟩
    ∃ h, new.run [.subscribe 1, .onIncremental (u 4), .onSnapshot ⟨1, 3, [], []⟩,
        .onIncremental (u 5)] = some h ∧
      ∀ id, CorrectBook [.subscribe 1, .onIncremental (u 4), .onSnapshot ⟨1, 3, [], []⟩,
        .onIncremental (u 5)] h id := by
  intro u
  have hcontiguous : ContiguousRun [.subscribe 1, .onIncremental (u 4), .onSnapshot ⟨1, 3, [], []⟩,
      .onIncremental (u 5)] := by
    intro before snapshot after h hsplit hrun _
    -- The snapshot is the third operation.
    match before, hsplit with
    | [_, _], hsplit =>
      obtain ⟨rfl, rfl, hsnap, -⟩ : _ ∧ _ ∧ _ ∧ _ := by simpa using hsplit
      subst hsnap
      cases hrun
      decide
    | [], hsplit => simp at hsplit
    | [_], hsplit => simp at hsplit
    | [_, _, _], hsplit => simp at hsplit
    | _ :: _ :: _ :: _ :: _, hsplit => simp at hsplit
  exact correctBook_of_contiguous _ (by simp [SeqInRange, u]) hcontiguous

/-- Update 5 is queued and snapshot 3 arrives: the instrument is active, with
update 5 in its book and update 4 never seen. -/
theorem not_correctBook_after_gap :
    let ops : List Operation := [.subscribe 1, .onIncremental ⟨1, 5, .bid, 100, 7, 1⟩,
      .onSnapshot ⟨1, 3, [], []⟩]
    ∃ h, new.run ops = some h ∧ h.states 1 = some .active ∧ ¬ CorrectBook ops h 1 := by
  intro ops
  refine ⟨_, rfl, rfl, fun hc => ?_⟩
  obtain ⟨snapshot, before, after, us, hsplit, -, -, hus, hnums, hnext, -⟩ := hc rfl
  have hsnapshot : snapshot = ⟨1, 3, [], []⟩ := by
    have hmem : .onSnapshot snapshot ∈ ops := by simp [hsplit]
    simpa [ops] using hmem
  subst hsnapshot
  have hlen : us.length = 2 := by
    have hsix : 6 = 3 + 1 + us.length := Option.some.inj hnext
    omega
  have hfour : 4 ∈ us.map BookUpdate.seqNum := by
    rw [hnums, hlen]
    decide
  obtain ⟨u, hu, hseq⟩ := mem_map.mp hfour
  have hreceived : .onIncremental u ∈ ops := (hus u hu).1
  have hfive : u = ⟨1, 5, .bid, 100, 7, 1⟩ := by simpa [ops] using hreceived
  rw [hfive] at hseq
  exact absurd hseq (by decide)

end MarketDataHandler

end IronSbe.MarketData
