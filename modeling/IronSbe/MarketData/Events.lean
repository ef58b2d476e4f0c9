import IronSbe.MarketData.Instrument

/-!
# What the events say

A consumer of the event channel follows the state of an instrument by the `StateChanged`
events, and looks at the top of a book again when there is a `TopOfBookChanged`.  Two things
are not announced: an update that takes a stale instrument into recovery, and a snapshot that
moves the best prices by itself.

* `Slot.Step.about`: an operation sends events of its instrument only.
* `mirrored_iff`, `announced_exec_iff`: the two halves of what the consumer relies on.
* `eventsMirror_iff`: when the events mirror the handler.
-/

namespace IronSbe.MarketData

open List

/-- The instrument that an event is about. -/
def MarketDataEvent.instrument : MarketDataEvent → UInt64
  | .bookUpdated id | .topOfBookChanged id | .stateChanged id _ | .gapDetected id _ _ => id

/-- One event, for a consumer that follows the state of an instrument. -/
def stateAfter (id : UInt64) (state : InstrumentState) : MarketDataEvent → InstrumentState
  | .stateChanged instrumentId new => if instrumentId = id then new else state
  | _ => state

/-- The state in the last `StateChanged` event for the instrument. -/
def lastState (id : UInt64) (events : List MarketDataEvent) : InstrumentState :=
  events.foldl (stateAfter id) .initializing

theorem lastState_append (id : UInt64) (sent events : List MarketDataEvent) :
    lastState id (sent ++ events) = events.foldl (stateAfter id) (lastState id sent) :=
  foldl_append ..

/-- Events that are about something else. -/
theorem foldl_stateAfter_unchanged {id : UInt64} {events : List MarketDataEvent}
    (h : ∀ state, .stateChanged id state ∉ events) (state : InstrumentState) :
    events.foldl (stateAfter id) state = state := by
  induction events with
  | nil => rfl
  | cons event rest ih =>
    have hevent : stateAfter id state event = state := by
      cases event with
      | stateChanged instrumentId new =>
        refine if_neg ?_
        rintro rfl
        exact h new mem_cons_self
      | bookUpdated | topOfBookChanged | gapDetected => rfl
    rw [foldl_cons, hevent]
    exact ih fun state hmem => h state (mem_cons_of_mem event hmem)

namespace OrderBook

variable {id : UInt64} {book : OrderBook} {u : BookUpdate} {us : List BookUpdate}
  {event : MarketDataEvent}

/-- One of the updates moves the best prices. -/
def Moves : OrderBook → List BookUpdate → Prop
  | _, [] => False
  | book, u :: us => TopDiffers book (book.applyUpdate u) ∨ Moves (book.applyUpdate u) us

theorem topDiffers_irrefl (book : OrderBook) : ¬ TopDiffers book book :=
  not_or.mpr ⟨not_not.mpr rfl, not_not.mpr rfl⟩

theorem TopDiffers.of_not_left {other final : OrderBook} (hsame : ¬ TopDiffers book final) :
    TopDiffers other final ↔ TopDiffers other book := by
  obtain ⟨hbid, hask⟩ := not_or.mp hsame
  unfold TopDiffers
  rw [not_not.mp hbid, not_not.mp hask]

/-- Updates of which none moves the best prices. -/
theorem not_topDiffers_foldl (h : ¬ Moves book us) :
    ¬ TopDiffers book (us.foldl applyUpdate book) := by
  induction us generalizing book with
  | nil => exact topDiffers_irrefl book
  | cons u rest ih =>
    obtain ⟨hfirst, hrest⟩ := not_or.mp h
    rw [foldl_cons, TopDiffers.of_not_left (ih hrest)]
    exact hfirst

theorem mem_updateEvents : event ∈ book.updateEvents id u ↔
    event = .bookUpdated id ∨
      event = .topOfBookChanged id ∧ TopDiffers book (book.applyUpdate u) := by
  unfold updateEvents
  split_ifs with htop <;> simp [htop]

/-- The events of several updates. -/
theorem mem_updatesEvents (hmem : event ∈ book.updatesEvents id us) :
    event = .bookUpdated id ∨ event = .topOfBookChanged id := by
  induction us generalizing book with
  | nil => cases hmem
  | cons u rest ih =>
    rcases mem_append.mp hmem with hfirst | hrest
    · exact (mem_updateEvents.mp hfirst).imp_right And.left
    · exact ih hrest

theorem topOfBookChanged_mem_updatesEvents :
    .topOfBookChanged id ∈ book.updatesEvents id us ↔ Moves book us := by
  induction us generalizing book with
  | nil => exact iff_of_false not_mem_nil not_false
  | cons u rest ih =>
    rw [updatesEvents, mem_append, ih, mem_updateEvents]
    simp only [reduceCtorEq, true_and, false_or]
    rfl

end OrderBook

namespace Slot

variable {s s' : Slot} {op : Operation} {events : List MarketDataEvent}

/-- The instrument is subscribed once, and there are no calls but those for a subscribed
instrument. -/
def OnSubscribed (s : Slot) : Operation → Prop
  | .subscribe _ => s.book = none
  | .unsubscribe _ => False
  | .onIncremental _ | .onSnapshot _ | .markStale _ => s.book.isSome = true

/-- An instrument that is subscribed stays it. -/
theorem Step.book_isSome (hstep : s.Step op s' events) (hlive : s.OnSubscribed op) :
    s'.book.isSome = true := by
  cases hstep with
  | subscribe | applied | recovered => rfl
  | unsubscribe id => exact hlive.elim
  | queued | revived | old | gap | unknown | unmarked | marked => exact hlive

/-- The events of an operation are about its instrument. -/
theorem Step.about (hstep : s.Step op s' events) :
    ∀ event ∈ events, event.instrument = op.instrument := by
  cases hstep with
  | subscribe | unsubscribe | queued | revived | old | unknown | unmarked =>
    intro event hmem
    cases hmem
  | gap u expected hactive hexp hgap =>
    intro event hmem
    rcases mem_pair.mp hmem with rfl | rfl <;> rfl
  | applied u book hactive hexp hbook hseq =>
    intro event hmem
    rcases OrderBook.mem_updateEvents.mp hmem with rfl | ⟨rfl, -⟩ <;> rfl
  | recovered snapshot book hbook hseq hus =>
    intro event hmem
    rcases mem_append.mp hmem with hloop | hend
    · rcases OrderBook.mem_updatesEvents hloop with rfl | rfl <;> rfl
    · rcases mem_pair.mp hend with rfl | rfl <;> rfl
  | marked id state hstate =>
    intro event hmem
    rw [mem_singleton.mp hmem]
    rfl

/-- The consumer follows the state, but for a stale instrument that is revived. -/
theorem Step.state_announced {last : InstrumentState} (hstep : s.Step op s' events)
    (hlive : s.OnSubscribed op) (hstale : ∀ u, op = .onIncremental u → s.state ≠ some .stale)
    (hunknown : s.book = none → last = .initializing)
    (hlast : ∀ state, s.state = some state → last = state) :
    ∀ state, s'.state = some state → events.foldl (stateAfter op.instrument) last = state := by
  cases hstep with
  | subscribe id =>
    intro state hstate
    exact (hunknown hlive).trans (Option.some.inj hstate)
  | unsubscribe id =>
    rintro state ⟨⟩
  | revived u hrevived => exact absurd hrevived (hstale u rfl)
  | queued | old | unknown | unmarked => exact hlast
  | gap u expected hactive hexp hgap | marked id old hold =>
    intro state hstate
    exact (if_pos rfl).trans (Option.some.inj hstate)
  | applied u book hactive hexp hbook hseq =>
    intro state hstate
    rw [foldl_stateAfter_unchanged]
    · exact hlast state hstate
    · intro new hmem
      simp only [OrderBook.mem_updateEvents, reduceCtorEq, false_and, or_false] at hmem
  | recovered snapshot book hbook hseq hus =>
    intro state hstate
    rw [foldl_append]
    exact (if_pos rfl).trans (Option.some.inj hstate)

/-- The best prices of a snapshot are announced if and only if one of the queued updates moves
them, where they are others than those of the book. -/
theorem Step.snapshot_announced_iff {snapshot : BookSnapshot} {book : OrderBook}
    (hstep : s.Step (.onSnapshot snapshot) s' events) (hbook : s.book = some book) :
    (∀ book', s'.book = some book' → OrderBook.TopDiffers book book' →
      .topOfBookChanged snapshot.instrumentId ∈ events) ↔
    (OrderBook.TopDiffers book (book.applySnapshot snapshot) →
      OrderBook.Moves (book.applySnapshot snapshot) (s.replayed snapshot.seqNum)) := by
  cases hstep with
  | unknown snapshot hnone =>
    rw [hbook] at hnone
    cases hnone
  | recovered snapshot old hold hseq hus =>
    obtain rfl := Option.some.inj (hold.symm.trans hbook)
    simp only [Option.some.injEq, forall_eq', mem_append,
      OrderBook.topOfBookChanged_mem_updatesEvents, mem_cons, reduceCtorEq, not_mem_nil,
      or_false]
    by_cases hmoves : OrderBook.Moves (old.applySnapshot snapshot) (s.replayed snapshot.seqNum)
    · exact iff_of_true (fun _ => hmoves) (fun _ => hmoves)
    · rw [OrderBook.TopDiffers.of_not_left (OrderBook.not_topDiffers_foldl hmoves)]

/-- The best prices that another operation moves are announced. -/
theorem Step.update_announced {book book' : OrderBook} (hstep : s.Step op s' events)
    (hlive : s.OnSubscribed op)
    (hsnapshot : ∀ snapshot, op ≠ .onSnapshot snapshot) (hbook : s.book = some book)
    (hbook' : s'.book = some book') (hdiffers : OrderBook.TopDiffers book book') :
    .topOfBookChanged op.instrument ∈ events := by
  -- where the book stays, its best prices do
  have hsame : s'.book ≠ s.book := by
    intro heq
    rw [hbook', hbook, Option.some.injEq] at heq
    rw [heq] at hdiffers
    exact OrderBook.topDiffers_irrefl book hdiffers
  cases hstep with
  | subscribe id =>
    rw [show s.book = none from hlive] at hbook
    cases hbook
  | unsubscribe id => cases hbook'
  | queued | revived | old | gap | unmarked | marked => exact absurd rfl hsame
  | applied u old hactive hexp hold hseq =>
    cases hold.symm.trans hbook
    cases hbook'
    exact OrderBook.mem_updateEvents.mpr (.inr ⟨rfl, hdiffers⟩)
  | unknown snapshot hnone | recovered snapshot old hold hseq hus =>
    exact absurd rfl (hsnapshot snapshot)

end Slot

namespace MarketDataHandler

variable {h h' : MarketDataHandler} {ops before : List Operation} {op : Operation}

/-- All calls are for subscribed instruments. -/
def CallsOnSubscribed (ops : List Operation) : Prop :=
  ∀ h op, Calls ops h op → (h.slot op.instrument).OnSubscribed op

/-- The last `StateChanged` event for a subscribed instrument, or `Initializing` if there was
none, is its state. -/
def Mirrored (h : MarketDataHandler) : Prop :=
  ∀ id state, h.states id = some state → lastState id h.sent = state

/-- If the best prices of a book are others than before, there was a `TopOfBookChanged` event
in between. -/
def Announced (h h' : MarketDataHandler) : Prop :=
  ∀ id book book', h.books id = some book → h'.books id = some book' →
    OrderBook.TopDiffers book book' →
      ∃ events, h'.sent = h.sent ++ events ∧ .topOfBookChanged id ∈ events

/-- The events mirror the states at all times and the best prices from one operation to the
next. -/
structure EventsMirror (ops : List Operation) : Prop where
  states : ∀ before after h, ops = before ++ after → new.run before = some h → Mirrored h
  prices : ∀ h op h', Calls ops h op → h.exec op = some h' → Announced h h'

/-- No update meets a stale instrument. -/
def NotRevived (h : MarketDataHandler) (op : Operation) : Prop :=
  ∀ u, op = .onIncremental u → h.states u.instrumentId ≠ some .stale

/-- A snapshot whose own best prices are not those of the book finds a queued update that moves
them again.  What panics is no matter. -/
def SnapshotAnnounced (h : MarketDataHandler) (op : Operation) : Prop :=
  ∀ snapshot book, op = .onSnapshot snapshot → h.books snapshot.instrumentId = some book →
    (h.slot snapshot.instrumentId).Returns op →
    OrderBook.TopDiffers book (book.applySnapshot snapshot) →
      OrderBook.Moves (book.applySnapshot snapshot)
        ((h.slot snapshot.instrumentId).replayed snapshot.seqNum)

/-! ## States -/

/-- One operation, for the consumer that follows some instrument. -/
theorem lastState_exec_of_ne (hrun : new.run before = some h) (hop : h.exec op = some h')
    {id : UInt64} (hid : id ≠ op.instrument) : lastState id h'.sent = lastState id h.sent := by
  obtain ⟨events, hstep, hsent, -⟩ := step_of_run hrun hop
  rw [hsent, lastState_append]
  refine foldl_stateAfter_unchanged (fun state hmem => ?_) _
  exact hid (hstep.about _ hmem)

/-- There was no event for an instrument that is not subscribed. -/
theorem lastState_of_unknown (hlive : CallsOnSubscribed ops)
    {after : List Operation} (hops : ops = before ++ after) (hrun : new.run before = some h)
    {id : UInt64} (hbook : h.books id = none) : lastState id h.sent = .initializing := by
  have hall := always_iff (C := fun _ _ => True) (fun _ _ => rfl) ?_ hlive
    (P := fun _ h => ∀ id, h.books id = none → lastState id h.sent = .initializing)
  · exact hall.mpr (fun _ _ _ => trivial) before after h hops hrun id hbook
  intro before h op hrun hlive hsilent
  refine iff_of_true (fun h' hop id hbook => ?_) trivial
  obtain ⟨events, hstep, -, hframe⟩ := step_of_run hrun hop
  by_cases hid : id = op.instrument
  · -- the instrument of a call is subscribed afterwards
    subst hid
    have hsome : (h'.books op.instrument).isSome = true := hstep.book_isSome hlive
    rw [hbook] at hsome
    cases hsome
  · rw [lastState_exec_of_ne hrun hop hid]
    apply hsilent
    rw [← hbook]
    exact (slot_eq_iff.mp (hframe id hid)).1.symm

/-- One operation keeps the consumer up to date if and only if it is no update that revives a
stale instrument. -/
theorem mirrored_exec_iff (hrun : new.run before = some h)
    (hlive : (h.slot op.instrument).OnSubscribed op)
    (hsilent : ∀ id, h.books id = none → lastState id h.sent = .initializing)
    (hmirrored : Mirrored h) :
    (∀ h', h.exec op = some h' → Mirrored h') ↔ NotRevived h op := by
  constructor
  · rintro hall u rfl hstale
    -- the state is `Recovering` then, and nothing was sent
    have hop : h.exec (.onIncremental u) =
        some ((h.setState u.instrumentId .recovering).queue u) := by
      simp only [exec, onIncremental, hstale, Option.getD_some]
    have hbefore := hmirrored u.instrumentId .stale hstale
    have hafter := hall _ hop u.instrumentId .recovering (Function.update_self ..)
    rw [sent_queue, sent_setState, hbefore] at hafter
    cases hafter
  · intro hstale h' hop id state hstate
    obtain ⟨events, hstep, hsent, hframe⟩ := step_of_run hrun hop
    by_cases hid : id = op.instrument
    · subst hid
      rw [hsent, lastState_append]
      refine hstep.state_announced hlive ?_ (hsilent _) (hmirrored op.instrument) state hstate
      rintro u rfl
      exact hstale u rfl
    · rw [lastState_exec_of_ne hrun hop hid]
      apply hmirrored
      rw [← hstate]
      exact (slot_eq_iff.mp (hframe id hid)).2.1.symm

theorem mirrored_iff (hlive : CallsOnSubscribed ops) :
    (∀ before after h, ops = before ++ after → new.run before = some h → Mirrored h) ↔
      ∀ h op, Calls ops h op → NotRevived h op := by
  refine always_iff (A := fun h op => (h.slot op.instrument).OnSubscribed op ∧
    ∀ id, h.books id = none → lastState id h.sent = .initializing) (by rintro id state ⟨⟩) ?_ ?_
  · intro before h op hrun hcall hmirrored
    exact mirrored_exec_iff hrun hcall.1 hcall.2 hmirrored
  · intro h op hcall
    refine ⟨hlive h op hcall, fun id hbook => ?_⟩
    obtain ⟨before, after, hops, hrun⟩ := hcall
    exact lastState_of_unknown hlive hops hrun hbook

/-! ## Prices -/

/-- The best prices that one operation moves are announced, but for those of a snapshot. -/
theorem announced_exec_iff (hrun : new.run before = some h)
    (hlive : (h.slot op.instrument).OnSubscribed op) :
    (∀ h', h.exec op = some h' → Announced h h') ↔ SnapshotAnnounced h op := by
  constructor
  · rintro hall snapshot book rfl hbook hreturns
    have hsome := (exec_isSome_iff hrun (.onSnapshot snapshot)).mpr hreturns
    obtain ⟨h', hop⟩ := Option.isSome_iff_exists.mp hsome
    obtain ⟨events, hstep, hsent, -⟩ := step_of_run hrun hop
    refine (hstep.snapshot_announced_iff hbook).mp fun book' hbook' hdiffers => ?_
    obtain ⟨events', hsent', hmem⟩ := hall h' hop _ book book' hbook hbook' hdiffers
    rw [hsent] at hsent'
    rw [append_cancel_left hsent']
    exact hmem
  · intro hsnapshot h' hop id book book' hbook hbook' hdiffers
    obtain ⟨events, hstep, hsent, hframe⟩ := step_of_run hrun hop
    refine ⟨events, hsent, ?_⟩
    by_cases hid : id = op.instrument
    · subst hid
      by_cases his : ∃ snapshot, op = .onSnapshot snapshot
      · obtain ⟨snapshot, rfl⟩ := his
        have hreturns := (exec_isSome_iff hrun _).mp (Option.isSome_of_eq_some hop)
        exact (hstep.snapshot_announced_iff hbook).mpr
          (hsnapshot snapshot book rfl hbook hreturns) book' hbook' hdiffers
      · exact hstep.update_announced hlive (not_exists.mp his) hbook hbook' hdiffers
    · rw [(slot_eq_iff.mp (hframe id hid)).1, hbook] at hbook'
      rw [Option.some.inj hbook'] at hdiffers
      exact absurd hdiffers (OrderBook.topDiffers_irrefl book')

/-- For calls on subscribed instruments, the events mirror the handler if and only if no update
meets a stale instrument, and no snapshot moves the best prices of a book without a queued
update that does so too. -/
theorem eventsMirror_iff (hlive : CallsOnSubscribed ops) :
    EventsMirror ops ↔
      ∀ h op, Calls ops h op → NotRevived h op ∧ SnapshotAnnounced h op := by
  constructor
  · intro hmirror h op hcall
    refine ⟨(mirrored_iff hlive).mp hmirror.states h op hcall, ?_⟩
    obtain ⟨before, after, -, hrun⟩ := id hcall
    refine (announced_exec_iff hrun (hlive h op hcall)).mp fun h' hop => ?_
    exact hmirror.prices h op h' hcall hop
  · intro hcalls
    refine ⟨(mirrored_iff hlive).mpr fun h op hcall => (hcalls h op hcall).1, ?_⟩
    intro h op h' hcall hop
    obtain ⟨before, after, -, hrun⟩ := id hcall
    exact (announced_exec_iff hrun (hlive h op hcall)).mpr (hcalls h op hcall).2 h' hop

/-- An update is queued, the snapshot moves the best bid, and so does the queued update. -/
theorem eventsMirror_of_queued :
    EventsMirror [.subscribe 1, .onIncremental ⟨1, 8, .bid, 100, 3, 1⟩,
      .onSnapshot ⟨1, 7, [⟨90, 2, 1⟩], []⟩] := by
  refine (eventsMirror_iff (EachCall.calls ?_)).mpr (EachCall.calls ?_)
  · refine ⟨rfl, ?_⟩
    rintro _ ⟨⟩
    refine ⟨rfl, ?_⟩
    rintro _ ⟨⟩
    refine ⟨rfl, ?_⟩
    rintro _ ⟨⟩
    trivial
  · refine ⟨⟨by rintro _ ⟨⟩, by rintro _ _ ⟨⟩⟩, ?_⟩
    rintro _ ⟨⟩
    refine ⟨⟨?_, by rintro _ _ ⟨⟩⟩, ?_⟩
    · rintro _ ⟨⟩
      decide
    rintro _ ⟨⟩
    refine ⟨⟨by rintro _ ⟨⟩, ?_⟩, ?_⟩
    · rintro _ _ ⟨⟩ ⟨⟩ - -
      exact .inl (by decide)
    · rintro _ ⟨⟩
      trivial

/-- A stale instrument gets an update. -/
theorem not_eventsMirror_revived :
    let ops : List Operation :=
      [.subscribe 1, .markStale 1, .onIncremental ⟨1, 8, .bid, 100, 3, 1⟩]
    CallsOnSubscribed ops ∧ ¬ EventsMirror ops := by
  refine ⟨EachCall.calls ⟨rfl, ?_⟩, ?_⟩
  · rintro _ ⟨⟩
    refine ⟨rfl, ?_⟩
    rintro _ ⟨⟩
    refine ⟨rfl, ?_⟩
    rintro _ ⟨⟩
    trivial
  · intro hmirror
    have hstate := hmirror.states _ [] _ (append_nil _).symm rfl 1 .recovering rfl
    exact absurd hstate (by decide)

end MarketDataHandler

end IronSbe.MarketData
