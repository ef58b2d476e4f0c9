import IronSbe.MarketData.Instrument

/-!
# What is queued

The handler queues the updates of an instrument that it does not know, as if it were about to
be initialized, and `subscribe` takes over a queue that it finds.

* `receivedSince`: the updates of an instrument since it was subscribed last.
* `Slot.Live.step`: the queue of one instrument.
* `alwaysLive_iff`: when the queues only hold updates that belong to a subscription.
-/

namespace IronSbe.MarketData

/-- One operation, for what has been received since the last `subscribe`. -/
def receive (id : UInt64) (us : List BookUpdate) : Operation → List BookUpdate
  | .subscribe instrumentId => if instrumentId = id then [] else us
  | .onIncremental u => if u.instrumentId = id then us ++ [u] else us
  | _ => us

/-- The updates for an instrument since the last call of `subscribe` for it. -/
def receivedSince (id : UInt64) (ops : List Operation) : List BookUpdate :=
  ops.foldl (receive id) []

theorem receivedSince_concat (id : UInt64) (ops : List Operation) (op : Operation) :
    receivedSince id (ops ++ [op]) = receive id (receivedSince id ops) op := by
  rw [receivedSince, List.foldl_append]
  rfl

theorem receive_onIncremental (u : BookUpdate) (us : List BookUpdate) :
    receive (Operation.onIncremental u).instrument us (.onIncremental u) = us ++ [u] :=
  if_pos rfl

theorem receive_of_ne {id : UInt64} {op : Operation} (h : id ≠ op.instrument)
    (us : List BookUpdate) : receive id us op = us := by
  cases op with
  | subscribe instrumentId | onIncremental u => exact if_neg (Ne.symm h)
  | unsubscribe | onSnapshot | markStale => rfl

namespace Slot

/-- An instrument with a queue is subscribed, and the queue is a part of what was received. -/
def Live (received : List BookUpdate) (s : Slot) : Prop :=
  ∀ us, s.pending = some us → s.book.isSome = true ∧ us.Sublist received

variable {s s' : Slot} {op : Operation} {events : List MarketDataEvent}
  {received : List BookUpdate}

theorem Live.queued_sublist (h : Live received s) : s.queued.Sublist received := by
  unfold queued
  cases hpending : s.pending with
  | none => exact List.nil_sublist _
  | some us => exact (h us hpending).2

theorem Live.mono (h : Live received s) (more : List BookUpdate) : Live (received ++ more) s :=
  fun us hus => ⟨(h us hus).1, (h us hus).2.trans (List.sublist_append_left _ _)⟩

/-- An update joins the queue of a subscribed instrument. -/
theorem Live.enqueue (h : Live received s) (u : BookUpdate) (hbook : s.book.isSome = true)
    (state : Option InstrumentState) :
    Live (received ++ [u]) { s.enqueue u with state := state } := by
  intro us hus
  cases hus
  exact ⟨hbook, h.queued_sublist.append_right [u]⟩

/-- One operation, that is no update for an unknown instrument and no subscription that finds
a queue. -/
theorem Live.step (h : Live received s) (hstep : s.Step op s' events)
    (hupdate : ∀ u, op = .onIncremental u → s.book.isSome = true)
    (hsubscribe : ∀ id, op = .subscribe id → s.queued = []) :
    Live (receive op.instrument received op) s' := by
  cases hstep with
  | subscribe id =>
    intro us hus
    refine ⟨rfl, ?_⟩
    have hnone := hsubscribe id rfl
    rw [queued, show s.pending = some us from hus, Option.getD_some] at hnone
    rw [hnone]
    exact List.nil_sublist _
  | unsubscribe id | recovered snapshot book hbook hseq hus =>
    rintro us ⟨⟩
  | queued u hactive hstale =>
    rw [receive_onIncremental]
    exact h.enqueue u (hupdate u rfl) s.state
  | revived u hstale | gap u expected hactive hexp hgap =>
    rw [receive_onIncremental]
    exact h.enqueue u (hupdate u rfl) _
  | old u expected hactive hexp hold =>
    rw [receive_onIncremental]
    exact h.mono [u]
  | applied u book hactive hexp hbook hseq =>
    rw [receive_onIncremental]
    intro us hus
    exact ⟨rfl, (h.mono [u] us hus).2⟩
  | unknown snapshot hbook | unmarked id hstate | marked id state hstate => exact h

end Slot

namespace MarketDataHandler

variable {h h' : MarketDataHandler}

/-- Every instrument with a queue is subscribed, and the queued updates were received after the
last call of `subscribe` for it. -/
def LiveQueues (before : List Operation) (h : MarketDataHandler) : Prop :=
  ∀ id us, h.pendingIncrementals id = some us →
    (h.books id).isSome = true ∧ us.Sublist (receivedSince id before)

/-- This is so at all times of a run. -/
def AlwaysLive (ops : List Operation) : Prop :=
  ∀ before after h, ops = before ++ after → new.run before = some h → LiveQueues before h

/-- An update is for a subscribed instrument, and a subscription finds nothing queued. -/
def Wanted (h : MarketDataHandler) : Operation → Prop
  | .onIncremental u => (h.books u.instrumentId).isSome = true
  | .subscribe id => (h.pendingIncrementals id).getD [] = []
  | _ => True

variable {before : List Operation} {op : Operation}

theorem liveQueues_exec (hrun : new.run before = some h) (hlive : LiveQueues before h)
    (hop : h.exec op = some h') (hwanted : Wanted h op) : LiveQueues (before ++ [op]) h' := by
  obtain ⟨events, hstep, -, hframe⟩ := step_of_run hrun hop
  intro id
  rw [receivedSince_concat]
  by_cases hid : id = op.instrument
  · subst hid
    have hslot : (h.slot op.instrument).Live (receivedSince op.instrument before) :=
      hlive op.instrument
    refine hslot.step hstep ?_ ?_
    · rintro u rfl
      exact hwanted
    · rintro id rfl
      exact hwanted
  · rw [receive_of_ne hid]
    obtain ⟨hbooks, -, -, hpending⟩ := slot_eq_iff.mp (hframe id hid)
    rw [hbooks, hpending]
    exact hlive id

/-- An update for an unknown instrument is queued. -/
theorem onIncremental_of_unknown (hrun : new.run before = some h) {u : BookUpdate}
    (hbook : h.books u.instrumentId = none) :
    h.onIncremental u = some (h.queue u) := by
  have hstate : h.states u.instrumentId = none := by
    have hlinked := (linked_of_run hrun u.instrumentId).state_isSome
    rw [slot_state, slot_book, hbook] at hlinked
    exact Option.isSome_eq_false_iff.mp hlinked |> Option.isNone_iff_eq_none.mp
  simp only [onIncremental, hstate, Option.getD_none]

theorem liveQueues_exec_iff (hrun : new.run before = some h) (hlive : LiveQueues before h) :
    (∀ h', h.exec op = some h' → LiveQueues (before ++ [op]) h') ↔ Wanted h op := by
  constructor
  · intro hall
    cases op with
    | onIncremental u =>
      cases hbook : h.books u.instrumentId with
      | some book => exact congrArg Option.isSome hbook
      | none =>
        have hafter := hall _ (onIncremental_of_unknown hrun hbook)
        have hqueue : (h.queue u).pendingIncrementals u.instrumentId =
            some ((h.pendingIncrementals u.instrumentId).getD [] ++ [u]) := Function.update_self ..
        have hsome := (hafter u.instrumentId _ hqueue).1
        rw [show (h.queue u).books = h.books from rfl, hbook] at hsome
        cases hsome
    | subscribe id =>
      have hafter := hall _ rfl
      show (h.pendingIncrementals id).getD [] = []
      cases hpending : h.pendingIncrementals id with
      | none => rfl
      | some us =>
        have hsub := (hafter id us hpending).2
        rw [receivedSince_concat, show receive id _ (.subscribe id) = [] from if_pos rfl] at hsub
        exact List.sublist_nil.mp hsub
    | unsubscribe | onSnapshot | markStale => trivial
  · intro hwanted h' hop
    exact liveQueues_exec hrun hlive hop hwanted

/-- The queues belong to live subscriptions at all times if and only if every update is for an
instrument that is subscribed when it arrives, and no instrument is subscribed while it has a
queue. -/
theorem alwaysLive_iff (ops : List Operation) :
    AlwaysLive ops ↔ ∀ h op, Calls ops h op → Wanted h op :=
  always_iff (A := fun _ _ => True) (by rintro id us ⟨⟩)
    (fun _ _ _ hrun _ hlive => liveQueues_exec_iff hrun hlive) (fun _ _ _ => trivial)

/-- An update arrives, and then its instrument is subscribed. -/
theorem not_alwaysLive_early_update :
    ¬ AlwaysLive [.onIncremental ⟨1, 4, .bid, 100, 3, 1⟩, .subscribe 1] := by
  intro hlive
  have hearly := hlive [.onIncremental ⟨1, 4, .bid, 100, 3, 1⟩] [.subscribe 1] _ rfl rfl
  have hsome := (hearly 1 [⟨1, 4, .bid, 100, 3, 1⟩] rfl).1
  cases hsome

end MarketDataHandler

end IronSbe.MarketData
