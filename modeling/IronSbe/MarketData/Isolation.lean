import IronSbe.Lib.Transition
import IronSbe.MarketData.Handler

/-!
# What an operation writes

The handler keeps its four maps by instrument.  Every operation is about one instrument,
and this file shows that it writes the entries of that instrument only, on each of its
branches (`writesOnly_exec`).  The events go to one channel for all instruments, and are
not part of a `Slot`.

The replay of a queue applies every update to the instrument that the update names.  It is
that of the queue, since `on_incremental` has put it there (`Keyed`).
-/

namespace IronSbe.MarketData

open Lib.Transition Option Function

/-- The instrument that an operation is about. -/
def Operation.instrument : Operation → UInt64
  | .subscribe id | .unsubscribe id | .markStale id => id
  | .onIncremental u => u.instrumentId
  | .onSnapshot snapshot => snapshot.instrumentId

/-- What the handler keeps for one instrument. -/
structure Slot where
  book : Option OrderBook
  state : Option InstrumentState
  expectedSeq : Option Nat
  pending : Option (List BookUpdate)

namespace MarketDataHandler

/-- What the handler has about an instrument. -/
def slot (h : MarketDataHandler) (id : UInt64) : Slot :=
  ⟨h.books id, h.states id, h.expectedSeq id, h.pendingIncrementals id⟩

/-- The updates in a queue are about the instrument of the queue. -/
def Keyed (h : MarketDataHandler) : Prop :=
  ∀ id us, h.pendingIncrementals id = some us → ∀ u ∈ us, u.instrumentId = id

variable {h h' g : MarketDataHandler}

/-! ## What an operation writes -/

/-- Only the entries of one instrument change. -/
def WritesOnly (id : UInt64) (h h' : MarketDataHandler) : Prop :=
  ∀ k, k ≠ id → h'.slot k = h.slot k

theorem WritesOnly.refl (id : UInt64) (h : MarketDataHandler) : WritesOnly id h h := fun _ _ => rfl

variable {id : UInt64} {u : BookUpdate} {snapshotSeq : Nat} {us : List BookUpdate}
  {snapshot : BookSnapshot} {op : Operation}

theorem WritesOnly.trans {h'' : MarketDataHandler} (hfirst : WritesOnly id h h')
    (hsecond : WritesOnly id h' h'') : WritesOnly id h h'' :=
  fun k hk => (hsecond k hk).trans (hfirst k hk)

theorem writesOnly_setState (h : MarketDataHandler) (id : UInt64) (state : InstrumentState) :
    WritesOnly id h (h.setState id state) := by
  intro k hk
  simp only [slot, setState, update_of_ne hk]

theorem writesOnly_queue (h : MarketDataHandler) (u : BookUpdate) :
    WritesOnly u.instrumentId h (h.queue u) := by
  intro k hk
  simp only [slot, queue, update_of_ne hk]

theorem writesOnly_applyUpdate (happly : h.applyUpdate u = some h') :
    WritesOnly u.instrumentId h h' := by
  intro k hk
  unfold applyUpdate at happly
  split at happly
  · rw [some.inj happly]
  · obtain ⟨next, -, rfl⟩ := map_eq_some_iff.mp happly
    split_ifs <;> simp only [slot, send, update_of_ne hk]

theorem writesOnly_onIncremental (hop : h.onIncremental u = some h') :
    WritesOnly u.instrumentId h h' := by
  unfold onIncremental at hop
  split at hop
  · cases hop
    exact writesOnly_queue h u
  · dsimp only at hop
    split_ifs at hop
    · cases hop
      exact .refl _ _
    · cases hop
      apply WritesOnly.trans _ (writesOnly_queue _ u)
      exact writesOnly_setState h _ _
    · exact writesOnly_applyUpdate hop
  · cases hop
    exact writesOnly_queue h u
  · cases hop
    exact (writesOnly_setState h _ _).trans (writesOnly_queue _ u)

theorem writesOnly_replay (hid : ∀ u ∈ us, u.instrumentId = id)
    (hreplay : replay snapshotSeq h us = some h') :
    WritesOnly id h h' := by
  induction us generalizing h with
  | nil =>
    cases hreplay
    exact .refl _ _
  | cons u rest ih =>
    obtain ⟨hu, hrest⟩ := List.forall_mem_cons.mp hid
    unfold replay at hreplay
    split_ifs at hreplay
    · obtain ⟨mid, hmid, hnext⟩ := bind_eq_some_iff.mp hreplay
      exact (hu ▸ writesOnly_applyUpdate hmid).trans (ih hrest hnext)
    · exact ih hrest hreplay

theorem Keyed.getD (hkeyed : Keyed h) (id : UInt64) :
    ∀ u ∈ (h.pendingIncrementals id).getD [], u.instrumentId = id := by
  cases hpending : h.pendingIncrementals id with
  | none => simp
  | some us => exact hkeyed id us hpending

theorem writesOnly_onSnapshot (hkeyed : Keyed h) (hop : h.onSnapshot snapshot = some h') :
    WritesOnly snapshot.instrumentId h h' := by
  unfold onSnapshot at hop
  dsimp only at hop
  split at hop
  · cases hop
    exact .refl _ _
  · obtain ⟨next, -, hnext⟩ := bind_eq_some_iff.mp hop
    obtain ⟨mid, hreplay, rfl⟩ := map_eq_some_iff.mp hnext
    have hfirst := writesOnly_replay (hkeyed.getD snapshot.instrumentId) hreplay
    intro k hk
    have hmid : mid.slot k = h.slot k := by
      rw [hfirst k hk]
      simp only [slot, update_of_ne hk]
    rw [← hmid]
    exact writesOnly_setState mid snapshot.instrumentId .active k hk

theorem writesOnly_exec (hkeyed : Keyed h) (hop : h.exec op = some h') :
    WritesOnly op.instrument h h' := by
  cases op with
  | subscribe id | unsubscribe id =>
    cases hop
    intro k hk
    simp only [Operation.instrument] at hk
    simp only [slot, subscribe, unsubscribe, update_of_ne hk]
  | onIncremental u => exact writesOnly_onIncremental hop
  | onSnapshot snapshot => exact writesOnly_onSnapshot hkeyed hop
  | markStale id =>
    cases hop
    unfold markStale
    split
    · exact .refl _ _
    · exact writesOnly_setState h _ _

/-- The fields of equal slots. -/
theorem slot_eq_iff : h.slot id = g.slot id ↔
    h.books id = g.books id ∧ h.states id = g.states id ∧ h.expectedSeq id = g.expectedSeq id ∧
      h.pendingIncrementals id = g.pendingIncrementals id := by
  simp only [slot, Slot.mk.injEq]

/-! ## The queues -/

theorem pendingIncrementals_applyUpdate (happly : h.applyUpdate u = some h') :
    h'.pendingIncrementals = h.pendingIncrementals := by
  unfold applyUpdate at happly
  split at happly
  · rw [some.inj happly]
  · obtain ⟨next, -, rfl⟩ := map_eq_some_iff.mp happly
    split_ifs <;> rfl

theorem pendingIncrementals_replay (hreplay : replay snapshotSeq h us = some h') :
    h'.pendingIncrementals = h.pendingIncrementals := by
  induction us generalizing h with
  | nil => rw [some.inj hreplay]
  | cons u rest ih =>
    unfold replay at hreplay
    split_ifs at hreplay
    · obtain ⟨mid, hmid, hnext⟩ := bind_eq_some_iff.mp hreplay
      rw [ih hnext, pendingIncrementals_applyUpdate hmid]
    · exact ih hreplay

theorem keyed_queue (hkeyed : Keyed h) (u : BookUpdate) : Keyed (h.queue u) := by
  intro id us hus v hv
  by_cases hid : id = u.instrumentId
  · subst hid
    simp only [queue, update_self, some.injEq] at hus
    rcases List.mem_append.mp (hus ▸ hv) with hv | hv
    · exact hkeyed.getD _ v hv
    · rw [List.mem_singleton.mp hv]
  · simp only [queue, update_of_ne hid] at hus
    exact hkeyed id us hus v hv

/-- Without the queue of an instrument. -/
theorem keyed_remove (hkeyed : Keyed h)
    (hpending : h'.pendingIncrementals = Function.update h.pendingIncrementals id none) :
    Keyed h' := by
  intro k us hus
  rw [hpending] at hus
  by_cases hk : k = id
  · rw [hk, update_self] at hus
    cases hus
  · rw [update_of_ne hk] at hus
    exact hkeyed k us hus

theorem keyed_onIncremental (hkeyed : Keyed h) (hop : h.onIncremental u = some h') : Keyed h' := by
  unfold onIncremental at hop
  split at hop
  · cases hop
    exact keyed_queue hkeyed u
  · dsimp only at hop
    split_ifs at hop
    · cases hop
      exact hkeyed
    · cases hop
      apply keyed_queue
      exact hkeyed
    · intro id us hus
      rw [pendingIncrementals_applyUpdate hop] at hus
      exact hkeyed id us hus
  · cases hop
    exact keyed_queue hkeyed u
  · cases hop
    apply keyed_queue
    exact hkeyed

theorem keyed_onSnapshot (hkeyed : Keyed h) (hop : h.onSnapshot snapshot = some h') : Keyed h' := by
  unfold onSnapshot at hop
  dsimp only at hop
  split at hop
  · cases hop
    exact hkeyed
  · obtain ⟨next, -, hnext⟩ := bind_eq_some_iff.mp hop
    obtain ⟨mid, hreplay, rfl⟩ := map_eq_some_iff.mp hnext
    exact keyed_remove hkeyed (pendingIncrementals_replay hreplay)

theorem keyed_exec (hkeyed : Keyed h) (hop : h.exec op = some h') :
    Keyed h' := by
  cases op with
  | subscribe id =>
    cases hop
    exact hkeyed
  | unsubscribe id =>
    cases hop
    exact keyed_remove hkeyed rfl
  | onIncremental u => exact keyed_onIncremental hkeyed hop
  | onSnapshot snapshot => exact keyed_onSnapshot hkeyed hop
  | markStale id =>
    cases hop
    unfold markStale
    split <;> exact hkeyed

theorem keyed_new : Keyed new := fun _ _ hus => nomatch hus

end MarketDataHandler

end IronSbe.MarketData
