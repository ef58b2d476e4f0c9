import IronSbe.MarketData.Instrument

/-!
# The maps of the handler fit together

The handler keeps four maps by instrument, and every operation updates them one after the
other.  `Slot.Linked` says how the entries of an instrument belong together, and `Slot.Sound`
adds that no number in the queue is the last one.  Then no operation with a number in range
panics, whatever the replay of the queue applies.

* `sound_exec`, `sound_run`: one operation, and any sequence of them.
* `maps_consistent`: the key sets are equal, and an active instrument has no queue and
  expects the number behind that of its book.
-/

namespace IronSbe.MarketData

open List

/-- The entries of one instrument belong together.  A queue may be there without a book: an
update for an instrument that is not subscribed is queued too. -/
structure Slot.Sound (s : Slot) : Prop extends s.Linked where
  inRange : ∀ u ∈ s.queued, u.seqNum + 1 < 2 ^ 64

namespace Slot

variable {s s' : Slot} {op : Operation} {events : List MarketDataEvent}

open MarketDataHandler

theorem Sound.returns (hs : s.Sound) (hrange : SeqInRange op) : s.Returns op := by
  cases op with
  | subscribe id | unsubscribe id | markStale id => trivial
  | onIncremental u =>
    simp only [SeqInRange] at hrange
    exact fun _ _ => by omega
  | onSnapshot snapshot =>
    simp only [SeqInRange] at hrange
    exact fun _ => ⟨by omega, fun u hu => hs.inRange u (mem_of_mem_filter hu)⟩

theorem Sound.step (hs : s.Sound) (hrange : SeqInRange op) (hstep : s.Step op s' events) :
    s'.Sound := by
  refine ⟨linked_step hs.toLinked hstep, ?_⟩
  cases hstep with
  | unsubscribe | recovered => exact fun u hu => absurd hu not_mem_nil
  | queued u | revived u | gap u =>
    simp only [SeqInRange] at hrange
    exact forall_mem_append.mpr ⟨hs.inRange, forall_mem_singleton.mpr (by omega)⟩
  | _ => exact hs.inRange

end Slot

namespace MarketDataHandler

variable {h : MarketDataHandler}

/-- Every slot is sound, and the queues are about their instruments. -/
structure Sound (h : MarketDataHandler) : Prop where
  keyed : Keyed h
  slot : ∀ id, (h.slot id).Sound

theorem sound_new : Sound new :=
  ⟨keyed_new, fun _ => ⟨Slot.linked_empty, fun _ hu => absurd hu not_mem_nil⟩⟩

/-- No operation with a sequence number in range panics, and all keep the slots sound. -/
theorem sound_exec (hs : Sound h) {op : Operation} (hrange : SeqInRange op) :
    ∃ h', h.exec op = some h' ∧ Sound h' := by
  have hown := hs.slot op.instrument
  have hreturns : (h.exec op).isSome = true := by
    rw [family_exec.step_isSome hs.keyed]
    exact (Slot.exec_isSome_iff hown.toLinked op).mpr (hown.returns hrange)
  obtain ⟨h', hop⟩ := Option.isSome_iff_exists.mp hreturns
  refine ⟨h', hop, keyed_exec hs.keyed hop, fun id => ?_⟩
  by_cases hid : id = op.instrument
  · obtain ⟨events, hexec, -⟩ := slot_exec_of_exec hs.keyed hop
    rw [hid]
    exact hown.step hrange (Slot.step_of_exec hown.toLinked hexec)
  · rw [writesOnly_exec hs.keyed hop id hid]
    exact hs.slot id

theorem sound_run {ops : List Operation} (hrange : ∀ op ∈ ops, SeqInRange op) (hs : Sound h) :
    ∃ h', h.run ops = some h' ∧ Sound h' := by
  induction ops generalizing h with
  | nil => exact ⟨h, rfl, hs⟩
  | cons op ops ih =>
    rw [List.forall_mem_cons] at hrange
    obtain ⟨mid, hmid, hmidSound⟩ := sound_exec hs hrange.1
    obtain ⟨h', hrun, hsound⟩ := ih hrange.2 hmidSound
    refine ⟨h', ?_, hsound⟩
    rw [run_eq, Lib.Transition.run, hmid]
    exact hrun

/-- After any operations with sequence numbers below `u64::MAX`, none of which panics, the
books, the states and the expected numbers are kept for the same instruments, and an active
instrument has no queue and expects the number that follows the last one in its book. -/
theorem maps_consistent (ops : List Operation) (hrange : ∀ op ∈ ops, SeqInRange op) :
    ∃ h, new.run ops = some h ∧
      {id | (h.books id).isSome} = {id | (h.states id).isSome} ∧
      {id | (h.books id).isSome} = {id | (h.expectedSeq id).isSome} ∧
      ∀ id, h.states id = some .active → h.pendingIncrementals id = none ∧
        ∃ book, h.books id = some book ∧ h.expectedSeq id = some (book.lastUpdateSeq + 1) := by
  obtain ⟨h, hrun, hs⟩ := sound_run hrange sound_new
  refine ⟨h, hrun, ?_, ?_, fun id => (hs.slot id).active⟩
  · apply Set.ext
    intro id
    show (h.slot id).book.isSome ↔ (h.slot id).state.isSome
    rw [(hs.slot id).state_isSome]
  · apply Set.ext
    intro id
    show (h.slot id).book.isSome ↔ (h.slot id).expectedSeq.isSome
    rw [(hs.slot id).expectedSeq_isSome]

/-- The replay of updates 9 and 4 leaves the instrument active behind update 4. -/
theorem maps_consistent_replay :
    let u (n : Nat) : BookUpdate := ⟨1, n, .ask, 50, n, 1⟩
    ∃ h, new.run [.onIncremental (u 9), .subscribe 1, .onIncremental (u 4),
        .onSnapshot ⟨1, 3, [], []⟩] = some h ∧
      h.states 1 = some .active ∧ h.expectedSeq 1 = some 5 ∧ h.pendingIncrementals 1 = none := by
  intro u
  obtain ⟨h, hrun, -, -, hactive⟩ := maps_consistent [.onIncremental (u 9), .subscribe 1,
    .onIncremental (u 4), .onSnapshot ⟨1, 3, [], []⟩] (by simp [SeqInRange, u])
  cases hrun
  exact ⟨_, rfl, rfl, rfl, (hactive 1 rfl).1⟩

end MarketDataHandler

end IronSbe.MarketData
