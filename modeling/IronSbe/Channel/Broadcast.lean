import Mathlib.Algebra.GroupWithZero.Nat
import IronSbe.Lib.Numbered
import IronSbe.Lib.Transition

/-!
# The broadcast channel

One sender numbers its items and keeps the last ones in a buffer; each receiver has the number
that it wants next.  `recv` looks for that very number, and `recv_all` takes every number from
it on.

`send` drops old items in a loop, so it has fuel here, and `none` stands for a call that does
not come back: the loop has not ended yet, or the sequence number is the last one of a `u64`.

* `eq_of_send`, `send_of_pos`: what `send` does, and that there is enough fuel.
* `send_returns_iff`: when it comes back.
* `Holds.recv_eq`, `Holds.recvAll_eq`: what the two calls find in the buffer.
* `holds_step`: the buffer is the end of all that was sent, after every call.
-/

namespace IronSbe.Channel.Broadcast

open Lib Lib.Numbered Lib.Transition List

/-! ## The code -/

/-- What the sender and the receivers share under the lock. -/
structure BroadcastState (T : Type) where
  /-- The number of an item comes before the item. -/
  buffer : List (Nat × T)
  sequence : Nat
  capacity : Nat

/-- The sender with the shared state. -/
structure BroadcastSender (T : Type) where
  state : BroadcastState T
  /-- A copy of the sequence number that is read without the lock. -/
  sequence : Nat

/-- A receiver is the number of the next message that it wants. -/
structure BroadcastReceiver where
  nextSeq : Nat
  deriving DecidableEq, Repr

variable {T : Type}

/-- `while state.buffer.len() >= state.capacity { state.buffer.pop_front(); }`. -/
def evict (capacity : Nat) : Nat → List (Nat × T) → Option (List (Nat × T))
  | 0, _ => none
  | fuel + 1, buffer =>
    if capacity ≤ buffer.length then evict capacity fuel buffer.tail else some buffer

namespace BroadcastSender

/-- `broadcast::channel`. -/
def new (capacity : Nat) : BroadcastSender T := ⟨⟨[], 0, capacity⟩, 0⟩

/-- The sequence number of the item, and the sender afterwards. -/
def send (fuel : Nat) (tx : BroadcastSender T) (item : T) : Option (Nat × BroadcastSender T) :=
  let seq := tx.state.sequence
  if seq + 1 < 2 ^ 64 then
    (evict tx.state.capacity fuel tx.state.buffer).map fun buffer =>
      (seq, ⟨⟨buffer ++ [(seq, item)], seq + 1, tx.state.capacity⟩, seq + 1⟩)
  else none

/-- A receiver of the messages from now on. -/
def subscribe (tx : BroadcastSender T) : BroadcastReceiver := ⟨tx.sequence⟩

/-- A receiver that starts with what is still buffered. -/
def subscribeFromStart (tx : BroadcastSender T) : BroadcastReceiver :=
  ⟨(tx.state.buffer.head?.map Prod.fst).getD 0⟩

end BroadcastSender

namespace BroadcastReceiver

/-- The message with the wanted number, if it is buffered. -/
def recv (rx : BroadcastReceiver) (state : BroadcastState T) :
    Option (Nat × T) × BroadcastReceiver :=
  match state.buffer.find? (fun m => m.1 == rx.nextSeq) with
  | some m => (some m, ⟨rx.nextSeq + 1⟩)
  | none => (none, rx)

/-- Everything buffered from the wanted number on. -/
def recvAll (rx : BroadcastReceiver) (state : BroadcastState T) :
    List (Nat × T) × BroadcastReceiver :=
  state.buffer.foldl
    (fun acc m => if acc.2.nextSeq ≤ m.1 then (acc.1 ++ [m], ⟨m.1 + 1⟩) else acc) ([], rx)

/-- What calls of `recv` return until one returns `None`. -/
def recvUntilNone (state : BroadcastState T) : Nat → BroadcastReceiver → Option (List (Nat × T))
  | 0, _ => none
  | fuel + 1, rx =>
    match rx.recv state with
    | (some m, rx') => (recvUntilNone state fuel rx').map (m :: ·)
    | (none, _) => some []

end BroadcastReceiver

/-! ## Sending -/

variable {fuel capacity : Nat} {buffer : List (Nat × T)}

theorem evict_eq_some {buffer' : List (Nat × T)} (h : evict capacity fuel buffer = some buffer') :
    0 < capacity ∧ buffer' = buffer.drop (buffer.length + 1 - capacity) := by
  induction fuel generalizing buffer with
  | zero => cases h
  | succ fuel ih =>
    rw [evict] at h
    split_ifs at h with hfull
    · obtain ⟨hpos, rfl⟩ := ih h
      refine ⟨hpos, ?_⟩
      rw [length_tail, drop_tail]
      cases buffer with
      | nil =>
        rw [length_nil] at hfull
        omega
      | cons m buffer =>
        rw [length_cons] at hfull ⊢
        congr 1
        omega
    · cases h
      refine ⟨by omega, ?_⟩
      rw [Nat.sub_eq_zero_of_le (by omega), drop_zero]

/-- The loop ends after as many turns as there are items, unless the capacity is zero. -/
theorem evict_isSome (hpos : 0 < capacity) (hfuel : buffer.length < fuel) :
    (evict capacity fuel buffer).isSome = true := by
  induction fuel generalizing buffer with
  | zero => omega
  | succ fuel ih =>
    rw [evict]
    split_ifs with hfull
    · apply ih
      rw [length_tail]
      omega
    · rfl

namespace BroadcastSender

variable {tx tx' : BroadcastSender T} {item : T} {seq : Nat}

/-- The sender after an item has been sent. -/
def sent (tx : BroadcastSender T) (item : T) : BroadcastSender T where
  state.buffer := tx.state.buffer.drop (tx.state.buffer.length + 1 - tx.state.capacity) ++
    [(tx.state.sequence, item)]
  state.sequence := tx.state.sequence + 1
  state.capacity := tx.state.capacity
  sequence := tx.state.sequence + 1

variable {r : Nat × BroadcastSender T}

theorem eq_of_send {fuel : Nat} (h : tx.send fuel item = some r) :
    0 < tx.state.capacity ∧ tx.state.sequence + 1 < 2 ^ 64 ∧
      r = (tx.state.sequence, tx.sent item) := by
  unfold send at h
  dsimp only at h
  split_ifs at h with hseq
  obtain ⟨buffer, hevict, rfl⟩ := Option.map_eq_some_iff.mp h
  obtain ⟨hpos, rfl⟩ := evict_eq_some hevict
  exact ⟨hpos, hseq, rfl⟩

/-- A turn of the loop for each buffered item is enough. -/
theorem send_of_pos (hpos : 0 < tx.state.capacity) (hseq : tx.state.sequence + 1 < 2 ^ 64)
    (item : T) :
    tx.send (tx.state.buffer.length + 1) item = some (tx.state.sequence, tx.sent item) := by
  obtain ⟨buffer, hevict⟩ := Option.isSome_iff_exists.mp
    (evict_isSome hpos (Nat.lt_succ_self tx.state.buffer.length))
  rw [send, if_pos hseq, hevict, (evict_eq_some hevict).2]
  rfl

theorem length_buffer_sent_le (hpos : 0 < tx.state.capacity) (item : T) :
    (tx.sent item).state.buffer.length ≤ tx.state.capacity := by
  simp only [sent, length_append, length_drop, length_singleton]
  omega

/-- `send` comes back, and leaves at most `capacity` items, exactly if the capacity is not zero
and there is a next sequence number. -/
theorem send_returns_iff (tx : BroadcastSender T) (item : T) :
    (∃ fuel seq tx', tx.send fuel item = some (seq, tx') ∧
        tx'.state.buffer.length ≤ tx.state.capacity) ↔
      0 < tx.state.capacity ∧ tx.state.sequence + 1 < 2 ^ 64 := by
  constructor
  · rintro ⟨fuel, seq, tx', hsend, -⟩
    obtain ⟨hpos, hseq, -⟩ := eq_of_send hsend
    exact ⟨hpos, hseq⟩
  · rintro ⟨hpos, hseq⟩
    exact ⟨_, _, tx.sent item, send_of_pos hpos hseq item, length_buffer_sent_le hpos item⟩

/-- The first item on a channel of capacity zero: there is nothing to drop, and the loop goes on
for ever. -/
theorem send_new_zero : ¬ ∃ fuel r, (new 0 : BroadcastSender Nat).send fuel 7 = some r := by
  rintro ⟨fuel, r, hsend⟩
  exact absurd (eq_of_send hsend).1 (by decide)

end BroadcastSender

/-! ## Histories of calls -/

/-- A receiver, and what happened to it. -/
structure Subscriber (T : Type) where
  rx : BroadcastReceiver
  /-- The number that it wanted first. -/
  start : Nat
  /-- All that it has been given, in order. -/
  given : List (Nat × T)
  /-- What it found at each call of `recv_all`. -/
  looks : List (BroadcastState T)

namespace Subscriber

/-- A subscriber that has got nothing. -/
def new (rx : BroadcastReceiver) : Subscriber T := ⟨rx, rx.nextSeq, [], []⟩

/-- A call of `recv` goes into the history. -/
def recv (state : BroadcastState T) (sub : Subscriber T) : Subscriber T :=
  { sub with
    rx := (sub.rx.recv state).2
    given := sub.given ++ (sub.rx.recv state).1.toList }

/-- A call of `recv_all` goes into the history, with the state that it saw. -/
def recvAll (state : BroadcastState T) (sub : Subscriber T) : Subscriber T :=
  { sub with
    rx := (sub.rx.recvAll state).2
    given := sub.given ++ (sub.rx.recvAll state).1
    looks := sub.looks ++ [state] }

end Subscriber

/-- The channel, and all that was sent. -/
structure World (T : Type) where
  tx : BroadcastSender T
  sent : List T
  subscribers : List (Subscriber T)

/-- A call on the channel; `k` is the place of a subscriber. -/
inductive Call (T : Type) where
  | send (item : T)
  | subscribe
  | subscribeFromStart
  | clone (k : Nat)
  | recv (k : Nat)
  | recvAll (k : Nat)

namespace World

/-- A channel without subscribers. -/
def new (capacity : Nat) : World T := ⟨.new capacity, [], []⟩

/-- A new subscriber, at the next place. -/
def addSubscriber (w : World T) (rx : BroadcastReceiver) : World T :=
  { w with subscribers := w.subscribers ++ [.new rx] }

/-- Receivers have the numbers in which they were made.  There is no call on a receiver that has
not been made, and no step for a `send` that does not come back (`send_of_pos`). -/
def exec (w : World T) : Call T → Option (World T)
  | .send item =>
    (w.tx.send (w.tx.state.buffer.length + 1) item).map fun r =>
      { w with tx := r.2, sent := w.sent ++ [item] }
  | .subscribe => some (w.addSubscriber w.tx.subscribe)
  | .subscribeFromStart => some (w.addSubscriber w.tx.subscribeFromStart)
  | .clone k => w.subscribers[k]?.map fun sub => w.addSubscriber sub.rx
  | .recv k =>
    if k < w.subscribers.length then
      some { w with subscribers := w.subscribers.modify k (·.recv w.tx.state) }
    else none
  | .recvAll k =>
    if k < w.subscribers.length then
      some { w with subscribers := w.subscribers.modify k (·.recvAll w.tx.state) }
    else none

/-- All that a call can do. -/
inductive Step (w : World T) : Call T → World T → Prop
  | send (item : T) (hpos : 0 < w.tx.state.capacity) :
      Step w (.send item) { w with tx := w.tx.sent item, sent := w.sent ++ [item] }
  | subscribe : Step w .subscribe (w.addSubscriber w.tx.subscribe)
  | subscribeFromStart : Step w .subscribeFromStart (w.addSubscriber w.tx.subscribeFromStart)
  | clone (k : Nat) (sub : Subscriber T) (hsub : w.subscribers[k]? = some sub) :
      Step w (.clone k) (w.addSubscriber sub.rx)
  | recv (k : Nat) :
      Step w (.recv k) { w with subscribers := w.subscribers.modify k (·.recv w.tx.state) }
  | recvAll (k : Nat) :
      Step w (.recvAll k) { w with subscribers := w.subscribers.modify k (·.recvAll w.tx.state) }

variable {w w' : World T} {call : Call T}

theorem step_of_exec (h : w.exec call = some w') : w.Step call w' := by
  cases call with
  | send item =>
    obtain ⟨r, hsend, rfl⟩ := Option.map_eq_some_iff.mp h
    obtain ⟨hpos, -, rfl⟩ := BroadcastSender.eq_of_send hsend
    exact .send item hpos
  | subscribe =>
    cases h
    exact .subscribe
  | subscribeFromStart =>
    cases h
    exact .subscribeFromStart
  | clone k =>
    obtain ⟨sub, hsub, rfl⟩ := Option.map_eq_some_iff.mp h
    exact .clone k sub hsub
  | recv k =>
    simp only [exec] at h
    split_ifs at h
    cases h
    exact .recv k
  | recvAll k =>
    simp only [exec] at h
    split_ifs at h
    cases h
    exact .recvAll k

/-! ## The buffer -/

/-- The buffer holds the last items, with their numbers, and no receiver is ahead of them. -/
structure Holds (capacity : Nat) (w : World T) : Prop where
  capacity_eq : w.tx.state.capacity = capacity
  sequence_eq : w.tx.state.sequence = w.sent.length
  copy_eq : w.tx.sequence = w.sent.length
  buffer_eq : w.tx.state.buffer = (numberFrom 0 w.sent).rtake capacity
  nextSeq_le : ∀ (k : Nat) (sub : Subscriber T), w.subscribers[k]? = some sub →
    sub.rx.nextSeq ≤ w.sent.length

variable {capacity : Nat}

/-- The number of the first item in the buffer, if there is one. -/
def first (capacity : Nat) (w : World T) : Nat := w.sent.length - capacity

theorem Holds.buffer_eq_numberFrom (hw : w.Holds capacity) :
    w.tx.state.buffer = numberFrom (w.first capacity) (w.sent.drop (w.first capacity)) := by
  rw [hw.buffer_eq, rtake, length_numberFrom, drop_numberFrom, Nat.zero_add]
  rfl

theorem Holds.nextSeq_subscribeFromStart (hw : w.Holds capacity) :
    w.tx.subscribeFromStart.nextSeq ≤ w.sent.length := by
  unfold BroadcastSender.subscribeFromStart
  cases hhead : w.tx.state.buffer.head? with
  | none => exact Nat.zero_le _
  | some m =>
    have hmem := mem_of_head? hhead
    rw [hw.buffer_eq_numberFrom] at hmem
    have hlt := (fst_mem_numberFrom.mp ⟨m.2, hmem⟩).2
    rw [length_drop, first] at hlt
    show m.1 ≤ _
    omega

variable {k : Nat} {sub : Subscriber T}

/-- A subscriber of a longer list is an old one or the new one. -/
theorem subscriber_of_add {rx : BroadcastReceiver}
    (h : (w.addSubscriber rx).subscribers[k]? = some sub) :
    w.subscribers[k]? = some sub ∨ sub = .new rx := by
  have hmem : (w.subscribers ++ [.new rx])[k]? = some sub := h
  obtain hlt | hge := Nat.lt_or_ge k w.subscribers.length
  · rw [getElem?_append_left hlt] at hmem
    exact Or.inl hmem
  · rw [getElem?_append_right hge] at hmem
    exact Or.inr (mem_singleton.mp (mem_of_getElem? hmem))

/-- A subscriber after a call on the subscriber with the number `j`. -/
theorem subscriber_of_modify {f : Subscriber T → Subscriber T} {j : Nat}
    (h : (w.subscribers.modify j f)[k]? = some sub) :
    ∃ old, w.subscribers[k]? = some old ∧ sub = if j = k then f old else old := by
  rw [getElem?_modify] at h
  obtain ⟨old, hold, rfl⟩ := Option.map_eq_some_iff.mp h
  exact ⟨old, hold, rfl⟩

end World

/-! ## Receiving -/

namespace BroadcastReceiver

variable {rx : BroadcastReceiver} {n : Nat} {l : List T} {state : BroadcastState T}

/-- The loop of `recv_all` takes what is behind its number and goes on to the end. -/
theorem recvAll_foldl (taken : List (Nat × T)) (hrx : rx.nextSeq ≤ n + l.length)
    (hnil : l = [] → n ≤ rx.nextSeq) :
    (numberFrom n l).foldl
        (fun acc m => if acc.2.nextSeq ≤ m.1 then (acc.1 ++ [m], ⟨m.1 + 1⟩) else acc)
        (taken, rx) =
      (taken ++ (numberFrom n l).drop (rx.nextSeq - n), ⟨n + l.length⟩) := by
  induction l generalizing n rx taken with
  | nil =>
    have hn : rx.nextSeq = n := Nat.le_antisymm hrx (hnil rfl)
    rw [← hn]
    simp
  | cons a l ih =>
    rw [length_cons] at hrx
    rw [numberFrom_cons, foldl_cons]
    dsimp only
    split_ifs with hle
    · -- From here on every number is one that is wanted.
      rw [ih _ (by dsimp only; omega) (fun _ => Nat.le_refl _), Nat.sub_self,
        Nat.sub_eq_zero_of_le hle, length_cons, append_assoc]
      simp only [drop_zero, singleton_append, Prod.mk.injEq, mk.injEq, true_and]
      omega
    · rw [ih _ (by omega) (fun _ => by omega),
        show rx.nextSeq - n = rx.nextSeq - (n + 1) + 1 by omega, drop_succ_cons,
        length_cons]
      simp only [Prod.mk.injEq, mk.injEq, true_and]
      omega

end BroadcastReceiver

namespace World

variable {w w' : World T} {call : Call T} {capacity : Nat}

variable {rx : BroadcastReceiver}

/-- What `recv_all` returns: everything from the wanted number on that is still there. -/
theorem Holds.recvAll_eq (hw : w.Holds capacity) (hpos : 0 < capacity)
    (hrx : rx.nextSeq ≤ w.sent.length) :
    rx.recvAll w.tx.state =
      ((numberFrom 0 w.sent).drop (max rx.nextSeq (w.first capacity)), ⟨w.sent.length⟩) := by
  have hfirst : w.first capacity + (w.sent.drop (w.first capacity)).length = w.sent.length := by
    rw [length_drop, first]
    omega
  have hnil : w.sent.drop (w.first capacity) = [] → w.first capacity ≤ rx.nextSeq := by
    intro h
    have hle := drop_eq_nil_iff.mp h
    unfold first at hle ⊢
    omega
  rw [BroadcastReceiver.recvAll, hw.buffer_eq_numberFrom,
    BroadcastReceiver.recvAll_foldl [] (by omega) hnil, hfirst, nil_append,
    drop_numberFrom, drop_numberFrom, drop_drop]
  have hmax : w.first capacity + (rx.nextSeq - w.first capacity) =
      max rx.nextSeq (w.first capacity) := by omega
  rw [hmax, Nat.zero_add]

/-- What `recv` returns: the item with the wanted number, if it is still there. -/
theorem Holds.recv_eq (hw : w.Holds capacity) (rx : BroadcastReceiver) :
    (rx.recv w.tx.state).1 =
      if w.first capacity ≤ rx.nextSeq then (numberFrom 0 w.sent)[rx.nextSeq]? else none := by
  have hfind : w.tx.state.buffer.find? (fun m => m.1 == rx.nextSeq) =
      if w.first capacity ≤ rx.nextSeq then (numberFrom 0 w.sent)[rx.nextSeq]? else none := by
    rw [hw.buffer_eq_numberFrom, find?_numberFrom]
    split_ifs with hle
    · rw [getElem?_numberFrom, getElem?_numberFrom, getElem?_drop,
        show w.first capacity + (rx.nextSeq - w.first capacity) = rx.nextSeq by omega,
        Nat.zero_add]
    · rfl
  rw [BroadcastReceiver.recv, ← hfind]
  cases w.tx.state.buffer.find? fun m => m.1 == rx.nextSeq with
  | none | some m => rfl

theorem recv_snd (rx : BroadcastReceiver) (state : BroadcastState T) :
    (rx.recv state).2 = if (rx.recv state).1.isSome then ⟨rx.nextSeq + 1⟩ else rx := by
  unfold BroadcastReceiver.recv
  cases state.buffer.find? fun m => m.1 == rx.nextSeq with
  | none | some m => rfl

theorem Holds.nextSeq_recv (hw : w.Holds capacity) (hrx : rx.nextSeq ≤ w.sent.length) :
    (rx.recv w.tx.state).2.nextSeq ≤ w.sent.length := by
  rw [recv_snd, hw.recv_eq, getElem?_numberFrom]
  split_ifs with hfirst hsome
  · rw [Option.isSome_map, isSome_getElem?] at hsome
    exact hsome
  · exact hrx
  · contradiction
  · exact hrx

theorem holds_new : (new capacity : World T).Holds capacity where
  capacity_eq := rfl
  sequence_eq := rfl
  copy_eq := rfl
  buffer_eq := drop_nil.symm
  nextSeq_le := by
    intro k sub hsub
    cases hsub

theorem Holds.addSubscriber (hw : w.Holds capacity) (hrx : rx.nextSeq ≤ w.sent.length) :
    (w.addSubscriber rx).Holds capacity where
  capacity_eq := hw.capacity_eq
  sequence_eq := hw.sequence_eq
  copy_eq := hw.copy_eq
  buffer_eq := hw.buffer_eq
  nextSeq_le := by
    intro k sub hsub
    obtain hold | rfl := subscriber_of_add hsub
    · exact hw.nextSeq_le k sub hold
    · exact hrx

theorem Holds.modify (hw : w.Holds capacity) (j : Nat) {f : Subscriber T → Subscriber T}
    (hf : ∀ sub, sub.rx.nextSeq ≤ w.sent.length → (f sub).rx.nextSeq ≤ w.sent.length) :
    Holds capacity { w with subscribers := w.subscribers.modify j f } where
  capacity_eq := hw.capacity_eq
  sequence_eq := hw.sequence_eq
  copy_eq := hw.copy_eq
  buffer_eq := hw.buffer_eq
  nextSeq_le := by
    intro k sub hsub
    obtain ⟨old, hold, rfl⟩ := subscriber_of_modify hsub
    have hle := hw.nextSeq_le k old hold
    split_ifs
    · exact hf old hle
    · exact hle

theorem Holds.send (hw : w.Holds capacity) (hpos : 0 < capacity) (item : T) :
    Holds capacity { w with tx := w.tx.sent item, sent := w.sent ++ [item] } where
  capacity_eq := hw.capacity_eq
  sequence_eq := by
    rw [length_append]
    exact congrArg (· + 1) hw.sequence_eq
  copy_eq := by
    rw [length_append]
    exact congrArg (· + 1) hw.sequence_eq
  buffer_eq := by
    show w.tx.state.buffer.drop _ ++ _ = _
    rw [numberFrom_concat, rtake_concat hpos, ← hw.buffer_eq, hw.capacity_eq, hw.sequence_eq,
      Nat.zero_add]
  nextSeq_le := by
    intro k sub hsub
    have hle := hw.nextSeq_le k sub hsub
    rw [length_append]
    omega

theorem holds_step (hpos : 0 < capacity) (hw : w.Holds capacity) (hstep : w.Step call w') :
    w'.Holds capacity := by
  cases hstep with
  | send item _ => exact hw.send hpos item
  | subscribe => exact hw.addSubscriber (Nat.le_of_eq hw.copy_eq)
  | subscribeFromStart => exact hw.addSubscriber hw.nextSeq_subscribeFromStart
  | clone k sub hsub => exact hw.addSubscriber (hw.nextSeq_le k sub hsub)
  | recv k => exact hw.modify k fun sub hsub => hw.nextSeq_recv hsub
  | recvAll k =>
    refine hw.modify k fun sub hsub => ?_
    show (sub.rx.recvAll w.tx.state).2.nextSeq ≤ _
    rw [hw.recvAll_eq hpos hsub]

end World

end IronSbe.Channel.Broadcast
