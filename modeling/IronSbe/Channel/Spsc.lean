import IronSbe.Lib.BoundedQueue

/-!
# The channel with one producer and one consumer

`SpscSender` and `SpscReceiver` are the two ends of one ring of `rtrb` with a flag that either
of them sets when it is dropped.  The ring is a bounded queue: `push` fails exactly when it is
full, `Producer::slots` is the number of free slots and `Consumer::slots` the number of items.

The channel is such a queue for `send` and `recv` and for the length that the receiver sees
(`Follows`).  The length that the sender sees is the number of free slots, so the two ends agree
exactly when the queue is half full (`asQueue_iff`).
-/

namespace IronSbe.Channel

open Lib

/-- What the two ends of the channel share. -/
structure Spsc (T : Type) where
  ring : BoundedQueue T
  closed : Bool
  deriving DecidableEq

variable {T : Type}

namespace Spsc

/-- An empty channel. -/
def new (capacity : Nat) : Spsc T := ⟨.empty capacity, false⟩

end Spsc

/-! ## The code -/

namespace SpscSender

/-- `send` gives the item back when the channel is closed or full. -/
def send (c : Spsc T) (item : T) : Except T Unit × Spsc T :=
  if c.closed then (.error item, c)
  else
    match c.ring.push? item with
    | some ring => (.ok (), { c with ring := ring })
    | none => (.error item, c)

/-- `Producer::slots`. -/
def len (c : Spsc T) : Nat := c.ring.capacity - c.ring.items.length

/-- `is_empty` of the sender. -/
def isEmpty (c : Spsc T) : Bool := len c == 0

end SpscSender

namespace SpscReceiver

/-- `recv`; what is queued is returned also when the sender is gone. -/
def recv (c : Spsc T) : Option T × Spsc T :=
  match c.ring.pop? with
  | some (item, ring) => (some item, { c with ring := ring })
  | none => (none, c)

/-- `Consumer::slots`. -/
def len (c : Spsc T) : Nat := c.ring.items.length

/-- `is_empty` of the receiver. -/
def isEmpty (c : Spsc T) : Bool := len c == 0

end SpscReceiver

/-! ## Interleavings -/

namespace Spsc

/-- An operation of one of the ends.  `try_send` is `send`, and `try_recv` is `recv`; so is each
turn of the loops of `recv_spin`, `recv_spin_limited` and `drain`. -/
inductive Operation (T : Type) where
  | send (item : T)
  | recv

/-- The channel, the items for which `send` returned `Ok`, and the items that were received. -/
structure World (T : Type) where
  channel : Spsc T
  accepted : List T
  received : List T

namespace World

/-- A new channel, with nothing sent. -/
def new (capacity : Nat) : World T := ⟨.new capacity, [], []⟩

/-- An operation, with its result in the history. -/
def exec (w : World T) : Operation T → World T
  | .send item =>
    { w with
      channel := (SpscSender.send w.channel item).2
      accepted := match (SpscSender.send w.channel item).1 with
        | .ok () => w.accepted ++ [item]
        | .error _ => w.accepted }
  | .recv =>
    { w with
      channel := (SpscReceiver.recv w.channel).2
      received := w.received ++ (SpscReceiver.recv w.channel).1.toList }

/-- The number of items that were sent and not yet received. -/
def pending (w : World T) : Nat := w.accepted.length - w.received.length

/-- What the channel should be: a bounded queue, on both ends. -/
structure AsQueue (capacity : Nat) (w : World T) : Prop where
  in_order : w.received <+: w.accepted
  send_error_iff : ∀ item, (SpscSender.send w.channel item).1 = .error item ↔
    w.pending = capacity
  sender_len : SpscSender.len w.channel = w.pending
  receiver_len : SpscReceiver.len w.channel = w.pending
  sender_isEmpty : SpscSender.isEmpty w.channel = true ↔ w.pending = 0
  receiver_isEmpty : SpscReceiver.isEmpty w.channel = true ↔ w.pending = 0

/-- What the channel is: the items in the ring are those that were sent and not received. -/
structure Follows (capacity : Nat) (w : World T) : Prop where
  closed_eq : w.channel.closed = false
  capacity_eq : w.channel.ring.capacity = capacity
  accepted_eq : w.accepted = w.received ++ w.channel.ring.items

variable {capacity : Nat} {w : World T}

theorem follows_new : (new capacity : World T).Follows capacity := ⟨rfl, rfl, rfl⟩

/-- `send` on a channel that is open. -/
theorem send_of_open {c : Spsc T} (h : c.closed = false) (item : T) :
    SpscSender.send c item =
      match c.ring.push? item with
      | some ring => (.ok (), { c with ring := ring })
      | none => (.error item, c) := by
  rw [SpscSender.send, h]
  rfl

theorem follows_exec (hw : w.Follows capacity) (operation : Operation T) :
    (w.exec operation).Follows capacity := by
  cases operation with
  | send item =>
    simp only [exec, send_of_open hw.closed_eq]
    cases hpush : w.channel.ring.push? item with
    | none => exact hw
    | some ring =>
      refine ⟨hw.closed_eq, ?_, ?_⟩
      · exact (BoundedQueue.capacity_of_push? hpush).trans hw.capacity_eq
      · show w.accepted ++ [item] = w.received ++ ring.items
        rw [BoundedQueue.items_of_push? hpush, hw.accepted_eq, List.append_assoc]
  | recv =>
    simp only [exec, SpscReceiver.recv]
    cases hpop : w.channel.ring.pop? with
    | none =>
      simp only [Option.toList_none, List.append_nil]
      exact hw
    | some taken =>
      obtain ⟨item, ring⟩ := taken
      refine ⟨hw.closed_eq, ?_, ?_⟩
      · exact (BoundedQueue.capacity_of_pop? hpop).trans hw.capacity_eq
      · show w.accepted = w.received ++ [item] ++ ring.items
        rw [hw.accepted_eq, BoundedQueue.items_of_pop? hpop, List.append_assoc,
          List.singleton_append]

theorem follows_foldl (operations : List (Operation T)) (hw : w.Follows capacity) :
    (operations.foldl exec w).Follows capacity := by
  induction operations generalizing w with
  | nil => exact hw
  | cons operation rest ih => exact ih (follows_exec hw operation)

section

variable (hw : w.Follows capacity)
include hw

theorem Follows.pending_eq :
    w.pending = w.channel.ring.items.length := by
  rw [pending, hw.accepted_eq, List.length_append, Nat.add_sub_cancel_left]

theorem Follows.pending_le : w.pending ≤ capacity := by
  rw [hw.pending_eq, ← hw.capacity_eq]
  exact w.channel.ring.bounded

theorem Follows.send_error_iff (item : T) :
    (SpscSender.send w.channel item).1 = .error item ↔ w.pending = capacity := by
  have hle := hw.pending_le
  rw [send_of_open hw.closed_eq]
  cases hpush : w.channel.ring.push? item with
  | none =>
    have hfull := BoundedQueue.push?_eq_none_iff.mp hpush
    rw [← hw.pending_eq, hw.capacity_eq] at hfull
    exact iff_of_true rfl (by omega)
  | some ring =>
    have hroom := BoundedQueue.lt_of_push? hpush
    rw [← hw.pending_eq, hw.capacity_eq] at hroom
    refine iff_of_false ?_ (by omega)
    rintro ⟨⟩

theorem Follows.sender_len :
    SpscSender.len w.channel = capacity - w.pending := by
  rw [SpscSender.len, hw.capacity_eq, hw.pending_eq]

theorem Follows.receiver_len :
    SpscReceiver.len w.channel = w.pending := by
  rw [SpscReceiver.len, hw.pending_eq]

end

/-- After every interleaving of operations on the two ends, the channel is a bounded queue on
both ends exactly if the queue is half full. -/
theorem asQueue_iff (capacity : Nat) (operations : List (Operation T)) :
    (operations.foldl exec (new capacity)).AsQueue capacity ↔
      2 * (operations.foldl exec (new capacity)).pending = capacity := by
  have hw := follows_foldl operations (follows_new : (new capacity : World T).Follows capacity)
  generalize operations.foldl exec (new capacity) = w at hw ⊢
  constructor
  · intro h
    have hlen := hw.sender_len.symm.trans h.sender_len
    omega
  · intro hhalf
    have hlen : SpscSender.len w.channel = w.pending := by
      rw [hw.sender_len]
      omega
    refine ⟨?_, hw.send_error_iff, hlen, hw.receiver_len, ?_, ?_⟩
    · rw [hw.accepted_eq]
      exact List.prefix_append _ _
    · rw [SpscSender.isEmpty, hlen, beq_iff_eq]
    · rw [SpscReceiver.isEmpty, hw.receiver_len, beq_iff_eq]

/-- A new channel for four items: the sender sees four items, and a channel that is not empty. -/
theorem not_asQueue_new : ¬ (new 4 : World Nat).AsQueue 4 := by
  intro h
  exact absurd h.sender_len (by decide)

end World

end Spsc

end IronSbe.Channel
