import IronSbe.Lib.BoundedQueue
import IronSbe.Lib.Transition

/-!
# The channel with many producers

`MpscSender` and `MpscReceiver` are the ends of a bounded channel of `crossbeam`.  Each of its
operations is one step here, and threads take their steps in any order.

`is_connected` and `is_disconnected` are made of two queries each, and the other threads go on
between them.  So an answer is looked at together with the channel that the first query finds
and the one that the second query finds: it is truthful if it was right at some moment of the
call (`ObserverCall.Truthful`).

* `receiver_of_reach`, `disconnected_of_reach`: a receiver that is gone stays away, and a channel
  without senders and items stays like that.
* `truthful_iff`: which calls are truthful and leave the queue alone.
-/

namespace IronSbe.Channel

open Lib Lib.Transition

/-- A bounded channel of `crossbeam` with a capacity that is not zero. -/
structure Mpsc (T : Type) where
  queue : BoundedQueue T
  senders : Nat
  receiver : Bool
  deriving DecidableEq

/-- Why `try_send` gives the item back. -/
inductive TrySendError (T : Type) where
  | full (item : T)
  | disconnected (item : T)

/-- Why `try_recv` returns nothing. -/
inductive TryRecvError where
  | empty
  | disconnected
  deriving DecidableEq, Repr

variable {T : Type}

namespace Mpsc

/-! ## The operations of `crossbeam` -/

/-- An empty channel with one sender and its receiver. -/
def new (capacity : Nat) : Mpsc T := ⟨.empty capacity, 1, true⟩

/-- `is_empty`. -/
def isEmpty (c : Mpsc T) : Bool := c.queue.items.isEmpty

/-- `is_full`. -/
def isFull (c : Mpsc T) : Bool := c.queue.items.length == c.queue.capacity

/-- `try_send`. -/
def trySend (c : Mpsc T) (item : T) : Except (TrySendError T) Unit × Mpsc T :=
  if c.receiver then
    match c.queue.push? item with
    | some queue => (.ok (), { c with queue := queue })
    | none => (.error (.full item), c)
  else (.error (.disconnected item), c)

/-- `try_recv`; what is queued is returned also without senders. -/
def tryRecv (c : Mpsc T) : Except TryRecvError T × Mpsc T :=
  match c.queue.pop? with
  | some (item, queue) => (.ok item, { c with queue := queue })
  | none => (.error (if c.senders = 0 then .disconnected else .empty), c)

/-! ## The threads -/

/-- A step of a thread.  A blocking `send` or `recv` is a step when it gets through. -/
inductive Action (T : Type) where
  | send (item : T)
  | recv
  | cloneSender
  | dropSender
  | dropReceiver

/-- The channel after a step, if there is a handle for it.  Whether the messages are discarded
with the receiver depends on the version of the library. -/
def step (discard : Bool) (c : Mpsc T) : Action T → Option (Mpsc T)
  | .send item => if 0 < c.senders then some (c.trySend item).2 else none
  | .recv => if c.receiver then some c.tryRecv.2 else none
  | .cloneSender => if 0 < c.senders then some { c with senders := c.senders + 1 } else none
  | .dropSender => if 0 < c.senders then some { c with senders := c.senders - 1 } else none
  | .dropReceiver =>
    if c.receiver then
      some { c with
        queue := if discard then .empty c.queue.capacity else c.queue
        receiver := false }
    else none

/-- A call borrows one of the senders, so the last one is not dropped. -/
def SenderHeld (c : Mpsc T) : Action T → Prop
  | .dropSender => 2 ≤ c.senders
  | _ => True

/-- A call borrows the receiver. -/
def ReceiverHeld (_ : Mpsc T) : Action T → Prop
  | .dropReceiver => False
  | _ => True

/-- All senders are dropped and the queue is empty. -/
def Disconnected (c : Mpsc T) : Prop := c.senders = 0 ∧ c.queue.items = []

end Mpsc

open Mpsc

/-- `!self.inner.is_empty() || !self.inner.is_full()`, with the channel that each query finds. -/
def MpscSender.isConnected (first second : Mpsc T) : Bool := !first.isEmpty || !second.isFull

/-- `self.inner.is_empty() && self.inner.try_recv().is_err()`, and the channel afterwards. -/
def MpscReceiver.isDisconnected (first second : Mpsc T) : Bool × Mpsc T :=
  if first.isEmpty then
    (match second.tryRecv.1 with
      | .ok _ => false
      | .error _ => true, second.tryRecv.2)
  else (false, second)

/-- A call of an observer, with the channels at its two queries. -/
inductive ObserverCall (T : Type) where
  | isConnected (first second : Mpsc T)
  | isDisconnected (first second : Mpsc T)

namespace ObserverCall

/-- The first query comes after some steps of the threads on a new channel, and the second after
some more, which leave the caller its handle. -/
def Happens (discard : Bool) (capacity : Nat) : ObserverCall T → Prop
  | .isConnected first second =>
    1 ≤ capacity ∧ Reach (step discard) Anything (new capacity) first ∧ 0 < first.senders ∧
      Reach (step discard) SenderHeld first second
  | .isDisconnected first second =>
    1 ≤ capacity ∧ Reach (step discard) Anything (new capacity) first ∧ first.receiver = true ∧
      Reach (step discard) ReceiverHeld first second

/-- At some moment of the call the answer is right, and the call takes nothing from the queue. -/
def Truthful (discard : Bool) : ObserverCall T → Prop
  | .isConnected first second =>
    ∃ mid, Reach (step discard) SenderHeld first mid ∧ Reach (step discard) SenderHeld mid second ∧
      (MpscSender.isConnected first second = true ↔ mid.receiver = true)
  | .isDisconnected first second =>
    (∃ mid, Reach (step discard) ReceiverHeld first mid ∧
      Reach (step discard) ReceiverHeld mid second ∧
      ((MpscReceiver.isDisconnected first second).1 = true ↔ mid.Disconnected)) ∧
    (MpscReceiver.isDisconnected first second).2.queue = second.queue

/-- For `is_connected`: the receiver is there when the call begins, or else the queue is first
empty and then full and the receiver is gone in the end.  For `is_disconnected`: if the queue is
empty at first, it still is at the second query, and then there are no senders. -/
def Fine : ObserverCall T → Prop
  | .isConnected first second =>
    if first.queue.items = [] ∧ second.queue.items.length = second.queue.capacity then
      second.receiver = false
    else first.receiver = true
  | .isDisconnected first second => first.queue.items = [] → second.Disconnected

end ObserverCall

namespace Mpsc

variable {discard : Bool} {c c' first second : Mpsc T} {a : Action T}
  {Allowed : Mpsc T → Action T → Prop}

theorem receiver_trySend (item : T) : (c.trySend item).2.receiver = c.receiver := by
  unfold trySend
  split_ifs
  · cases c.queue.push? item with
    | none | some queue => rfl
  · rfl

theorem tryRecv_of_nil (h : c.queue.items = []) :
    c.tryRecv = (.error (if c.senders = 0 then .disconnected else .empty), c) := by
  rw [tryRecv, BoundedQueue.pop?_of_items_eq_nil h]

theorem tryRecv_of_cons {item : T} {items : List T} (h : c.queue.items = item :: items) :
    c.tryRecv.1 = .ok item ∧ c.tryRecv.2.queue.items = items := by
  unfold tryRecv
  cases hpop : c.queue.pop? with
  | none =>
    cases (BoundedQueue.items_eq_nil_of_pop? hpop).symm.trans h
  | some taken =>
    obtain ⟨head, queue⟩ := taken
    have hitems := (BoundedQueue.items_of_pop? hpop).symm.trans h
    cases hitems
    exact ⟨rfl, rfl⟩

/-- A receiver that is gone does not come back. -/
theorem receiver_step (hstep : c.step discard a = some c') (h : c.receiver = false) :
    c'.receiver = false := by
  cases a with
  | send item =>
    simp only [step] at hstep
    split_ifs at hstep
    cases hstep
    exact (receiver_trySend item).trans h
  | recv | dropReceiver =>
    simp only [step, h] at hstep
    cases hstep
  | cloneSender | dropSender =>
    simp only [step] at hstep
    split_ifs at hstep
    cases hstep
    exact h

theorem receiver_of_reach (h : Reach (step discard) Allowed first second)
    (hfirst : first.receiver = false) : second.receiver = false :=
  h.invariant (fun c => c.receiver = false) hfirst fun _ _ _ hc _ hstep => receiver_step hstep hc

/-- Without senders there are no new items and no new senders. -/
theorem disconnected_step (hstep : c.step discard a = some c') (h : c.Disconnected) :
    c'.Disconnected := by
  have hnone : ¬ 0 < c.senders := by
    rw [h.1]
    exact Nat.lt_irrefl 0
  cases a with
  | send item | cloneSender | dropSender =>
    rw [step, if_neg hnone] at hstep
    cases hstep
  | recv =>
    simp only [step] at hstep
    split_ifs at hstep
    cases hstep
    rw [tryRecv_of_nil h.2]
    exact h
  | dropReceiver =>
    simp only [step] at hstep
    split_ifs at hstep with hreceiver
    · cases hstep
      exact ⟨h.1, rfl⟩
    · cases hstep
      exact h

theorem disconnected_of_reach (h : Reach (step discard) Allowed first second)
    (hfirst : first.Disconnected) : second.Disconnected :=
  h.invariant Disconnected hfirst fun _ _ _ hc _ hstep => disconnected_step hstep hc

end Mpsc

namespace ObserverCall

variable {discard : Bool} {capacity : Nat} {first second : Mpsc T}

theorem truthful_isConnected_iff (h : Reach (step discard) SenderHeld first second) :
    (isConnected first second).Truthful discard ↔ (isConnected first second).Fine := by
  have hanswer : MpscSender.isConnected first second = true ↔
      ¬ (first.queue.items = [] ∧ second.queue.items.length = second.queue.capacity) := by
    simp [MpscSender.isConnected, isEmpty, isFull, imp_iff_not_or]
  unfold Truthful Fine
  dsimp only
  split_ifs with hfull
  · constructor
    · rintro ⟨mid, -, hlast, hmid⟩
      refine receiver_of_reach hlast (Bool.eq_false_iff.mpr fun hreceiver => ?_)
      exact hanswer.mp (hmid.mpr hreceiver) hfull
    · intro hgone
      refine ⟨second, h, .start, iff_of_false (fun htrue => hanswer.mp htrue hfull) ?_⟩
      rw [hgone]
      decide
  · constructor
    · rintro ⟨mid, hbegin, -, hmid⟩
      apply eq_true_of_ne_false
      intro hgone
      have hmid' := hmid.mp (hanswer.mpr hfull)
      rw [receiver_of_reach hbegin hgone] at hmid'
      cases hmid'
    · intro hthere
      exact ⟨first, .start, h, iff_of_true (hanswer.mpr hfull) hthere⟩

theorem truthful_isDisconnected_iff (h : Reach (step discard) ReceiverHeld first second) :
    (isDisconnected first second).Truthful discard ↔ (isDisconnected first second).Fine := by
  unfold Truthful Fine
  dsimp only
  by_cases hfirst : first.queue.items = []
  · have hquery : MpscReceiver.isDisconnected first second =
        (match second.tryRecv.1 with
          | .ok _ => false
          | .error _ => true, second.tryRecv.2) := by
      rw [MpscReceiver.isDisconnected, if_pos (by rw [isEmpty, hfirst]; rfl)]
    rw [forall_prop_of_true hfirst]
    cases hsecond : second.queue.items with
    | nil =>
      rw [tryRecv_of_nil hsecond] at hquery
      rw [hquery]
      constructor
      · rintro ⟨⟨mid, -, hlast, hmid⟩, -⟩
        exact disconnected_of_reach hlast (hmid.mp rfl)
      · intro hgone
        exact ⟨⟨second, h, .start, iff_of_true rfl hgone⟩, rfl⟩
    | cons item items =>
      -- The query takes an item that has come in between.
      obtain ⟨hitem, hrest⟩ := tryRecv_of_cons hsecond
      refine iff_of_false ?_ fun hgone => ?_
      · rintro ⟨-, hkept⟩
        rw [hquery] at hkept
        have hlength := congrArg (fun q : BoundedQueue T => q.items.length) hkept
        dsimp only at hlength
        rw [hrest, hsecond, List.length_cons] at hlength
        omega
      · cases hsecond.symm.trans hgone.2
  · have hquery : MpscReceiver.isDisconnected first second = (false, second) := by
      rw [MpscReceiver.isDisconnected, if_neg (by rw [isEmpty, List.isEmpty_iff]; exact hfirst)]
    rw [hquery]
    refine iff_of_true ⟨⟨first, .start, h, iff_of_false (by rintro ⟨⟩) ?_⟩, rfl⟩ ?_
    · exact fun hgone => hfirst hgone.2
    · exact fun hnil => absurd hnil hfirst

/-- Which calls of the observers are truthful and leave the queue alone. -/
theorem truthful_iff {call : ObserverCall T} (h : call.Happens discard capacity) :
    call.Truthful discard ↔ call.Fine := by
  cases call with
  | isConnected first second => exact truthful_isConnected_iff h.2.2.2
  | isDisconnected first second => exact truthful_isDisconnected_iff h.2.2.2

/-- The channel behind a receiver that has outlived the senders. -/
def closed : Mpsc Nat := ⟨.empty 1, 0, true⟩

/-- The last sender is dropped between the two queries of `is_disconnected`, which answers yes. -/
theorem truthful_closed :
    (isDisconnected (new 1) closed).Happens false 1 ∧
      (MpscReceiver.isDisconnected (new 1) closed).1 = true ∧
      (isDisconnected (new 1) closed).Truthful false := by
  have hdrop : Reach (step false) ReceiverHeld (new 1) closed :=
    .step (a := .dropSender) .start trivial rfl
  have happens : (isDisconnected (new 1) closed).Happens false 1 :=
    ⟨Nat.le_refl 1, .start, rfl, hdrop⟩
  exact ⟨happens, rfl, (truthful_iff happens).mpr fun _ => ⟨rfl, rfl⟩⟩

/-- The channel behind a sender that has outlived the receiver. -/
def abandoned : Mpsc Nat := ⟨.empty 1, 1, false⟩

/-- The channel with one item. -/
def loaded : Mpsc Nat := ⟨⟨1, [7], by decide⟩, 1, true⟩

/-- The receiver is dropped, and `is_connected` answers yes; there is a sender, and
`is_disconnected` answers yes; and an item that comes between the two queries of
`is_disconnected` is taken out of the queue. -/
theorem not_truthful :
    ((isConnected abandoned abandoned).Happens true 1 ∧
        ¬ (isConnected abandoned abandoned).Truthful true) ∧
      ((isDisconnected (new 1) (new 1) : ObserverCall Nat).Happens true 1 ∧
        ¬ (isDisconnected (new 1) (new 1) : ObserverCall Nat).Truthful true) ∧
      (isDisconnected (new 1) loaded).Happens true 1 ∧
        ¬ (isDisconnected (new 1) loaded).Truthful true := by
  have hdrop : Reach (step true) Anything (new 1) abandoned :=
    .step (a := .dropReceiver) .start trivial rfl
  have hsend : Reach (step true) ReceiverHeld (new 1) loaded :=
    .step (a := .send 7) .start trivial rfl
  refine ⟨⟨⟨Nat.le_refl 1, hdrop, Nat.one_pos, .start⟩, fun h => ?_⟩,
    ⟨⟨Nat.le_refl 1, .start, rfl, .start⟩, fun h => ?_⟩,
    ⟨Nat.le_refl 1, .start, rfl, hsend⟩, fun h => ?_⟩
  · have hfine := (truthful_isConnected_iff .start).mp h
    rw [Fine, if_neg (by decide)] at hfine
    exact absurd hfine (by decide)
  · have hfine := (truthful_isDisconnected_iff .start).mp h rfl
    exact absurd hfine.1 (by decide)
  · have hfine := (truthful_isDisconnected_iff hsend).mp h rfl
    exact absurd hfine.1 (by decide)

end ObserverCall

end IronSbe.Channel
