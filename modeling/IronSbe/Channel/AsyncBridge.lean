import Mathlib.Tactic.Common

/-!
# Bridging between threads and tasks

The lock sections of `async_bridge.rs`: an `AsyncNotifier` with its futures, and a channel for
one value.  A section works on the state behind the lock and may wake a waker, which is returned
next to the state.
-/

namespace IronSbe.Channel

/-- `std::task::Poll`. -/
inductive Poll (α : Type) where
  | ready (a : α)
  | pending
  deriving DecidableEq, Repr

variable {T W : Type}

/-! ## The notifier -/

/-- What a notifier and its futures share. -/
structure NotifierState (W : Type) where
  notified : Bool
  waker : Option W
  deriving DecidableEq, Repr

namespace NotifierState

/-- Not notified, and nobody waits. -/
def new : NotifierState W := ⟨false, none⟩

/-- The waker is taken and woken. -/
def notify (s : NotifierState W) : NotifierState W × Option W := (⟨true, none⟩, s.waker)

/-- `NotifyFuture::poll`. -/
def poll (s : NotifierState W) (waker : W) : Poll Unit × NotifierState W :=
  if s.notified then (.ready (), { s with notified := false })
  else (.pending, { s with waker := some waker })

end NotifierState

/-! ## The channel for one value -/

/-- What the two ends share. -/
structure OneshotState (T W : Type) where
  value : Option T
  waker : Option W
  closed : Bool
  deriving DecidableEq, Repr

namespace OneshotState

/-- No value, and both ends are there. -/
def new : OneshotState T W := ⟨none, none, false⟩

/-- The body of `OneshotSender::send`.  The sender is dropped behind it, in a lock section of its
own. -/
def send (s : OneshotState T W) (value : T) : Except T Unit × OneshotState T W × Option W :=
  if s.closed then (.error value, s, none)
  else (.ok (), { s with value := some value, waker := none }, s.waker)

/-- `Drop for OneshotSender`. -/
def dropSender (s : OneshotState T W) : OneshotState T W × Option W :=
  ({ s with closed := true, waker := none }, s.waker)

/-- `try_recv` takes the value. -/
def tryRecv (s : OneshotState T W) : Option T × OneshotState T W :=
  (s.value, { s with value := none })

/-- `OneshotReceiver::poll`. -/
def poll (s : OneshotState T W) (waker : W) : Poll (Option T) × OneshotState T W :=
  match s.value with
  | some value => (.ready (some value), { s with value := none })
  | none =>
    if s.closed then (.ready none, s)
    else (.pending, { s with waker := some waker })

/-- `Drop for OneshotReceiver`. -/
def dropReceiver (s : OneshotState T W) : OneshotState T W := { s with closed := true }

variable {s : OneshotState T W} {value : T}

theorem send_of_open (h : s.closed = false) (value : T) :
    s.send value = (.ok (), { s with value := some value, waker := none }, s.waker) := by
  rw [send, if_neg (by rw [h]; decide)]

theorem send_of_closed (h : s.closed = true) (value : T) :
    s.send value = (.error value, s, none) := by
  rw [send, if_pos h]

theorem poll_of_some (h : s.value = some value) (waker : W) :
    s.poll waker = (.ready (some value), { s with value := none }) := by
  rw [poll, h]

theorem poll_of_closed (h : s.value = none) (hclosed : s.closed = true) (waker : W) :
    s.poll waker = (.ready none, s) := by
  rw [poll, h, if_pos hclosed]

theorem poll_of_open (h : s.value = none) (hopen : s.closed = false) (waker : W) :
    s.poll waker = (.pending, { s with waker := some waker }) := by
  rw [poll, h, if_neg (by rw [hopen]; decide)]

end OneshotState

end IronSbe.Channel
