import IronSbe.Channel.AsyncBridge
import IronSbe.Lib.Transition

/-!
# The channel for one value

The lock sections of the sender and of the receiver in any order.  `send` is two of them, its
body and the drop of the sender; the receiver may come in between.

`Inv` is the invariant of all interleavings, and `delivers_of_run` is what follows from it for
the two ends: the value is handed out once, and a poll that found nothing is followed by a wake
as soon as there is something to find.  The receiver's own drop wakes nobody
(`not_woken_after_drop`).
-/

namespace IronSbe.Channel.Oneshot

open Lib.Transition

variable {T W : Type}

/-- How far the sender has come. -/
inductive Sender where
  | held
  /-- The body of `send` is done, and the sender is not yet dropped. -/
  | sending
  | gone
  deriving DecidableEq, Repr

/-- The state behind the lock, the handles that are left, and what has happened. -/
structure World (T W : Type) where
  state : OneshotState T W
  sender : Sender
  receiver : Bool
  /-- The value for which `send` returned `Ok`. -/
  sent : Option T
  /-- `try_recv` has returned the value. -/
  tried : Bool
  /-- There was a poll since the value was sent. -/
  polled : Bool
  /-- The values that the receiver was given. -/
  handed : List T
  /-- The waker of the last poll, if that was `Pending`. -/
  registered : Option W
  /-- The wakers that were woken since the last poll. -/
  woken : List W

/-- A lock section. -/
inductive Section (T W : Type) where
  | send (value : T)
  | dropSender
  | poll (waker : W)
  | tryRecv
  | dropReceiver

namespace World

/-- A new channel, with both ends held. -/
def new : World T W := ⟨.new, .held, true, none, false, false, [], none, []⟩

/-- The value that a poll hands out. -/
def handedBy : Poll (Option T) → List T
  | .ready (some value) => [value]
  | _ => []

/-- The world after a lock section, if there is a handle for it. -/
def step (w : World T W) : Section T W → Option (World T W)
  | .send value =>
    if w.sender = .held then
      some { w with
        state := (w.state.send value).2.1
        sender := .sending
        sent := match (w.state.send value).1 with
          | .ok () => some value
          | .error _ => none
        polled := false
        woken := w.woken ++ (w.state.send value).2.2.toList }
    else none
  | .dropSender =>
    if w.sender = .gone then none
    else
      some { w with
        state := w.state.dropSender.1
        sender := .gone
        woken := w.woken ++ w.state.dropSender.2.toList }
  | .poll waker =>
    if w.receiver then
      some { w with
        state := (w.state.poll waker).2
        polled := true
        handed := w.handed ++ handedBy (w.state.poll waker).1
        registered := match (w.state.poll waker).1 with
          | .ready _ => none
          | .pending => some waker
        woken := [] }
    else none
  | .tryRecv =>
    if w.receiver then
      some { w with
        state := w.state.tryRecv.2
        tried := w.tried || w.state.tryRecv.1.isSome
        handed := w.handed ++ w.state.tryRecv.1.toList }
    else none
  | .dropReceiver =>
    if w.receiver then some { w with state := w.state.dropReceiver, receiver := false } else none

/-- All that a lock section can do. -/
inductive Step (w : World T W) : Section T W → World T W → Prop
  | sent (value : T) (hheld : w.sender = .held) (hopen : w.state.closed = false) :
      Step w (.send value) { w with
        state := { w.state with value := some value, waker := none }
        sender := .sending
        sent := some value
        polled := false
        woken := w.woken ++ w.state.waker.toList }
  | refused (value : T) (hheld : w.sender = .held) (hclosed : w.state.closed = true) :
      Step w (.send value) { w with sender := .sending, sent := none, polled := false }
  | dropSender (hsender : w.sender ≠ .gone) :
      Step w .dropSender { w with
        state := { w.state with closed := true, waker := none }
        sender := .gone
        woken := w.woken ++ w.state.waker.toList }
  | served (waker : W) (value : T) (hreceiver : w.receiver = true)
      (hvalue : w.state.value = some value) :
      Step w (.poll waker) { w with
        state := { w.state with value := none }
        polled := true
        handed := w.handed ++ [value]
        registered := none
        woken := [] }
  | ended (waker : W) (hreceiver : w.receiver = true) (hvalue : w.state.value = none)
      (hclosed : w.state.closed = true) :
      Step w (.poll waker) { w with polled := true, registered := none, woken := [] }
  | waiting (waker : W) (hreceiver : w.receiver = true) (hvalue : w.state.value = none)
      (hopen : w.state.closed = false) :
      Step w (.poll waker) { w with
        state := { w.state with waker := some waker }
        polled := true
        registered := some waker
        woken := [] }
  | tryRecv (hreceiver : w.receiver = true) :
      Step w .tryRecv { w with
        state := { w.state with value := none }
        tried := w.tried || w.state.value.isSome
        handed := w.handed ++ w.state.value.toList }
  | dropReceiver (hreceiver : w.receiver = true) :
      Step w .dropReceiver { w with
        state := { w.state with closed := true }
        receiver := false }

theorem step_of_step {w w' : World T W} {a : Section T W} (h : w.step a = some w') :
    w.Step a w' := by
  cases a with
  | send value =>
    simp only [step] at h
    split_ifs at h with hheld
    cases h
    cases hclosed : w.state.closed with
    | false =>
      simp only [OneshotState.send_of_open hclosed]
      exact .sent value hheld hclosed
    | true =>
      simp only [OneshotState.send_of_closed hclosed, Option.toList_none, List.append_nil]
      exact .refused value hheld hclosed
  | dropSender =>
    simp only [step] at h
    split_ifs at h with hgone
    cases h
    exact .dropSender hgone
  | poll waker =>
    simp only [step] at h
    split_ifs at h with hreceiver
    cases h
    cases hvalue : w.state.value with
    | some value =>
      simp only [OneshotState.poll_of_some hvalue]
      exact .served waker value hreceiver hvalue
    | none =>
      cases hclosed : w.state.closed with
      | true =>
        simp only [OneshotState.poll_of_closed hvalue hclosed, handedBy, List.append_nil]
        exact .ended waker hreceiver hvalue hclosed
      | false =>
        simp only [OneshotState.poll_of_open hvalue hclosed, handedBy, List.append_nil]
        exact .waiting waker hreceiver hvalue hclosed
  | tryRecv =>
    simp only [step] at h
    split_ifs at h with hreceiver
    cases h
    exact .tryRecv hreceiver
  | dropReceiver =>
    simp only [step] at h
    split_ifs at h with hreceiver
    cases h
    exact .dropReceiver hreceiver

/-! ## The invariant -/

/-- The waker of a poll that found nothing is still registered and there is still nothing to find,
or it has been woken. -/
def Watched (w : World T W) : Prop :=
  ∀ waker, w.registered = some waker →
    (w.state.waker = some waker ∧ w.state.value = none ∧ w.state.closed = false) ∨
      waker ∈ w.woken

/-- What the lock sections keep. -/
structure Inv (w : World T W) : Prop where
  /-- The value is where it was put, or it has been handed out. -/
  value_eq : (w.handed = [] ∧ w.state.value = w.sent) ∨
    (w.handed = w.sent.toList ∧ w.state.value = none ∧ (w.tried = true ∨ w.polled = true))
  closed_iff : w.state.closed = true ↔ w.sender = .gone ∨ w.receiver = false
  unsent : w.sender = .held → w.sent = none
  watched : w.receiver = true → w.Watched

variable {w w' : World T W} {a : Section T W}

theorem inv_new : (new : World T W).Inv where
  value_eq := Or.inl ⟨rfl, rfl⟩
  closed_iff := iff_of_false (by rintro ⟨⟩) (by rintro (⟨⟨⟩⟩ | ⟨⟨⟩⟩))
  unsent := fun _ => rfl
  watched := by
    intro _ waker hregistered
    cases hregistered

/-- The waker is taken out and woken. -/
theorem Watched.wake (h : w.Watched) {state : OneshotState T W} {sent : Option T} {sender : Sender}
    {polled : Bool} :
    Watched { w with
      state := state
      sender := sender
      sent := sent
      polled := polled
      woken := w.woken ++ w.state.waker.toList } := by
  intro waker hregistered
  right
  obtain ⟨hwaker, -, -⟩ | hwoken := h waker hregistered
  · apply List.mem_append_right
    rw [hwaker]
    exact List.mem_singleton_self waker
  · exact List.mem_append_left _ hwoken

theorem Inv.value_of_unsent (hw : w.Inv) (hsent : w.sent = none) :
    w.handed = [] ∧ w.state.value = none := by
  obtain ⟨hhanded, hvalue⟩ | ⟨hhanded, hvalue, -⟩ := hw.value_eq
  · exact ⟨hhanded, hvalue.trans hsent⟩
  · rw [hsent] at hhanded
    exact ⟨hhanded, hvalue⟩

/-- A poll that finds no value leaves it where it is. -/
theorem Inv.value_polled (hw : w.Inv) :
    (w.handed = [] ∧ w.state.value = w.sent) ∨
      (w.handed = w.sent.toList ∧ w.state.value = none ∧ (w.tried = true ∨ true = true)) := by
  obtain hkept | ⟨hhanded, hnone, -⟩ := hw.value_eq
  · exact Or.inl hkept
  · exact Or.inr ⟨hhanded, hnone, Or.inr rfl⟩

/-- `try_recv` takes the value that is there. -/
theorem Inv.value_tryRecv (hw : w.Inv) :
    (w.handed ++ w.state.value.toList = [] ∧ none = w.sent) ∨
      (w.handed ++ w.state.value.toList = w.sent.toList ∧ (none : Option T) = none ∧
        ((w.tried || w.state.value.isSome) = true ∨ w.polled = true)) := by
  obtain ⟨hhanded, hvalue⟩ | ⟨hhanded, hnone, hwho⟩ := hw.value_eq
  · rw [hvalue, hhanded]
    cases w.sent with
    | none => exact Or.inl ⟨rfl, rfl⟩
    | some value => exact Or.inr ⟨rfl, rfl, Or.inl (Bool.or_true _)⟩
  · rw [hnone, Option.isSome_none, Bool.or_false, Option.toList_none, List.append_nil]
    exact Or.inr ⟨hhanded, rfl, hwho⟩

theorem inv_step (hw : w.Inv) (hstep : w.Step a w') : w'.Inv := by
  cases hstep with
  | sent value hheld hopen =>
    have hunsent := hw.value_of_unsent (hw.unsent hheld)
    refine ⟨Or.inl ⟨hunsent.1, rfl⟩, ?_, by rintro ⟨⟩, fun hreceiver => (hw.watched hreceiver).wake⟩
    rw [hw.closed_iff, hheld]
    simp
  | refused value hheld hclosed =>
    have hunsent := hw.value_of_unsent (hw.unsent hheld)
    refine ⟨Or.inl hunsent, ?_, by rintro ⟨⟩, hw.watched⟩
    rw [hw.closed_iff, hheld]
    simp
  | dropSender hsender =>
    exact ⟨hw.value_eq, iff_of_true rfl (Or.inl rfl), by rintro ⟨⟩,
      fun hreceiver => (hw.watched hreceiver).wake⟩
  | served waker value hreceiver hvalue =>
    refine ⟨Or.inr ⟨?_, rfl, Or.inr rfl⟩, hw.closed_iff, hw.unsent, ?_⟩
    · obtain ⟨hhanded, hsent⟩ | ⟨-, hnone, -⟩ := hw.value_eq
      · show w.handed ++ [value] = w.sent.toList
        rw [hhanded, ← hsent, hvalue]
        rfl
      · cases hnone.symm.trans hvalue
    · intro _ waker hregistered
      cases hregistered
  | ended waker hreceiver hvalue hclosed =>
    refine ⟨hw.value_polled, hw.closed_iff, hw.unsent, fun _ waker hregistered => ?_⟩
    cases hregistered
  | waiting waker hreceiver hvalue hopen =>
    refine ⟨hw.value_polled, hw.closed_iff, hw.unsent, fun _ waker' hregistered => ?_⟩
    exact Or.inl ⟨hregistered, hvalue, hopen⟩
  | tryRecv hreceiver =>
    refine ⟨hw.value_tryRecv, hw.closed_iff, hw.unsent, fun _ waker hregistered => ?_⟩
    obtain ⟨hwaker, -, hclosed⟩ | hwoken := hw.watched hreceiver waker hregistered
    · exact Or.inl ⟨hwaker, rfl, hclosed⟩
    · exact Or.inr hwoken
  | dropReceiver hreceiver =>
    exact ⟨hw.value_eq, iff_of_true rfl (Or.inr rfl), hw.unsent, by rintro ⟨⟩⟩

/-! ## What follows for the two ends -/

/-- What the channel is for. -/
structure Delivers (w : World T W) : Prop where
  once : w.handed.length ≤ 1
  next_poll : ∀ value waker, w.sent = some value → w.receiver = true → w.tried = false →
    w.polled = false → (w.state.poll waker).1 = .ready (some value)
  none_only : ∀ waker, w.receiver = true → (w.state.poll waker).1 = .ready none →
    w.sender = .gone ∧ w.state.value = none
  error_iff : ∀ value, w.sender = .held →
    ((w.state.send value).1 = .error value ↔ w.receiver = false)
  woken : ∀ waker, w.receiver = true → w.registered = some waker →
    w.state.value.isSome = true ∨ w.state.closed = true → waker ∈ w.woken

theorem Inv.once (hw : w.Inv) : w.handed.length ≤ 1 := by
  obtain ⟨hhanded, -⟩ | ⟨hhanded, -, -⟩ := hw.value_eq
  · rw [hhanded]
    exact Nat.zero_le 1
  · rw [hhanded]
    cases w.sent with
    | none => exact Nat.zero_le 1
    | some value => exact Nat.le_refl 1

theorem poll_eq_none {s : OneshotState T W} {waker : W} (h : (s.poll waker).1 = .ready none) :
    s.value = none ∧ s.closed = true := by
  cases hvalue : s.value with
  | some value =>
    rw [OneshotState.poll_of_some hvalue] at h
    cases h
  | none =>
    cases hclosed : s.closed with
    | true => exact ⟨rfl, rfl⟩
    | false =>
      rw [OneshotState.poll_of_open hvalue hclosed] at h
      cases h

theorem send_error_iff {s : OneshotState T W} {value : T} :
    (s.send value).1 = .error value ↔ s.closed = true := by
  cases hclosed : s.closed with
  | true =>
    rw [OneshotState.send_of_closed hclosed]
    exact iff_of_true rfl rfl
  | false =>
    rw [OneshotState.send_of_open hclosed]
    exact iff_of_false (by rintro ⟨⟩) (by rintro ⟨⟩)

theorem Inv.delivers (hw : w.Inv) : w.Delivers where
  once := hw.once
  next_poll := by
    intro value waker hsent _ htried hpolled
    obtain ⟨-, hvalue⟩ | ⟨-, -, hwho⟩ := hw.value_eq
    · rw [OneshotState.poll_of_some (hvalue.trans hsent)]
    · rw [htried, hpolled] at hwho
      exact absurd hwho (by decide)
  none_only := by
    intro waker hreceiver hpoll
    obtain ⟨hvalue, hclosed⟩ := poll_eq_none hpoll
    obtain hgone | hdropped := hw.closed_iff.mp hclosed
    · exact ⟨hgone, hvalue⟩
    · cases hreceiver.symm.trans hdropped
  error_iff := by
    intro value hheld
    rw [send_error_iff, hw.closed_iff, hheld]
    simp
  woken := by
    intro waker hreceiver hregistered hset
    obtain ⟨-, hvalue, hclosed⟩ | hwoken := hw.watched hreceiver waker hregistered
    · rw [hvalue, hclosed] at hset
      obtain hsome | htrue := hset
      · cases hsome
      · cases htrue
    · exact hwoken

/-- For every order of the lock sections: the value is handed out at most once; a poll behind a
successful `send` returns it, unless it has been taken; a poll returns `Ready(None)` only when the
sender is gone and nothing is left; `send` fails exactly when the receiver is gone; and as long
as there is a receiver, its last poll was `Ready`, or there is still nothing for it, or its waker
has been woken. -/
theorem delivers_of_run (sections : List (Section T W)) (hrun : run step new sections = some w) :
    w.Delivers := by
  have hw : w.Inv := run_invariant Inv
    (fun _ _ _ _ hw hstep => inv_step hw (step_of_step hstep)) inv_new hrun
  exact hw.delivers

/-- The receiver polls between two lock sections of the sender. -/
theorem delivers_between : ∃ w : World Nat Nat,
    run step new [.poll 1, .send 7, .poll 2, .dropSender] = some w ∧ w.handed = [7] ∧
      w.Delivers :=
  ⟨_, rfl, rfl, delivers_of_run [.poll 1, .send 7, .poll 2, .dropSender] rfl⟩

/-- The receiver polls and is dropped.  That sets the flag, and the waker of the poll is not
woken. -/
theorem not_woken_after_drop : ∃ w : World Nat Nat,
    run step new [.poll 1, .dropReceiver] = some w ∧ w.registered = some 1 ∧
      w.state.closed = true ∧ 1 ∉ w.woken :=
  ⟨_, rfl, rfl, rfl, by decide⟩

end World

end IronSbe.Channel.Oneshot
