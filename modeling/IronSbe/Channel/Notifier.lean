import IronSbe.Channel.AsyncBridge
import IronSbe.Lib.Transition

/-!
# Waiting for a notifier

Any number of futures wait for one `AsyncNotifier`, and there is room for one waker.  The last
poll that finds no notification puts its waker there, in the place of an earlier one.  So a wake
is lost when the future behind the last waker goes away before the notification, or takes one
notification and leaves the next one to the others.

`noLostWakeup_iff` says which steps lose no wake: a `notify` that reaches a future that waits, or
finds one that has been woken and has not polled since; and a drop that leaves such a future
behind as long as there is a notification.
-/

namespace IronSbe.Channel.Notifier

open Lib.Transition List

variable {W : Type}

/-- A future, and what has happened to it. -/
structure NotifyFuture (W : Type) where
  /-- The future is not dropped. -/
  alive : Bool
  /-- The waker of its last poll, if that was `Pending`. -/
  registered : Option W
  /-- The wakers that were woken since its last poll. -/
  since : List W

namespace NotifyFuture

/-- A future that waits: its last poll returned `Pending`. -/
def Waiting (f : NotifyFuture W) : Prop := f.alive = true ∧ f.registered.isSome = true

/-- A future that waits, and whose waker has been woken since. -/
def Woken (f : NotifyFuture W) : Prop :=
  f.alive = true ∧ ∃ waker, f.registered = some waker ∧ waker ∈ f.since

/-- A future that waits, and whose waker has been woken since or is in the slot. -/
def Reached (slot : Option W) (f : NotifyFuture W) : Prop :=
  f.alive = true ∧ ∃ waker, f.registered = some waker ∧ (waker ∈ f.since ∨ slot = some waker)

end NotifyFuture

/-- The shared state, and all futures that `wait` has returned. -/
structure World (W : Type) where
  state : NotifierState W
  futures : List (NotifyFuture W)

/-- A call of `wait` or `notify`, or a poll or drop of the future at place `k`. -/
inductive Action (W : Type) where
  | wait
  | poll (k : Nat) (waker : W)
  | drop (k : Nat)
  | notify

namespace World

/-- A new notifier. -/
def new : World W := ⟨.new, []⟩

/-- The future with the number `k`, if it has been made and is not dropped. -/
def future? (w : World W) (k : Nat) : Option (NotifyFuture W) :=
  w.futures[k]?.filter (·.alive)

/-- A poll of the future at place `k`, which registers its waker unless it is ready. -/
def pollFuture (w : World W) (k : Nat) (f : NotifyFuture W) (waker : W) : World W where
  state := (w.state.poll waker).2
  futures := w.futures.set k { f with
    registered := match (w.state.poll waker).1 with
      | .ready _ => none
      | .pending => some waker
    since := [] }

/-- The notifier after an action, if the future is there. -/
def step (w : World W) : Action W → Option (World W)
  | .wait => some { w with futures := w.futures ++ [⟨true, none, []⟩] }
  | .poll k waker => (w.future? k).map fun f => w.pollFuture k f waker
  | .drop k =>
    (w.future? k).map fun f => { w with futures := w.futures.set k { f with alive := false } }
  | .notify =>
    some {
      state := w.state.notify.1
      futures := w.futures.map fun f => { f with since := f.since ++ w.state.notify.2.toList } }

/-- There is a future with the property. -/
def Has (w : World W) (P : NotifyFuture W → Prop) : Prop :=
  ∃ (k : Nat) (f : NotifyFuture W), w.futures[k]? = some f ∧ P f

/-- There is a future with the property, other than the one with the number `k`. -/
def Other (w : World W) (k : Nat) (P : NotifyFuture W → Prop) : Prop :=
  ∃ (j : Nat) (f : NotifyFuture W), j ≠ k ∧ w.futures[j]? = some f ∧ P f

/-- When there is a notification and a future waits, a waiting future has been woken. -/
def NoLostWakeup (w : World W) : Prop :=
  w.state.notified = true → w.Has NotifyFuture.Waiting → w.Has NotifyFuture.Woken

/-- The step loses no wake. -/
def Keeps (w : World W) : Action W → Prop
  | .notify => w.Has NotifyFuture.Waiting → w.Has (NotifyFuture.Reached w.state.waker)
  | .drop k => w.state.notified = true → (w.future? k).isSome = true →
      w.Other k NotifyFuture.Waiting → w.Other k NotifyFuture.Woken
  | _ => True

variable {w w' : World W} {P : NotifyFuture W → Prop} {k : Nat}

theorem has_wait_iff (h : ¬ P ⟨true, none, []⟩) :
    Has { w with futures := w.futures ++ [⟨true, none, []⟩] } P ↔ w.Has P := by
  constructor
  · rintro ⟨k, f, hf, hP⟩
    obtain hlt | hge := Nat.lt_or_ge k w.futures.length
    · rw [getElem?_append_left hlt] at hf
      exact ⟨k, f, hf, hP⟩
    · rw [getElem?_append_right hge] at hf
      have hnew := mem_singleton.mp (mem_of_getElem? hf)
      rw [hnew] at hP
      exact absurd hP h
  · rintro ⟨k, f, hf, hP⟩
    refine ⟨k, f, ?_, hP⟩
    have hlt := (List.getElem?_eq_some_iff.mp hf).1
    exact (getElem?_append_left hlt).trans hf

theorem has_drop_iff {f : NotifyFuture W} (h : ¬ P { f with alive := false }) :
    Has { w with futures := w.futures.set k { f with alive := false } } P ↔ w.Other k P := by
  constructor
  · rintro ⟨j, g, hg, hP⟩
    have hset : (w.futures.set k { f with alive := false })[j]? = some g := hg
    by_cases hjk : j = k
    · subst hjk
      rw [getElem?_set_self'] at hset
      obtain ⟨old, -, rfl⟩ := Option.map_eq_some_iff.mp hset
      exact absurd hP h
    · rw [getElem?_set_ne (Ne.symm hjk)] at hset
      exact ⟨j, g, hjk, hset, hP⟩
  · rintro ⟨j, g, hjk, hg, hP⟩
    exact ⟨j, g, (getElem?_set_ne (Ne.symm hjk)).trans hg, hP⟩

theorem has_map_iff {state : NotifierState W} {g : NotifyFuture W → NotifyFuture W}
    {Q : NotifyFuture W → Prop} (h : ∀ f, P (g f) ↔ Q f) :
    Has ⟨state, w.futures.map g⟩ P ↔ w.Has Q := by
  constructor
  · rintro ⟨k, f, hf, hP⟩
    have hmap : (w.futures.map g)[k]? = some f := hf
    rw [getElem?_map] at hmap
    obtain ⟨old, hold, rfl⟩ := Option.map_eq_some_iff.mp hmap
    exact ⟨k, old, hold, (h old).mp hP⟩
  · rintro ⟨k, f, hf, hQ⟩
    refine ⟨k, g f, ?_, (h f).mpr hQ⟩
    show (w.futures.map g)[k]? = _
    rw [getElem?_map, hf, Option.map_some]

theorem noLostWakeup_wait (h : w.NoLostWakeup) :
    NoLostWakeup { w with futures := w.futures ++ [⟨true, none, []⟩] } := by
  intro hnotified
  rw [has_wait_iff (by rintro ⟨-, ⟨⟩⟩), has_wait_iff (by rintro ⟨-, waker, ⟨⟩, -⟩)]
  exact h hnotified

/-- After a poll there is no notification. -/
theorem noLostWakeup_poll (k : Nat) (f : NotifyFuture W) (waker : W) :
    (w.pollFuture k f waker).NoLostWakeup := by
  intro hnotified
  have hnone : (w.state.poll waker).2.notified = false := by
    unfold NotifierState.poll
    split_ifs with h
    · rfl
    · exact Bool.eq_false_iff.mpr h
  cases hnone.symm.trans hnotified

theorem noLostWakeup_notify_iff :
    NoLostWakeup {
        state := w.state.notify.1
        futures := w.futures.map fun f =>
          { f with since := f.since ++ w.state.notify.2.toList } } ↔ w.Keeps .notify := by
  have hwaiting : Has ⟨w.state.notify.1, w.futures.map fun f =>
      { f with since := f.since ++ w.state.notify.2.toList }⟩ NotifyFuture.Waiting ↔
      w.Has NotifyFuture.Waiting := has_map_iff fun f => Iff.rfl
  have hwoken : Has ⟨w.state.notify.1, w.futures.map fun f =>
      { f with since := f.since ++ w.state.notify.2.toList }⟩ NotifyFuture.Woken ↔
      w.Has (NotifyFuture.Reached w.state.waker) := by
    refine has_map_iff fun f => ?_
    refine and_congr_right fun _ => exists_congr fun waker => and_congr_right fun _ => ?_
    show waker ∈ f.since ++ w.state.waker.toList ↔ _
    rw [mem_append, Option.mem_toList]
  unfold NoLostWakeup
  rw [hwaiting, hwoken]
  exact forall_prop_of_true rfl

theorem noLostWakeup_drop_iff {f : NotifyFuture W} (hf : w.future? k = some f) :
    NoLostWakeup { w with futures := w.futures.set k { f with alive := false } } ↔
      w.Keeps (.drop k) := by
  rw [NoLostWakeup, has_drop_iff (by rintro ⟨⟨⟩, -⟩), has_drop_iff (by rintro ⟨⟨⟩, -⟩)]
  simp only [Keeps, hf, Option.isSome_some, forall_const]

theorem noLostWakeup_step_iff (h : w.NoLostWakeup) (a : Action W) :
    (∀ w', w.step a = some w' → w'.NoLostWakeup) ↔ w.Keeps a := by
  cases a with
  | wait =>
    refine iff_of_true (fun w' hstep => ?_) trivial
    cases hstep
    exact noLostWakeup_wait h
  | poll k waker =>
    refine iff_of_true (fun w' hstep => ?_) trivial
    obtain ⟨f, -, rfl⟩ := Option.map_eq_some_iff.mp hstep
    exact noLostWakeup_poll k f waker
  | drop k =>
    cases hf : w.future? k with
    | none =>
      simp [step, Keeps, hf]
    | some f =>
      rw [← noLostWakeup_drop_iff hf]
      simp [step, hf]
  | notify =>
    rw [← noLostWakeup_notify_iff]
    exact ⟨fun hall => hall _ rfl, fun hnext w' hstep => Option.some.inj hstep ▸ hnext⟩

/-- No wake is ever lost in a history exactly if none of its steps loses one. -/
theorem noLostWakeup_iff (actions : List (Action W)) :
    (∀ before after w, actions = before ++ after → run step new before = some w →
        w.NoLostWakeup) ↔
      ∀ w a, Taken step new actions w a → w.Keeps a :=
  always_iff (P := fun _ => NoLostWakeup) (I := fun _ _ => True) (A := fun _ _ => True)
    (by rintro ⟨⟩) trivial (fun _ _ _ _ _ _ _ _ _ => trivial)
    (fun _ _ a _ _ h _ => noLostWakeup_step_iff h a) (fun _ _ _ => trivial)

/-- Two futures wait.  The second one is dropped, or it takes the first of two notifications; the
waker of the first one is not woken. -/
theorem lost_wakeup :
    (∃ w : World Nat, run step new [.wait, .wait, .poll 0 1, .poll 1 2, .drop 1, .notify] =
      some w ∧ ¬ w.NoLostWakeup) ∧
    ∃ w : World Nat, run step new [.wait, .wait, .poll 0 1, .poll 1 2, .notify, .poll 1 2,
      .notify] = some w ∧ ¬ w.NoLostWakeup := by
  refine ⟨⟨_, rfl, fun h => ?_⟩, ⟨_, rfl, fun h => ?_⟩⟩
  · obtain ⟨k, f, hf, halive, waker, hregistered, hwoken⟩ := h rfl ⟨0, _, rfl, rfl, rfl⟩
    obtain rfl | hf := mem_cons.mp (mem_of_getElem? hf)
    · cases hregistered
      exact absurd hwoken (by decide)
    · obtain rfl := mem_singleton.mp hf
      cases halive
  · obtain ⟨k, f, hf, halive, waker, hregistered, hwoken⟩ := h rfl ⟨0, _, rfl, rfl, rfl⟩
    obtain rfl | hf := mem_cons.mp (mem_of_getElem? hf)
    · cases hregistered
      exact absurd hwoken (by decide)
    · obtain rfl := mem_singleton.mp hf
      cases hregistered

end World

end IronSbe.Channel.Notifier
