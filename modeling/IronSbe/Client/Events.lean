import IronSbe.Client.Client

/-!
# Waiting for events

`ClientHandle::wait_event` looks into the event queue, then at the flag that the drop of the
`Client` sets, and then waits for `event_notify`.  The client runs on another thread: it puts
an event in the queue and calls `notify_one` afterwards, and it may do so between any two of
these steps.  `notify_one` wakes the waiter that is parked or else stores a permit.

The drop of the `Client` sets the flag and notifies nobody.

* `Announced`: a call that is past the queue finds a permit for what has come since.
* `wakesUp_iff`: so a call never sleeps over an event, and after the drop it ends if and only
  if it was not past the look at the flag, without a permit, when the client was dropped.
-/

namespace IronSbe

open Lib Lib.Transition Client

namespace Client

/-- A step that puts an event in the queue and then calls `notify_one`. -/
def emits (c : Client) : Action → Bool
  | .connect none => true
  | .recv (.ok (some _)) => true
  | .retry => c.reconnectState.onFailure.1.isSome
  | _ => false

/-- The future of `run` waits for something there, so it can be dropped. -/
def Phase.Awaits : Phase → Prop
  | .connecting | .selecting | .sending _ | .sleeping | .returned _ => True
  | .draining | .failed _ => False

instance : DecidablePred Phase.Awaits
  | .connecting | .selecting | .sending _ | .sleeping | .returned _ => isTrue trivial
  | .draining | .failed _ => isFalse id

variable {c c' : Client} {a : Action}

/-- The event queue and its permit change only where an event is sent, and in `poll`. -/
theorem events_step (hstep : c.step a = some c') (hemits : c.emits a = false)
    (hpoll : a ≠ .pollEvent) : c'.events = c.events ∧ c'.eventPermit = c.eventPermit := by
  cases moves_of_step hstep with
  | connected => cases hemits
  | refused | notified | wake | sent | notify => exact ⟨rfl, rfl⟩
  | take =>
    unfold takeCommand
    split <;> exact ⟨rfl, rfl⟩
  | recv result =>
    rcases result with _ | _ | message
    · exact ⟨rfl, rfl⟩
    · exact ⟨rfl, rfl⟩
    · cases hemits
  | retry =>
    unfold retry
    dsimp only
    split
    · rename_i delay hdelay
      rw [emits, hdelay] at hemits
      cases hemits
    · exact ⟨rfl, rfl⟩
  | send message =>
    unfold handleSend
    split <;> exact ⟨rfl, rfl⟩
  | disconnect =>
    unfold handleDisconnect
    split <;> exact ⟨rfl, rfl⟩
  | pollEvent => exact absurd rfl hpoll

end Client

/-- Where `wait_event` is. -/
inductive Wait where
  /-- It is not called. -/
  | idle
  /-- Before `event_rx.recv`, before `event_rx.is_connected`, and before the first poll of
  `notified`. -/
  | looking
  | checking
  | parking
  | parked
  /-- `notify_one` has woken it. -/
  | woken
  deriving DecidableEq, Repr

/-- The client, a handle that waits for events, and the drop of the client. -/
structure Events where
  client : Client
  /-- The client has still to call `notify_one` for the event that it has sent. -/
  notifying : Bool := false
  dropped : Bool := false
  wait : Wait := .idle
  /-- What the calls of `wait_event` have returned. -/
  returned : List (Option ClientEvent) := []

namespace Events

/-- A new client, and a handle that does not wait. -/
def start (config : ReconnectConfig) (channelCapacity : Nat) : Events where
  client := .start config channelCapacity

/-- When a step of the client or a call of the handle is possible.  The client does nothing
between an event and its `notify_one`, and `wait_event` borrows the handle.  The command
queue of a dropped client refuses everything. -/
def possible (w : Events) : Client.Action → Bool
  | .pollEvent | .notify => w.wait = .idle
  | .send _ | .disconnect => w.wait = .idle ∧ w.dropped = false
  | _ => w.dropped = false ∧ w.notifying = false

/-- Of `event_notify`. -/
def setPermit (w : Events) (permit : Bool) : Events :=
  { w with client := { w.client with eventPermit := permit } }

/-- `event_notify.notify_one`. -/
def notifyOne (w : Events) : Events :=
  if w.wait = .parked then { w with wait := .woken } else w.setPermit true

/-- `event_rx.is_connected`. -/
def isConnected (w : Events) : Bool := !w.dropped || !w.client.events.items.isEmpty

/-- The next step of `wait_event`. -/
def waitEvent (w : Events) : Option Events :=
  match w.wait with
  | .idle | .parked => none
  | .looking =>
    match w.client.events.pop? with
    | some (event, events) =>
      some { w with
        client := { w.client with events := events }
        wait := .idle
        returned := w.returned ++ [some event] }
    | none => some { w with wait := .checking }
  | .checking =>
    if w.isConnected then some { w with wait := .parking }
    else some { w with wait := .idle, returned := w.returned ++ [none] }
  | .parking =>
    if w.client.eventPermit then some { w.setPermit false with wait := .looking }
    else some { w with wait := .parked }
  | .woken => some { w with wait := .looking }

/-- The steps of the client and of `wait_event`. -/
inductive Action where
  | client (a : Client.Action)
  /-- The client's `event_notify.notify_one`. -/
  | notifyOne
  /-- `run` is called again, after it has returned or its future was dropped. -/
  | run
  | drop
  /-- `wait_event` is called, takes its next step, or its future is dropped. -/
  | call
  | wait
  | cancel

/-- A step of one of the two sides, if it is possible. -/
def step (w : Events) : Action → Option Events
  | .client a =>
    if w.possible a then
      (w.client.step a).map fun c => { w with
        client := { c with eventPermit := w.client.eventPermit }
        notifying := w.notifying || w.client.emits a }
    else none
  | .notifyOne => if w.notifying then some { w.notifyOne with notifying := false } else none
  | .run =>
    if w.dropped = false ∧ w.notifying = false ∧ w.client.phase.Awaits then
      some { w with client := { w.client with phase := .connecting } }
    else none
  | .drop =>
    if w.dropped = false ∧ w.notifying = false ∧ w.client.phase.Awaits then
      some { w with dropped := true }
    else none
  | .call =>
    if w.wait = .idle ∧ w.client.owed = none then some { w with wait := .looking } else none
  | .wait => w.waitEvent
  | .cancel =>
    match w.wait with
    | .parked => some { w with wait := .idle }
    -- the notification is passed on
    | .woken => some ({ w with wait := .idle }.setPermit true)
    | _ => none

/-- The steps of `wait_event`, with the branch that each of them takes. -/
inductive Waits (w : Events) : Events → Prop
  | event {event : ClientEvent} {events : BoundedQueue ClientEvent} (hwait : w.wait = .looking)
      (hpop : w.client.events.pop? = some (event, events)) :
      Waits w { w with
        client := { w.client with events := events }
        wait := .idle
        returned := w.returned ++ [some event] }
  | empty (hwait : w.wait = .looking) (hpop : w.client.events.pop? = none) :
      Waits w { w with wait := .checking }
  | connected (hwait : w.wait = .checking) (hconnected : w.isConnected = true) :
      Waits w { w with wait := .parking }
  | closed (hwait : w.wait = .checking) (hconnected : w.isConnected = false) :
      Waits w { w with wait := .idle, returned := w.returned ++ [none] }
  | permit (hwait : w.wait = .parking) (hpermit : w.client.eventPermit = true) :
      Waits w { w.setPermit false with wait := .looking }
  | park (hwait : w.wait = .parking) (hpermit : w.client.eventPermit = false) :
      Waits w { w with wait := .parked }
  | woken (hwait : w.wait = .woken) : Waits w { w with wait := .looking }

theorem waits_of_waitEvent {w w' : Events} (hstep : w.waitEvent = some w') : Waits w w' := by
  unfold waitEvent at hstep
  split at hstep
  · cases hstep
  · cases hstep
  · rename_i hwait
    split at hstep
    · rename_i event events hpop
      cases hstep
      exact .event hwait hpop
    · rename_i hpop
      cases hstep
      exact .empty hwait hpop
  · rename_i hwait
    split_ifs at hstep with hconnected
    · cases hstep
      exact .connected hwait hconnected
    · cases hstep
      exact .closed hwait (Bool.eq_false_iff.mpr hconnected)
  · rename_i hwait
    split_ifs at hstep with hpermit
    · cases hstep
      exact .permit hwait hpermit
    · cases hstep
      exact .park hwait (Bool.eq_false_iff.mpr hpermit)
  · rename_i hwait
    cases hstep
    exact .woken hwait

/-! ## Events are announced -/

/-- The call is past its look into the queue. -/
def Past (w : Events) : Prop := w.wait = .checking ∨ w.wait = .parking ∨ w.wait = .parked

/-- What has come since a call looked into the queue has a permit, or `notify_one` is still
to be called for it. -/
structure Announced (w : Events) : Prop where
  past : w.Past → w.client.eventPermit = false → w.notifying = false →
    w.client.events.items = []
  parked : w.wait = .parked → w.client.eventPermit = false

variable {w w' : Events}

theorem announced_start (config : ReconnectConfig) (channelCapacity : Nat) :
    Announced (start config channelCapacity) := ⟨fun _ _ _ => rfl, nofun⟩

/-- A call that is not past its look. -/
theorem announced_of_not_past (hpast : ¬ w.Past) : Announced w :=
  ⟨fun h => absurd h hpast, fun h => absurd (.inr (.inr h)) hpast⟩

theorem not_past_of_idle (hidle : w.wait = .idle) : ¬ w.Past := by
  simp [Past, hidle]

/-- Neither the queue nor the permit changes, and `notify_one` stays to come. -/
theorem Announced.same (h : Announced w) (hwait : w'.wait = w.wait)
    (hevents : w'.client.events = w.client.events)
    (hpermit : w'.client.eventPermit = w.client.eventPermit)
    (hnotifying : w'.notifying = false → w.notifying = false) : Announced w' := by
  refine ⟨fun hpast hp hn => ?_, fun hparked => ?_⟩
  · rw [hevents]
    refine h.past ?_ (hpermit ▸ hp) (hnotifying hn)
    unfold Past at hpast ⊢
    rwa [hwait] at hpast
  · rw [hpermit]
    exact h.parked (hwait ▸ hparked)

theorem Announced.client (h : Announced w) {a : Client.Action} {c : Client}
    (hpossible : w.possible a = true) (hstep : w.client.step a = some c) :
    Announced { w with
      client := { c with eventPermit := w.client.eventPermit }
      notifying := w.notifying || w.client.emits a } := by
  cases hemits : w.client.emits a with
  | true =>
    refine ⟨fun _ _ hn => ?_, h.parked⟩
    rw [Bool.or_true] at hn
    cases hn
  | false =>
    by_cases hpoll : a = .pollEvent
    · subst hpoll
      exact announced_of_not_past (not_past_of_idle (of_decide_eq_true hpossible))
    · have hevents := (events_step hstep hemits hpoll).1
      exact h.same rfl hevents rfl fun hn => (Bool.or_eq_false_iff.mp hn).1

theorem announced_notifyOne (w : Events) : Announced { w.notifyOne with notifying := false } := by
  unfold notifyOne
  split_ifs with hparked
  · exact announced_of_not_past (by simp [Past])
  · exact ⟨nofun, fun h => absurd h hparked⟩

theorem Announced.waits (h : Announced w) (hstep : Waits w w') : Announced w' := by
  cases hstep with
  | event | closed => exact announced_of_not_past (not_past_of_idle rfl)
  | empty hwait hpop => exact ⟨fun _ _ _ => BoundedQueue.items_eq_nil_of_pop? hpop, nofun⟩
  | connected hwait => exact ⟨fun _ => h.past (.inl hwait), nofun⟩
  | permit | woken => exact announced_of_not_past (by simp [Past])
  | park hwait hpermit => exact ⟨fun _ => h.past (.inr (.inl hwait)), fun _ => hpermit⟩

theorem announced_step {a : Action} (h : Announced w) (hstep : w.step a = some w') :
    Announced w' := by
  cases a with
  | client a =>
    rw [step] at hstep
    split_ifs at hstep with hpossible
    obtain ⟨c, hc, rfl⟩ := Option.map_eq_some_iff.mp hstep
    exact h.client hpossible hc
  | notifyOne =>
    obtain ⟨-, rfl⟩ := of_guard hstep
    exact announced_notifyOne w
  | run | drop =>
    obtain ⟨-, rfl⟩ := of_guard hstep
    exact h.same rfl rfl rfl id
  | call =>
    obtain ⟨-, rfl⟩ := of_guard hstep
    exact announced_of_not_past (by simp [Past])
  | wait => exact h.waits (waits_of_waitEvent hstep)
  | cancel =>
    rw [step] at hstep
    split at hstep
    · cases hstep
      exact announced_of_not_past (not_past_of_idle rfl)
    · cases hstep
      exact announced_of_not_past (not_past_of_idle rfl)
    · cases hstep

theorem announced_of_reach {config : ReconnectConfig} {channelCapacity : Nat}
    (h : Reach step Anything (start config channelCapacity) w) : Announced w :=
  h.invariant Announced (announced_start config channelCapacity)
    fun _ _ _ hi _ hs => announced_step hi hs

/-! ## The drop of the client -/

/-- The call sleeps, nobody is about to wake it, and there is an event or no client. -/
def Stuck (w : Events) : Prop :=
  w.wait = .parked ∧ w.client.eventPermit = false ∧ w.notifying = false ∧
    (w.client.events.items ≠ [] ∨ w.dropped = true)

/-- The steps of the call itself lead it to return `None`. -/
def ReturnsNone (w : Events) : Prop :=
  ∃ n w', Transition.run step w (List.replicate n .wait) = some w' ∧ w'.wait = .idle ∧
    w'.returned = w.returned ++ [none]

/-- A call does not sleep for ever, and without client and events it returns `None`. -/
def WakesUp (w : Events) : Prop :=
  ¬ w.Stuck ∧ (w.dropped = true → w.client.events.items = [] → w.wait ≠ .idle → w.ReturnsNone)

/-- A call that has seen the client has a permit. -/
def Permitted (w : Events) : Prop :=
  w.wait ≠ .parked ∧ (w.wait = .parking → w.client.eventPermit = true)

instance (w : Events) : Decidable w.Permitted := inferInstanceAs (Decidable (_ ∧ _))

/-- What holds behind the drop. -/
structure Left (w : Events) : Prop where
  announced : Announced w
  permitted : Permitted w
  dropped : w.dropped = true
  notifying : w.notifying = false

theorem Left.waits (h : Left w) (hstep : Waits w w') : Left w' := by
  have hannounced := h.announced.waits hstep
  cases hstep with
  | event | empty | closed | permit | woken =>
    exact ⟨hannounced, ⟨nofun, nofun⟩, h.dropped, h.notifying⟩
  | connected hwait hconnected =>
    refine ⟨hannounced, ⟨nofun, fun _ => ?_⟩, h.dropped, h.notifying⟩
    -- the queue is not empty, since the client is dropped
    by_contra hpermit
    have hempty := h.announced.past (.inl hwait) (Bool.eq_false_iff.mpr hpermit) h.notifying
    rw [isConnected, h.dropped, hempty] at hconnected
    cases hconnected
  | park hwait hpermit =>
    rw [h.permitted.2 hwait] at hpermit
    cases hpermit

theorem left_step {a : Action} (h : Left w) (hstep : w.step a = some w') : Left w' := by
  have hannounced := announced_step h.announced hstep
  cases a with
  | client a =>
    rw [step] at hstep
    split_ifs at hstep with hpossible
    obtain ⟨c, hc, rfl⟩ := Option.map_eq_some_iff.mp hstep
    cases a with
    | pollEvent | notify =>
      have hidle : w.wait = .idle := of_decide_eq_true hpossible
      refine ⟨hannounced, ⟨?_, ?_⟩, h.dropped, ?_⟩
      · simp [hidle]
      · simp [hidle]
      · rw [h.notifying]
        rfl
    | _ => simp [possible, h.dropped] at hpossible
  | notifyOne | run | drop => simp [step, h.dropped, h.notifying] at hstep
  | call =>
    obtain ⟨-, rfl⟩ := of_guard hstep
    exact ⟨hannounced, ⟨nofun, nofun⟩, h.dropped, h.notifying⟩
  | wait => exact h.waits (waits_of_waitEvent hstep)
  | cancel =>
    rw [step] at hstep
    split at hstep
    · cases hstep
      exact ⟨hannounced, ⟨nofun, nofun⟩, h.dropped, h.notifying⟩
    · cases hstep
      exact ⟨hannounced, ⟨nofun, nofun⟩, h.dropped, h.notifying⟩
    · cases hstep

theorem left_of_reach {w₁ : Events} (h : Reach step Anything w₁ w) (hleft : Left w₁) : Left w :=
  h.invariant Left hleft fun _ _ _ hi _ hs => left_step hi hs

theorem ReturnsNone.of_waitEvent (hstep : w.waitEvent = some w')
    (hreturned : w'.returned = w.returned) (h : ReturnsNone w') : ReturnsNone w := by
  obtain ⟨n, last, hrun, hidle, hnone⟩ := h
  refine ⟨n + 1, last, ?_, hidle, hreturned ▸ hnone⟩
  rw [List.replicate_succ, Transition.run]
  exact Option.bind_eq_some_iff.mpr ⟨w', hstep, hrun⟩

section Gone

variable (hdropped : w.dropped = true) (hempty : w.client.events.items = [])
include hdropped hempty

theorem returnsNone_of_checking (hwait : w.wait = .checking) : ReturnsNone w := by
  have hconnected : w.isConnected = false := by
    rw [isConnected, hdropped, hempty]
    rfl
  refine ⟨1, { w with wait := .idle, returned := w.returned ++ [none] }, ?_, rfl, rfl⟩
  simp [Transition.run, step, waitEvent, hwait, hconnected]

theorem returnsNone_of_looking (hwait : w.wait = .looking) : ReturnsNone w := by
  have hpop := BoundedQueue.pop?_of_items_eq_nil hempty
  have hstep : w.waitEvent = some { w with wait := .checking } := by
    simp only [waitEvent, hwait, hpop]
  exact .of_waitEvent hstep rfl (returnsNone_of_checking hdropped hempty rfl)

theorem returnsNone_of_woken (hwait : w.wait = .woken) : ReturnsNone w := by
  have hstep : w.waitEvent = some { w with wait := .looking } := by
    simp only [waitEvent, hwait]
  exact .of_waitEvent hstep rfl (returnsNone_of_looking hdropped hempty rfl)

theorem returnsNone_of_parking (hwait : w.wait = .parking) (hpermit : w.client.eventPermit = true) :
    ReturnsNone w := by
  have hstep : w.waitEvent = some { w.setPermit false with wait := .looking } := by
    simp only [waitEvent, hwait, hpermit, if_true]
  exact .of_waitEvent hstep rfl (returnsNone_of_looking hdropped hempty rfl)

end Gone

theorem Left.wakesUp (h : Left w) : WakesUp w := by
  refine ⟨fun hstuck => h.permitted.1 hstuck.1, fun hdropped hempty hwait => ?_⟩
  cases hphase : w.wait with
  | idle => exact absurd hphase hwait
  | looking => exact returnsNone_of_looking hdropped hempty hphase
  | checking => exact returnsNone_of_checking hdropped hempty hphase
  | parking => exact returnsNone_of_parking hdropped hempty hphase (h.permitted.2 hphase)
  | parked => exact absurd hphase h.permitted.1
  | woken => exact returnsNone_of_woken hdropped hempty hphase

/-- Without a permit, a call that has seen the client goes to sleep behind the drop. -/
theorem stuck_of_not_permitted (hannounced : Announced w) (hdropped : w.dropped = true)
    (hnotifying : w.notifying = false) (h : ¬ w.Permitted) :
    ∃ w', Reach step Anything w w' ∧ w'.Stuck := by
  by_cases hparked : w.wait = .parked
  · exact ⟨w, .start, hparked, hannounced.parked hparked, hnotifying, .inr hdropped⟩
  · have hparking : ¬ (w.wait = .parking → w.client.eventPermit = true) :=
      fun hpermit => h ⟨hparked, hpermit⟩
    obtain ⟨hwait, hpermit⟩ := Classical.not_imp.mp hparking
    have hfalse := Bool.eq_false_iff.mpr hpermit
    have hstep : w.step .wait = some { w with wait := .parked } := by
      simp [step, waitEvent, hwait, hfalse]
    exact ⟨_, .step .start trivial hstep, rfl, hfalse, hnotifying, .inr hdropped⟩

/-- While there is a client, no call of `wait_event` sleeps over an event.  After the drop of
the client it never sleeps for ever, and returns `None` once the queue is empty, if and only
if it was not past its look at the flag, or had a permit, when the client was dropped. -/
theorem wakesUp_iff {config : ReconnectConfig} {channelCapacity : Nat}
    (h : Reach step Anything (start config channelCapacity) w) :
    (w.dropped = false → WakesUp w) ∧
      ∀ w₁, w.step .drop = some w₁ →
        ((∀ w', Reach step Anything w₁ w' → WakesUp w') ↔ Permitted w) := by
  have hannounced := announced_of_reach h
  constructor
  · intro halive
    refine ⟨fun ⟨hparked, hpermit, hnotifying, hreason⟩ => ?_, fun hdropped => ?_⟩
    · rcases hreason with hevents | hdropped
      · exact hevents (hannounced.past (.inr (.inr hparked)) hpermit hnotifying)
      · exact absurd (halive.symm.trans hdropped) nofun
    · exact absurd (halive.symm.trans hdropped) nofun
  · intro w₁ hdrop
    have hannounced₁ := announced_step hannounced hdrop
    obtain ⟨hguard, rfl⟩ := of_guard hdrop
    constructor
    · intro hwakes
      by_contra hpermitted
      obtain ⟨w', hreach, hstuck⟩ :=
        stuck_of_not_permitted (w := { w with dropped := true }) hannounced₁ rfl hguard.2.1
          hpermitted
      exact (hwakes w' hreach).1 hstuck
    · intro hpermitted w' hreach
      exact (left_of_reach hreach ⟨hannounced₁, hpermitted, rfl, hguard.2.1⟩).wakesUp

/-- A call that has looked into the queue when the client is dropped. -/
theorem wakesUp_iff_checking :
    ∃ w w₁, Reach step Anything (start {} 4) w ∧ w.wait = .checking ∧ w.step .drop = some w₁ ∧
      ∀ w', Reach step Anything w₁ w' → WakesUp w' := by
  have hreach : Reach step Anything (start {} 4) _ := reach_of_run [.call, .wait] rfl
  exact ⟨_, _, hreach, rfl, rfl, ((wakesUp_iff hreach).2 _ rfl).mpr (by decide)⟩

/-- After the drop, only the drop of its own future ends a call that sleeps. -/
theorem eq_cancel_of_stuck {a : Action} (hstuck : w.Stuck) (hdropped : w.dropped = true)
    (hstep : w.step a = some w') : a = .cancel := by
  obtain ⟨hparked, -, hnotifying, -⟩ := hstuck
  cases a with
  | client a =>
    cases a <;> simp [step, possible, hparked, hdropped] at hstep
  | notifyOne | run | drop | call | wait =>
    simp [step, waitEvent, hparked, hdropped, hnotifying] at hstep
  | cancel => rfl

/-- The client is connected and its event has been taken, the next call sleeps, and the
client is dropped: nobody wakes the call any more. -/
theorem parked_at_drop :
    ∃ w, Reach step Anything (start {} 4) w ∧ w.dropped = true ∧ w.client.events.items = [] ∧
      w.returned = [some .connected] ∧ w.Stuck ∧
      ∀ a w', w.step a = some w' → a = .cancel := by
  have hreach : Reach step Anything (start {} 4) _ :=
    reach_of_run [.client (.connect none), .notifyOne, .call, .wait, .call, .wait, .wait, .wait,
      .wait, .wait, .wait, .drop] rfl
  refine ⟨_, hreach, rfl, rfl, rfl, ⟨rfl, rfl, rfl, .inr rfl⟩, fun a w' => ?_⟩
  exact eq_cancel_of_stuck ⟨rfl, rfl, rfl, .inr rfl⟩ rfl

end Events

end IronSbe
