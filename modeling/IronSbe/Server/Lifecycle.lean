import IronSbe.Server.Bookkeeping

/-!
# The life of a session

The handler hears of a session when it is accepted, for every frame that `recv` returns, and
when its task has ended.  A `Lifecycle` keeps, for each task, the frames that `recv` has
returned, and the events that were taken out of the event channel: with those still in it,
these are all that went into it.

* `Effect`: what a step does to the calls of the tasks and to the event channel.
* `trace_of_reach`: the calls of every session, as an equation.

A session is the place of its task, and all its calls carry its id.  Ids come from a counter
of 64 bits, so that they are different for the first `2 ^ 64` sessions.
-/

namespace IronSbe.Server

open Lib Lib.Transition IronSbe.Core

/-- The call of the handler for a frame. -/
def dispatch (data : List UInt8) : Callback :=
  if MessageHeader.encodedLength ≤ data.length then .onMessage (MessageHeader.wrap data 0) data
  else .onError messageTooShort

/-- `on_session_end` has been called. -/
def Task.hasEnded (t : Task) : Bool :=
  match t.phase with
  | .reported | .closing | .finished => true
  | _ => false

/-! ## One step -/

/-- The frame that `recv` returns to a task in a step. -/
def receivedBy (a : Action) (i : Nat) : List (List UInt8) :=
  match a with
  | .task j (.recv data) => if i = j then [data] else []
  | _ => []

/-- The event that a step takes out of the event channel. -/
def polledBy (s : Server) : Action → List ServerEvent
  | .pollEvent => (s.events.pop?.map Prod.fst).toList
  | _ => []

/-- There is room in the event channel. -/
def eventRoom (s : Server) : Bool := s.events.items.length < s.events.capacity

/-- What a step adds to the calls of a task that gets these frames, and does not end in it. -/
structure Lives (frames : List (List UInt8)) (t t' : Task) : Prop where
  id : t'.id = t.id
  calls : t'.calls = t.calls ++ frames.map dispatch
  hasEnded : t'.hasEnded = t.hasEnded
  alive : t.hasEnded = true → frames = []

/-- The calls and the phase stay. -/
structure Kept (t t' : Task) : Prop where
  id : t'.id = t.id
  phase : t'.phase = t.phase
  calls : t'.calls = t.calls

theorem others_kept : Others Kept where
  refl := fun _ => ⟨rfl, rfl, rfl⟩
  trans := fun _ _ _ h h' => ⟨h'.id.trans h.id, h'.phase.trans h.phase, h'.calls.trans h.calls⟩
  push := fun _ _ => ⟨rfl, rfl, rfl⟩
  cancel := fun _ => ⟨rfl, rfl, rfl⟩

variable {t t' : Task} {a : Action} {index : Nat} {action : TaskAction}

theorem Kept.lives (h : Kept t t') : Lives [] t t' where
  id := h.id
  calls := by simp [h.calls]
  hasEnded := by rw [Task.hasEnded, Task.hasEnded, h.phase]
  alive := fun _ => rfl

variable {s s' : Server}

/-- What a step does to the tasks and to the event channel.  Only a new session and the end of
one are told there. -/
inductive Effect (a : Action) (s s' : Server) : Prop where
  | quiet (length : s'.tasks.length = s.tasks.length)
      (task : ∀ (i : Nat) (t' : Task), s'.tasks[i]? = some t' →
        ∃ t, s.tasks[i]? = some t ∧ Lives (receivedBy a i) t t')
      (unborn : ∀ i, s.tasks.length ≤ i → receivedBy a i = [])
      (events : s.polledBy a ++ s'.events.items = s.events.items)
  | created (addr : SocketAddr) (accept : a = .accept addr) (selecting : s.loop = .selecting)
      (tasks : s'.tasks = s.tasks ++ [{ id := s.sessions.nextId }])
      (events : s'.events = s.events.offer (.sessionCreated s.sessions.nextId addr))
  | ended (index : Nat) (t : Task) (report : a = .task index .report)
      (task : s.tasks[index]? = some t) (phase : t.phase = .ended)
      (tasks : s'.tasks = s.tasks.set index
        { t with phase := .reported, calls := t.calls ++ [.onSessionEnd] })
      (events : s'.events = s.events.offer (.sessionClosed t.id))

/-- A step of the others. -/
theorem Effect.of_kept (hreceived : ∀ i, receivedBy a i = [])
    (htasks : Pointwise Kept s.tasks s'.tasks)
    (hevents : s.polledBy a ++ s'.events.items = s.events.items) : Effect a s s' := by
  refine .quiet htasks.1.symm (fun i t' ht' => ?_) (fun i _ => hreceived i) hevents
  obtain ⟨t, ht, hkept⟩ := htasks.2 i t' ht'
  exact ⟨t, ht, hreceived i ▸ hkept.lives⟩

/-- A task is the one that was replaced or another one. -/
theorem getElem?_set_cases {tasks : List Task} {u : Task} {i : Nat} (ht : tasks[index]? = some t)
    (hu : (tasks.set index t')[i]? = some u) :
    i = index ∧ u = t' ∨ i ≠ index ∧ tasks[i]? = some u := by
  by_cases hi : index = i
  · subst hi
    rw [List.getElem?_set_self (List.getElem?_eq_some_iff.mp ht).1] at hu
    exact .inl ⟨rfl, (Option.some.inj hu).symm⟩
  · rw [List.getElem?_set_ne hi] at hu
    exact .inr ⟨Ne.symm hi, hu⟩

/-- A step of the task itself. -/
theorem Effect.of_set (ht : s.tasks[index]? = some t) (htasks : s'.tasks = s.tasks.set index t')
    (hlives : Lives (receivedBy (.task index action) index) t t') (hevents : s'.events = s.events) :
    Effect (.task index action) s s' := by
  have hindex := (List.getElem?_eq_some_iff.mp ht).1
  have hother : ∀ i, i ≠ index → receivedBy (.task index action) i = [] := by
    intro i hi
    cases action <;> simp [receivedBy, hi]
  refine .quiet (by rw [htasks, List.length_set]) (fun i u hu => ?_)
    (fun i hi => hother i (by omega)) (congrArg BoundedQueue.items hevents)
  rcases getElem?_set_cases ht (htasks ▸ hu) with ⟨rfl, rfl⟩ | ⟨hi, hu⟩
  · exact ⟨t, ht, hlives⟩
  · exact ⟨u, hu, hother i hi ▸ (others_kept.refl u).lives⟩

theorem lives_receive (data : List UInt8) (hphase : t.phase = .running) :
    Lives [data] t (t.receive data) := by
  have hended : t.hasEnded = false := by rw [Task.hasEnded, hphase]
  have halive : t.hasEnded = true → [data] = [] := fun h => absurd (hended.symm.trans h) nofun
  unfold Task.receive
  split_ifs with hlength
  · exact ⟨rfl, by simp [dispatch, hlength], hended.symm, halive⟩
  · exact ⟨rfl, by simp [dispatch, hlength], rfl, halive⟩

/-- A step in which the handler is not called. -/
theorem Effect.of_hasEnded_eq (ht : s.tasks[index]? = some t)
    (htasks : s'.tasks = s.tasks.set index t')
    (hreceived : receivedBy (.task index action) index = []) (hid : t'.id = t.id)
    (hcalls : t'.calls = t.calls) (hended : t'.hasEnded = t.hasEnded)
    (hevents : s'.events = s.events) : Effect (.task index action) s s' := by
  refine .of_set ht htasks ?_ hevents
  rw [hreceived]
  exact ⟨hid, by simp [hcalls], hended, fun _ => rfl⟩

theorem hasEnded_of_phase {phase : TaskPhase} (hphase : t.phase = phase) :
    t.hasEnded = ({ t with phase := phase } : Task).hasEnded := by
  rw [Task.hasEnded, hphase]
  rfl

theorem events_responderSend (s : Server) (task : Nat) (message : List UInt8) :
    (s.responderSend task message).2.events = s.events := by
  unfold responderSend
  split
  · rfl
  · split_ifs <;> rfl

theorem events_responderSendTo (s : Server) (sessionId : Nat) (message : List UInt8) :
    (s.responderSendTo sessionId message).2.events = s.events := by
  unfold responderSendTo
  split
  · split_ifs <;> rfl
  · rfl

theorem events_handleCommand (s : Server) (command : ServerCommand) :
    (s.handleCommand command).2.events = s.events := by
  cases command with
  | shutdown | closeSession | broadcast => rfl
  | sendTo sessionId message =>
    rw [handleCommand]
    split
    · rfl
    · split_ifs <;> rfl

theorem effect_stepTask (ht : s.tasks[index]? = some t)
    (hstep : s.stepTask index t action = some s') :
    Effect (.task index action) s s' := by
  cases taskMoves_of_stepTask hstep with
  | respond message =>
    exact .of_kept (fun _ => rfl) (responderSend_beside others_kept s index message).tasks
      (congrArg BoundedQueue.items (events_responderSend s index message))
  | respondTo sessionId message =>
    exact .of_kept (fun _ => rfl) (responderSendTo_beside others_kept s sessionId message).tasks
      (congrArg BoundedQueue.items (events_responderSendTo s sessionId message))
  | recv data hphase =>
    refine .of_set ht rfl ?_ rfl
    simpa [receivedBy] using lives_receive data hphase
  | takeOut _ _ hphase | handled hphase | sent hphase | close hphase | notify hphase =>
    exact .of_hasEnded_eq ht rfl rfl rfl rfl (by rw [hasEnded_of_phase hphase]; rfl) rfl
  | fail hphase | cancelled hphase =>
    refine .of_hasEnded_eq ht rfl rfl rfl rfl ?_ rfl
    rcases hphase with hphase | hphase <;> rw [hasEnded_of_phase hphase] <;> rfl
  | report hphase => exact .ended index t rfl ht hphase rfl rfl

theorem effect_step (hstep : s.step a = some s') : Effect a s s' := by
  cases a with
  | accept addr =>
    obtain ⟨hloop, rfl⟩ := of_guard hstep
    unfold handleConnection
    split_ifs
    · exact .of_kept (fun _ => rfl) (.refl others_kept.refl _) rfl
    · exact .created addr rfl hloop rfl rfl
  | drain =>
    rw [step] at hstep
    split_ifs at hstep
    split at hstep
    · cases hstep
      exact .of_kept (fun _ => rfl) (.refl others_kept.refl _) rfl
    · rename_i command commands hpop
      cases hstep
      have htasks := handleCommand_tasks others_kept { s with commands := commands } command
      have hevents := events_handleCommand { s with commands := commands } command
      refine .of_kept (fun _ => rfl) ?_ (congrArg BoundedQueue.items ?_)
      · split_ifs <;> exact htasks
      · split_ifs <;> exact hevents
  | notified | notify =>
    obtain ⟨-, rfl⟩ := of_guard hstep
    exact .of_kept (fun _ => rfl) (.refl others_kept.refl _) rfl
  | command command =>
    cases hstep
    exact .of_kept (fun _ => rfl) (.refl others_kept.refl _) rfl
  | pollEvent =>
    obtain ⟨⟨event, events⟩, hpop, rfl⟩ := Option.map_eq_some_iff.mp hstep
    refine .of_kept (fun _ => rfl) (.refl others_kept.refl _) ?_
    rw [polledBy, hpop, BoundedQueue.items_of_pop? hpop]
    rfl
  | task index action =>
    obtain ⟨t, ht, htask⟩ := Option.bind_eq_some_iff.mp hstep
    exact effect_stepTask ht htask

/-! ## Runs -/

/-- The session that an event is about. -/
def ServerEvent.session? : ServerEvent → Option Nat
  | .listening _ => none
  | .sessionCreated sessionId _ | .sessionClosed sessionId => some sessionId

/-- A server with the frames that `recv` has returned to each task, and the events that were
taken out of the event channel. -/
structure Lifecycle where
  server : Server
  received : Nat → List (List UInt8) := fun _ => []
  polled : List ServerEvent := []

namespace Lifecycle

/-- A step, with what it receives and polls in the histories. -/
def step (w : Lifecycle) (a : Action) : Option Lifecycle :=
  (w.server.step a).map fun server =>
    { server := server
      received := fun i => w.received i ++ receivedBy a i
      polled := w.polled ++ w.server.polledBy a }

/-- What went into the event channel: the events that were taken out, and those still in it. -/
def events (w : Lifecycle) : List ServerEvent := w.polled ++ w.server.events.items

/-- The events of a session. -/
def eventsOf (w : Lifecycle) (sessionId : Nat) : List ServerEvent :=
  w.events.filter fun event => event.session? = some sessionId

/-- The event channel is not full when an event is sent. -/
def HasRoom (w : Lifecycle) : Action → Prop
  | .accept _ | .task _ .report => w.server.eventRoom = true
  | _ => True

instance (w : Lifecycle) (a : Action) : Decidable (HasRoom w a) := by
  unfold HasRoom
  split <;> infer_instance

/-- The ids of the tasks and the calls of the handler for each of them. -/
structure Inv (w : Lifecycle) : Prop where
  server : Server.Inv w.server
  ids : ∀ (i : Nat) (t : Task), w.server.tasks[i]? = some t → t.id = (i + 1) % 2 ^ 64
  unborn : ∀ i, w.server.tasks.length ≤ i → w.received i = []
  calls : ∀ (i : Nat) (t : Task), w.server.tasks[i]? = some t →
    t.calls = .onSessionStart :: (w.received i).map dispatch ++
      if t.hasEnded then [.onSessionEnd] else []

/-- The events of the sessions, as long as their ids are different. -/
structure Reported (w : Lifecycle) : Prop where
  known : ∀ event ∈ w.events, ∀ sessionId, event.session? = some sessionId →
    ∃ i < w.server.tasks.length, sessionId = (i + 1) % 2 ^ 64
  told : w.server.tasks.length ≤ 2 ^ 64 → ∀ (i : Nat) (t : Task), w.server.tasks[i]? = some t →
    ∃ addr, w.eventsOf t.id =
      .sessionCreated t.id addr :: if t.hasEnded then [.sessionClosed t.id] else []

variable {w w' : Lifecycle}

theorem inv_start (maxConnections channelCapacity : Nat) (addr : SocketAddr) :
    Inv { server := start maxConnections channelCapacity addr } :=
  ⟨Server.inv_of_reach (.start : Reach Server.step Anything _ _), by simp [start],
    fun _ _ => rfl, by simp [start]⟩

variable {a : Action} {i : Nat} {t : Task} {Allowed : Lifecycle → Action → Prop}

theorem Inv.eq_of_id_eq (h : Inv w) (hlength : w.server.tasks.length ≤ 2 ^ 64) {j : Nat} {u : Task}
    (ht : w.server.tasks[i]? = some t) (hu : w.server.tasks[j]? = some u) (hid : u.id = t.id) :
    j = i := by
  have hi := (List.getElem?_eq_some_iff.mp ht).1
  have hj := (List.getElem?_eq_some_iff.mp hu).1
  rw [h.ids i t ht, h.ids j u hu] at hid
  omega

theorem of_step (hstep : w.step a = some w') :
    w.server.step a = some w'.server ∧ (∀ i, w'.received i = w.received i ++ receivedBy a i) ∧
      w'.polled = w.polled ++ w.server.polledBy a := by
  obtain ⟨server, hserver, rfl⟩ := Option.map_eq_some_iff.mp hstep
  exact ⟨hserver, fun _ => rfl, rfl⟩

theorem inv_step (h : Inv w) (hstep : w.step a = some w') : Inv w' := by
  obtain ⟨hserver, hreceived, -⟩ := of_step hstep
  have hinv := Server.inv_step h.server hserver
  cases effect_step hserver with
  | quiet hlength htask hunborn hevents =>
    refine ⟨hinv, fun i t' ht' => ?_, fun i hi => ?_, fun i t' ht' => ?_⟩
    · obtain ⟨t, ht, hlives⟩ := htask i t' ht'
      rw [hlives.id]
      exact h.ids i t ht
    · rw [hlength] at hi
      simp [hreceived, h.unborn i hi, hunborn i hi]
    · obtain ⟨t, ht, hlives⟩ := htask i t' ht'
      rw [hlives.calls, h.calls i t ht, hlives.hasEnded, hreceived]
      cases hended : t.hasEnded with
      | true => simp [hlives.alive hended]
      | false => simp
  | created addr haccept hloop htasks hevents =>
    subst haccept
    have hsame : ∀ i, w'.received i = w.received i := fun i =>
      (hreceived i).trans (List.append_nil _)
    refine ⟨hinv, fun i t' ht' => ?_, fun i hi => ?_, fun i t' ht' => ?_⟩
    · rcases getElem?_concat_cases (htasks ▸ ht') with ht | ⟨rfl, rfl⟩
      · exact h.ids i t' ht
      · exact (h.server.tables (by simp [hloop])).nextId
    · rw [htasks, List.length_append] at hi
      rw [hsame, h.unborn i (by omega)]
    · rw [hsame]
      rcases getElem?_concat_cases (htasks ▸ ht') with ht | ⟨rfl, rfl⟩
      · exact h.calls i t' ht
      · simp [h.unborn _ (Nat.le_refl _), Task.hasEnded]
  | ended index t hreport ht hphase htasks hevents =>
    subst hreport
    have hsame : ∀ i, w'.received i = w.received i := fun i =>
      (hreceived i).trans (List.append_nil _)
    refine ⟨hinv, fun i t' ht' => ?_, fun i hi => ?_, fun i t' ht' => ?_⟩
    · rcases getElem?_set_cases ht (htasks ▸ ht') with ⟨rfl, rfl⟩ | ⟨-, ht'⟩
      · exact h.ids i t ht
      · exact h.ids i t' ht'
    · rw [htasks, List.length_set] at hi
      rw [hsame, h.unborn i hi]
    · rw [hsame]
      rcases getElem?_set_cases ht (htasks ▸ ht') with ⟨rfl, rfl⟩ | ⟨-, ht'⟩
      · have hended : t.hasEnded = false := by rw [Task.hasEnded, hphase]
        simp only [h.calls i t ht, hended]
        simp [Task.hasEnded]
      · exact h.calls i t' ht'

theorem reported_start (maxConnections channelCapacity : Nat) (addr : SocketAddr) :
    Reported { server := start maxConnections channelCapacity addr } := by
  refine ⟨fun event hmem sessionId hsession => ?_, by simp [start]⟩
  have hmem : event ∈ ((BoundedQueue.empty channelCapacity).offer (.listening addr)).items := hmem
  by_cases hroom : 0 < channelCapacity
  · rw [BoundedQueue.items_offer_of_lt (by exact hroom)] at hmem
    cases List.mem_singleton.mp hmem
    cases hsession
  · rw [BoundedQueue.offer_of_le (by exact Nat.le_of_not_lt hroom)] at hmem
    cases hmem

/-- The events after one more was sent. -/
theorem events_of_offer {event : ServerEvent} (hpolled : w'.polled = w.polled ++ [])
    (hroom : w.server.eventRoom = true)
    (hevents : w'.server.events = w.server.events.offer event) :
    w'.events = w.events ++ [event] := by
  rw [events, hpolled, hevents, BoundedQueue.items_offer_of_lt (of_decide_eq_true hroom), events,
    List.append_nil, List.append_assoc]

theorem eventsOf_of_append {event : ServerEvent} (h : w'.events = w.events ++ [event])
    (sessionId : Nat) :
    w'.eventsOf sessionId =
      w.eventsOf sessionId ++ if event.session? = some sessionId then [event] else [] := by
  rw [eventsOf, h, List.filter_append, List.filter_singleton, eventsOf]
  simp

/-- An event of a session that has a task by then. -/
theorem Reported.known_append (h : Reported w) {event : ServerEvent} {id : Nat}
    (hevents : w'.events = w.events ++ [event]) (hsession : event.session? = some id)
    (hlength : w.server.tasks.length ≤ w'.server.tasks.length)
    (hid : ∃ i < w'.server.tasks.length, id = (i + 1) % 2 ^ 64) :
    ∀ event ∈ w'.events, ∀ sessionId, event.session? = some sessionId →
      ∃ i < w'.server.tasks.length, sessionId = (i + 1) % 2 ^ 64 := by
  intro event' hmem sessionId hsession'
  rw [hevents] at hmem
  rcases List.mem_append.mp hmem with hmem | hmem
  · obtain ⟨i, hi, hid⟩ := h.known event' hmem sessionId hsession'
    exact ⟨i, hi.trans_le hlength, hid⟩
  · obtain rfl := List.mem_singleton.mp hmem
    obtain rfl := Option.some.inj (hsession.symm.trans hsession')
    exact hid

theorem reported_step (hi : Inv w) (h : Reported w) (hroom : HasRoom w a)
    (hstep : w.step a = some w') : Reported w' := by
  obtain ⟨hserver, -, hpolled⟩ := of_step hstep
  cases effect_step hserver with
  | quiet hlength htask hunborn hevents =>
    have hsame : w'.events = w.events := by
      rw [events, hpolled, List.append_assoc, hevents, events]
    refine ⟨fun event hmem => ?_, fun hbound i t' ht' => ?_⟩
    · rw [hlength]
      exact h.known event (hsame ▸ hmem)
    · obtain ⟨t, ht, hlives⟩ := htask i t' ht'
      rw [eventsOf, hsame, hlives.id, hlives.hasEnded]
      exact h.told (hlength ▸ hbound) i t ht
  | created addr haccept hloop htasks hevents =>
    subst haccept
    have hnext := (hi.server.tables (by simp [hloop])).nextId
    have hlength : w'.server.tasks.length = w.server.tasks.length + 1 := by simp [htasks]
    have hsent := events_of_offer hpolled hroom hevents
    refine ⟨h.known_append hsent rfl (by omega) ⟨w.server.tasks.length, by omega, hnext⟩,
      fun hbound i t' ht' => ?_⟩
    rw [eventsOf_of_append hsent]
    rcases getElem?_concat_cases (htasks ▸ ht') with ht | ⟨rfl, rfl⟩
    · -- the id of the new session is another one
      obtain ⟨addr', htold⟩ := h.told (by omega) i t' ht
      have hlt := (List.getElem?_eq_some_iff.mp ht).1
      have hne : w.server.sessions.nextId ≠ t'.id := by
        rw [hnext, hi.ids i t' ht]
        omega
      exact ⟨addr', by simp [htold, ServerEvent.session?, hne]⟩
    · have hnone : w.eventsOf w.server.sessions.nextId = [] := by
        rw [eventsOf, List.filter_eq_nil_iff]
        intro event hmem hsession
        obtain ⟨i, hlt, hid⟩ := h.known event hmem _ (of_decide_eq_true hsession)
        rw [hnext] at hid
        omega
      exact ⟨addr, by simp [hnone, ServerEvent.session?, Task.hasEnded]⟩
  | ended index t hreport ht hphase htasks hevents =>
    subst hreport
    have hlength : w'.server.tasks.length = w.server.tasks.length := by simp [htasks]
    have hsent := events_of_offer hpolled hroom hevents
    have hindex := (List.getElem?_eq_some_iff.mp ht).1
    refine ⟨h.known_append hsent rfl (by omega) ⟨index, by omega, hi.ids index t ht⟩,
      fun hbound i t' ht' => ?_⟩
    rw [eventsOf_of_append hsent]
    rcases getElem?_set_cases ht (htasks ▸ ht') with ⟨rfl, rfl⟩ | ⟨hne, ht'⟩
    · obtain ⟨addr, htold⟩ := h.told (by omega) i t ht
      have hended : t.hasEnded = false := by rw [Task.hasEnded, hphase]
      rw [hended] at htold
      exact ⟨addr, by simp [htold, ServerEvent.session?, Task.hasEnded]⟩
    · obtain ⟨addr, htold⟩ := h.told (by omega) i t' ht'
      have hother : t.id ≠ t'.id := fun hid =>
        hne (hi.eq_of_id_eq (by omega) ht ht' hid.symm)
      exact ⟨addr, by simp [htold, ServerEvent.session?, hother]⟩

/-! ## Cancellation -/

/-- A step of the task at a place in which its connection and its handler do nothing but let
go of it. -/
def Polls (i : Nat) (_ : Lifecycle) (a : Action) : Prop :=
  ∃ action ∈ [TaskAction.handled, .cancelled, .report, .close, .notify], a = .task i action

/-- The task at a place gets to its end when it is polled. -/
def Finishes (i : Nat) (w : Lifecycle) : Prop :=
  ∃ w' t', Reach step (Polls i) w w' ∧ w'.server.tasks[i]? = some t' ∧ t'.phase = .finished

theorem Finishes.of_stepTask {t' : Task} {server : Server} (action : TaskAction)
    (haction : action ∈ [TaskAction.handled, .cancelled, .report, .close, .notify])
    (ht : w.server.tasks[i]? = some t) (hstep : w.server.stepTask i t action = some server)
    (htasks : server.tasks = w.server.tasks.set i t')
    (hrest : ∀ w' : Lifecycle, w'.server = server → w'.server.tasks[i]? = some t' → Finishes i w') :
    Finishes i w := by
  have hserver : w.server.step (.task i action) = some server := by
    rw [Server.step, ht]
    exact hstep
  obtain ⟨w₁, hw₁, rfl⟩ : ∃ w₁, w.step (.task i action) = some w₁ ∧ w₁.server = server :=
    ⟨_, congrArg (Option.map _) hserver, rfl⟩
  have ht' : w₁.server.tasks[i]? = some t' := by
    rw [htasks, List.getElem?_set_self (List.getElem?_eq_some_iff.mp ht).1]
  obtain ⟨last, u, hreach, hu, hfinished⟩ := hrest w₁ rfl ht'
  exact ⟨last, u, .trans (.step .start ⟨action, haction, rfl⟩ hw₁) hreach, hu, hfinished⟩

section

variable (ht : w.server.tasks[i]? = some t)
include ht

theorem finishes_of_closing (hphase : t.phase = .closing) :
    Finishes i w := by
  refine .of_stepTask .notify (by decide) ht (by rw [stepTask, if_pos hphase]) rfl ?_
  exact fun w' _ ht' => ⟨w', _, .start, ht', rfl⟩

theorem finishes_of_reported (hphase : t.phase = .reported) :
    Finishes i w := by
  refine .of_stepTask .close (by decide) ht (by rw [stepTask, if_pos hphase]) rfl ?_
  exact fun w' _ ht' => finishes_of_closing ht' rfl

theorem finishes_of_ended (hphase : t.phase = .ended) :
    Finishes i w := by
  refine .of_stepTask .report (by decide) ht (by rw [stepTask, if_pos hphase]) rfl ?_
  exact fun w' _ ht' => finishes_of_reported ht' rfl

theorem finishes_of_cancelled (hphase : t.phase = .running ∨ t.phase = .sending)
    (htoken : w.server.tokenCancelled t = true) :
    Finishes i w := by
  refine .of_stepTask .cancelled (by decide) ht (by rw [stepTask, if_pos ⟨hphase, htoken⟩]) rfl ?_
  exact fun w' _ ht' => finishes_of_ended ht' rfl

/-- Once its token is cancelled, a task ends without its peer. -/
theorem finishes_of_tokenCancelled (htoken : w.server.tokenCancelled t = true) : Finishes i w := by
  cases hphase : t.phase with
  | running => exact finishes_of_cancelled ht (.inl hphase) htoken
  | handling =>
    -- the handler returns first
    refine .of_stepTask .handled (by decide) ht (by rw [stepTask, if_pos hphase]) rfl ?_
    intro w' hw' ht'
    refine finishes_of_cancelled ht' (.inl rfl) ?_
    rw [hw']
    exact htoken
  | sending => exact finishes_of_cancelled ht (.inr hphase) htoken
  | ended => exact finishes_of_ended ht hphase
  | reported => exact finishes_of_reported ht hphase
  | closing => exact finishes_of_closing ht hphase
  | finished => exact ⟨w, t, .start, ht, hphase⟩

end

/-! ## The trace of a session -/

theorem inv_of_reach {w₀ : Lifecycle} (hstart : Inv w₀) (h : Reach step Allowed w₀ w) : Inv w :=
  h.invariant Inv hstart fun _ _ _ hi _ hs => inv_step hi hs

theorem reported_of_reach (hroom : ∀ w a, Allowed w a → HasRoom w a)
    {maxConnections channelCapacity : Nat} {addr : SocketAddr}
    (h : Reach step Allowed { server := start maxConnections channelCapacity addr } w) :
    Reported w :=
  (h.invariant (fun w => Inv w ∧ Reported w) ⟨inv_start _ _ _, reported_start _ _ _⟩
    fun w a _ hw ha hs => ⟨inv_step hw.1 hs, reported_step hw.1 hw.2 (hroom w a ha) hs⟩).2

theorem Inv.onSessionEnd_mem (h : Inv w) (ht : w.server.tasks[i]? = some t)
    (hended : t.hasEnded = true) : .onSessionEnd ∈ t.calls := by
  rw [h.calls i t ht, hended]
  simp

theorem Inv.onMessage_mem (h : Inv w) (ht : w.server.tasks[i]? = some t)
    {header : Option MessageHeader} {data : List UInt8} (hmem : .onMessage header data ∈ t.calls) :
    8 ≤ data.length ∧ header = MessageHeader.wrap data 0 ∧ header.isSome = true := by
  rw [h.calls i t ht] at hmem
  rcases List.mem_append.mp hmem with hmem | hmem
  · rcases List.mem_cons.mp hmem with hstart | hframe
    · cases hstart
    · obtain ⟨frame, -, hcall⟩ := List.mem_map.mp hframe
      unfold dispatch at hcall
      split_ifs at hcall with hlength
      · obtain ⟨rfl, rfl⟩ := Callback.onMessage.inj hcall
        exact ⟨hlength, rfl, MessageHeader.wrap_isSome_iff.mpr (by rwa [Nat.zero_add])⟩
  · split_ifs at hmem
    · cases List.mem_singleton.mp hmem
    · cases hmem

/-- In every run, for every session:

* the handler was called once for its start, then for each frame that `recv` has returned, in
  that order, and then, if its task has come to that point, once for its end;
* `on_message` gets only frames with a header, and the header that they begin with;
* the first `2 ^ 64` sessions have different ids;
* if the event channel has room for them, what went into it about the session's id is
  `SessionCreated`, as soon as there is a task, and with its end `SessionClosed`;
* once its token is cancelled its task can finish without its peer, and `on_session_end` has
  been called when it has. -/
theorem trace_of_reach {Allowed : Lifecycle → Action → Prop}
    {maxConnections channelCapacity : Nat} {addr : SocketAddr}
    (h : Reach step Allowed { server := start maxConnections channelCapacity addr } w) {i : Nat}
    {t : Task} (ht : w.server.tasks[i]? = some t) :
    (t.calls = .onSessionStart :: (w.received i).map dispatch ++
      if t.hasEnded then [.onSessionEnd] else []) ∧
    (∀ header data, .onMessage header data ∈ t.calls →
      8 ≤ data.length ∧ header = MessageHeader.wrap data 0 ∧ header.isSome = true) ∧
    (w.server.tasks.length ≤ 2 ^ 64 → ∀ (j : Nat) (u : Task), w.server.tasks[j]? = some u →
      u.id = t.id → j = i) ∧
    ((∀ w a, Allowed w a → HasRoom w a) → w.server.tasks.length ≤ 2 ^ 64 → ∃ addr,
      w.eventsOf t.id =
        .sessionCreated t.id addr :: if t.hasEnded then [.sessionClosed t.id] else []) ∧
    (w.server.tokenCancelled t = true → ∃ w' t', Reach step (Polls i) w w' ∧
      w'.server.tasks[i]? = some t' ∧ t'.phase = .finished ∧ .onSessionEnd ∈ t'.calls) ∧
    (t.phase = .finished → .onSessionEnd ∈ t.calls) := by
  have hinv := inv_of_reach (inv_start maxConnections channelCapacity addr) h
  refine ⟨hinv.calls i t ht, fun header data => hinv.onMessage_mem ht, ?_, ?_, ?_, ?_⟩
  · exact fun hlength j u hu => hinv.eq_of_id_eq hlength ht hu
  · exact fun hroom hlength => (reported_of_reach hroom h).told hlength i t ht
  · intro htoken
    obtain ⟨w', t', hreach, ht', hphase⟩ := finishes_of_tokenCancelled ht htoken
    exact ⟨w', t', hreach, ht', hphase,
      (inv_of_reach hinv hreach).onSessionEnd_mem ht' (by rw [Task.hasEnded, hphase])⟩
  · intro hphase
    exact hinv.onSessionEnd_mem ht (by rw [Task.hasEnded, hphase])

/-- Of two sessions the first gets a frame with a header and a short one, its `SessionCreated`
is taken out of the event channel, and it is closed by a command. -/
theorem trace_of_reach_one :
    ∃ w, Reach step HasRoom { server := start 2 2 localhost } w ∧
      ∃ t, w.server.tasks[0]? = some t ∧ t.id = 1 ∧ t.phase = .running ∧
        t.calls = [.onSessionStart, .onMessage (some ⟨0, 0, 0, 0⟩) (List.replicate 8 0),
          .onError "Message too short for header"] ∧
        w.polled = [.listening localhost, .sessionCreated 1 localhost] ∧
        w.server.events.items = [.sessionCreated 2 localhost] ∧
        (∃ addr, w.eventsOf 1 = [.sessionCreated 1 addr]) ∧
        ∃ w' t', Reach step (Polls 0) w w' ∧ w'.server.tasks[0]? = some t' ∧
          t'.phase = .finished ∧ .onSessionEnd ∈ t'.calls := by
  have hreach : Reach step HasRoom { server := start 2 2 localhost } _ :=
    reach_of_run [.accept localhost, .pollEvent, .pollEvent, .accept localhost,
      .task 0 (.recv (List.replicate 8 0)), .task 0 .handled, .task 0 (.recv [7]),
      .command (.closeSession 1), .notify, .notified, .drain] rfl
  obtain ⟨-, -, -, hsent, hfinishes, -⟩ := trace_of_reach hreach (i := 0) rfl
  exact ⟨_, hreach, _, rfl, rfl, rfl, rfl, rfl, rfl, hsent (fun _ _ => id) (by decide),
    hfinishes rfl⟩

end Lifecycle

end IronSbe.Server
