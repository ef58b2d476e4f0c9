import IronSbe.Server.Lifecycle
import IronSbe.Server.Routing

/-!
# The single-threaded server

`LocalServer` mirrors `Server` for connections that stay on one thread.  It has the same
commands, but neither tokens nor a table of senders: a session task ends only when its
connection does, and its responder knows only its own channel.

The handler, the answers that it sends and the end of a task, with `on_session_end`, the event,
`CloseSession` and `notify_one`, are one step each, as no other task of the thread runs in
between.

There are two groups of results.

* Responders.  `SendsTo` is what `send_to` does in a `Server`, for the queues of the live
  sessions.  `LocalServer.sendsTo_iff`: in a `LocalServer` it does so only for the session that
  calls it.
* Close and shutdown.  `LocalServer.honours_iff`: the limit on connections holds, and closed
  sessions can end without their peer, exactly as long as no command is for a session that still
  runs.
-/

namespace IronSbe

open Lib Lib.Transition IronSbe.Core Server

namespace LocalServer

/-- Where the task of a session is. -/
inductive TaskPhase where
  /-- In the `select!` of `handle_local_session`. -/
  | running
  /-- In `conn.send`. -/
  | sending
  | finished
  deriving DecidableEq, Repr

/-- A task that was spawned for a session. -/
structure Task where
  id : Nat
  phase : TaskPhase := .running
  /-- What waits in the outbound channel, and what was handed to the connection. -/
  outbox : List (List UInt8) := []
  handed : List (List UInt8) := []
  calls : List Callback := [.onSessionStart]
  deriving DecidableEq, Repr

/-- Put a message in the outbound channel. -/
def Task.push (message : List UInt8) (t : Task) : Task :=
  { t with outbox := t.outbox ++ [message] }

/-- A call of the responder in `on_message`. -/
inductive Answer where
  | send (message : List UInt8)
  | sendTo (sessionId : Nat) (message : List UInt8)
  deriving DecidableEq, Repr

/-- The steps of the task of a session. -/
inductive TaskAction where
  /-- `recv` returns a frame, and the handler answers. -/
  | recv (data : List UInt8) (answers : List Answer)
  /-- A message is taken from the outbound channel, and has been sent. -/
  | takeOut
  | sent
  /-- `recv` returns `Ok(None)` or an error, or `send` returns an error. -/
  | fail
  deriving DecidableEq, Repr

/-- The steps of the loop, of the handles and of the tasks. -/
inductive Action where
  /-- The loop: a connection is accepted, a permit is taken, the next command is taken. -/
  | accept (addr : SocketAddr)
  | notified
  | drain
  /-- A handle puts a command in the channel, and notifies. -/
  | command (command : ServerCommand)
  | notify
  | pollEvent
  | task (index : Nat) (action : TaskAction)
  deriving DecidableEq, Repr

end LocalServer

/-- The server with everything that was spawned. -/
structure LocalServer where
  maxConnections : Nat
  commands : BoundedQueue ServerCommand
  events : BoundedQueue ServerEvent
  sessions : SessionManager := .new
  /-- The permit of `cmd_notify`, and the calls of `notify_one` that the handle has still to
  make. -/
  permit : Bool := false
  owed : Nat := 0
  tasks : List LocalServer.Task := []
  loop : LoopState := .selecting
  deriving DecidableEq

namespace LocalServer

/-- `build`, and `run` up to its loop. -/
def start (maxConnections channelCapacity : Nat) (addr : SocketAddr) : LocalServer where
  maxConnections := maxConnections
  commands := .empty channelCapacity
  events := (BoundedQueue.empty channelCapacity).offer (.listening addr)

/-- `handle_connection`. -/
def handleConnection (s : LocalServer) (addr : SocketAddr) : LocalServer :=
  if s.maxConnections ≤ s.sessions.count then s
  else
    let (sessionId, sessions) := s.sessions.createSession addr
    { s with
      sessions := sessions
      events := s.events.offer (.sessionCreated sessionId addr)
      tasks := s.tasks ++ [{ id := sessionId }] }

/-- `handle_command`: whether the loop ends, and the server afterwards. -/
def handleCommand (s : LocalServer) : ServerCommand → Bool × LocalServer
  | .shutdown => (true, s)
  | .closeSession sessionId => (false, { s with sessions := s.sessions.closeSession sessionId })
  | .broadcast _ => (false, s)
  | .sendTo _ _ => (false, s)

/-- `LocalSessionResponder::send` of the task at a place. -/
def responderSend (s : LocalServer) (task : Nat) (message : List UInt8) :
    Except String Unit × LocalServer :=
  match s.tasks[task]? with
  | none => (.ok (), s)
  | some t =>
    if t.phase = .finished then (.error "channel closed", s)
    else (.ok (), { s with tasks := s.tasks.modify task (Task.push message) })

/-- `LocalSessionResponder::send_to`. -/
def responderSendTo (s : LocalServer) (task : Nat) (_sessionId : Nat) (message : List UInt8) :
    Except String Unit × LocalServer :=
  s.responderSend task message

/-- What an answer of the handler does. -/
def answer (task : Nat) (s : LocalServer) : Answer → LocalServer
  | .send message => (s.responderSend task message).2
  | .sendTo sessionId message => (s.responderSendTo task sessionId message).2

/-- A step of the task `t` at a place. -/
def stepTask (s : LocalServer) (index : Nat) (t : Task) : TaskAction → Option LocalServer
  | .recv data answers =>
    if t.phase = .running then
      let called := { s with
        tasks := s.tasks.set index { t with calls := t.calls ++ [dispatch data] } }
      -- only `on_message` gets the responder
      some (if MessageHeader.encodedLength ≤ data.length then answers.foldl (answer index) called
        else called)
    else none
  | .takeOut =>
    if t.phase = .running then
      match t.outbox with
      | [] => none
      | message :: outbox =>
        some { s with
          tasks := s.tasks.set index
            { t with phase := .sending, outbox := outbox, handed := t.handed ++ [message] } }
    else none
  | .sent =>
    if t.phase = .sending then
      some { s with tasks := s.tasks.set index { t with phase := .running } }
    else none
  | .fail =>
    if t.phase = .finished then none
    else
      some { s with
        tasks := s.tasks.set index
          { t with phase := .finished, calls := t.calls ++ [.onSessionEnd] }
        events := s.events.offer (.sessionClosed t.id)
        commands := s.commands.offer (.closeSession t.id)
        permit := true }

/-- One step, if it is possible. -/
def step (s : LocalServer) : Action → Option LocalServer
  | .accept addr => if s.loop = .selecting then some (s.handleConnection addr) else none
  | .notified =>
    if s.loop = .selecting ∧ s.permit then some { s with permit := false, loop := .draining }
    else none
  | .drain =>
    if s.loop = .draining then
      match s.commands.pop? with
      | none => some { s with loop := .selecting }
      | some (command, commands) =>
        let r := { s with commands := commands }.handleCommand command
        some (if r.1 then { r.2 with loop := .returned } else r.2)
    else none
  | .command command =>
    some { s with commands := s.commands.offer command, owed := s.owed + 1 }
  | .notify => if 0 < s.owed then some { s with owed := s.owed - 1, permit := true } else none
  | .pollEvent => s.events.pop?.map fun p => { s with events := p.2 }
  | .task index action => (s.tasks[index]?).bind fun t => s.stepTask index t action

variable {s s' : LocalServer}

/-! ## What the steps do -/

variable {i index : Nat} {action : TaskAction} {t : Task} {a : Action}

/-- The task at a place after a message was pushed at another one or there. -/
theorem getElem?_push {j : Nat} {u' : Task} {message : List UInt8}
    (h : (s.tasks.modify i (Task.push message))[j]? = some u') :
    ∃ u, s.tasks[j]? = some u ∧ u'.id = u.id ∧ u'.phase = u.phase ∧
      u'.outbox = if i = j then u.outbox ++ [message] else u.outbox := by
  rw [List.getElem?_modify] at h
  obtain ⟨u, hu, rfl⟩ := Option.map_eq_some_iff.mp h
  refine ⟨u, hu, ?_⟩
  split_ifs <;> exact ⟨rfl, rfl, rfl⟩

/-- The task at one place goes on, or it ends in a `fail`. -/
structure Moves (index : Nat) (action : TaskAction) (s s' : LocalServer) : Prop where
  maxConnections : s'.maxConnections = s.maxConnections
  sessions : s'.sessions = s.sessions
  length : s'.tasks.length = s.tasks.length
  task : ∀ (j : Nat) (u' : Task), s'.tasks[j]? = some u' → ∃ u, s.tasks[j]? = some u ∧
    u'.id = u.id ∧ (u.phase = .finished → u'.phase = .finished) ∧
    (u'.phase = .finished → u.phase = .finished ∨ j = index ∧ action = .fail)

theorem Moves.refl (index : Nat) (action : TaskAction) (s : LocalServer) : Moves index action s s :=
  ⟨rfl, rfl, rfl, fun _ u hu => ⟨u, hu, rfl, id, .inl⟩⟩

theorem Moves.trans {s'' : LocalServer} (h : Moves index action s s')
    (h' : Moves index action s' s'') : Moves index action s s'' := by
  refine ⟨h'.maxConnections.trans h.maxConnections, h'.sessions.trans h.sessions,
    h'.length.trans h.length, fun j u'' hu'' => ?_⟩
  obtain ⟨u', hu', hid', hstays', hends'⟩ := h'.task j u'' hu''
  obtain ⟨u, hu, hid, hstays, hends⟩ := h.task j u' hu'
  exact ⟨u, hu, hid'.trans hid, hstays' ∘ hstays, fun hend => (hends' hend).elim hends .inr⟩

theorem moves_answer (index : Nat) (action : TaskAction) (s : LocalServer) (a : Answer) :
    Moves index action s (answer index s a) := by
  have hsend : ∀ message, Moves index action s (s.responderSend index message).2 := by
    intro message
    unfold responderSend
    split
    · exact .refl _ _ _
    · split_ifs
      · exact .refl _ _ _
      · refine ⟨rfl, rfl, List.length_modify _ _ _, fun j u' hu' => ?_⟩
        obtain ⟨u, hu, hid, hphase, -⟩ := getElem?_push hu'
        exact ⟨u, hu, hid, fun h => hphase.trans h, fun h => .inl (hphase ▸ h)⟩
  cases a with
  | send message | sendTo sessionId message => exact hsend message

theorem moves_foldl_answer (index : Nat) (action : TaskAction) (answers : List Answer)
    (s : LocalServer) : Moves index action s (answers.foldl (answer index) s) := by
  induction answers generalizing s with
  | nil => exact .refl _ _ s
  | cons a answers ih => exact (moves_answer index action s a).trans (ih _)

/-- One task is replaced. -/
theorem Moves.of_set {t' : Task} (ht : s.tasks[index]? = some t)
    (htasks : s'.tasks = s.tasks.set index t') (hmax : s'.maxConnections = s.maxConnections)
    (hsessions : s'.sessions = s.sessions) (hid : t'.id = t.id) (hphase : t.phase ≠ .finished)
    (hends : t'.phase = .finished → action = .fail) : Moves index action s s' := by
  refine ⟨hmax, hsessions, by rw [htasks, List.length_set], fun j u' hu' => ?_⟩
  rw [htasks] at hu'
  by_cases hj : index = j
  · subst hj
    rw [List.getElem?_set_self (List.getElem?_eq_some_iff.mp ht).1] at hu'
    cases hu'
    exact ⟨t, ht, hid, fun h => absurd h hphase, fun h => .inr ⟨rfl, hends h⟩⟩
  · rw [List.getElem?_set_ne hj] at hu'
    exact ⟨u', hu', rfl, id, .inl⟩

theorem moves_stepTask (ht : s.tasks[index]? = some t)
    (hstep : s.stepTask index t action = some s') :
    Moves index action s s' := by
  cases action with
  | recv data answers =>
    rw [stepTask] at hstep
    split_ifs at hstep with hphase hlength
    · cases hstep
      refine Moves.trans ?_ (moves_foldl_answer index _ answers _)
      exact .of_set ht rfl rfl rfl rfl (by simp [hphase]) (by simp [hphase])
    · cases hstep
      exact .of_set ht rfl rfl rfl rfl (by simp [hphase]) (by simp [hphase])
  | takeOut =>
    rw [stepTask] at hstep
    split_ifs at hstep with hphase
    split at hstep
    · cases hstep
    · cases hstep
      exact .of_set ht rfl rfl rfl rfl (by simp [hphase]) nofun
  | sent =>
    obtain ⟨hphase, rfl⟩ := of_guard hstep
    exact .of_set ht rfl rfl rfl rfl (by simp [hphase]) nofun
  | fail =>
    rw [stepTask] at hstep
    split_ifs at hstep with hphase
    cases hstep
    exact .of_set ht rfl rfl rfl rfl hphase fun _ => rfl

/-- The command that is handled in a step. -/
def handled (s : LocalServer) : Action → Option ServerCommand
  | .drain => if s.loop = .draining then s.commands.pop?.map Prod.fst else none
  | _ => none

/-- A step: a connection is accepted, a command is handled, a task moves, or none of it. -/
theorem step_cases (h : s.step a = some s') :
    (∃ addr, a = .accept addr ∧ s' = s.handleConnection addr) ∨
    (∃ command, s.handled a = some command ∧ s'.tasks = s.tasks ∧
      s'.maxConnections = s.maxConnections ∧ s'.sessions = (s.handleCommand command).2.sessions) ∨
    (s.handled a = none ∧ ∃ index action, a = .task index action ∧ Moves index action s s') ∨
    (s.handled a = none ∧ s'.tasks = s.tasks ∧ s'.maxConnections = s.maxConnections ∧
      s'.sessions = s.sessions) := by
  cases a with
  | accept addr =>
    obtain ⟨-, rfl⟩ := of_guard h
    exact .inl ⟨addr, rfl, rfl⟩
  | notified | notify =>
    obtain ⟨-, rfl⟩ := of_guard h
    exact .inr (.inr (.inr ⟨rfl, rfl, rfl, rfl⟩))
  | drain =>
    rw [step] at h
    split_ifs at h with hloop
    split at h
    · rename_i hpop
      cases h
      exact .inr (.inr (.inr ⟨by simp [handled, hpop], rfl, rfl, rfl⟩))
    · rename_i command commands hpop
      cases h
      refine .inr (.inl ⟨command, by simp [handled, hloop, hpop], ?_⟩)
      cases command <;> exact ⟨rfl, rfl, rfl⟩
  | command command =>
    cases h
    exact .inr (.inr (.inr ⟨rfl, rfl, rfl, rfl⟩))
  | pollEvent =>
    obtain ⟨p, -, rfl⟩ := Option.map_eq_some_iff.mp h
    exact .inr (.inr (.inr ⟨rfl, rfl, rfl, rfl⟩))
  | task index action =>
    obtain ⟨t, ht, htask⟩ := Option.bind_eq_some_iff.mp h
    exact .inr (.inr (.inl ⟨rfl, index, action, rfl, moves_stepTask ht htask⟩))

/-- A command that is handled leaves the tasks alone. -/
theorem tasks_of_handled {command : ServerCommand} (hstep : s.step a = some s')
    (hhandled : s.handled a = some command) : s'.tasks = s.tasks := by
  rcases step_cases hstep with ⟨addr, rfl, -⟩ | ⟨-, -, htasks, -⟩ | ⟨hnone, -⟩ | ⟨-, htasks, -⟩
  · cases hhandled
  · exact htasks
  · rw [hnone] at hhandled
    cases hhandled
  · exact htasks

/-- The sessions that a command is to end. -/
def Affects : ServerCommand → Task → Prop
  | .shutdown, _ => True
  | .closeSession sessionId, t => t.id = sessionId
  | .broadcast _, _ | .sendTo _ _, _ => False

/-- A command takes slots from the sessions that it is for, and from no other. -/
theorem sessions_handleCommand (s : LocalServer) (command : ServerCommand) :
    (s.handleCommand command).2.sessions.nextId = s.sessions.nextId ∧
      (s.handleCommand command).2.sessions.count ≤ s.sessions.count ∧
      ∀ t : Task, s.sessions.sessions.contains t.id = true → ¬ Affects command t →
        (s.handleCommand command).2.sessions.sessions.contains t.id = true := by
  cases command with
  | shutdown | broadcast message | sendTo sessionId message =>
    exact ⟨rfl, Nat.le_refl _, fun _ h _ => h⟩
  | closeSession sessionId =>
    refine ⟨rfl, SortedMap.size_erase_le _ _, fun t hcontains haffects => ?_⟩
    show (s.sessions.sessions.erase sessionId).contains t.id = true
    have hne : t.id ≠ sessionId := haffects
    rw [SortedMap.contains_erase, hcontains]
    simp [hne]

/-! ## Ids -/

/-- The ids of the tasks. -/
structure Numbered (s : LocalServer) : Prop where
  nextId : s.sessions.nextId = (s.tasks.length + 1) % 2 ^ 64
  ids : ∀ (i : Nat) (t : Task), s.tasks[i]? = some t → t.id = (i + 1) % 2 ^ 64

theorem numbered_start (maxConnections channelCapacity : Nat) (addr : SocketAddr) :
    Numbered (start maxConnections channelCapacity addr) := ⟨rfl, by simp [start]⟩

theorem Numbered.handleConnection (h : Numbered s) (addr : SocketAddr) :
    Numbered (s.handleConnection addr) := by
  unfold LocalServer.handleConnection
  split_ifs
  · exact h
  refine ⟨?_, fun i t ht => ?_⟩
  · show (s.sessions.nextId + 1) % 2 ^ 64 = _
    rw [h.nextId, List.length_append, List.length_singleton, Nat.mod_add_mod]
  · rcases getElem?_concat_cases ht with hold | ⟨rfl, rfl⟩
    · exact h.ids i t hold
    · exact h.nextId

theorem numbered_step (h : Numbered s) (hstep : s.step a = some s') : Numbered s' := by
  rcases step_cases hstep with ⟨addr, rfl, rfl⟩ | ⟨command, -, htasks, -, hsessions⟩ |
    ⟨-, index, action, rfl, hmoves⟩ | ⟨-, htasks, -, hsessions⟩
  · exact h.handleConnection addr
  · refine ⟨?_, by rw [htasks]; exact h.ids⟩
    rw [hsessions, (sessions_handleCommand s command).1, htasks]
    exact h.nextId
  · refine ⟨?_, fun i t' ht' => ?_⟩
    · rw [hmoves.sessions, hmoves.length]
      exact h.nextId
    · obtain ⟨t, ht, hid, -, -⟩ := hmoves.task i t' ht'
      rw [hid]
      exact h.ids i t ht
  · exact ⟨by rw [hsessions, htasks]; exact h.nextId, by rw [htasks]; exact h.ids⟩

theorem numbered_of_reach {Allowed : LocalServer → Action → Prop}
    {maxConnections channelCapacity : Nat} {addr : SocketAddr}
    (h : Reach step Allowed (start maxConnections channelCapacity addr) s) : Numbered s :=
  h.invariant Numbered (numbered_start _ _ _) fun _ _ _ hs _ hstep => numbered_step hs hstep

/-- Live sessions have different ids. -/
def Distinct (s : LocalServer) : Prop :=
  ∀ (i j : Nat) (t u : Task), s.tasks[i]? = some t → s.tasks[j]? = some u →
    t.phase ≠ .finished → u.phase ≠ .finished → t.id = u.id → i = j

/-- The first `2 ^ 64` sessions have different ids. -/
theorem Numbered.distinct (h : Numbered s) (hbound : s.tasks.length ≤ 2 ^ 64) : Distinct s := by
  intro i j t u ht hu _ _ hid
  have hi := (List.getElem?_eq_some_iff.mp ht).1
  have hj := (List.getElem?_eq_some_iff.mp hu).1
  rw [h.ids i t ht, h.ids j u hu] at hid
  omega

theorem Numbered.nodup_ids (h : Numbered s) (hbound : s.tasks.length < 2 ^ 64) :
    (s.tasks.map Task.id).Nodup := by
  refine nodup_of_numbered (fun i id hid => ?_) (by rwa [List.length_map])
  rw [List.getElem?_map] at hid
  obtain ⟨t, ht, rfl⟩ := Option.map_eq_some_iff.mp hid
  exact h.ids i t ht

end LocalServer

/-! ## Responders -/

/-- What a call of `send_to` does to the queues of the live sessions: the message goes to the
end of the queue of its session, and to no other; without such a session it is refused. -/
def SendsTo {ε : Type} (before after : Nat → Option (List (List UInt8))) (result : Except ε Unit)
    (sessionId : Nat) (message : List UInt8) : Prop :=
  result.isOk = (before sessionId).isSome ∧
    after = fun id => if id = sessionId then (before id).map (· ++ [message]) else before id

/-- The queue of a live session: it is in the table of senders, and its channel is open. -/
def Server.live (s : Server) (sessionId : Nat) : Option (List (List UInt8)) :=
  (s.sessionSenders.get? sessionId).bind fun task =>
    (s.tasks[task]?).bind fun t => if t.channelOpen then some t.outbox else none

/-- A session is live as long as its task has not finished. -/
def LocalServer.live (s : LocalServer) (sessionId : Nat) : Option (List (List UInt8)) :=
  (s.tasks.find? fun t => t.id = sessionId ∧ t.phase ≠ .finished).map LocalServer.Task.outbox

/-- A refused message. -/
theorem sendsTo_of_none {ε : Type} {queues : Nat → Option (List (List UInt8))} {sessionId : Nat}
    (h : queues sessionId = none) (error : ε) (message : List UInt8) :
    SendsTo queues queues (.error error : Except ε Unit) sessionId message := by
  refine ⟨by rw [h]; rfl, funext fun id => ?_⟩
  split_ifs with hid
  · rw [hid, h]
    rfl
  · rfl

namespace Server

variable {s : Server} {task sessionId : Nat} {t : Task}

theorem live_of_getElem? (hget : s.sessionSenders.get? sessionId = some task)
    (ht : s.tasks[task]? = some t) :
    s.live sessionId = if t.channelOpen then some t.outbox else none := by
  rw [live, hget, Option.bind_some, ht, Option.bind_some]

theorem live_of_get?_eq_none (hget : s.sessionSenders.get? sessionId = none) :
    s.live sessionId = none := by
  rw [live, hget]
  rfl

/-- No other entry of the table is the sender of the task. -/
theorem live_push (h : Owned s) (hget : s.sessionSenders.get? sessionId = some task)
    (ht : s.tasks[task]? = some t) (hopen : t.channelOpen = true) (message : List UInt8)
    (id : Nat) :
    ({ s with tasks := s.tasks.modify task (Task.push message) } : Server).live id =
      if id = sessionId then (s.live id).map (· ++ [message]) else s.live id := by
  split_ifs with hid
  · subst hid
    have hpushed : (t.push message).channelOpen = true := hopen
    simp only [live, hget, Option.bind_some, List.getElem?_modify_eq, ht,
      Option.map_eq_map, Option.map_some, hopen, hpushed, if_true]
    rfl
  · cases hother : s.sessionSenders.get? id with
    | none => simp only [live, hother, Option.bind_none]
    | some other =>
      have hne : task ≠ other := fun heq => hid (h.key_unique (heq ▸ hother) hget)
      simp only [live, hother, Option.bind_some, List.getElem?_modify_ne _ _ hne]

theorem owned_of_reach {maxConnections channelCapacity : Nat} {addr : SocketAddr}
    (h : Reach step Anything (start maxConnections channelCapacity addr) s) : Owned s :=
  h.invariant Owned (fun _ _ hget => absurd hget (by simp [start]))
    fun _ _ _ howned _ hstep => howned.routes (routes_step howned hstep)

theorem sendsTo_responderSendTo (h : Owned s) (sessionId : Nat) (message : List UInt8) :
    SendsTo s.live (s.responderSendTo sessionId message).2.live
      (s.responderSendTo sessionId message).1 sessionId message := by
  unfold responderSendTo
  split
  · rename_i task hget
    obtain ⟨t, ht, -⟩ := h sessionId task hget
    have hlive := live_of_getElem? hget ht
    rw [channelOpen_of_getElem? ht]
    split_ifs with hopen
    · rw [if_pos hopen] at hlive
      refine ⟨by rw [hlive]; rfl, funext fun id => ?_⟩
      exact live_push h hget ht hopen message id
    · rw [if_neg hopen] at hlive
      exact sendsTo_of_none hlive _ message
  · rename_i hget
    exact sendsTo_of_none (live_of_get?_eq_none hget) _ message

end Server

namespace LocalServer

open List

variable {s s' : LocalServer}

variable {i : Nat} {t : Task} {a : Action}

theorem live_of_getElem? (h : Distinct s) (ht : s.tasks[i]? = some t)
    (hphase : t.phase ≠ .finished) : s.live t.id = some t.outbox := by
  unfold live
  cases hfind : s.tasks.find? fun u => u.id = t.id ∧ u.phase ≠ .finished with
  | none =>
    have hnone := find?_eq_none.mp hfind t (mem_of_getElem? ht)
    simp [hphase] at hnone
  | some u =>
    have hu := find?_some hfind
    simp only [decide_eq_true_eq] at hu
    obtain ⟨j, hj⟩ := mem_iff_getElem?.mp (mem_of_find?_eq_some hfind)
    obtain rfl := h j i u t hj ht hu.2 hphase hu.1
    rw [Option.some.inj (hj.symm.trans ht)]
    rfl

theorem live_eq_none {id : Nat}
    (h : ∀ (i : Nat) (t : Task), s.tasks[i]? = some t → t.phase ≠ .finished → t.id ≠ id) :
    s.live id = none := by
  unfold live
  rw [find?_eq_none.mpr]
  · rfl
  · intro t ht
    obtain ⟨i, hi⟩ := mem_iff_getElem?.mp ht
    simp only [decide_eq_true_eq]
    exact fun hlive => h i t hi hlive.2 hlive.1

/-- A call of the responder by a session that has not finished. -/
theorem responderSend_of_getElem? (ht : s.tasks[i]? = some t) (hphase : t.phase ≠ .finished)
    (message : List UInt8) :
    s.responderSend i message =
      (.ok (), { s with tasks := s.tasks.modify i (Task.push message) }) := by
  simp only [responderSend, ht, if_neg hphase]

theorem Distinct.push (h : Distinct s) (i : Nat) (message : List UInt8) :
    Distinct { s with tasks := s.tasks.modify i (Task.push message) } := by
  intro j k t' u' ht' hu' hlive hlive' hid
  obtain ⟨t, ht, hidt, hphase, -⟩ := getElem?_push ht'
  obtain ⟨u, hu, hidu, hphase', -⟩ := getElem?_push hu'
  exact h j k t u ht hu (hphase ▸ hlive) (hphase' ▸ hlive') (by rw [← hidt, ← hidu, hid])

/-- What it does to the queues: its own one gets the message. -/
theorem live_push (h : Distinct s) (ht : s.tasks[i]? = some t) (hphase : t.phase ≠ .finished)
    (message : List UInt8) (id : Nat) :
    ({ s with tasks := s.tasks.modify i (Task.push message) } : LocalServer).live id =
      if id = t.id then (s.live id).map (· ++ [message]) else s.live id := by
  by_cases hlive : ∃ (j : Nat) (u : Task), s.tasks[j]? = some u ∧ u.phase ≠ .finished ∧ u.id = id
  · obtain ⟨j, u, hu, hu', rfl⟩ := hlive
    have hmodify : (s.tasks.modify i (Task.push message))[j]? =
        some (if i = j then u.push message else u) := by
      rw [List.getElem?_modify, hu]
      split_ifs <;> rfl
    by_cases hij : i = j
    · subst hij
      cases ht.symm.trans hu
      rw [if_pos rfl] at hmodify
      rw [if_pos rfl, live_of_getElem? h ht hphase]
      exact live_of_getElem? (h.push i message) hmodify hphase
    · have hne : u.id ≠ t.id := fun hid => hij (h i j t u ht hu hphase hu' hid.symm)
      rw [if_neg hij] at hmodify
      rw [if_neg hne, live_of_getElem? h hu hu']
      exact live_of_getElem? (h.push i message) hmodify hu'
  · have hnone : ∀ (j : Nat) (u : Task), s.tasks[j]? = some u → u.phase ≠ .finished → u.id ≠ id :=
      fun j u hu hu' hid => hlive ⟨j, u, hu, hu', hid⟩
    have hne : id ≠ t.id := (hnone i t ht hphase).symm
    rw [if_neg hne, live_eq_none hnone]
    apply live_eq_none
    intro j u' hu'
    obtain ⟨u, hu, hid, hphase', -⟩ := getElem?_push hu'
    rw [hid, hphase']
    exact hnone j u hu

/-- For all live sessions, whoever calls: in a `Server`, `send_to` puts the message in the queue
of the session that it is for, and in no other, or it refuses it.  In a `LocalServer` it does so
exactly if that is the session that calls. -/
theorem sendsTo_iff (h : Distinct s) {i : Nat} {t : Task} (ht : s.tasks[i]? = some t)
    (hphase : t.phase ≠ .finished) (sessionId : Nat) (message : List UInt8) :
    (∀ {maxConnections channelCapacity : Nat} {addr : SocketAddr} {server : Server},
      Reach Server.step Anything (Server.start maxConnections channelCapacity addr) server →
        SendsTo server.live (server.responderSendTo sessionId message).2.live
          (server.responderSendTo sessionId message).1 sessionId message) ∧
    (SendsTo s.live (s.responderSendTo i sessionId message).2.live
      (s.responderSendTo i sessionId message).1 sessionId message ↔ sessionId = t.id) := by
  refine ⟨fun hreach => sendsTo_responderSendTo (owned_of_reach hreach) sessionId message, ?_⟩
  rw [responderSendTo, responderSend_of_getElem? ht hphase]
  have hlive := live_of_getElem? h ht hphase
  constructor
  · rintro ⟨-, hafter⟩
    by_contra hne
    -- the caller's queue has grown, and it is that of another session
    have hown := (live_push h ht hphase message t.id).symm.trans (congrFun hafter t.id)
    rw [if_pos rfl, if_neg (Ne.symm hne), hlive] at hown
    simp at hown
  · rintro rfl
    exact ⟨by rw [hlive]; rfl, funext fun id => live_push h ht hphase message id⟩

/-- Of two sessions the second one answers itself. -/
theorem sendsTo_iff_self :
    ∃ s, Reach step Anything (start 2 4 localhost) s ∧ s.live 1 = some [] ∧ s.live 2 = some [] ∧
      SendsTo s.live (s.responderSendTo 1 2 [7]).2.live (s.responderSendTo 1 2 [7]).1 2 [7] := by
  have hreach : Reach step Anything (start 2 4 localhost) _ :=
    reach_of_run [.accept localhost, .accept localhost] rfl
  have hdistinct := (numbered_of_reach hreach).distinct (by decide)
  exact ⟨_, hreach, rfl, rfl, (sendsTo_iff hdistinct (i := 1) rfl (by decide) 2 [7]).2.mpr rfl⟩

/-- Session 1 has a message for session 2, and gets it itself; so it does with a message for
nobody. -/
theorem sendTo_reaches_sender :
    ∃ s, Reach step Anything (start 2 4 localhost) s ∧ s.live 1 = some [] ∧ s.live 2 = some [] ∧
      (s.responderSendTo 0 2 [7]).1 = .ok () ∧ (s.responderSendTo 0 2 [7]).2.live 1 = some [[7]] ∧
      (s.responderSendTo 0 2 [7]).2.live 2 = some [] ∧
      s.live 9 = none ∧ (s.responderSendTo 0 9 [7]).1 = .ok () ∧
      (s.responderSendTo 0 9 [7]).2.live 1 = some [[7]] := by
  have hreach : Reach step Anything (start 2 4 localhost) _ :=
    reach_of_run [.accept localhost, .accept localhost] rfl
  exact ⟨_, hreach, rfl, rfl, rfl, rfl, rfl, rfl, rfl, rfl⟩

/-! ## Close and shutdown -/

/-- The tasks that have not finished. -/
def unfinished (s : LocalServer) : List Task := s.tasks.filter fun t => t.phase ≠ .finished

/-- The task at a place can get to its end without an end or an error of its connection, with
whatever else happens. -/
def CanFinish (i : Nat) (s : LocalServer) : Prop :=
  ∃ s' t', Reach step (fun _ a => a ≠ .task i .fail) s s' ∧ s'.tasks[i]? = some t' ∧
    t'.phase = .finished

/-- The property that close and shutdown are to have, for one step. -/
def Honours (s : LocalServer) (a : Action) (s' : LocalServer) : Prop :=
  s'.unfinished.length ≤ s'.maxConnections ∧
    ∀ command, s.handled a = some command →
      ∀ (i : Nat) (t : Task), s.tasks[i]? = some t → Affects command t → CanFinish i s'

/-- A command that is handled finds the sessions that it is for finished. -/
def Harmless (s : LocalServer) (a : Action) (_ : LocalServer) : Prop :=
  ∀ command, s.handled a = some command →
    ∀ t ∈ s.tasks, Affects command t → t.phase = .finished

/-- A task that runs goes on until its own `fail`. -/
theorem unfinished_step (ht : s.tasks[i]? = some t) (hphase : t.phase ≠ .finished)
    (ha : a ≠ .task i .fail) (hstep : s.step a = some s') :
    ∃ t', s'.tasks[i]? = some t' ∧ t'.phase ≠ .finished := by
  have hi := (List.getElem?_eq_some_iff.mp ht).1
  rcases step_cases hstep with ⟨addr, rfl, rfl⟩ | ⟨command, -, htasks, -, -⟩ |
    ⟨-, index, action, rfl, hmoves⟩ | ⟨-, htasks, -, -⟩
  · refine ⟨t, ?_, hphase⟩
    unfold handleConnection
    split_ifs
    · exact ht
    · exact (getElem?_append_left hi).trans ht
  · exact ⟨t, htasks ▸ ht, hphase⟩
  · have ht' := getElem?_eq_getElem (hmoves.length.symm ▸ hi)
    obtain ⟨u, hu, -, -, hends⟩ := hmoves.task i _ ht'
    cases ht.symm.trans hu
    refine ⟨_, ht', fun hend => ?_⟩
    rcases hends hend with hend | ⟨rfl, rfl⟩
    · exact hphase hend
    · exact ha rfl
  · exact ⟨t, htasks ▸ ht, hphase⟩

/-- So without its connection only a task that has finished already comes to its end. -/
theorem canFinish_iff (ht : s.tasks[i]? = some t) :
    CanFinish i s ↔ t.phase = .finished := by
  constructor
  · rintro ⟨s', t', hreach, ht', hend⟩
    by_contra hphase
    obtain ⟨u, hu, hlive⟩ := hreach.invariant
      (fun s => ∃ u, s.tasks[i]? = some u ∧ u.phase ≠ .finished) ⟨t, ht, hphase⟩
      fun _ _ _ ⟨u, hu, hlive⟩ ha hs => unfinished_step hu hlive ha hs
    cases hu.symm.trans ht'
    exact hlive hend
  · exact fun hphase => ⟨s, t, .start, ht, hphase⟩

/-- The slots that the tasks hold. -/
structure Slots (s : LocalServer) : Prop where
  numbered : Numbered s
  count : s.sessions.count ≤ s.maxConnections
  /-- A session that runs is in the table. -/
  held : ∀ (i : Nat) (t : Task), s.tasks[i]? = some t → t.phase ≠ .finished →
    s.sessions.sessions.contains t.id = true

theorem slots_start (maxConnections channelCapacity : Nat) (addr : SocketAddr) :
    Slots (start maxConnections channelCapacity addr) :=
  ⟨numbered_start _ _ _, Nat.zero_le _, by simp [start]⟩

theorem Slots.handleConnection (h : Slots s) (addr : SocketAddr) :
    Slots (s.handleConnection addr) := by
  refine ⟨h.numbered.handleConnection addr, ?_, ?_⟩
  all_goals unfold LocalServer.handleConnection
  · split_ifs with hfull
    · exact h.count
    · have hsize := s.sessions.sessions.size_insert_le s.sessions.nextId ⟨s.sessions.nextId, addr⟩
      have hlt : s.sessions.sessions.size < s.maxConnections := Nat.lt_of_not_le hfull
      exact hsize.trans hlt
  · split_ifs
    · exact h.held
    intro i t ht hphase
    show (s.sessions.sessions.insert s.sessions.nextId _).contains t.id = true
    rw [SortedMap.contains_insert]
    rcases getElem?_concat_cases ht with hold | ⟨-, rfl⟩
    · rw [h.held i t hold hphase, Bool.or_true]
    · simp [SessionManager.createSession]

/-- Only a harmless command takes slots back. -/
theorem slots_step (h : Slots s) (hstep : s.step a = some s') (hharmless : Harmless s a s') :
    Slots s' := by
  have hnumbered := numbered_step h.numbered hstep
  rcases step_cases hstep with ⟨addr, rfl, rfl⟩ | ⟨command, hhandled, htasks, hmax, hsessions⟩ |
    ⟨-, index, action, rfl, hmoves⟩ | ⟨-, htasks, hmax, hsessions⟩
  · exact h.handleConnection addr
  · obtain ⟨-, hcount, hcontains⟩ := sessions_handleCommand s command
    refine ⟨hnumbered, ?_, fun i t ht hphase => ?_⟩
    · rw [hsessions, hmax]
      exact hcount.trans h.count
    · rw [htasks] at ht
      rw [hsessions]
      refine hcontains t (h.held i t ht hphase) fun haffects => hphase ?_
      exact hharmless command hhandled t (mem_of_getElem? ht) haffects
  · refine ⟨hnumbered, ?_, fun i t' ht' hphase => ?_⟩
    · rw [hmoves.sessions, hmoves.maxConnections]
      exact h.count
    · obtain ⟨t, ht, hid, hstays, -⟩ := hmoves.task i t' ht'
      rw [hmoves.sessions, hid]
      exact h.held i t ht fun hend => hphase (hstays hend)
  · refine ⟨hnumbered, ?_, ?_⟩
    · rw [hsessions, hmax]
      exact h.count
    · rw [hsessions, htasks]
      exact h.held

/-- Every session that runs has a slot of its own. -/
theorem Slots.length_unfinished_le (h : Slots s) (hbound : s.tasks.length < 2 ^ 64) :
    s.unfinished.length ≤ s.maxConnections := by
  have hnodup : (s.unfinished.map Task.id).Nodup :=
    (h.numbered.nodup_ids hbound).sublist (filter_sublist.map Task.id)
  have hsize : (s.unfinished.map Task.id).length ≤ s.sessions.sessions.size := by
    refine SortedMap.length_le_size hnodup fun k hk => ?_
    obtain ⟨t, ht, rfl⟩ := mem_map.mp hk
    obtain ⟨hmem, hphase⟩ := mem_filter.mp ht
    obtain ⟨i, hi⟩ := mem_iff_getElem?.mp hmem
    exact h.held i t hi (of_decide_eq_true hphase)
  rw [length_map] at hsize
  exact hsize.trans h.count

theorem length_tasks_le (hstep : s.step a = some s') :
    s.tasks.length ≤ s'.tasks.length := by
  rcases step_cases hstep with ⟨addr, rfl, rfl⟩ | ⟨command, -, htasks, -, -⟩ |
    ⟨-, index, action, rfl, hmoves⟩ | ⟨-, htasks, -, -⟩
  · unfold handleConnection
    split_ifs
    · exact Nat.le_refl _
    · simp
  · rw [htasks]
  · rw [hmoves.length]
  · rw [htasks]

theorem harmless_of_honours (hstep : s.step a = some s') (h : Honours s a s') :
    Harmless s a s' := by
  intro command hhandled t ht haffects
  obtain ⟨i, hi⟩ := mem_iff_getElem?.mp ht
  have hcan := h.2 command hhandled i t hi haffects
  exact (canFinish_iff (tasks_of_handled hstep hhandled ▸ hi)).mp hcan

theorem honours_of_harmless (hslots : Slots s) (hstep : s.step a = some s')
    (hbound : s'.tasks.length < 2 ^ 64) (h : Harmless s a s') : Honours s a s' := by
  refine ⟨(slots_step hslots hstep h).length_unfinished_le hbound, ?_⟩
  intro command hhandled i t hi haffects
  have hphase := h command hhandled t (mem_of_getElem? hi) haffects
  exact (canFinish_iff (tasks_of_handled hstep hhandled ▸ hi)).mpr hphase

/-- A `LocalServer` keeps to its limit, and the sessions of a `CloseSession` or `Shutdown` can
end without their peer, along a run if and only if no such command was handled while a session
that it is for was still running. -/
theorem honours_iff {maxConnections channelCapacity : Nat} {addr : SocketAddr}
    {actions : List Action}
    (hrun : run step (start maxConnections channelCapacity addr) actions = some s)
    (hbound : s.tasks.length < 2 ^ 64) :
    Along step Honours (start maxConnections channelCapacity addr) actions ↔
      Along step Harmless (start maxConnections channelCapacity addr) actions := by
  constructor
  · refine Along.imp (fun _ => True) (fun s a s' _ hstep hhonours => ?_) trivial
    exact ⟨trivial, harmless_of_honours hstep hhonours⟩
  · intro hharmless
    have hsizes := (le_of_run (fun _ _ _ hstep => length_tasks_le hstep) hrun).2
    refine (hharmless.and hsizes).imp Slots (fun s a s' hslots hstep h => ?_) (slots_start _ _ _)
    exact ⟨slots_step hslots hstep h.1,
      honours_of_harmless hslots hstep (Nat.lt_of_le_of_lt h.2 hbound) h.1⟩

/-- The connection of the only session ends, and the command that its task sends is handled. -/
theorem honours_iff_one :
    Along step Honours (start 1 4 localhost)
      [.accept localhost, .task 0 .fail, .notified, .drain] := by
  refine (honours_iff rfl (by decide)).mpr ?_
  refine ⟨_, rfl, nofun, _, rfl, nofun, _, rfl, nofun, _, rfl, ?_, trivial⟩
  intro command hhandled t ht _
  obtain rfl := List.mem_singleton.mp ht
  rfl

/-- The limit is one.  A session is closed by a command, and goes on; the next connection is
accepted.  A session goes on after the shutdown as well. -/
theorem closed_session_runs :
    (∃ s, Reach step Anything (start 1 4 localhost) s ∧ s.maxConnections = 1 ∧
      s.unfinished.length = 2 ∧ ¬ CanFinish 0 s) ∧
    ∃ s, Reach step Anything (start 1 4 localhost) s ∧ s.loop = .returned ∧ ¬ CanFinish 0 s := by
  have hclose : Reach step Anything (start 1 4 localhost) _ :=
    reach_of_run [.accept localhost, .command (.closeSession 1), .notify, .notified, .drain, .drain,
      .accept localhost] rfl
  have hshutdown : Reach step Anything (start 1 4 localhost) _ :=
    reach_of_run [.accept localhost, .command .shutdown, .notify, .notified, .drain] rfl
  exact ⟨⟨_, hclose, rfl, rfl, fun h => nomatch (canFinish_iff rfl).mp h⟩,
    _, hshutdown, rfl, fun h => nomatch (canFinish_iff rfl).mp h⟩

end LocalServer

end IronSbe
