import IronSbe.Server.Server

/-!
# The tables of the server

The `SessionManager`, the tokens and the outbound channels are updated in different
places.  This module says what each step does to the tasks and the tables, and derives
from it what holds of every run.

* `taskMoves_of_stepTask`, `stepTask_cases`, `step_cases`: everything that a step can do.
* `bookkeeping_of_reach`: the tables agree, no id is used twice, and every task that is
  not in the table of tokens has been cancelled.
* `backed_of_reach`: a slot is held by a task that will give it back, as long as there
  is room in the channel when a task sends its `CloseSession`.
-/

namespace IronSbe.Server

open Lib Lib.Transition List SortedMap

/-! ## Tasks -/

/-- The tasks of two states, one by one. -/
def Pointwise (R : Task → Task → Prop) (before after : List Task) : Prop :=
  before.length = after.length ∧
    ∀ (i : Nat) (t' : Task), after[i]? = some t' → ∃ t, before[i]? = some t ∧ R t t'

/-- A step of somebody else: the task may get messages and be cancelled. -/
structure Touched (t t' : Task) : Prop where
  id : t'.id = t.id
  cancelled : t.cancelled = true → t'.cancelled = true
  phase : t'.phase = t.phase

/-- Any step. -/
structure Continued (t t' : Task) : Prop where
  id : t'.id = t.id
  cancelled : t.cancelled = true → t'.cancelled = true

theorem Touched.refl (t : Task) : Touched t t := ⟨rfl, fun h => h, rfl⟩

theorem Continued.refl (t : Task) : Continued t t := ⟨rfl, fun h => h⟩

variable {t t' : Task} {a : TaskAction} {R : Task → Task → Prop} {index sessionId : Nat}
  {command : ServerCommand}

theorem Touched.continued (h : Touched t t') : Continued t t' := ⟨h.id, h.cancelled⟩

theorem Touched.trans {t'' : Task} (h : Touched t t') (h' : Touched t' t'') : Touched t t'' :=
  ⟨h'.id.trans h.id, h'.cancelled ∘ h.cancelled, h'.phase.trans h.phase⟩

/-- The task has still to send its `CloseSession`. -/
def Task.willClose (t : Task) : Prop := t.phase ≠ .closing ∧ t.phase ≠ .finished

/-- A step after which the task still has to send its `CloseSession` if it had to before. -/
structure StillCloses (t t' : Task) : Prop where
  id : t'.id = t.id
  willClose : t.willClose → t'.willClose

theorem StillCloses.refl (t : Task) : StillCloses t t := ⟨rfl, fun h => h⟩

theorem Touched.stillCloses (h : Touched t t') : StillCloses t t' :=
  ⟨h.id, fun hw => ⟨h.phase ▸ hw.1, h.phase ▸ hw.2⟩⟩

/-- A step of the task itself. -/
structure Stepped (a : TaskAction) (t t' : Task) : Prop where
  continued : Continued t t'
  stillCloses : a ≠ .close → StillCloses t t'

theorem Stepped.refl (a : TaskAction) (t : Task) : Stepped a t t := ⟨.refl t, fun _ => .refl t⟩

theorem Touched.stepped (h : Touched t t') : Stepped a t t' :=
  ⟨h.continued, fun _ => h.stillCloses⟩

/-- The relation holds across what the others can do to a task. -/
structure Others (R : Task → Task → Prop) : Prop where
  refl : ∀ t, R t t
  trans : ∀ t t' t'', R t t' → R t' t'' → R t t''
  push : ∀ message t, R t (t.push message)
  cancel : ∀ t, R t t.cancel

theorem others_touched : Others Touched where
  refl := .refl
  trans := fun _ _ _ => .trans
  push := fun _ _ => ⟨rfl, id, rfl⟩
  cancel := fun _ => ⟨rfl, fun _ => rfl, rfl⟩

namespace Pointwise

variable {R : Task → Task → Prop} {before after : List Task}

theorem refl (hrefl : ∀ t, R t t) (tasks : List Task) : Pointwise R tasks tasks :=
  ⟨rfl, fun _ t h => ⟨t, h, hrefl t⟩⟩

theorem mono {R' : Task → Task → Prop} (h : Pointwise R before after)
    (himp : ∀ t t', R t t' → R' t t') : Pointwise R' before after := by
  refine ⟨h.1, fun i t' ht' => ?_⟩
  obtain ⟨t, ht, hR⟩ := h.2 i t' ht'
  exact ⟨t, ht, himp t t' hR⟩

variable {i : Nat} {t : Task}

/-- One task is replaced. -/
theorem set (hrefl : ∀ t, R t t) {tasks : List Task} {t' : Task} (ht : tasks[i]? = some t)
    (hR : R t t') : Pointwise R tasks (tasks.set i t') := by
  refine ⟨length_set.symm, fun j u hu => ?_⟩
  by_cases hij : i = j
  · subst hij
    rw [List.getElem?_set_self (List.getElem?_eq_some_iff.mp ht).1] at hu
    cases hu
    exact ⟨t, ht, hR⟩
  · rw [getElem?_set_ne hij] at hu
    exact ⟨u, hu, hrefl u⟩

theorem modify (hrefl : ∀ t, R t t) (tasks : List Task) (i : Nat) {f : Task → Task}
    (hf : ∀ t, R t (f t)) : Pointwise R tasks (tasks.modify i f) := by
  refine ⟨(length_modify _ _ _).symm, fun j u hu => ?_⟩
  rw [getElem?_modify] at hu
  obtain ⟨t, ht, rfl⟩ := Option.map_eq_some_iff.mp hu
  refine ⟨t, ht, ?_⟩
  split_ifs
  · exact hf t
  · exact hrefl t

theorem trans (htrans : ∀ t t' t'', R t t' → R t' t'' → R t t'') {last : List Task}
    (h : Pointwise R before after) (h' : Pointwise R after last) : Pointwise R before last := by
  refine ⟨h.1.trans h'.1, fun i t'' ht'' => ?_⟩
  obtain ⟨t', ht', hR'⟩ := h'.2 i t'' ht''
  obtain ⟨t, ht, hR⟩ := h.2 i t' ht'
  exact ⟨t, ht, htrans t t' t'' hR hR'⟩

/-- A task of the first list is still there. -/
theorem exists_after (h : Pointwise R before after) (ht : before[i]? = some t) :
    ∃ t', after[i]? = some t' ∧ R t t' := by
  have hlt : i < after.length := h.1 ▸ (List.getElem?_eq_some_iff.mp ht).1
  obtain ⟨u, hu, hR⟩ := h.2 i after[i] (getElem?_eq_getElem hlt)
  cases ht.symm.trans hu
  exact ⟨_, getElem?_eq_getElem hlt, hR⟩

end Pointwise

variable {s s' : Server}

/-! ## What the steps do -/

/-- Messages for a list of tasks. -/
theorem pointwise_foldl_push (hR : Others R) (message : List UInt8) (indices : List Nat)
    (tasks : List Task) :
    Pointwise R tasks
      (indices.foldl (fun tasks task => tasks.modify task (Task.push message)) tasks) := by
  induction indices generalizing tasks with
  | nil => exact .refl hR.refl tasks
  | cons i indices ih =>
    exact (Pointwise.modify hR.refl tasks i (hR.push message)).trans hR.trans (ih _)

/-- What a step that is not of the tables' own does to them: nothing, and the tasks stay. -/
structure Beside (R : Task → Task → Prop) (s s' : Server) : Prop where
  loop : s'.loop = s.loop
  maxConnections : s'.maxConnections = s.maxConnections
  sessions : s'.sessions = s.sessions
  sessionTokens : s'.sessionTokens = s.sessionTokens
  sessionSenders : s'.sessionSenders = s.sessionSenders
  shutdownToken : s'.shutdownToken = s.shutdownToken
  tasks : Pointwise R s.tasks s'.tasks
  commands : s.commands.items ⊆ s'.commands.items

theorem Beside.mono {R' : Task → Task → Prop} (h : Beside R s s')
    (himp : ∀ t t', R t t' → R' t t') : Beside R' s s' :=
  { h with tasks := h.tasks.mono himp }

theorem Beside.refl (hR : Others R) (s : Server) : Beside R s s :=
  ⟨rfl, rfl, rfl, rfl, rfl, rfl, .refl hR.refl _, List.Subset.refl _⟩

/-- A message is put in the channel of one task. -/
theorem beside_push (hR : Others R) (s : Server) (task : Nat) (message : List UInt8) :
    Beside R s { s with tasks := s.tasks.modify task (Task.push message) } :=
  ⟨rfl, rfl, rfl, rfl, rfl, rfl, .modify hR.refl _ _ (hR.push message), List.Subset.refl _⟩

theorem responderSend_beside (hR : Others R) (s : Server) (task : Nat) (message : List UInt8) :
    Beside R s (s.responderSend task message).2 := by
  unfold responderSend
  split
  · exact .refl hR s
  · split_ifs
    · exact beside_push hR s task message
    · exact .refl hR s

theorem responderSendTo_beside (hR : Others R) (s : Server) (sessionId : Nat)
    (message : List UInt8) :
    Beside R s (s.responderSendTo sessionId message).2 := by
  unfold responderSendTo
  split
  · split_ifs
    · exact beside_push hR s _ message
    · exact .refl hR s
  · exact .refl hR s

/-- Everything that was put in the channel of a task so far. -/
def Task.pushed (t : Task) : List (List UInt8) := t.handed ++ t.outbox

/-- What a task does to itself in a step of its own: it gets nothing, and a channel that
is closed stays so. -/
structure Moved (a : TaskAction) (t t' : Task) : Prop where
  id : t'.id = t.id
  cancelled : t'.cancelled = t.cancelled
  pushed : t'.pushed = t.pushed
  closed : t'.channelOpen = true → t.channelOpen = true
  willClose : a ≠ .close → t.willClose → t'.willClose

theorem Moved.stepped (h : Moved a t t') : Stepped a t t' :=
  ⟨⟨h.id, fun hcancelled => h.cancelled.trans hcancelled⟩, fun ha => ⟨h.id, h.willClose ha⟩⟩

theorem moved_receive (data : List UInt8) (hphase : t.phase = .running) :
    Moved (.recv data) t (t.receive data) := by
  have hopen : t.channelOpen = true := by rw [Task.channelOpen, hphase]
  unfold Task.receive
  split_ifs
  · exact ⟨rfl, rfl, rfl, fun _ => hopen, fun _ _ => ⟨nofun, nofun⟩⟩
  · exact ⟨rfl, rfl, rfl, fun _ => hopen, fun _ hwill => hwill⟩

/-- The handler answers in this step. -/
def TaskAction.answers : TaskAction → Bool
  | .respond _ | .respondTo _ _ => true
  | _ => false

/-- A task takes a step of its own, and leaves the tables alone. -/
structure OwnStep (a : TaskAction) (index : Nat) (t : Task) (s s' : Server) : Prop where
  answers : a.answers = false
  loop : s'.loop = s.loop
  maxConnections : s'.maxConnections = s.maxConnections
  sessions : s'.sessions = s.sessions
  sessionTokens : s'.sessionTokens = s.sessionTokens
  sessionSenders : s'.sessionSenders = s.sessionSenders
  shutdownToken : s'.shutdownToken = s.shutdownToken
  commands : s.commands.items ⊆ s'.commands.items
  task : ∃ t', s'.tasks = s.tasks.set index t' ∧ Moved a t t'

/-- What a step of a task can do, with the condition under which it does. -/
inductive TaskMoves (s : Server) (index : Nat) (t : Task) : TaskAction → Server → Prop
  | recv (data : List UInt8) (hphase : t.phase = .running) :
      TaskMoves s index t (.recv data) { s with tasks := s.tasks.set index (t.receive data) }
  | respond (message : List UInt8) (hphase : t.phase = .handling) :
      TaskMoves s index t (.respond message) (s.responderSend index message).2
  | respondTo (sessionId : Nat) (message : List UInt8) (hphase : t.phase = .handling) :
      TaskMoves s index t (.respondTo sessionId message) (s.responderSendTo sessionId message).2
  | handled (hphase : t.phase = .handling) :
      TaskMoves s index t .handled
        { s with tasks := s.tasks.set index { t with phase := .running } }
  | takeOut (message : List UInt8) (outbox : List (List UInt8)) (hphase : t.phase = .running)
      (houtbox : t.outbox = message :: outbox) :
      TaskMoves s index t .takeOut { s with
        tasks := s.tasks.set index
          { t with phase := .sending, outbox := outbox, handed := t.handed ++ [message] } }
  | sent (hphase : t.phase = .sending) :
      TaskMoves s index t .sent { s with tasks := s.tasks.set index { t with phase := .running } }
  | fail (hphase : t.phase = .running ∨ t.phase = .sending) :
      TaskMoves s index t .fail { s with tasks := s.tasks.set index { t with phase := .ended } }
  | cancelled (hphase : t.phase = .running ∨ t.phase = .sending)
      (htoken : s.tokenCancelled t = true) :
      TaskMoves s index t .cancelled
        { s with tasks := s.tasks.set index { t with phase := .ended } }
  | report (hphase : t.phase = .ended) :
      TaskMoves s index t .report { s with
        tasks := s.tasks.set index
          { t with phase := .reported, calls := t.calls ++ [.onSessionEnd] }
        events := s.events.offer (.sessionClosed t.id) }
  | close (hphase : t.phase = .reported) :
      TaskMoves s index t .close { s with
        tasks := s.tasks.set index { t with phase := .closing }
        commands := s.commands.offer (.closeSession t.id) }
  | notify (hphase : t.phase = .closing) :
      TaskMoves s index t .notify { s with
        tasks := s.tasks.set index { t with phase := .finished }, permit := true }

theorem taskMoves_of_stepTask (h : s.stepTask index t a = some s') : TaskMoves s index t a s' := by
  cases a with
  | takeOut =>
    rw [stepTask] at h
    split_ifs at h with hphase
    split at h
    · cases h
    · rename_i message outbox houtbox
      exact Option.some.inj h ▸ .takeOut message outbox hphase houtbox
  | cancelled =>
    obtain ⟨⟨hphase, htoken⟩, rfl⟩ := of_guard h
    exact .cancelled hphase htoken
  | recv | respond | respondTo | handled | sent | fail | report | close | notify =>
    obtain ⟨hphase, rfl⟩ := of_guard h
    constructor
    exact hphase

/-- A step of a task: the handler answers, or the task moves on. -/
theorem stepTask_cases (h : s.stepTask index t a = some s') :
    (∃ message, a = .respond message ∧ t.phase = .handling ∧
      s' = (s.responderSend index message).2) ∨
    (∃ sessionId message, a = .respondTo sessionId message ∧
      s' = (s.responderSendTo sessionId message).2) ∨
    OwnStep a index t s s' := by
  have hopen : ∀ {phase}, t.phase = phase →
      phase = .running ∨ phase = .handling ∨ phase = .sending → t.channelOpen = true := by
    rintro _ hphase (rfl | rfl | rfl) <;> rw [Task.channelOpen, hphase]
  -- a step that changes nothing but the task
  have hown : ∀ t', a.answers = false → Moved a t t' →
      OwnStep a index t s { s with tasks := s.tasks.set index t' } := fun t' hanswers hmoved =>
    ⟨hanswers, rfl, rfl, rfl, rfl, rfl, rfl, List.Subset.refl _, t', rfl, hmoved⟩
  cases taskMoves_of_stepTask h with
  | respond message hphase => exact .inl ⟨message, rfl, hphase, rfl⟩
  | respondTo sessionId message => exact .inr (.inl ⟨sessionId, message, rfl, rfl⟩)
  | recv data hphase => exact .inr (.inr (hown _ rfl (moved_receive data hphase)))
  | takeOut message outbox hphase houtbox =>
    refine .inr (.inr (hown _ rfl
      ⟨rfl, rfl, ?_, fun _ => hopen hphase (.inl rfl), fun _ _ => ⟨nofun, nofun⟩⟩))
    rw [Task.pushed, Task.pushed, houtbox, append_assoc]
    rfl
  | handled hphase =>
    exact .inr (.inr (hown _ rfl
      ⟨rfl, rfl, rfl, fun _ => hopen hphase (.inr (.inl rfl)), fun _ _ => ⟨nofun, nofun⟩⟩))
  | sent hphase =>
    exact .inr (.inr (hown _ rfl
      ⟨rfl, rfl, rfl, fun _ => hopen hphase (.inr (.inr rfl)), fun _ _ => ⟨nofun, nofun⟩⟩))
  | fail | cancelled =>
    exact .inr (.inr (hown _ rfl ⟨rfl, rfl, rfl, nofun, fun _ _ => ⟨nofun, nofun⟩⟩))
  | report =>
    exact .inr (.inr ⟨rfl, rfl, rfl, rfl, rfl, rfl, rfl, List.Subset.refl _, _, rfl,
      ⟨rfl, rfl, rfl, nofun, fun _ _ => ⟨nofun, nofun⟩⟩⟩)
  | close =>
    exact .inr (.inr ⟨rfl, rfl, rfl, rfl, rfl, rfl, rfl, BoundedQueue.subset_items_offer _ _, _,
      rfl, ⟨rfl, rfl, rfl, nofun, fun ha => absurd rfl ha⟩⟩)
  | notify hphase =>
    exact .inr (.inr ⟨rfl, rfl, rfl, rfl, rfl, rfl, rfl, List.Subset.refl _, _, rfl,
      ⟨rfl, rfl, rfl, nofun, fun _ hwill => absurd hphase hwill.1⟩⟩)

/-- No step of a task touches the tables. -/
theorem stepTask_beside (ht : s.tasks[index]? = some t) (h : s.stepTask index t a = some s') :
    Beside (Stepped a) s s' := by
  rcases stepTask_cases h with ⟨message, -, -, rfl⟩ | ⟨sessionId, message, -, rfl⟩ | hown
  · exact (responderSend_beside others_touched s index message).mono fun _ _ => Touched.stepped
  · exact (responderSendTo_beside others_touched s sessionId message).mono
      fun _ _ => Touched.stepped
  · obtain ⟨t', htasks, hmoved⟩ := hown.task
    have hpointwise : Pointwise (Stepped a) s.tasks s'.tasks := by
      rw [htasks]
      exact .set (.refl a) ht hmoved.stepped
    exact ⟨hown.loop, hown.maxConnections, hown.sessions, hown.sessionTokens,
      hown.sessionSenders, hown.shutdownToken, hpointwise, hown.commands⟩

/-- A step that touches neither the tasks nor the tables: it takes no command, and the
loop goes on. -/
structure Idle (a : Action) (s s' : Server) : Prop where
  noTask : ∀ index action, a ≠ .task index action
  noCommand : a = .drain → s.commands.pop? = none
  tasks : s'.tasks = s.tasks
  maxConnections : s'.maxConnections = s.maxConnections
  sessions : s'.sessions = s.sessions
  sessionTokens : s'.sessionTokens = s.sessionTokens
  sessionSenders : s'.sessionSenders = s.sessionSenders
  shutdownToken : s'.shutdownToken = s.shutdownToken
  returned : s'.loop = .returned ↔ s.loop = .returned
  commands : s.commands.items ⊆ s'.commands.items

/-- A step: a connection is accepted, a command is handled, a task moves, or none of it. -/
theorem step_cases {a : Action} (h : s.step a = some s') :
    (∃ addr, a = .accept addr ∧ s.loop = .selecting ∧ s' = s.handleConnection addr) ∨
    (∃ command commands, a = .drain ∧ s.loop = .draining ∧
      s.commands.pop? = some (command, commands) ∧
      s' = let r := { s with commands := commands }.handleCommand command
        if r.1 then { r.2 with loop := .returned } else r.2) ∨
    (∃ index action t, a = .task index action ∧ s.tasks[index]? = some t ∧
      s.stepTask index t action = some s') ∨
    Idle a s s' := by
  cases a with
  | accept addr =>
    obtain ⟨hloop, rfl⟩ := of_guard h
    exact .inl ⟨addr, rfl, hloop, rfl⟩
  | notified =>
    obtain ⟨hloop, rfl⟩ := of_guard h
    exact .inr (.inr (.inr ⟨nofun, nofun, rfl, rfl, rfl, rfl, rfl, rfl, by simp [hloop.1],
      List.Subset.refl _⟩))
  | drain =>
    rw [step] at h
    split_ifs at h with hloop
    split at h
    · rename_i hpop
      cases h
      exact .inr (.inr (.inr ⟨nofun, fun _ => hpop, rfl, rfl, rfl, rfl, rfl, rfl,
        by simp [hloop], List.Subset.refl _⟩))
    · rename_i command commands hpop
      exact .inr (.inl ⟨command, commands, rfl, hloop, hpop, (Option.some.inj h).symm⟩)
  | command command =>
    cases h
    exact .inr (.inr (.inr ⟨nofun, nofun, rfl, rfl, rfl, rfl, rfl, rfl, Iff.rfl,
      BoundedQueue.subset_items_offer _ _⟩))
  | notify =>
    obtain ⟨-, rfl⟩ := of_guard h
    exact .inr (.inr (.inr ⟨nofun, nofun, rfl, rfl, rfl, rfl, rfl, rfl, Iff.rfl,
      List.Subset.refl _⟩))
  | pollEvent =>
    obtain ⟨p, -, rfl⟩ := Option.map_eq_some_iff.mp h
    exact .inr (.inr (.inr ⟨nofun, nofun, rfl, rfl, rfl, rfl, rfl, rfl, Iff.rfl,
      List.Subset.refl _⟩))
  | task index action =>
    obtain ⟨t, ht, htask⟩ := Option.bind_eq_some_iff.mp h
    exact .inr (.inr (.inl ⟨index, action, t, rfl, ht, htask⟩))

/-! ## The tables agree -/

/-- The tables of a server that has not been shut down. -/
structure Tables (s : Server) : Prop where
  nextId : s.sessions.nextId = (s.tasks.length + 1) % 2 ^ 64
  ids : ∀ (i : Nat) (t : Task), s.tasks[i]? = some t → t.id = (i + 1) % 2 ^ 64
  tokens : ∀ sessionId, s.sessionTokens.contains sessionId =
    s.sessions.sessions.contains sessionId
  senders : ∀ sessionId, s.sessionSenders.contains sessionId = true →
    s.sessionTokens.contains sessionId = true
  count : s.sessions.count ≤ s.maxConnections
  /-- A token that is not in the table has been cancelled. -/
  owned : s.tasks.length < 2 ^ 64 → ∀ (i : Nat) (t : Task), s.tasks[i]? = some t →
    s.sessionTokens.get? t.id = some i ∨ t.cancelled = true

/-- The rest of the server plays no part in the tables. -/
theorem Tables.pointwise (h : Tables s) (hsessions : s'.sessions = s.sessions)
    (htasks : Pointwise Continued s.tasks s'.tasks) (htokens : s'.sessionTokens = s.sessionTokens)
    (hsenders : s'.sessionSenders = s.sessionSenders)
    (hmax : s'.maxConnections = s.maxConnections) : Tables s' := by
  constructor
  · rw [hsessions, ← htasks.1]
    exact h.nextId
  · intro i t' ht'
    obtain ⟨t, ht, hcont⟩ := htasks.2 i t' ht'
    rw [hcont.id]
    exact h.ids i t ht
  · rw [htokens, hsessions]
    exact h.tokens
  · rw [hsenders, htokens]
    exact h.senders
  · rw [hsessions, hmax]
    exact h.count
  · intro hbound i t' ht'
    obtain ⟨t, ht, hcont⟩ := htasks.2 i t' ht'
    rw [htokens, hcont.id]
    exact (h.owned (htasks.1 ▸ hbound) i t ht).imp id hcont.cancelled

theorem Tables.beside (h : Tables s) (hs : Beside Continued s s') : Tables s' :=
  h.pointwise hs.sessions hs.tasks hs.sessionTokens hs.sessionSenders hs.maxConnections

/-- A task is an older one or the one of the new session. -/
theorem getElem?_concat_cases {α : Type} {tasks : List α} {t new : α} {i : Nat}
    (ht : (tasks ++ [new])[i]? = some t) : tasks[i]? = some t ∨ i = tasks.length ∧ t = new := by
  rcases Nat.lt_or_ge i tasks.length with hlt | hge
  · exact .inl (by rwa [getElem?_append_left hlt] at ht)
  · rw [getElem?_append_right hge, getElem?_singleton] at ht
    split_ifs at ht with hzero
    cases ht
    exact .inr ⟨by omega, rfl⟩

theorem tables_start (maxConnections channelCapacity : Nat) (addr : SocketAddr) :
    Tables (start maxConnections channelCapacity addr) :=
  ⟨rfl, by simp [start], fun _ => rfl, fun _ h => h, Nat.zero_le _, by simp [start]⟩

/-- A new session gets an id that is in none of the tables. -/
theorem Tables.handleConnection (h : Tables s) (addr : SocketAddr) :
    Tables (s.handleConnection addr) := by
  unfold Server.handleConnection
  split_ifs with hfull
  · exact h
  refine ⟨?_, ?_, ?_, ?_, ?_, ?_⟩
  · show (s.sessions.nextId + 1) % 2 ^ 64 = _
    rw [h.nextId, length_append, length_singleton, Nat.mod_add_mod]
  · intro i t ht
    rcases getElem?_concat_cases ht with hold | ⟨rfl, rfl⟩
    · exact h.ids i t hold
    · exact h.nextId
  · intro sessionId
    show (s.sessionTokens.insert _ _).contains _ = (s.sessions.sessions.insert _ _).contains _
    rw [SortedMap.contains_insert, SortedMap.contains_insert, h.tokens]
    rfl
  · intro sessionId
    rw [SortedMap.contains_insert, SortedMap.contains_insert, Bool.or_eq_true, Bool.or_eq_true]
    exact Or.imp_right (h.senders sessionId)
  · have hsize := s.sessions.sessions.size_insert_le s.sessions.nextId ⟨s.sessions.nextId, addr⟩
    have hlt : s.sessions.sessions.size < s.maxConnections := Nat.lt_of_not_le hfull
    exact hsize.trans hlt
  · intro hbound i t ht
    have hbound : s.tasks.length + 1 < 2 ^ 64 := by simpa using hbound
    show (s.sessionTokens.insert s.sessions.nextId s.tasks.length).get? t.id = _ ∨ _
    rw [get?_insert]
    rcases getElem?_concat_cases ht with hold | ⟨rfl, rfl⟩
    · -- an older task, with an older id
      have hlt := (List.getElem?_eq_some_iff.mp hold).1
      have hne : t.id ≠ s.sessions.nextId := by
        rw [h.ids i t hold, h.nextId, Nat.mod_eq_of_lt (by omega), Nat.mod_eq_of_lt hbound]
        omega
      rw [if_neg hne]
      exact h.owned (by omega) i t hold
    · exact .inl (if_pos rfl)

/-- The table of channels loses entries on its own. -/
theorem Tables.fewerSenders (h : Tables s) {senders : SortedMap Nat Nat}
    (hsenders : ∀ k, senders.contains k = true → s.sessionSenders.contains k = true) :
    Tables { s with sessionSenders := senders } :=
  ⟨h.nextId, h.ids, h.tokens, fun k hk => h.senders k (hsenders k hk), h.count, h.owned⟩

/-- A command may cancel tasks and send them messages. -/
theorem handleCommand_tasks (hR : Others R) (s : Server) (command : ServerCommand) :
    Pointwise R s.tasks (s.handleCommand command).2.tasks := by
  cases command with
  | shutdown => exact .refl hR.refl _
  | closeSession sessionId =>
    simp only [handleCommand]
    split
    · exact .modify hR.refl _ _ hR.cancel
    · exact .refl hR.refl _
  | broadcast message => exact pointwise_foldl_push hR _ _ _
  | sendTo sessionId message =>
    rw [handleCommand]
    split
    · exact .refl hR.refl _
    · split_ifs
      · exact .modify hR.refl _ _ (hR.push message)
      · exact .refl hR.refl _

/-- The tables while commands are handled. -/
theorem Tables.handleCommand (h : Tables s) (hcommand : (s.handleCommand command).1 = false) :
    Tables (s.handleCommand command).2 := by
  cases command with
  | shutdown => cases hcommand
  | closeSession sessionId =>
    -- the token that leaves the table is cancelled
    have htasks := handleCommand_tasks others_touched s (.closeSession sessionId)
    refine ⟨?_, ?_, ?_, ?_, ?_, ?_⟩
    · rw [← htasks.1]
      exact h.nextId
    · intro i t' ht'
      obtain ⟨t, ht, htouched⟩ := htasks.2 i t' ht'
      rw [htouched.id]
      exact h.ids i t ht
    · intro k
      show (s.sessionTokens.erase sessionId).contains k =
        (s.sessions.sessions.erase sessionId).contains k
      rw [contains_erase, contains_erase, h.tokens]
    · intro k
      show (s.sessionSenders.erase sessionId).contains k = true →
        (s.sessionTokens.erase sessionId).contains k = true
      rw [contains_erase, contains_erase, Bool.and_eq_true, Bool.and_eq_true]
      exact And.imp_right (h.senders k)
    · exact (size_erase_le _ _).trans h.count
    · intro hbound i t' ht'
      obtain ⟨t, ht, htouched⟩ := htasks.2 i t' ht'
      show (s.sessionTokens.erase sessionId).get? t'.id = some i ∨ _
      rw [get?_erase, htouched.id]
      rcases h.owned (htasks.1 ▸ hbound) i t ht with htoken | hcancelled
      · split_ifs with hid
        · subst hid
          right
          simp only [Server.handleCommand, htoken, getElem?_modify, ht, if_true] at ht'
          cases ht'
          rfl
        · exact .inl htoken
      · exact .inr (htouched.cancelled hcancelled)
  | broadcast message =>
    have hlive : Tables { s with sessionSenders := s.sessionSenders.retain s.channelOpen } :=
      h.fewerSenders fun _ => contains_of_contains_retain
    refine hlive.beside (Beside.mono ?_ fun _ _ => Touched.continued)
    exact ⟨rfl, rfl, rfl, rfl, rfl, rfl, pointwise_foldl_push others_touched _ _ _,
      List.Subset.refl _⟩
  | sendTo sessionId message =>
    rw [Server.handleCommand]
    split
    · exact h
    · split_ifs
      · exact h.beside ((beside_push others_touched s _ message).mono fun _ _ => Touched.continued)
      · refine h.fewerSenders fun k hk => ?_
        rw [contains_erase, Bool.and_eq_true] at hk
        exact hk.2

theorem handleCommand_loop (s : Server) (command : ServerCommand) :
    (s.handleCommand command).2.loop = s.loop := by
  cases command with
  | shutdown | closeSession sessionId | broadcast message => rfl
  | sendTo sessionId message =>
    rw [handleCommand]
    split
    · rfl
    · split_ifs <;> rfl

theorem shutdownToken_of_handleCommand (h : (s.handleCommand command).1 = true) :
    (s.handleCommand command).2.shutdownToken = true := by
  cases command with
  | shutdown => rfl
  | closeSession sessionId | broadcast message => cases h
  | sendTo sessionId message =>
    rw [handleCommand] at h
    split at h
    · cases h
    · split_ifs at h

/-- The tables agree up to the shutdown, and the shutdown cancels the parent token. -/
structure Inv (s : Server) : Prop where
  tables : s.loop ≠ .returned → Tables s
  shutdown : s.loop = .returned → s.shutdownToken = true

theorem inv_step {a : Action} (h : Inv s) (hstep : s.step a = some s') : Inv s' := by
  rcases step_cases hstep with ⟨addr, -, hloop, rfl⟩ | ⟨command, commands, -, hloop, hpop, rfl⟩ |
    ⟨index, action, t, -, ht, htask⟩ | hidle
  · have htables := (h.tables (by simp [hloop])).handleConnection addr
    have hnext : (s.handleConnection addr).loop = .selecting := by
      unfold handleConnection
      split_ifs <;> exact hloop
    exact ⟨fun _ => htables, fun hend => absurd (hnext.symm.trans hend) nofun⟩
  · have htables := h.tables (by simp [hloop])
    have hpopped : Tables { s with commands := commands } :=
      htables.pointwise rfl (.refl .refl _) rfl rfl rfl
    dsimp only
    split_ifs with hend
    · exact ⟨fun hrun => absurd rfl hrun, fun _ => shutdownToken_of_handleCommand hend⟩
    · refine ⟨fun _ => hpopped.handleCommand (Bool.eq_false_iff.mpr hend), fun hret => ?_⟩
      rw [handleCommand_loop] at hret
      exact absurd (hloop.symm.trans hret) nofun
  · have hbeside := (stepTask_beside ht htask).mono fun _ _ => Stepped.continued
    exact ⟨fun hrun => (h.tables (hbeside.loop ▸ hrun)).beside hbeside,
      fun hend => hbeside.shutdownToken ▸ h.shutdown (hbeside.loop ▸ hend)⟩
  · refine ⟨fun hrun => ?_, fun hend => ?_⟩
    · exact (h.tables (mt hidle.returned.mpr hrun)).pointwise hidle.sessions
        (hidle.tasks ▸ .refl .refl _) hidle.sessionTokens hidle.sessionSenders hidle.maxConnections
    · exact hidle.shutdownToken ▸ h.shutdown (hidle.returned.mp hend)

theorem inv_of_reach {Allowed : Server → Action → Prop} {maxConnections channelCapacity : Nat}
    {addr : SocketAddr} (h : Reach step Allowed (start maxConnections channelCapacity addr) s) :
    Inv s :=
  h.invariant Inv ⟨fun _ => tables_start _ _ _, nofun⟩ fun _ _ _ hs _ hstep => inv_step hs hstep

/-- Ids that are the numbers of their places. -/
theorem nodup_of_numbered {ids : List Nat}
    (h : ∀ i id, ids[i]? = some id → id = (i + 1) % 2 ^ 64) (hbound : ids.length < 2 ^ 64) :
    ids.Nodup := by
  have hids : ids = range' 1 ids.length := by
    refine ext_getElem (by simp) fun i hi _ => ?_
    rw [getElem_range', h i _ (getElem?_eq_getElem hi), Nat.mod_eq_of_lt (by omega)]
    omega
  rw [hids]
  exact nodup_range'

theorem Tables.nodup_ids (h : Tables s) (hbound : s.tasks.length < 2 ^ 64) :
    (s.tasks.map (·.id)).Nodup := by
  refine nodup_of_numbered (fun i id hid => ?_) (by rwa [length_map])
  rw [getElem?_map] at hid
  obtain ⟨t, ht, rfl⟩ := Option.map_eq_some_iff.mp hid
  exact h.ids i t ht

/-- Before a shutdown the three tables agree and hold at most `max_connections` sessions,
no id was used twice, and a token that is in no table has been cancelled; and the
shutdown cancels the token of every task. -/
theorem bookkeeping_of_reach {maxConnections channelCapacity : Nat} {addr : SocketAddr}
    (h : Reach step Anything (start maxConnections channelCapacity addr) s)
    (hbound : s.tasks.length < 2 ^ 64) :
    (s.loop ≠ .returned →
      (∀ id, s.sessionTokens.contains id = s.sessions.sessions.contains id) ∧
      (∀ id, s.sessionSenders.contains id = true → s.sessionTokens.contains id = true) ∧
      (s.sessions.count ≤ s.maxConnections ∧ s.sessionTokens.size ≤ s.maxConnections ∧
        s.sessionSenders.size ≤ s.maxConnections) ∧
      (s.tasks.map (·.id)).Nodup ∧
      ∀ (i : Nat) (t : Task), s.tasks[i]? = some t →
        s.sessionTokens.get? t.id = some i ∨ s.tokenCancelled t = true) ∧
    (s.loop = .returned → ∀ t ∈ s.tasks, s.tokenCancelled t = true) := by
  have hinv := inv_of_reach h
  refine ⟨fun hrun => ?_, fun hend t _ => ?_⟩
  · have htables := hinv.tables hrun
    have htokens : s.sessionTokens.size ≤ s.maxConnections :=
      (size_le_of_contains fun k hk => htables.tokens k ▸ hk).trans htables.count
    refine ⟨htables.tokens, htables.senders, ⟨htables.count, htokens, ?_⟩, htables.nodup_ids hbound,
      fun i t ht => ?_⟩
    · exact (size_le_of_contains htables.senders).trans htokens
    · refine (htables.owned hbound i t ht).imp id fun hcancelled => ?_
      rw [tokenCancelled, hcancelled, Bool.true_or]
  · rw [tokenCancelled, hinv.shutdown hend, Bool.or_true]

/-- The loopback address. -/
def localhost : SocketAddr := ⟨0x7f000001, 9000⟩

/-- Two sessions, of which the first one is closed by a command. -/
theorem bookkeeping_of_reach_two :
    ∃ s, Reach step Anything (start 2 4 localhost) s ∧ s.tasks.length = 2 ∧
      s.loop = .draining ∧ s.sessions.sessions.contains 1 = false ∧
      s.sessionTokens.get? 2 = some 1 ∧ s.tasks.length < 2 ^ 64 ∧
      s.sessions.count ≤ s.maxConnections ∧ (s.tasks.map (·.id)).Nodup ∧
      ∀ (i : Nat) (t : Task), s.tasks[i]? = some t →
        s.sessionTokens.get? t.id = some i ∨ s.tokenCancelled t = true := by
  have hreach : Reach step Anything (start 2 4 localhost) _ :=
    reach_of_run [.accept localhost, .accept localhost, .accept localhost,
      .command (.broadcast [7]), .command (.closeSession 1), .notify, .notified, .drain, .drain] rfl
  have hbound : _ < 2 ^ 64 := show 2 < 2 ^ 64 by decide
  obtain ⟨-, -, hsize, hids, howned⟩ := (bookkeeping_of_reach hreach hbound).1 (by decide)
  exact ⟨_, hreach, rfl, rfl, rfl, rfl, hbound, hsize.1, hids, howned⟩

/-! ## Slots -/

/-- Somebody will give the slot of the session back. -/
def Backed (s : Server) (sessionId : Nat) : Prop :=
  (∃ t ∈ s.tasks, t.id = sessionId ∧ t.willClose) ∨ .closeSession sessionId ∈ s.commands.items

/-- There is room in the channel when a task sends its `CloseSession`. -/
def CloseFits (s : Server) : Action → Prop
  | .task _ .close => s.commands.items.length < s.commands.capacity
  | _ => True

instance (s : Server) (a : Action) : Decidable (CloseFits s a) := by
  unfold CloseFits
  split <;> infer_instance

/-- The slot of every session will be given back. -/
def SlotsBacked (s : Server) : Prop :=
  ∀ sessionId, s.sessions.sessions.contains sessionId = true → Backed s sessionId

theorem Backed.mono (h : Backed s sessionId) (htasks : Pointwise StillCloses s.tasks s'.tasks)
    (hcommands : .closeSession sessionId ∈ s.commands.items →
      .closeSession sessionId ∈ s'.commands.items) : Backed s' sessionId := by
  rcases h with ⟨t, ht, hid, hwill⟩ | hcommand
  · obtain ⟨i, hi⟩ := mem_iff_getElem?.mp ht
    obtain ⟨t', ht', hstill⟩ := htasks.exists_after hi
    exact .inl ⟨t', mem_of_getElem? ht', hstill.id.trans hid, hstill.willClose hwill⟩
  · exact .inr (hcommands hcommand)

/-- A command leaves the channel as it is and takes a slot only from the session that it
closes. -/
theorem handleCommand_slots (s : Server) (command : ServerCommand)
    (h : (s.handleCommand command).2.sessions.sessions.contains sessionId = true) :
    (s.handleCommand command).2.commands = s.commands ∧
      s.sessions.sessions.contains sessionId = true ∧ command ≠ .closeSession sessionId := by
  cases command with
  | shutdown | broadcast message => exact ⟨rfl, h, nofun⟩
  | closeSession closed =>
    have hcontains : (s.sessions.sessions.erase closed).contains sessionId = true := h
    rw [SortedMap.contains_erase, Bool.and_eq_true] at hcontains
    refine ⟨rfl, hcontains.2, fun heq => ?_⟩
    obtain rfl := ServerCommand.closeSession.inj heq
    simp at hcontains
  | sendTo target message =>
    rw [handleCommand] at h ⊢
    split at h
    · exact ⟨rfl, h, nofun⟩
    · split_ifs at h ⊢ <;> exact ⟨rfl, h, nofun⟩

theorem SlotsBacked.handleCommand {commands : BoundedQueue ServerCommand} (h : SlotsBacked s)
    (hpop : s.commands.items = command :: commands.items) :
    SlotsBacked ({ s with commands := commands }.handleCommand command).2 := by
  intro sessionId hcontains
  obtain ⟨hcommands, hbefore, hne⟩ := handleCommand_slots _ command hcontains
  refine (h sessionId hbefore).mono ?_ fun hmem => ?_
  · exact (handleCommand_tasks others_touched { s with commands := commands } command).mono
      fun _ _ => Touched.stillCloses
  · rw [hcommands]
    rw [hpop] at hmem
    exact (mem_cons.mp hmem).resolve_left fun heq => hne heq.symm

/-- A new session has a task that runs. -/
theorem SlotsBacked.handleConnection (h : SlotsBacked s) (addr : SocketAddr) :
    SlotsBacked (s.handleConnection addr) := by
  unfold Server.handleConnection
  split_ifs
  · exact h
  intro sessionId hcontains
  have hcontains : (s.sessions.sessions.insert s.sessions.nextId
    ⟨s.sessions.nextId, addr⟩).contains sessionId = true := hcontains
  rw [SortedMap.contains_insert, Bool.or_eq_true, decide_eq_true_eq] at hcontains
  rcases hcontains with rfl | hold
  · exact .inl ⟨_, mem_append_right _ (mem_singleton_self _), rfl, nofun, nofun⟩
  · rcases h sessionId hold with ⟨t, ht, hclose⟩ | hcommand
    · exact .inl ⟨t, mem_append_left _ ht, hclose⟩
    · exact .inr hcommand

/-- The command goes into the channel before the task is done. -/
theorem SlotsBacked.close (h : SlotsBacked s) (ht : s.tasks[index]? = some t)
    (hroom : s.commands.items.length < s.commands.capacity)
    (hstep : s.stepTask index t .close = some s') : SlotsBacked s' := by
  obtain ⟨-, rfl⟩ := of_guard hstep
  have hitems := BoundedQueue.items_offer_of_lt hroom (.closeSession t.id)
  intro sessionId hcontains
  rcases h sessionId hcontains with ⟨u, hu, hid, hwill⟩ | hcommand
  · by_cases hsame : sessionId = t.id
    · right
      rw [hsame, hitems]
      exact mem_append_right _ (mem_singleton_self _)
    · left
      obtain ⟨j, hj⟩ := mem_iff_getElem?.mp hu
      have hne : index ≠ j := by
        rintro rfl
        cases hj.symm.trans ht
        exact hsame hid.symm
      refine ⟨u, mem_of_getElem? (i := j) ?_, hid, hwill⟩
      rw [getElem?_set_ne hne]
      exact hj
  · right
    rw [hitems]
    exact mem_append_left _ hcommand

theorem slotsBacked_step {a : Action} (h : SlotsBacked s) (ha : CloseFits s a)
    (hstep : s.step a = some s') : SlotsBacked s' := by
  rcases step_cases hstep with ⟨addr, -, -, rfl⟩ | ⟨command, commands, -, -, hpop, rfl⟩ |
    ⟨index, action, t, rfl, ht, htask⟩ | hidle
  · exact h.handleConnection addr
  · have hnext := h.handleCommand (BoundedQueue.items_of_pop? hpop)
    dsimp only
    split_ifs <;> exact hnext
  · by_cases haction : action = .close
    · subst haction
      exact h.close ht ha htask
    · have hbeside := stepTask_beside ht htask
      intro sessionId hcontains
      rw [hbeside.sessions] at hcontains
      exact (h sessionId hcontains).mono
        (hbeside.tasks.mono fun _ _ hstepped => hstepped.stillCloses haction)
        fun hmem => hbeside.commands hmem
  · intro sessionId hcontains
    rw [hidle.sessions] at hcontains
    exact (h sessionId hcontains).mono (hidle.tasks ▸ .refl .refl _)
      fun hmem => hidle.commands hmem

/-- As long as there is room in the channel when a task sends its `CloseSession`, every
id in the `SessionManager` has a task that has not finished or a `CloseSession` that
waits. -/
theorem backed_of_reach {maxConnections channelCapacity : Nat} {addr : SocketAddr}
    (h : Reach step CloseFits (start maxConnections channelCapacity addr) s) (sessionId : Nat)
    (hsession : s.sessions.sessions.contains sessionId = true) :
    (∃ t ∈ s.tasks, t.id = sessionId ∧ t.phase ≠ .finished) ∨
      .closeSession sessionId ∈ s.commands.items := by
  have hstart : SlotsBacked (start maxConnections channelCapacity addr) :=
    fun _ hcontains => absurd hcontains Bool.false_ne_true
  have hbacked : SlotsBacked s :=
    h.invariant SlotsBacked hstart fun _ _ _ hs ha hstep => slotsBacked_step hs ha hstep
  rcases hbacked sessionId hsession with ⟨t, ht, hid, hwill⟩ | hcommand
  · exact .inl ⟨t, ht, hid, hwill.2⟩
  · exact .inr hcommand

/-- The steps of the task of the first session from its last read to its end. -/
def ending : List Action :=
  [.task 0 .fail, .task 0 .report, .task 0 .close, .task 0 .notify]

/-- A session whose task has finished, with its command in the channel. -/
theorem backed_of_reach_one :
    ∃ s, Reach step CloseFits (start 1 1 localhost) s ∧
      s.sessions.sessions.contains 1 = true ∧ s.tasks.all (·.phase = .finished) ∧
      ((∃ t ∈ s.tasks, t.id = 1 ∧ t.phase ≠ .finished) ∨ .closeSession 1 ∈ s.commands.items) := by
  have hreach : Reach step CloseFits (start 1 1 localhost) _ :=
    reach_of_run (.accept localhost :: ending) rfl
  exact ⟨_, hreach, rfl, rfl, backed_of_reach hreach 1 rfl⟩

/-- A broadcast fills the channel, the task cannot send its command, and the slot stays
taken: the loop has handled every command and the next connection is refused. -/
theorem slot_leaked :
    ∃ s, Reach step Anything (start 1 1 localhost) s ∧ s.loop = .selecting ∧
      s.sessions.sessions.contains 1 = true ∧
      (¬ ∃ t ∈ s.tasks, t.id = 1 ∧ t.phase ≠ .finished) ∧
      .closeSession 1 ∉ s.commands.items ∧ s.handleConnection localhost = s := by
  have hreach : Reach step Anything (start 1 1 localhost) _ :=
    reach_of_run ([.accept localhost, .command (.broadcast [7])] ++ ending ++
      [.notify, .notified, .drain, .drain]) rfl
  exact ⟨_, hreach, rfl, rfl, by decide, by decide, rfl⟩

end IronSbe.Server
