import IronSbe.Server.Bookkeeping

/-!
# Outbound routing

Four producers reach the outbound channel of a session: its own responder, which holds
the sender, and `send_to`, `SendTo` and `Broadcast`, which look it up in
`session_senders`.  Entries leave the table while messages are under way.

* `addressedBy`: the messages that a step addresses to a session, by the table before
  the step.
* `routes_step`: a step puts exactly these in the channel, if the channel is open.
* `Routing.routed_of_reach`: over any run, the channel of a session has got exactly what
  was addressed to it, in that order, until `handle_session` returns.

`handle_session` owns the receiving end, so the channel is closed when it returns, while
the task goes on to report the end of the session: see `Routing.refused_after_return`.
-/

namespace IronSbe.Server

open Lib Lib.Transition List

variable {s s' : Server}

/-! ## The table of senders -/

/-- The session of the task at a place is in `session_senders`. -/
def registered (s : Server) (i : Nat) : Bool :=
  (s.tasks[i]?).any fun t => s.sessionSenders.get? t.id = some i

/-- It is there, and has this id. -/
def registeredAs (s : Server) (sessionId i : Nat) : Bool :=
  s.registered i && (s.tasks[i]?).any fun t => t.id = sessionId

/-- Every entry is the sender of a task with that id. -/
def Owned (s : Server) : Prop :=
  ∀ (sessionId i : Nat), s.sessionSenders.get? sessionId = some i →
    ∃ t, s.tasks[i]? = some t ∧ t.id = sessionId

namespace Owned

theorem get?_eq_some_iff (h : Owned s) (sessionId i : Nat) :
    s.sessionSenders.get? sessionId = some i ↔ s.registeredAs sessionId i = true := by
  constructor
  · intro hget
    obtain ⟨t, ht, rfl⟩ := h sessionId i hget
    simp [registeredAs, registered, ht, hget]
  · intro hreg
    obtain ⟨hin, hid⟩ := Bool.and_eq_true_iff.mp hreg
    obtain ⟨t, ht, hsessionId⟩ := (Option.any_eq_true _ _).mp hid
    obtain ⟨u, hu, hget⟩ := (Option.any_eq_true _ _).mp hin
    cases ht.symm.trans hu
    rw [← of_decide_eq_true hsessionId]
    exact of_decide_eq_true hget

theorem exists_get?_iff (h : Owned s) (i : Nat) :
    (∃ sessionId, s.sessionSenders.get? sessionId = some i) ↔ s.registered i = true := by
  constructor
  · rintro ⟨sessionId, hget⟩
    exact (Bool.and_eq_true_iff.mp ((h.get?_eq_some_iff sessionId i).mp hget)).1
  · intro hreg
    obtain ⟨t, -, hget⟩ := (Option.any_eq_true _ _).mp hreg
    exact ⟨t.id, of_decide_eq_true hget⟩

/-- A task has one id, so it has one entry at most. -/
theorem key_unique (h : Owned s) {k k' i : Nat} (hk : s.sessionSenders.get? k = some i)
    (hk' : s.sessionSenders.get? k' = some i) : k = k' := by
  obtain ⟨t, ht, rfl⟩ := h k i hk
  obtain ⟨u, hu, rfl⟩ := h k' i hk'
  cases ht.symm.trans hu
  rfl

end Owned

/-! ## What a step puts in the channels -/

/-- The task is given messages, which it gets if its channel is open.  A channel that is
closed stays so. -/
structure Given (messages : List (List UInt8)) (t t' : Task) : Prop where
  id : t'.id = t.id
  pushed : t'.pushed = t.pushed ++ if t.channelOpen then messages else []
  closed : t'.channelOpen = true → t.channelOpen = true

variable {t t' : Task} {mail : Nat → List (List UInt8)} {i index : Nat} {a : Action}

theorem Given.of_pushed_eq (hid : t'.id = t.id) (hpushed : t'.pushed = t.pushed)
    (hclosed : t'.channelOpen = true → t.channelOpen = true) : Given [] t t' :=
  ⟨hid, by rw [hpushed, ite_self, append_nil], hclosed⟩

theorem Given.push (hopen : t.channelOpen = true) (message : List UInt8) :
    Given [message] t (t.push message) := by
  refine ⟨rfl, ?_, fun _ => hopen⟩
  rw [if_pos hopen, Task.pushed, Task.pushed, append_assoc]
  rfl

/-- A step gives the tasks their messages, a new task has an empty channel, and a new
entry of the table is the sender of a task with that id. -/
structure Routes (mail : Nat → List (List UInt8)) (s s' : Server) : Prop where
  length : s.tasks.length ≤ s'.tasks.length
  task : ∀ (i : Nat) (t' : Task), s'.tasks[i]? = some t' →
    (∃ t, s.tasks[i]? = some t ∧ Given (mail i) t t') ∨ (s.tasks.length ≤ i ∧ t'.pushed = [])
  senders : ∀ (sessionId i : Nat), s'.sessionSenders.get? sessionId = some i →
    s.sessionSenders.get? sessionId = some i ∨ ∃ t', s'.tasks[i]? = some t' ∧ t'.id = sessionId

/-- No entry is added to the table. -/
def NoNewSender (s s' : Server) : Prop :=
  ∀ (sessionId i : Nat), s'.sessionSenders.get? sessionId = some i →
    s.sessionSenders.get? sessionId = some i

theorem Owned.routes (h : Owned s) (hs : Routes mail s s') :
    Owned s' := by
  intro sessionId i hget
  rcases hs.senders sessionId i hget with hbefore | hnew
  · obtain ⟨t, ht, rfl⟩ := h sessionId i hbefore
    have hlt : i < s.tasks.length := (List.getElem?_eq_some_iff.mp ht).1
    have ht' := getElem?_eq_getElem (hlt.trans_le hs.length)
    rcases hs.task i _ ht' with ⟨u, hu, hgiven⟩ | ⟨hle, -⟩
    · cases ht.symm.trans hu
      exact ⟨_, ht', hgiven.id⟩
    · exact absurd hlt (Nat.not_lt.mpr hle)
  · exact hnew

/-- A step that changes each task on its own. -/
theorem Routes.of_map {f : Nat → Task → Task}
    (htasks : ∀ i : Nat, s'.tasks[i]? = (s.tasks[i]?).map (f i))
    (hgiven : ∀ (i : Nat) (t : Task), s.tasks[i]? = some t → Given (mail i) t (f i t))
    (hsenders : NoNewSender s s') : Routes mail s s' := by
  refine ⟨?_, fun i t' ht' => .inl ?_, fun sessionId i hget => .inl (hsenders sessionId i hget)⟩
  · have hnone : s'.tasks[s'.tasks.length]? = none := getElem?_eq_none (Nat.le_refl _)
    rw [htasks, Option.map_eq_none_iff] at hnone
    exact getElem?_eq_none_iff.mp hnone
  · rw [htasks] at ht'
    obtain ⟨t, ht, rfl⟩ := Option.map_eq_some_iff.mp ht'
    exact ⟨t, ht, hgiven i t ht⟩

/-- A message is put in the open channels at some places. -/
theorem Routes.push (message : List UInt8) (places : List Nat)
    (htasks : ∀ i : Nat, s'.tasks[i]? =
      (s.tasks[i]?).map fun t => if i ∈ places then t.push message else t)
    (hopen : ∀ (i : Nat) (t : Task), s.tasks[i]? = some t → i ∈ places → t.channelOpen = true)
    (hmail : ∀ (i : Nat) (t : Task), s.tasks[i]? = some t → t.channelOpen = true →
      mail i = if i ∈ places then [message] else []) (hsenders : NoNewSender s s') :
    Routes mail s s' := by
  refine .of_map htasks (fun i t ht => ?_) hsenders
  by_cases hplace : i ∈ places
  · have htarget := hmail i t ht (hopen i t ht hplace)
    rw [if_pos hplace] at htarget ⊢
    rw [htarget]
    exact .push (hopen i t ht hplace) message
  · rw [if_neg hplace]
    refine ⟨rfl, ?_, fun h => h⟩
    split_ifs with h
    · rw [hmail i t ht h, if_neg hplace, append_nil]
    · rw [append_nil]

/-- A step that leaves the tasks alone and adds nothing to the table. -/
theorem Routes.of_tasks_eq (htasks : s'.tasks = s.tasks)
    (hsenders : NoNewSender s s') : Routes (fun _ => []) s s' :=
  .of_map (f := fun _ t => t) (fun i => by rw [htasks]; simp)
    (fun _ _ _ => .of_pushed_eq rfl rfl fun h => h) hsenders

/-- A task that takes a step of its own. -/
theorem Routes.set (ht : s.tasks[index]? = some t) (htasks : s'.tasks = s.tasks.set index t')
    (hsenders : s'.sessionSenders = s.sessionSenders) (hgiven : Given [] t t') :
    Routes (fun _ => []) s s' := by
  refine .of_map (f := fun i u => if index = i then t' else u) (fun i => ?_) (fun i u hu => ?_)
    fun sessionId i hget => hsenders ▸ hget
  · rw [htasks, List.getElem?_set]
    by_cases hi : index = i
    · subst hi
      simp [(List.getElem?_eq_some_iff.mp ht).1]
    · simp [hi]
  · split_ifs with hi
    · subst hi
      cases ht.symm.trans hu
      exact hgiven
    · exact .of_pushed_eq rfl rfl fun h => h

theorem getElem?_foldl_push (message : List UInt8) {places : List Nat} (hnodup : places.Nodup)
    (tasks : List Task) (i : Nat) :
    (places.foldl (fun tasks task => tasks.modify task (Task.push message)) tasks)[i]? =
      (tasks[i]?).map fun t => if i ∈ places then t.push message else t := by
  induction places generalizing tasks with
  | nil => simp
  | cons place places ih =>
    obtain ⟨hplace, hrest⟩ := nodup_cons.mp hnodup
    rw [foldl_cons, ih hrest, getElem?_modify, Option.map_eq_map, Option.map_map]
    refine congrArg (Option.map · tasks[i]?) (funext fun t => ?_)
    by_cases hi : place = i
    · subst hi
      simp [hplace]
    · simp [hi, Ne.symm hi]

/-! ## The producers -/

theorem channelOpen_of_getElem? (ht : s.tasks[i]? = some t) :
    s.channelOpen i = t.channelOpen := by
  simp [channelOpen, ht]

theorem routes_responderSend (ht : s.tasks[index]? = some t) (hopen : t.channelOpen = true)
    (message : List UInt8) :
    Routes (fun i => if index = i then [message] else []) s (s.responderSend index message).2 := by
  simp only [responderSend, ht, hopen, if_true]
  refine .push message [index] (fun i => ?_) (fun i u hu hi => ?_) (fun i u _ _ => ?_)
    fun _ _ h => h
  · simp only [getElem?_modify, mem_singleton, eq_comm]
    rfl
  · obtain rfl := mem_singleton.mp hi
    cases ht.symm.trans hu
    exact hopen
  · simp only [mem_singleton, eq_comm]

theorem routes_responderSendTo (h : Owned s) (sessionId : Nat) (message : List UInt8) :
    Routes (fun i => if s.registeredAs sessionId i then [message] else []) s
      (s.responderSendTo sessionId message).2 := by
  cases hget : s.sessionSenders.get? sessionId with
  | none =>
    simp only [responderSendTo, hget]
    refine .push message [] (fun i => by simp) nofun (fun i _ _ _ => ?_) fun _ _ h => h
    rw [if_neg (by simp [← h.get?_eq_some_iff, hget])]
    rfl
  | some task =>
    -- the entry is that of one task
    have hmail : ∀ i, s.registeredAs sessionId i = true ↔ i ∈ [task] := by
      intro i
      rw [← h.get?_eq_some_iff, hget, Option.some_inj, mem_singleton, eq_comm]
    simp only [responderSendTo, hget]
    split_ifs with hopen
    · refine .push message [task] (fun i => ?_) (fun i u hu hi => ?_) (fun i u _ _ => ?_)
        fun _ _ h => h
      · simp only [getElem?_modify, mem_singleton, eq_comm]
        rfl
      · rw [← channelOpen_of_getElem? hu, mem_singleton.mp hi]
        exact hopen
      · simp only [hmail]
    · refine .push message [] (fun i => by simp) nofun (fun i u hu hu' => ?_) fun _ _ h => h
      have hne : i ≠ task := by
        rintro rfl
        exact hopen ((channelOpen_of_getElem? hu).trans hu')
      rw [if_neg (by simp [hmail, hne])]
      rfl

/-! ## Commands -/

/-- The messages that a command addresses to the session at a place. -/
def ServerCommand.addressed (s : Server) (i : Nat) : ServerCommand → List (List UInt8)
  | .broadcast message => if s.registered i then [message] else []
  | .sendTo sessionId message => if s.registeredAs sessionId i then [message] else []
  | .shutdown | .closeSession _ => []

theorem routes_broadcast (h : Owned s) (message : List UInt8) :
    Routes (fun i => if s.registered i then [message] else []) s
      (s.handleCommand (.broadcast message)).2 := by
  let live := s.sessionSenders.retain s.channelOpen
  have hlive : ∀ sessionId i, live.get? sessionId = some i ↔
      s.sessionSenders.get? sessionId = some i ∧ s.channelOpen i = true :=
    s.sessionSenders.get?_retain_eq_some_iff s.channelOpen
  have hnodup : live.values.Nodup := SortedMap.nodup_values fun k k' i hk hk' =>
    h.key_unique ((hlive k i).mp hk).1 ((hlive k' i).mp hk').1
  have hmem : ∀ i, i ∈ live.values ↔ s.registered i = true ∧ s.channelOpen i = true := by
    intro i
    rw [SortedMap.mem_values_iff, ← h.exists_get?_iff, ← exists_and_right]
    exact exists_congr fun sessionId => hlive sessionId i
  refine .push message live.values (getElem?_foldl_push message hnodup s.tasks)
    (fun i u hu hi => ?_) (fun i u hu hopen => ?_)
    fun sessionId i hget => ((hlive sessionId i).mp hget).1
  · rw [← channelOpen_of_getElem? hu]
    exact ((hmem i).mp hi).2
  · simp only [hmem, channelOpen_of_getElem? hu, hopen, and_true]

theorem handleCommand_sendTo_tasks (s : Server) (sessionId : Nat) (message : List UInt8) :
    (s.handleCommand (.sendTo sessionId message)).2.tasks =
      (s.responderSendTo sessionId message).2.tasks := by
  rw [handleCommand, responderSendTo]
  cases s.sessionSenders.get? sessionId with
  | none => rfl
  | some task =>
    dsimp only
    split_ifs <;> rfl

theorem noNewSender_erase {sessionId : Nat}
    (hsenders : s'.sessionSenders = s.sessionSenders.erase sessionId) :
    NoNewSender s s' := by
  intro k i hget
  rw [hsenders, SortedMap.get?_erase] at hget
  split_ifs at hget
  exact hget

theorem routes_sendTo (h : Owned s) (sessionId : Nat) (message : List UInt8) :
    Routes (fun i => if s.registeredAs sessionId i then [message] else []) s
      (s.handleCommand (.sendTo sessionId message)).2 := by
  have hroutes := routes_responderSendTo h sessionId message
  have hsenders : NoNewSender s (s.handleCommand (.sendTo sessionId message)).2 := by
    rw [handleCommand]
    split
    · exact fun _ _ h => h
    · split_ifs
      · exact fun _ _ h => h
      · exact noNewSender_erase rfl
  have htasks := handleCommand_sendTo_tasks s sessionId message
  exact ⟨htasks ▸ hroutes.length, htasks ▸ hroutes.task, fun k i hget => .inl (hsenders k i hget)⟩

theorem routes_closeSession (s : Server) (sessionId : Nat) :
    Routes (fun _ => []) s (s.handleCommand (.closeSession sessionId)).2 := by
  have hsenders : NoNewSender s (s.handleCommand (.closeSession sessionId)).2 :=
    noNewSender_erase rfl
  cases hget : s.sessionTokens.get? sessionId with
  | none => exact .of_tasks_eq (by simp only [handleCommand, hget]) hsenders
  | some task =>
    refine .of_map (f := fun i t => if task = i then t.cancel else t) (fun i => ?_)
      (fun i t _ => ?_) hsenders
    · simp only [handleCommand, hget, getElem?_modify]
      rfl
    · split_ifs <;> exact .of_pushed_eq rfl rfl fun h => h

theorem routes_handleCommand (h : Owned s) (command : ServerCommand) :
    Routes (command.addressed s) s (s.handleCommand command).2 := by
  cases command with
  | shutdown => exact .of_tasks_eq rfl nofun
  | closeSession sessionId => exact routes_closeSession s sessionId
  | broadcast message => exact routes_broadcast h message
  | sendTo sessionId message => exact routes_sendTo h sessionId message

/-! ## Steps -/

/-- The messages that a step addresses to the session of the task at a place. -/
def addressedBy (s : Server) (a : Action) (i : Nat) : List (List UInt8) :=
  match a with
  | .task index (.respond message) => if index = i then [message] else []
  | .task _ (.respondTo sessionId message) => if s.registeredAs sessionId i then [message] else []
  | .drain =>
    match s.commands.pop? with
    | some (command, _) => command.addressed s i
    | none => []
  | _ => []

theorem addressedBy_of_not_answers {a : TaskAction} (ha : a.answers = false) (index : Nat) :
    s.addressedBy (.task index a) = fun _ => [] := by
  funext i
  cases a with
  | respond message | respondTo sessionId message => cases ha
  | _ => rfl

theorem routes_stepTask {a : TaskAction} (h : Owned s) (ht : s.tasks[index]? = some t)
    (hstep : s.stepTask index t a = some s') :
    Routes (s.addressedBy (.task index a)) s s' := by
  rcases stepTask_cases hstep with ⟨message, rfl, hphase, rfl⟩ | ⟨sessionId, message, rfl, rfl⟩ |
    hown
  · exact routes_responderSend ht (by rw [Task.channelOpen, hphase]) message
  · exact routes_responderSendTo h sessionId message
  · obtain ⟨t', htasks, hmoved⟩ := hown.task
    rw [addressedBy_of_not_answers hown.answers]
    exact .set ht htasks hown.sessionSenders (.of_pushed_eq hmoved.id hmoved.pushed hmoved.closed)

theorem routes_handleConnection (s : Server) (addr : SocketAddr) :
    Routes (fun _ => []) s (s.handleConnection addr) := by
  unfold handleConnection
  split_ifs
  · exact .of_tasks_eq rfl fun _ _ h => h
  · refine ⟨?_, fun i t' ht' => ?_, fun sessionId i hget => ?_⟩
    · rw [length_append]
      exact Nat.le_add_right _ _
    · rcases Nat.lt_or_ge i s.tasks.length with hlt | hge
      · rw [getElem?_append_left hlt] at ht'
        exact .inl ⟨t', ht', .of_pushed_eq rfl rfl fun h => h⟩
      · rw [getElem?_append_right hge, getElem?_singleton] at ht'
        split_ifs at ht'
        cases ht'
        exact .inr ⟨hge, rfl⟩
    · rw [SortedMap.get?_insert] at hget
      split_ifs at hget with hid
      · cases hget
        exact .inr ⟨_, getElem?_concat_length, hid.symm⟩
      · exact .inl hget

theorem addressedBy_of_idle (h : Idle a s s') : s.addressedBy a = fun _ => [] := by
  funext i
  cases a with
  | task index action => exact absurd rfl (h.noTask index action)
  | drain => rw [addressedBy, h.noCommand rfl]
  | _ => rfl

theorem addressedBy_drain {command : ServerCommand} {commands : BoundedQueue ServerCommand}
    (hpop : s.commands.pop? = some (command, commands)) :
    s.addressedBy .drain = command.addressed s := by
  funext i
  rw [addressedBy, hpop]

theorem routes_step (h : Owned s) (hstep : s.step a = some s') :
    Routes (s.addressedBy a) s s' := by
  rcases step_cases hstep with ⟨addr, rfl, -, rfl⟩ | ⟨command, commands, rfl, -, hpop, rfl⟩ |
    ⟨index, action, t, rfl, ht, htask⟩ | hidle
  · exact routes_handleConnection s addr
  · have hroutes := routes_handleCommand (s := { s with commands := commands }) h command
    rw [addressedBy_drain hpop]
    dsimp only
    split_ifs <;> exact ⟨hroutes.length, hroutes.task, hroutes.senders⟩
  · exact routes_stepTask h ht htask
  · rw [addressedBy_of_idle hidle]
    exact .of_tasks_eq hidle.tasks fun _ _ hget => hidle.sessionSenders ▸ hget

/-- Nothing is addressed to a session that does not exist yet. -/
theorem addressedBy_of_le (hstep : s.step a = some s') (hi : s.tasks.length ≤ i) :
    s.addressedBy a i = [] := by
  have hnone : s.tasks[i]? = none := getElem?_eq_none hi
  have hreg : s.registered i = false := by rw [registered, hnone, Option.any_none]
  have hregAs : ∀ sessionId, s.registeredAs sessionId i = false := fun sessionId => by
    rw [registeredAs, hreg, Bool.false_and]
  unfold addressedBy
  split
  · rename_i index message
    obtain ⟨t, ht, -⟩ := Option.bind_eq_some_iff.mp hstep
    have hlt : index < s.tasks.length := (List.getElem?_eq_some_iff.mp ht).1
    exact if_neg (by omega)
  · simp [hregAs]
  · split
    · rename_i command _ _
      cases command <;> simp [ServerCommand.addressed, hreg, hregAs]
    · rfl
  · rfl

/-! ## Runs -/

/-- A server with what was addressed to each session, by the place of its task and in the
order of the steps. -/
structure Routing where
  server : Server
  addressed : Nat → List (List UInt8) := fun _ => []

namespace Routing

/-- A step, with what it addresses to each session. -/
def step (r : Routing) (a : Action) : Option Routing :=
  (r.server.step a).map fun server =>
    { server := server, addressed := fun i => r.addressed i ++ r.server.addressedBy a i }

/-- A channel has got what was addressed to its session: all of it as long as it is
open, and no more since it was closed. -/
structure Inv (r : Routing) : Prop where
  owned : Owned r.server
  unborn : ∀ i, r.server.tasks.length ≤ i → r.addressed i = []
  pushed : ∀ (i : Nat) (t : Task), r.server.tasks[i]? = some t → t.pushed <+: r.addressed i
  complete : ∀ (i : Nat) (t : Task), r.server.tasks[i]? = some t → t.channelOpen = true →
    t.pushed = r.addressed i

variable {r : Routing}

theorem inv_step {r' : Routing} {a : Action} (h : Inv r) (hstep : r.step a = some r') :
    Inv r' := by
  obtain ⟨server, hserver, rfl⟩ := Option.map_eq_some_iff.mp hstep
  have hroutes := routes_step h.owned hserver
  -- a task that is new has an empty channel, and nothing was addressed to it
  have hnew : ∀ i, r.server.tasks.length ≤ i → r.addressed i ++ r.server.addressedBy a i = [] := by
    intro i hi
    rw [h.unborn i hi, addressedBy_of_le hserver hi, append_nil]
  refine ⟨h.owned.routes hroutes, fun i hi => hnew i (hroutes.length.trans hi), fun i t' ht' => ?_,
    fun i t' ht' hopen' => ?_⟩
  · rcases hroutes.task i t' ht' with ⟨t, ht, hgiven⟩ | ⟨hi, hempty⟩
    · rw [hgiven.pushed]
      split_ifs with hopen
      · exact ⟨[], by rw [h.complete i t ht hopen, append_nil]⟩
      · rw [append_nil]
        exact (h.pushed i t ht).trans (prefix_append _ _)
    · rw [hempty]
      exact nil_prefix
  · rcases hroutes.task i t' ht' with ⟨t, ht, hgiven⟩ | ⟨hi, hempty⟩
    · have hopen := hgiven.closed hopen'
      rw [hgiven.pushed, if_pos hopen, h.complete i t ht hopen]
    · exact hempty.trans (hnew i hi).symm

theorem inv_of_reach {maxConnections channelCapacity : Nat} {addr : SocketAddr}
    (h : Reach step Anything ⟨start maxConnections channelCapacity addr, fun _ => []⟩ r) :
    Inv r := by
  refine h.invariant Inv ⟨fun _ _ hget => ?_, fun _ _ => rfl, fun i t ht => ?_, fun i t ht => ?_⟩
    fun _ _ _ hr _ hstep => inv_step hr hstep
  · cases hget
  · exact absurd ht (by simp [start])
  · exact absurd ht (by simp [start])

/-- Until `handle_session` returns, the channel of a session has got exactly what was
addressed to it, each message once and in order; the connection has got a prefix of
that.  A `send_to` to an unknown id is refused and changes nothing. -/
theorem routed_of_reach {maxConnections channelCapacity : Nat} {addr : SocketAddr} {r : Routing}
    (h : Reach step Anything ⟨start maxConnections channelCapacity addr, fun _ => []⟩ r) :
    (∀ (i : Nat) (t : Task), r.server.tasks[i]? = some t →
      (t.channelOpen = true → t.handed ++ t.outbox = r.addressed i) ∧
        t.handed <+: r.addressed i) ∧
    ∀ (sessionId : Nat) (message : List UInt8), r.server.sessionSenders.get? sessionId = none →
      r.server.responderSendTo sessionId message =
        (.error (.unknownSession sessionId), r.server) := by
  have hinv := inv_of_reach h
  refine ⟨fun i t ht => ⟨hinv.complete i t ht, ?_⟩, fun sessionId message hnone => ?_⟩
  · exact (prefix_append _ _).trans (hinv.pushed i t ht)
  · rw [responderSendTo, hnone]

/-- A frame that holds a header and nothing else. -/
def emptyFrame : List UInt8 := List.replicate 8 0

/-- The second session answers the first one and itself, and the commands reach both. -/
theorem routed_of_reach_two :
    ∃ r, Reach step Anything ⟨start 2 4 localhost, fun _ => []⟩ r ∧
      r.addressed 0 = [[2], [3]] ∧ r.addressed 1 = [[1], [3], [4]] ∧
      (∃ t, r.server.tasks[0]? = some t ∧ t.handed = [[2]] ∧
        t.handed ++ t.outbox = r.addressed 0 ∧ t.handed <+: r.addressed 0) ∧
      r.server.responderSendTo 9 [5] = (.error (.unknownSession 9), r.server) := by
  have hreach : Reach step Anything ⟨start 2 4 localhost, fun _ => []⟩ _ :=
    reach_of_run [.accept localhost, .accept localhost, .task 1 (.recv emptyFrame),
      .task 1 (.respond [1]), .task 1 (.respondTo 1 [2]), .command (.broadcast [3]),
      .command (.sendTo 2 [4]), .notify, .notified, .drain, .drain, .task 0 .takeOut] rfl
  obtain ⟨htasks, hunknown⟩ := routed_of_reach hreach
  obtain ⟨hopen, hhanded⟩ := htasks 0 _ rfl
  exact ⟨_, hreach, rfl, rfl, ⟨_, rfl, rfl, hopen rfl, hhanded⟩, hunknown 9 [5] rfl⟩

/-- The first session has returned from `handle_session` and its task has still to report
the end, so that its sender is in the table and its channel is closed: the answer of the
second session is refused. -/
theorem refused_after_return :
    ∃ r, Reach step Anything ⟨start 2 4 localhost, fun _ => []⟩ r ∧
      r.server.sessionSenders.get? 1 = some 0 ∧
      ∃ t, r.server.tasks[0]? = some t ∧ t.id = 1 ∧ t.phase ≠ .finished ∧
        r.addressed 0 = [[7]] ∧ t.handed ++ t.outbox = [] := by
  have hreach : Reach step Anything ⟨start 2 4 localhost, fun _ => []⟩ _ :=
    reach_of_run [.accept localhost, .accept localhost, .task 0 .fail,
      .task 1 (.recv emptyFrame), .task 1 (.respondTo 1 [7])] rfl
  exact ⟨_, hreach, rfl, _, rfl, rfl, nofun, rfl, rfl⟩

end Routing

end IronSbe.Server
