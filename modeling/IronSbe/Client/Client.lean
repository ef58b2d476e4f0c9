import IronSbe.Client.Reconnect
import IronSbe.Lib.BoundedQueue
import IronSbe.Lib.Transition

/-!
# The client

`Client::run` connects, runs the connection until it fails, and connects again.  While
it is connected it waits in a `select!` for a message from the server or for a permit
of `cmd_notify`; a permit makes it take commands until the queue is empty.  The
`ClientHandle` puts a command in the queue and then calls `notify_one`, on another
thread.

`Notify` stores at most one permit, so one permit stands for all commands in the queue.
The loop over the commands is left early when `session.send` fails, and then the permit
has been used while commands may be left.

* `moves_of_step`: what one step can do.
* `Inv`: outside the loop over the commands, a queue that is not empty has a permit, or
  a `notify_one` is still to come.
* `woken_of_reach`: so it is, as long as a call of `send` fails only when the queue has
  been taken to its end or is announced again.
-/

namespace IronSbe

open Lib Lib.Transition

namespace Client

/-- The commands of a `ClientHandle`. -/
inductive ClientCommand where
  | send (message : List UInt8)
  | disconnect
  deriving DecidableEq, Repr

/-- The events for the handle. -/
inductive ClientEvent where
  | connected
  | disconnected
  | message (message : List UInt8)
  deriving DecidableEq, Repr

/-- The errors of `run` and of the handle. -/
inductive ClientError where
  | connectTimeout
  | connectionClosed
  | maxReconnectAttempts
  | channel
  | io
  deriving DecidableEq, Repr

/-- The texts of the errors. -/
def ClientError.message : ClientError → String
  | .connectTimeout => "connection timeout"
  | .connectionClosed => "connection closed"
  | .maxReconnectAttempts => "maximum reconnect attempts reached"
  | .channel => "channel error"
  | .io => "IO error"

/-- Where `run` is. -/
inductive Phase where
  | connecting
  /-- In the `select!`. -/
  | selecting
  /-- In the loop over the commands, and there in `session.send`. -/
  | draining
  | sending (message : List UInt8)
  /-- `connect_and_run` has returned an error. -/
  | failed (error : ClientError)
  /-- In the delay before the next attempt. -/
  | sleeping
  | returned (result : Except ClientError Unit)
  deriving DecidableEq, Repr

/-- A message that was handed to the connection with this number. -/
structure Handed where
  connection : Nat
  message : List UInt8
  ok : Bool
  deriving DecidableEq, Repr

end Client

open Client in
/-- The client with its handle. -/
structure Client where
  reconnectState : ReconnectState
  commands : BoundedQueue ClientCommand
  events : BoundedQueue ClientEvent
  phase : Phase := .connecting
  /-- The permits of `cmd_notify` and of `event_notify`. -/
  cmdPermit : Bool := false
  eventPermit : Bool := false
  /-- The command for which the handle has still to call `notify_one`, where `some none`
  is a call that found the queue full. -/
  owed : Option (Option ClientCommand) := none
  /-- How many connections there have been. -/
  connections : Nat := 0
  /-- The messages for which the handle's `send` returned `Ok`, and those handed to a
  connection. -/
  accepted : List (List UInt8) := []
  handed : List Handed := []

namespace Client

/-- `build`. -/
def start (config : ReconnectConfig) (channelCapacity : Nat) : Client where
  reconnectState := .new config
  commands := .empty channelCapacity
  events := .empty channelCapacity

/-- `event_tx.send` with its result ignored, and `notify_one`. -/
def emit (c : Client) (event : ClientEvent) : Client :=
  { c with events := c.events.offer event, eventPermit := true }

/-- `ClientHandle::send` up to `notify_one`. -/
def handleSend (c : Client) (message : List UInt8) : Except ClientError Unit × Client :=
  match c.commands.push? (.send message) with
  | none => (.error .channel, c)
  | some commands =>
    (.ok (), { c with
      commands := commands, owed := some (some (.send message))
      accepted := c.accepted ++ [message] })

/-- `ClientHandle::disconnect` up to `notify_one`, which comes even if the queue is full. -/
def handleDisconnect (c : Client) : Client :=
  match c.commands.push? .disconnect with
  | none => { c with owed := some none }
  | some commands => { c with commands := commands, owed := some (some .disconnect) }

/-- What a message, the end of the stream or an error from `session.recv` does. -/
def received (c : Client) : Except Unit (Option (List UInt8)) → Client
  | .ok (some message) => c.emit (.message message)
  | .ok none => { c with phase := .failed .connectionClosed }
  | .error () => { c with phase := .failed .io }

/-- What `run` does with an error: wait for the next attempt or give up. -/
def retry (c : Client) : Client :=
  let r := c.reconnectState.onFailure
  match r.1 with
  | some _ => { c.emit .disconnected with reconnectState := r.2, phase := .sleeping }
  | none =>
    { c with reconnectState := r.2, phase := .returned (.error .maxReconnectAttempts) }

/-- The next command of the loop. -/
def takeCommand (c : Client) : Client :=
  match c.commands.pop? with
  | none => { c with phase := .selecting }
  | some (.send message, commands) => { c with commands := commands, phase := .sending message }
  | some (.disconnect, commands) => { c with commands := commands, phase := .returned (.ok ()) }

/-- The steps of `run` and the calls of the handle. -/
inductive Action where
  /-- The connection is established, or the attempt fails. -/
  | connect (error : Option ClientError)
  | notified
  | take
  /-- `session.send` returns. -/
  | sent (ok : Bool)
  | recv (result : Except Unit (Option (List UInt8)))
  | retry
  /-- The delay is over. -/
  | wake
  /-- The calls of the handle. -/
  | send (message : List UInt8)
  | disconnect
  | notify
  | pollEvent

/-- One step of `run` or of the handle, which makes one call at a time.  A `notified()` that
is parked in the `select!` is not kept apart from the permit: `notify_one` wakes it with the
permit that it takes, and when the `select!` drops it first, `Notify` keeps the permit. -/
def step (c : Client) : Action → Option Client
  | .connect none =>
    if c.phase = .connecting then
      some { c.emit .connected with
        reconnectState := c.reconnectState.onSuccess
        phase := .selecting
        connections := c.connections + 1 }
    else none
  | .connect (some error) =>
    if c.phase = .connecting then some { c with phase := .failed error } else none
  | .notified =>
    if c.phase = .selecting ∧ c.cmdPermit then
      some { c with cmdPermit := false, phase := .draining }
    else none
  | .take => if c.phase = .draining then some c.takeCommand else none
  | .sent ok =>
    match c.phase with
    | .sending message =>
      some { c with
        phase := if ok then .draining else .failed .io
        handed := c.handed ++ [⟨c.connections, message, ok⟩] }
    | _ => none
  | .recv result => if c.phase = .selecting then some (c.received result) else none
  | .retry =>
    match c.phase with
    | .failed _ => some c.retry
    | _ => none
  | .wake => if c.phase = .sleeping then some { c with phase := .connecting } else none
  | .send message => if c.owed = none then some (c.handleSend message).2 else none
  | .disconnect => if c.owed = none then some c.handleDisconnect else none
  | .notify =>
    match c.owed with
    | some _ => some { c with owed := none, cmdPermit := true }
    | none => none
  | .pollEvent => c.events.pop?.map fun p => { c with events := p.2 }

/-- What a step can do, with the condition under which it does. -/
inductive Moves (c : Client) : Action → Client → Prop
  | connected (hphase : c.phase = .connecting) : Moves c (.connect none) { c.emit .connected with
      reconnectState := c.reconnectState.onSuccess
      phase := .selecting
      connections := c.connections + 1 }
  | refused (error : ClientError) (hphase : c.phase = .connecting) :
      Moves c (.connect (some error)) { c with phase := .failed error }
  | notified (hphase : c.phase = .selecting) (hpermit : c.cmdPermit = true) :
      Moves c .notified { c with cmdPermit := false, phase := .draining }
  | take (hphase : c.phase = .draining) : Moves c .take c.takeCommand
  | sent (ok : Bool) (message : List UInt8) (hphase : c.phase = .sending message) :
      Moves c (.sent ok) { c with
        phase := if ok then .draining else .failed .io
        handed := c.handed ++ [⟨c.connections, message, ok⟩] }
  | recv (result : Except Unit (Option (List UInt8))) (hphase : c.phase = .selecting) :
      Moves c (.recv result) (c.received result)
  | retry (error : ClientError) (hphase : c.phase = .failed error) : Moves c .retry c.retry
  | wake (hphase : c.phase = .sleeping) : Moves c .wake { c with phase := .connecting }
  | send (message : List UInt8) (howed : c.owed = none) :
      Moves c (.send message) (c.handleSend message).2
  | disconnect (howed : c.owed = none) : Moves c .disconnect c.handleDisconnect
  | notify (command : Option ClientCommand) (howed : c.owed = some command) :
      Moves c .notify { c with owed := none, cmdPermit := true }
  | pollEvent (p : ClientEvent × BoundedQueue ClientEvent) (hpop : c.events.pop? = some p) :
      Moves c .pollEvent { c with events := p.2 }

theorem moves_of_step {c c' : Client} {a : Action} (hstep : c.step a = some c') :
    Moves c a c' := by
  cases a with
  | connect error =>
    cases error with
    | none =>
      obtain ⟨hphase, rfl⟩ := of_guard hstep
      exact .connected hphase
    | some error =>
      obtain ⟨hphase, rfl⟩ := of_guard hstep
      exact .refused error hphase
  | notified =>
    obtain ⟨hphase, rfl⟩ := of_guard hstep
    exact .notified hphase.1 hphase.2
  | take =>
    obtain ⟨hphase, rfl⟩ := of_guard hstep
    exact .take hphase
  | sent ok =>
    rw [step] at hstep
    split at hstep
    · rename_i message hphase
      exact Option.some.inj hstep ▸ .sent ok message hphase
    · cases hstep
  | recv result =>
    obtain ⟨hphase, rfl⟩ := of_guard hstep
    exact .recv result hphase
  | retry =>
    rw [step] at hstep
    split at hstep
    · rename_i error hphase
      exact Option.some.inj hstep ▸ .retry error hphase
    · cases hstep
  | wake =>
    obtain ⟨hphase, rfl⟩ := of_guard hstep
    exact .wake hphase
  | send message =>
    obtain ⟨howed, rfl⟩ := of_guard hstep
    exact .send message howed
  | disconnect =>
    obtain ⟨howed, rfl⟩ := of_guard hstep
    exact .disconnect howed
  | notify =>
    rw [step] at hstep
    split at hstep
    · rename_i command howed
      exact Option.some.inj hstep ▸ .notify command howed
    · cases hstep
  | pollEvent =>
    obtain ⟨p, hpop, rfl⟩ := Option.map_eq_some_iff.mp hstep
    exact .pollEvent p hpop

/-! ## Wakeups -/

/-- There is a permit, or the handle has still to call `notify_one` for a command in the
queue. -/
def Woken (c : Client) : Prop :=
  c.cmdPermit = true ∨ ∃ command ∈ c.commands.items, c.owed = some (some command)

instance (c : Client) : Decidable c.Woken := inferInstanceAs (Decidable (_ ∨ _))

/-- The queue is empty, or the loop over the commands will be entered for it. -/
def Announced (c : Client) : Prop := c.commands.items = [] ∨ c.Woken

instance (c : Client) : Decidable c.Announced := inferInstanceAs (Decidable (_ ∨ _))

/-- When `session.send` fails, the commands that are left are announced. -/
def AnnouncedAgain (c : Client) : Action → Prop
  | .sent false => c.Announced
  | _ => True

instance (c : Client) (a : Action) : Decidable (AnnouncedAgain c a) := by
  unfold AnnouncedAgain
  split <;> infer_instance

/-- `run` is not in the loop over the commands, and has not returned. -/
def Phase.Waits : Phase → Prop
  | .connecting | .selecting | .failed _ | .sleeping => True
  | .draining | .sending _ | .returned _ => False

/-- What is in the queue is announced while `run` does not look at it. -/
def Inv (c : Client) : Prop := c.phase.Waits → c.Announced

variable {c c' : Client}

/-- The queue and its announcement do not change. -/
theorem Inv.same (h : Inv c) (hwaits : c'.phase.Waits → c.phase.Waits)
    (hcommands : c'.commands = c.commands) (hpermit : c'.cmdPermit = c.cmdPermit)
    (howed : c'.owed = c.owed) : Inv c' := by
  intro hw
  unfold Announced Woken
  rw [hcommands, hpermit, howed]
  exact h (hwaits hw)

theorem inv_takeCommand (c : Client) : Inv c.takeCommand := by
  unfold takeCommand
  split
  · rename_i hpop
    exact fun _ => .inl (BoundedQueue.items_eq_nil_of_pop? hpop)
  all_goals exact fun hw => hw.elim

theorem Inv.handleSend (h : Inv c) (message : List UInt8) : Inv (c.handleSend message).2 := by
  unfold Client.handleSend
  split
  · exact h
  · rename_i commands hpush
    exact fun _ => .inr (.inr ⟨_, BoundedQueue.mem_items_of_push? hpush, rfl⟩)

/-- A call that finds the queue full finds it announced, as no other call is under way. -/
theorem Inv.handleDisconnect (h : Inv c) (howed : c.owed = none) : Inv c.handleDisconnect := by
  unfold Client.handleDisconnect
  split
  · intro hw
    rcases h hw with hempty | hpermit | ⟨command, -, hnotify⟩
    · exact .inl hempty
    · exact .inr (.inl hpermit)
    · exact absurd (howed.symm.trans hnotify) nofun
  · rename_i commands hpush
    exact fun _ => .inr (.inr ⟨_, BoundedQueue.mem_items_of_push? hpush, rfl⟩)

theorem inv_step {a : Action} (h : Inv c) (ha : AnnouncedAgain c a) (hstep : c.step a = some c') :
    Inv c' := by
  cases moves_of_step hstep with
  | connected hphase | refused _ hphase | wake hphase =>
    exact h.same (fun _ => hphase ▸ trivial) rfl rfl rfl
  | notified => exact fun hw => hw.elim
  | take => exact inv_takeCommand c
  | sent ok message hphase =>
    cases ok with
    | true => exact fun hw => hw.elim
    | false => exact fun _ => ha
  | recv result hphase =>
    rcases result with _ | _ | message
    all_goals exact h.same (fun _ => hphase ▸ trivial) rfl rfl rfl
  | retry error hphase =>
    unfold retry
    dsimp only
    split
    · exact h.same (fun _ => hphase ▸ trivial) rfl rfl rfl
    · exact fun hw => hw.elim
  | send message => exact h.handleSend message
  | disconnect howed => exact h.handleDisconnect howed
  | notify => exact fun _ => .inr (.inl rfl)
  | pollEvent => exact h.same (fun hw => hw) rfl rfl rfl

/-- As long as `session.send` fails only with the rest of the queue announced, a client
that waits in its `select!` with commands in the queue has a permit, or the handle has
still to call `notify_one` for one of them. -/
theorem woken_of_reach {config : ReconnectConfig} {channelCapacity : Nat}
    (h : Reach step AnnouncedAgain (start config channelCapacity) c)
    (hphase : c.phase = .selecting) (hqueue : c.commands.items ≠ []) : c.Woken := by
  have hinv : Inv c :=
    h.invariant Inv (fun _ => .inl rfl) fun _ _ _ hs ha hstep => inv_step hs ha hstep
  exact (hinv (hphase ▸ trivial)).resolve_left hqueue

/-- A connection fails while a message is sent, and the next message has been announced
by the handle in the meantime. -/
theorem woken_of_reach_two :
    ∃ c, Reach step AnnouncedAgain (start {} 4) c ∧ c.phase = .selecting ∧
      c.commands.items = [.send [8]] ∧ c.Woken := by
  have hreach : Reach step AnnouncedAgain (start {} 4) _ :=
    reach_of_run [.connect none, .send [7], .notify, .notified, .take, .send [8], .notify,
      .sent false, .retry, .wake, .connect none] rfl
  exact ⟨_, hreach, rfl, rfl, woken_of_reach hreach rfl nofun⟩

/-- Two messages, one permit: the first one fails, and the second one stays in the queue
of the new connection with nobody to announce it. -/
theorem command_stuck :
    ∃ c, Reach step Anything (start {} 4) c ∧ c.phase = .selecting ∧ c.connections = 2 ∧
      c.commands.items = [.send [8]] ∧ ¬ c.Woken := by
  have hreach : Reach step Anything (start {} 4) _ :=
    reach_of_run [.connect none, .send [7], .notify, .send [8], .notify, .notified, .take,
      .sent false, .retry, .wake, .connect none] rfl
  exact ⟨_, hreach, rfl, rfl, rfl, by decide⟩

end Client

end IronSbe
