import IronSbe.Client.Client
import Mathlib.Data.List.Nodup

/-!
# What the client sends

The messages of the handle go through the command queue into the connections.  `run` may be
called again after it has returned, so a `Delivery` counts its calls and keeps the commands
that were ever queued and taken, each of the latter with the call of `run` that took it.

* `accounts_step`: the one account of a step.  What it takes comes from the front of the
  queue and, if it is a message, goes into `session.send`; what it queues goes to the end.
* `inOrder_of_reach`: the account of a run.
-/

namespace IronSbe.Client

open Lib Lib.Transition List Nat

/-- The messages among the commands. -/
def messages (commands : List ClientCommand) : List (List UInt8) :=
  commands.filterMap fun
    | .send message => some message
    | .disconnect => none

theorem messages_append (commands commands' : List ClientCommand) :
    messages (commands ++ commands') = messages commands ++ messages commands' :=
  filterMap_append

/-- The message in `session.send`. -/
def Phase.inFlight : Phase → List (List UInt8)
  | .sending message => [message]
  | _ => []

theorem Phase.length_inFlight_le (phase : Phase) : phase.inFlight.length ≤ 1 := by
  cases phase <;> simp [inFlight]

/-- There is a connection. -/
def Phase.Connected : Phase → Prop
  | .selecting | .draining | .sending _ => True
  | .connecting | .failed _ | .sleeping | .returned _ => False

/-- `run` has returned. -/
def Phase.Returned : Phase → Prop
  | .returned _ => True
  | _ => False

instance : DecidablePred Phase.Returned
  | .returned _ => isTrue trivial
  | .connecting | .selecting | .draining | .sending _ | .failed _ | .sleeping => isFalse id

/-- The messages for which `session.send` was called, over all connections. -/
def handedOver (c : Client) : List (List UInt8) :=
  c.handed.map Handed.message ++ c.phase.inFlight

/-- The connections on which `session.send` failed, once for each time. -/
def failures (c : Client) : List Nat := (c.handed.filter (!·.ok)).map Handed.connection

/-! ## One step -/

/-- The command that a step puts in the queue. -/
def queuedBy (c : Client) : Action → List ClientCommand
  | .send message => if (c.commands.push? (.send message)).isSome then [.send message] else []
  | .disconnect => if (c.commands.push? .disconnect).isSome then [.disconnect] else []
  | _ => []

/-- The command that a step takes from the queue. -/
def takenBy (c : Client) : Action → List ClientCommand
  | .take => (c.commands.pop?.map Prod.fst).toList
  | _ => []

/-- A step takes at most one command. -/
theorem takenBy_cases (c : Client) (a : Action) :
    takenBy c a = [] ∨ ∃ command, takenBy c a = [command] := by
  cases a with
  | take =>
    rw [takenBy]
    cases c.commands.pop? with
    | none => exact .inl rfl
    | some p => exact .inr ⟨p.1, rfl⟩
  | _ => exact .inl rfl

/-- What a step does with commands, messages and the connection. -/
structure Accounts (c : Client) (a : Action) (c' : Client) : Prop where
  queue : takenBy c a ++ c'.commands.items = c.commands.items ++ queuedBy c a
  accepted : c'.accepted = c.accepted ++ messages (queuedBy c a)
  handedOver : c'.handedOver = c.handedOver ++ messages (takenBy c a)
  /-- Only a call of `run` that has not returned takes commands, and `Disconnect` ends it. -/
  running : takenBy c a ≠ [] → ¬ c.phase.Returned
  returned : c.phase.Returned → c'.phase.Returned
  disconnect : .disconnect ∈ takenBy c a → c'.phase.Returned
  connections : c.connections ≤ c'.connections
  /-- Only a new connection follows one that has ended, and none outlives a failure. -/
  connected : c'.phase.Connected → c.phase.Connected ∨ c.connections < c'.connections
  failures : c'.failures = c.failures ∨
    c'.failures = c.failures ++ [c.connections] ∧ c.phase.Connected ∧
      c'.connections = c.connections ∧ ¬ c'.phase.Connected

variable {c c' : Client}

/-- The commands and the messages are left alone. -/
theorem Accounts.quiet {a : Action} (hqueued : queuedBy c a = []) (htaken : takenBy c a = [])
    (hcommands : c'.commands = c.commands) (haccepted : c'.accepted = c.accepted)
    (hhanded : c'.handed = c.handed) (hflight : c'.phase.inFlight = c.phase.inFlight)
    (hreturned : c.phase.Returned → c'.phase.Returned)
    (hconnections : c.connections ≤ c'.connections)
    (hconnected : c'.phase.Connected → c.phase.Connected ∨ c.connections < c'.connections) :
    Accounts c a c' where
  queue := by rw [hqueued, htaken, hcommands, nil_append, append_nil]
  accepted := by rw [hqueued, haccepted, messages, filterMap_nil, append_nil]
  handedOver := by
    unfold Client.handedOver
    rw [htaken, hhanded, hflight, messages, filterMap_nil, append_nil]
  running := fun h => absurd htaken h
  returned := hreturned
  disconnect := fun h => by rw [htaken] at h; cases h
  connections := hconnections
  connected := hconnected
  failures := .inl (by unfold Client.failures; rw [hhanded])

theorem accounts_takeCommand (hphase : c.phase = .draining) : Accounts c .take c.takeCommand := by
  have hrunning : ¬ c.phase.Returned := by rw [hphase]; exact id
  have hconnected : c.phase.Connected := by rw [hphase]; trivial
  unfold takeCommand
  split
  · rename_i hpop
    have htaken : takenBy c .take = [] := by rw [takenBy, hpop]; rfl
    exact .quiet rfl htaken rfl rfl rfl (by rw [hphase]; rfl) (absurd · hrunning) (le_refl _)
      fun _ => .inl hconnected
  · rename_i message commands hpop
    have htaken : takenBy c .take = [.send message] := by rw [takenBy, hpop]; rfl
    refine ⟨?_, ?_, ?_, fun _ => hrunning, (absurd · hrunning), ?_, le_refl _,
      fun _ => .inl hconnected, .inl rfl⟩
    · rw [htaken, BoundedQueue.items_of_pop? hpop]
      exact (append_nil _).symm
    · exact (append_nil _).symm
    · rw [htaken]
      simp only [handedOver, hphase, Phase.inFlight, append_nil]
      rfl
    · rw [htaken]
      exact fun h => by cases mem_singleton.mp h
  · rename_i commands hpop
    have htaken : takenBy c .take = [.disconnect] := by rw [takenBy, hpop]; rfl
    refine ⟨?_, ?_, ?_, fun _ => hrunning, (absurd · hrunning), fun _ => trivial, le_refl _,
      fun h => h.elim, .inl rfl⟩
    · rw [htaken, BoundedQueue.items_of_pop? hpop]
      exact (append_nil _).symm
    · exact (append_nil _).symm
    · rw [htaken]
      simp only [handedOver, hphase, Phase.inFlight, append_nil]
      exact (append_nil _).symm

/-- `session.send` returns: its message moves to those that were handed over. -/
theorem accounts_sent {message : List UInt8} (hphase : c.phase = .sending message) (ok : Bool) :
    Accounts c (.sent ok) { c with
      phase := if ok then .draining else .failed .io
      handed := c.handed ++ [⟨c.connections, message, ok⟩] } := by
  have hrunning : ¬ c.phase.Returned := by rw [hphase]; exact id
  have hconnected : c.phase.Connected := by rw [hphase]; trivial
  refine ⟨(append_nil _).symm, (append_nil _).symm, ?_, fun _ => hrunning,
    (absurd · hrunning), nofun, le_refl _, fun _ => .inl hconnected, ?_⟩
  · cases ok <;> simp [handedOver, hphase, Phase.inFlight, takenBy, messages]
  · cases ok with
    | true => exact .inl (by simp [failures])
    | false => exact .inr ⟨by simp [failures], hconnected, rfl, id⟩

/-- A command that the handle has put in the queue. -/
theorem accounts_push {a : Action} {command : ClientCommand} {commands : BoundedQueue ClientCommand}
    (hqueued : queuedBy c a = [command]) (htaken : takenBy c a = [])
    (hpush : c.commands.push? command = some commands) (owed : Option (Option ClientCommand)) :
    Accounts c a { c with
      commands := commands, owed := owed, accepted := c.accepted ++ messages [command] } where
  queue := by
    rw [hqueued, htaken]
    exact BoundedQueue.items_of_push? hpush
  accepted := by rw [hqueued]
  handedOver := by
    rw [htaken]
    exact (append_nil _).symm
  running := fun h => absurd htaken h
  returned := id
  disconnect := fun h => by rw [htaken] at h; cases h
  connections := le_refl _
  connected := .inl
  failures := .inl rfl

theorem accounts_handleSend (c : Client) (message : List UInt8) :
    Accounts c (.send message) (c.handleSend message).2 := by
  unfold handleSend
  split
  · rename_i hpush
    have hqueued : queuedBy c (.send message) = [] := by rw [queuedBy, hpush]; rfl
    exact .quiet hqueued rfl rfl rfl rfl rfl id (le_refl _) .inl
  · rename_i commands hpush
    have hqueued : queuedBy c (.send message) = [.send message] := by rw [queuedBy, hpush]; rfl
    exact accounts_push hqueued rfl hpush _

theorem accounts_handleDisconnect (c : Client) : Accounts c .disconnect c.handleDisconnect := by
  unfold handleDisconnect
  split
  · rename_i hpush
    have hqueued : queuedBy c .disconnect = [] := by rw [queuedBy, hpush]; rfl
    exact .quiet hqueued rfl rfl rfl rfl rfl id (le_refl _) .inl
  · rename_i commands hpush
    have hqueued : queuedBy c .disconnect = [.disconnect] := by rw [queuedBy, hpush]; rfl
    have haccounts := accounts_push hqueued rfl hpush (some (some .disconnect))
    rwa [show messages [.disconnect] = [] from rfl, append_nil] at haccounts

theorem accounts_step {a : Action} (hstep : c.step a = some c') : Accounts c a c' := by
  cases moves_of_step hstep with
  | connected hphase =>
    exact .quiet rfl rfl rfl rfl rfl (by rw [hphase]; rfl) (by rw [hphase]; exact False.elim)
      (le_succ _) fun _ => .inr (lt_succ_self _)
  | refused _ hphase | wake hphase =>
    exact .quiet rfl rfl rfl rfl rfl (by rw [hphase]; rfl) (by rw [hphase]; exact False.elim)
      (le_refl _) fun h => h.elim
  | notified hphase =>
    exact .quiet rfl rfl rfl rfl rfl (by rw [hphase]; rfl) (by rw [hphase]; exact False.elim)
      (le_refl _) fun _ => .inl (hphase ▸ trivial)
  | take hphase => exact accounts_takeCommand hphase
  | sent ok message hphase => exact accounts_sent hphase ok
  | recv result hphase =>
    rcases result with _ | _ | message
    all_goals
      exact .quiet rfl rfl rfl rfl rfl (by simp [received, emit, hphase, Phase.inFlight])
        (by rw [hphase]; exact False.elim) (le_refl _) fun _ => .inl (hphase ▸ trivial)
  | retry error hphase =>
    have hrunning : ¬ c.phase.Returned := by rw [hphase]; exact id
    unfold retry
    dsimp only
    split
    all_goals
      exact .quiet rfl rfl rfl rfl rfl (by rw [hphase]; rfl) (absurd · hrunning) (le_refl _)
        fun h => h.elim
  | send message => exact accounts_handleSend c message
  | disconnect => exact accounts_handleDisconnect c
  | notify | pollEvent => exact .quiet rfl rfl rfl rfl rfl rfl id (le_refl _) .inl

end IronSbe.Client

/-! ## Any number of calls of `run` -/

namespace IronSbe

open Lib Lib.Transition Client List Nat

/-- The client with the calls of `run` and the way of the commands. -/
structure Delivery where
  client : Client
  /-- The number of the last call of `run`. -/
  call : Nat := 0
  /-- The commands that were ever put in the queue, and those that were taken from it, each
  with the call of `run` that took it. -/
  queued : List ClientCommand := []
  taken : List (Nat × ClientCommand) := []

namespace Delivery

/-- A new client, with nothing queued. -/
def start (config : ReconnectConfig) (channelCapacity : Nat) : Delivery where
  client := .start config channelCapacity

/-- A step of the client, or another call of `run`. -/
inductive Action where
  | client (a : Client.Action)
  /-- `run` is called again. -/
  | run

/-- A step, with its commands in the histories. -/
def step (w : Delivery) : Action → Option Delivery
  | .client a =>
    (w.client.step a).map fun c => { w with
      client := c
      queued := w.queued ++ w.client.queuedBy a
      taken := w.taken ++ (w.client.takenBy a).map fun command => (w.call, command) }
  | .run =>
    if w.client.phase.Returned then
      some { w with client := { w.client with phase := .connecting }, call := w.call + 1 }
    else none

/-- Where the commands and the messages are, and which calls and connections are over. -/
structure InOrder (w : Delivery) : Prop where
  queue : w.queued = w.taken.map Prod.snd ++ w.client.commands.items
  accepted : w.client.accepted = messages w.queued
  handedOver : w.client.handedOver = messages (w.taken.map Prod.snd)
  calls : ∀ x ∈ w.taken, x.1 ≤ w.call
  /-- A call of `run` that has taken a `Disconnect` has returned. -/
  disconnected : ∀ x ∈ w.taken, x.2 = .disconnect → x.1 = w.call → w.client.phase.Returned
  pairwise : w.taken.Pairwise fun x y => x.2 = .disconnect → x.1 < y.1
  connections : ∀ n ∈ w.client.failures, n ≤ w.client.connections
  /-- A connection on which `session.send` has failed has ended. -/
  ended : w.client.connections ∈ w.client.failures → ¬ w.client.phase.Connected
  nodup : w.client.failures.Nodup

variable {w w' : Delivery}

theorem inOrder_start (config : ReconnectConfig) (channelCapacity : Nat) :
    InOrder (start config channelCapacity) where
  queue := rfl
  accepted := rfl
  handedOver := rfl
  calls := fun _ h => nomatch h
  disconnected := fun _ h => nomatch h
  pairwise := .nil
  connections := fun _ h => nomatch h
  ended := fun h => nomatch h
  nodup := .nil

theorem InOrder.client (h : InOrder w) {a : Client.Action} {c : Client}
    (hstep : w.client.step a = some c) :
    InOrder { w with
      client := c
      queued := w.queued ++ w.client.queuedBy a
      taken := w.taken ++ (w.client.takenBy a).map fun command => (w.call, command) } := by
  have haccounts := accounts_step hstep
  have hsnd : ((w.client.takenBy a).map fun command => (w.call, command)).map Prod.snd =
      w.client.takenBy a := by
    rw [map_map]
    exact map_id _
  constructor
  case queue =>
    rw [map_append, hsnd, append_assoc, haccounts.queue, h.queue, append_assoc]
  case accepted =>
    rw [haccounts.accepted, h.accepted, messages_append]
  case handedOver =>
    rw [haccounts.handedOver, h.handedOver, map_append, hsnd, messages_append]
  case calls =>
    intro x hx
    rcases mem_append.mp hx with hx | hx
    · exact h.calls x hx
    · obtain ⟨command, -, rfl⟩ := mem_map.mp hx
      exact le_refl _
  case disconnected =>
    intro x hx hdisconnect hcall
    rcases mem_append.mp hx with hx | hx
    · exact haccounts.returned (h.disconnected x hx hdisconnect hcall)
    · obtain ⟨command, hcommand, rfl⟩ := mem_map.mp hx
      exact haccounts.disconnect (hdisconnect ▸ hcommand)
  case pairwise =>
    refine pairwise_append.mpr ⟨h.pairwise, ?_, ?_⟩
    · obtain htaken | ⟨command, htaken⟩ := takenBy_cases w.client a
      · rw [htaken]
        exact .nil
      · rw [htaken]
        exact pairwise_singleton _ _
    · intro x hx y hy hdisconnect
      obtain ⟨command, hcommand, rfl⟩ := mem_map.mp hy
      have hne : x.1 ≠ w.call := fun hcall =>
        haccounts.running (ne_nil_of_mem hcommand) (h.disconnected x hx hdisconnect hcall)
      exact lt_of_le_of_ne (h.calls x hx) hne
  case connections =>
    have hold := fun n hn => le_trans (h.connections n hn) haccounts.connections
    rcases haccounts.failures with hsame | ⟨hmore, -, -, -⟩
    · rw [hsame]
      exact hold
    · rw [hmore]
      exact forall_mem_append.mpr ⟨hold, forall_mem_singleton.mpr haccounts.connections⟩
  case ended =>
    intro hmem hconnected
    rcases haccounts.failures with hsame | ⟨-, -, -, hended⟩
    · rw [hsame] at hmem
      have hle : c.connections ≤ w.client.connections := h.connections _ hmem
      have heq : c.connections = w.client.connections := le_antisymm hle haccounts.connections
      rcases haccounts.connected hconnected with hbefore | hlt
      · exact h.ended (heq ▸ hmem) hbefore
      · omega
    · exact hended hconnected
  case nodup =>
    rcases haccounts.failures with hsame | ⟨hmore, hconnected, -, -⟩
    · rw [hsame]
      exact h.nodup
    · rw [hmore]
      refine nodup_append'.mpr ⟨h.nodup, nodup_singleton _, ?_⟩
      rw [disjoint_singleton]
      exact fun hmem => h.ended hmem hconnected

theorem InOrder.run (h : InOrder w) (hreturned : w.client.phase.Returned) :
    InOrder { w with client := { w.client with phase := .connecting }, call := w.call + 1 } where
  queue := h.queue
  accepted := h.accepted
  handedOver := by
    rw [← h.handedOver]
    cases hphase : w.client.phase with
    | returned result => simp [Client.handedOver, hphase, Phase.inFlight]
    | _ => rw [hphase] at hreturned; exact hreturned.elim
  calls := fun x hx => le_trans (h.calls x hx) (le_succ _)
  disconnected := by
    intro x hx _ hcall
    have hle := h.calls x hx
    dsimp only at hcall
    omega
  pairwise := h.pairwise
  connections := h.connections
  ended := fun _ => id
  nodup := h.nodup

theorem inOrder_step {a : Action} (h : InOrder w) (hstep : w.step a = some w') : InOrder w' := by
  cases a with
  | client a =>
    obtain ⟨c, hc, rfl⟩ := Option.map_eq_some_iff.mp hstep
    exact h.client hc
  | run =>
    obtain ⟨hreturned, rfl⟩ := of_guard hstep
    exact h.run hreturned

theorem inOrder_of_reach {config : ReconnectConfig} {channelCapacity : Nat}
    (h : Reach step Anything (start config channelCapacity) w) : InOrder w :=
  h.invariant InOrder (inOrder_start config channelCapacity) fun _ _ _ hi _ hs => inOrder_step hi hs

/-- In every run, with any calls of the handle and any failures:

* the messages that were handed to the connections, one connection after the other, are the
  first ones of those that the handle accepted, in that order;
* for each of them but the last, `session.send` has returned, and at most once for each
  connection with an error;
* they are the messages among the commands taken, which are the first ones queued, and a call
  of `run` takes none behind a `Disconnect`. -/
theorem handedOver_in_order {config : ReconnectConfig} {channelCapacity : Nat}
    (h : Reach step Anything (start config channelCapacity) w) :
    w.client.handedOver <+: w.client.accepted ∧
      (∀ i, i + 1 < w.client.handedOver.length →
        ∃ x, w.client.handed[i]? = some x ∧ w.client.accepted[i]? = some x.message) ∧
      ((w.client.handed.filter (!·.ok)).map Handed.connection).Nodup ∧
      w.taken.map Prod.snd <+: w.queued ∧
      w.client.handedOver = messages (w.taken.map Prod.snd) ∧
      w.taken.Pairwise fun x y => x.2 = .disconnect → x.1 < y.1 := by
  have hi := inOrder_of_reach h
  have hfirst : w.client.handedOver <+: w.client.accepted := by
    rw [hi.handedOver, hi.accepted, hi.queue, messages_append]
    exact prefix_append _ _
  refine ⟨hfirst, ?_, hi.nodup, ⟨_, hi.queue.symm⟩, hi.handedOver, hi.pairwise⟩
  intro i hlast
  have hflight := w.client.phase.length_inFlight_le
  have hi : i < w.client.handed.length := by
    rw [Client.handedOver, length_append, length_map] at hlast
    omega
  obtain ⟨rest, hrest⟩ := hfirst
  refine ⟨_, getElem?_eq_getElem hi, ?_⟩
  rw [← hrest, Client.handedOver, append_assoc,
    getElem?_append_left (by rwa [length_map]), getElem?_map,
    getElem?_eq_getElem hi]
  rfl

/-- The first message fails with the first connection, the second one is sent by the next
connection, which a `Disconnect` ends; the third one is sent by the second call of `run`. -/
theorem handedOver_in_order_three :
    ∃ w, Reach step Anything (start {} 4) w ∧
      w.client.handed = [⟨1, [7], false⟩, ⟨2, [8], true⟩, ⟨3, [9], true⟩] ∧
      w.taken = [(0, .send [7]), (0, .send [8]), (0, .disconnect), (1, .send [9])] ∧
      w.client.handedOver <+: w.client.accepted := by
  have hreach : Reach step Anything (start {} 4) _ :=
    reach_of_run ([.connect none, .send [7], .notify, .notified, .take, .send [8], .notify,
      .sent false, .retry, .wake, .connect none, .disconnect, .notify, .send [9], .notified, .take,
      .sent true, .take].map .client ++ .run ::
      [.connect none, .notify, .notified, .take, .sent true].map .client) rfl
  exact ⟨_, hreach, rfl, rfl, (handedOver_in_order hreach).1⟩

end Delivery

end IronSbe
