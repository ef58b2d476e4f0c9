import IronSbe.Core.Header
import IronSbe.Lib.BoundedQueue
import IronSbe.Lib.SortedMap
import IronSbe.Lib.Transition

/-!
# The server

`Server::run` is one loop: it accepts connections and it handles the commands that
wait in a bounded channel when `cmd_notify` has a permit.  Every connection gets a task
of its own, which runs `handle_session` to its end, calls `on_session_end`, and sends
`CloseSession` to the loop.

Three tables are keyed by the session id: the `SessionManager`, the cancellation tokens
and the outbound channels.  A token and a channel belong to the task that they were made
for; here both are the place of that task in the list of all tasks that were ever
spawned.  A child token is cancelled when it is itself cancelled or when the parent is.

`step` is one step of the loop, of a task, or of a `ServerHandle` on another thread.  A
command is taken from the channel and handled in one step, as the loop awaits nothing in
between.
-/

namespace IronSbe

open Lib IronSbe.Core

namespace Server

/-- The address of a peer. -/
structure SocketAddr where
  ip : Nat
  port : UInt16
  deriving DecidableEq, Repr

/-! ## Sessions -/

/-- `Session`, without its time stamps. -/
structure Session where
  id : Nat
  peerAddr : SocketAddr
  deriving DecidableEq, Repr

/-- The sessions by their ids, and the id of the next one. -/
structure SessionManager where
  sessions : SortedMap Nat Session
  nextId : Nat
  deriving DecidableEq

namespace SessionManager

/-- No sessions, and 1 as the first id. -/
def new : SessionManager := ⟨.empty, 1⟩

/-- `create_session`; `fetch_add` wraps around. -/
def createSession (m : SessionManager) (peerAddr : SocketAddr) : Nat × SessionManager :=
  (m.nextId, ⟨m.sessions.insert m.nextId ⟨m.nextId, peerAddr⟩, (m.nextId + 1) % 2 ^ 64⟩)

/-- `close_session`; an id that is not there is no error. -/
def closeSession (m : SessionManager) (sessionId : Nat) : SessionManager :=
  { m with sessions := m.sessions.erase sessionId }

/-- `count`, which `handle_connection` compares with the limit. -/
def count (m : SessionManager) : Nat := m.sessions.size

end SessionManager

/-! ## Tasks -/

/-- The calls of the `MessageHandler` for one session. -/
inductive Callback where
  | onSessionStart
  | onMessage (header : Option MessageHeader) (data : List UInt8)
  | onError (error : String)
  | onSessionEnd
  deriving DecidableEq, Repr

/-- Where the task of a session is. -/
inductive TaskPhase where
  /-- In the `select!` of `handle_session`. -/
  | running
  /-- In `on_message`. -/
  | handling
  /-- In `conn.send`. -/
  | sending
  /-- `handle_session` has returned, and its end of the outbound channel is gone. -/
  | ended
  /-- Behind `on_session_end` and the event. -/
  | reported
  /-- Behind the `try_send` of `CloseSession`. -/
  | closing
  | finished
  deriving DecidableEq, Repr

/-- A task that was spawned for a session. -/
structure Task where
  id : Nat
  phase : TaskPhase := .running
  /-- The session's own token has been cancelled. -/
  cancelled : Bool := false
  /-- What waits in the outbound channel, and what was handed to the connection. -/
  outbox : List (List UInt8) := []
  handed : List (List UInt8) := []
  calls : List Callback := [.onSessionStart]
  deriving DecidableEq, Repr

/-- The receiving end of the outbound channel is alive. -/
def Task.channelOpen (t : Task) : Bool :=
  match t.phase with
  | .running | .handling | .sending => true
  | _ => false

/-- The text for `on_error`. -/
def messageTooShort : String := "Message too short for header"

/-- What `handle_session` does with a received frame: it goes to the handler, with its
header, or it is too short. -/
def Task.receive (data : List UInt8) (t : Task) : Task :=
  if MessageHeader.encodedLength ≤ data.length then
    { t with
      phase := .handling
      calls := t.calls ++ [.onMessage (MessageHeader.wrap data 0) data] }
  else { t with calls := t.calls ++ [.onError messageTooShort] }

/-- Put a message in the outbound channel, which is unbounded. -/
def Task.push (message : List UInt8) (t : Task) : Task :=
  { t with outbox := t.outbox ++ [message] }

/-- Cancel the token of the session. -/
def Task.cancel (t : Task) : Task := { t with cancelled := true }

/-! ## The server -/

/-- The commands of a `ServerHandle`, and `CloseSession` of a task that ends. -/
inductive ServerCommand where
  | shutdown
  | closeSession (sessionId : Nat)
  | broadcast (message : List UInt8)
  | sendTo (sessionId : Nat) (message : List UInt8)
  deriving DecidableEq, Repr

/-- The events that `ServerHandle::poll_event` returns. -/
inductive ServerEvent where
  | listening (addr : SocketAddr)
  | sessionCreated (sessionId : Nat) (addr : SocketAddr)
  | sessionClosed (sessionId : Nat)
  deriving DecidableEq, Repr

/-- Where the loop of `run` is. -/
inductive LoopState where
  | selecting
  /-- Behind a notification, taking commands. -/
  | draining
  | returned
  deriving DecidableEq, Repr

end Server

open Server in
/-- The server with everything that was spawned. -/
structure Server where
  maxConnections : Nat
  commands : BoundedQueue ServerCommand
  events : BoundedQueue ServerEvent
  sessions : SessionManager := .new
  /-- The permit of `cmd_notify`. -/
  permit : Bool := false
  /-- The calls of `notify_one` that the handle has still to make. -/
  owed : Nat := 0
  /-- The parent token has been cancelled. -/
  shutdownToken : Bool := false
  sessionTokens : SortedMap Nat Nat := .empty
  sessionSenders : SortedMap Nat Nat := .empty
  tasks : List Task := []
  loop : LoopState := .selecting
  deriving DecidableEq

namespace Server

/-- `build`, and `run` up to its loop. -/
def start (maxConnections channelCapacity : Nat) (addr : SocketAddr) : Server where
  maxConnections := maxConnections
  commands := .empty channelCapacity
  events := (BoundedQueue.empty channelCapacity).offer (.listening addr)

/-- The channel of the task at a place is open. -/
def channelOpen (s : Server) (task : Nat) : Bool := (s.tasks[task]?).any Task.channelOpen

/-- The token of a task is cancelled, by itself or through the parent. -/
def tokenCancelled (s : Server) (t : Task) : Bool := t.cancelled || s.shutdownToken

/-- `handle_connection`. -/
def handleConnection (s : Server) (addr : SocketAddr) : Server :=
  if s.maxConnections ≤ s.sessions.count then s
  else
    let (sessionId, sessions) := s.sessions.createSession addr
    let task := s.tasks.length
    { s with
      sessions := sessions
      sessionTokens := s.sessionTokens.insert sessionId task
      sessionSenders := s.sessionSenders.insert sessionId task
      events := s.events.offer (.sessionCreated sessionId addr)
      tasks := s.tasks ++ [{ id := sessionId }] }

/-- `handle_command`: whether the loop ends, and the server afterwards. -/
def handleCommand (s : Server) : ServerCommand → Bool × Server
  | .shutdown =>
    (true, { s with shutdownToken := true, sessionTokens := .empty, sessionSenders := .empty })
  | .closeSession sessionId =>
    let tasks := match s.sessionTokens.get? sessionId with
      | some task => s.tasks.modify task Task.cancel
      | none => s.tasks
    (false, { s with
      tasks := tasks
      sessionTokens := s.sessionTokens.erase sessionId
      sessionSenders := s.sessionSenders.erase sessionId
      sessions := s.sessions.closeSession sessionId })
  | .broadcast message =>
    let live := s.sessionSenders.retain s.channelOpen
    (false, { s with
      tasks := live.values.foldl (fun tasks task => tasks.modify task (Task.push message)) s.tasks
      sessionSenders := live })
  | .sendTo sessionId message =>
    match s.sessionSenders.get? sessionId with
    | none => (false, s)
    | some task =>
      if s.channelOpen task then
        (false, { s with tasks := s.tasks.modify task (Task.push message) })
      else (false, { s with sessionSenders := s.sessionSenders.erase sessionId })

/-! ## Responders -/

/-- The errors of a responder. -/
inductive SendError where
  | channelClosed (sessionId : Nat)
  | unknownSession (sessionId : Nat)
  deriving DecidableEq, Repr

/-- The texts of the errors. -/
def SendError.message : SendError → String
  | .channelClosed sessionId => "session " ++ toString sessionId ++ " channel closed"
  | .unknownSession sessionId => "unknown session " ++ toString sessionId

/-- `SessionResponder::send` of the task at a place. -/
def responderSend (s : Server) (task : Nat) (message : List UInt8) :
    Except SendError Unit × Server :=
  match s.tasks[task]? with
  | none => (.ok (), s)
  | some t =>
    if t.channelOpen then (.ok (), { s with tasks := s.tasks.modify task (Task.push message) })
    else (.error (.channelClosed t.id), s)

/-- `SessionResponder::send_to`. -/
def responderSendTo (s : Server) (sessionId : Nat) (message : List UInt8) :
    Except SendError Unit × Server :=
  match s.sessionSenders.get? sessionId with
  | some task =>
    if s.channelOpen task then
      (.ok (), { s with tasks := s.tasks.modify task (Task.push message) })
    else (.error (.channelClosed sessionId), s)
  | none => (.error (.unknownSession sessionId), s)

/-! ## Steps -/

/-- The steps of the task of a session. -/
inductive TaskAction where
  /-- `recv` returns a frame. -/
  | recv (data : List UInt8)
  /-- The handler answers, and returns. -/
  | respond (message : List UInt8)
  | respondTo (sessionId : Nat) (message : List UInt8)
  | handled
  /-- A message is taken from the outbound channel, and has been sent. -/
  | takeOut
  | sent
  /-- `recv` returns `Ok(None)` or an error, or `send` returns an error. -/
  | fail
  /-- The task sees that its token is cancelled. -/
  | cancelled
  /-- The end of the task: `on_session_end` with the event, `CloseSession`, `notify_one`. -/
  | report
  | close
  | notify
  deriving DecidableEq, Repr

/-- The steps of the loop, of the handles and of the tasks. -/
inductive Action where
  /-- The loop: a connection is accepted, a permit is taken, the next command is taken. -/
  | accept (addr : SocketAddr)
  | notified
  | drain
  /-- A handle puts a command in the channel, and notifies. -/
  | command (command : ServerCommand)
  | notify
  | pollEvent
  | task (index : Nat) (action : TaskAction)
  deriving DecidableEq, Repr

/-- A step of the task `t` at a place. -/
def stepTask (s : Server) (index : Nat) (t : Task) : TaskAction → Option Server
  | .recv data =>
    if t.phase = .running then some { s with tasks := s.tasks.set index (t.receive data) }
    else none
  | .respond message =>
    if t.phase = .handling then some (s.responderSend index message).2 else none
  | .respondTo sessionId message =>
    if t.phase = .handling then some (s.responderSendTo sessionId message).2 else none
  | .handled =>
    if t.phase = .handling then
      some { s with tasks := s.tasks.set index { t with phase := .running } }
    else none
  | .takeOut =>
    if t.phase = .running then
      match t.outbox with
      | [] => none
      | message :: outbox =>
        some { s with
          tasks := s.tasks.set index
            { t with phase := .sending, outbox := outbox, handed := t.handed ++ [message] } }
    else none
  | .sent =>
    if t.phase = .sending then
      some { s with tasks := s.tasks.set index { t with phase := .running } }
    else none
  | .fail =>
    if t.phase = .running ∨ t.phase = .sending then
      some { s with tasks := s.tasks.set index { t with phase := .ended } }
    else none
  | .cancelled =>
    if (t.phase = .running ∨ t.phase = .sending) ∧ s.tokenCancelled t then
      some { s with tasks := s.tasks.set index { t with phase := .ended } }
    else none
  | .report =>
    if t.phase = .ended then
      some { s with
        tasks := s.tasks.set index
          { t with phase := .reported, calls := t.calls ++ [.onSessionEnd] }
        events := s.events.offer (.sessionClosed t.id) }
    else none
  | .close =>
    if t.phase = .reported then
      -- the result of `try_send` is ignored
      some { s with
        tasks := s.tasks.set index { t with phase := .closing }
        commands := s.commands.offer (.closeSession t.id) }
    else none
  | .notify =>
    if t.phase = .closing then
      some { s with tasks := s.tasks.set index { t with phase := .finished }, permit := true }
    else none

/-- One step, if it is possible.  A `notified()` that waits takes the permit when it is woken. -/
def step (s : Server) : Action → Option Server
  | .accept addr => if s.loop = .selecting then some (s.handleConnection addr) else none
  | .notified =>
    if s.loop = .selecting ∧ s.permit then some { s with permit := false, loop := .draining }
    else none
  | .drain =>
    if s.loop = .draining then
      match s.commands.pop? with
      | none => some { s with loop := .selecting }
      | some (command, commands) =>
        let r := { s with commands := commands }.handleCommand command
        some (if r.1 then { r.2 with loop := .returned } else r.2)
    else none
  | .command command =>
    some { s with commands := s.commands.offer command, owed := s.owed + 1 }
  | .notify => if 0 < s.owed then some { s with owed := s.owed - 1, permit := true } else none
  | .pollEvent => s.events.pop?.map fun p => { s with events := p.2 }
  | .task index action => (s.tasks[index]?).bind fun t => s.stepTask index t action

end Server

end IronSbe
