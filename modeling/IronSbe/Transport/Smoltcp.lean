import Mathlib.Data.List.Perm.Basic
import IronSbe.Lib.Transition
import IronSbe.Transport.Framing

/-!
# The smoltcp stack

`SmoltcpStackInner::poll` drives the interface and then goes through all sessions:
it takes what their sockets have received, cuts it into frames, and hands the
messages that wait in `tx_queue` to the sockets.  The interface and the sockets are
those of the `smoltcp` crate.  Here a socket is what the stack sees of it, and a
round of the interface may change all of that except the bytes that the socket has
already taken over.

* `implements_decodeStep`: the loop body of the receiving side reports the front of
  the decode buffer.
* `pollSessions_spec`: the sessions do not touch each other's sockets.
* `transmit_stream`: what a round sends, if no frame is cut.
* `accepted_of_reach`: a run in which no frame is cut is a faithful byte stream.
-/

namespace IronSbe.Transport.Smoltcp

open Lib.Bytes Lib.Framing Lib.Transition

/-! ## Sockets -/

/-- A `tcp::Socket` as far as the stack sees it. -/
structure Socket where
  active : Bool := false
  /-- What a call of `recv` hands over. -/
  received : List UInt8 := []
  maySend : Bool := false
  /-- Free space in the transmit buffer. -/
  room : Nat := 0
  /-- All bytes that the socket has taken over from `send_slice`, the oldest first. -/
  accepted : List UInt8 := []
  deriving DecidableEq, Repr

namespace Socket

/-- `can_recv`. -/
def canRecv (s : Socket) : Bool := !s.received.isEmpty

/-- The transmit buffer is not full. -/
def canSend (s : Socket) : Bool := s.maySend && decide (0 < s.room)

/-- `recv` with a closure that takes the whole slice. -/
def recv (s : Socket) : List UInt8 × Socket := (s.received, { s with received := [] })

/-- `send_slice`: the number of bytes that fit, and the socket that has taken them. -/
def sendSlice (s : Socket) (data : List UInt8) : Option (Nat × Socket) :=
  if s.maySend then
    let n := min data.length s.room
    some (n, { s with room := s.room - n, accepted := s.accepted ++ data.take n })
  else none

end Socket

/-- What a round of `Interface::poll` leaves in a socket. -/
structure SocketEvent where
  active : Bool
  received : List UInt8
  maySend : Bool
  room : Nat
  deriving DecidableEq, Repr

/-- The socket after the interface has processed its segments. -/
def Socket.update (s : Socket) (e : SocketEvent) : Socket :=
  { s with active := e.active, received := e.received, maySend := e.maySend, room := e.room }

/-! ## Sessions -/

/-- The state of one session.  `rxWaker` says whether a `recv` is parked. -/
structure SessionState where
  handle : Nat
  rxQueue : List (List UInt8) := []
  txQueue : List (List UInt8) := []
  rxWaker : Bool := false
  closed : Bool := false
  deriving DecidableEq, Repr

/-- Mark the session closed and wake its `recv`. -/
def SessionState.close (s : SessionState) : SessionState :=
  { s with closed := true, rxWaker := false }

/-- The body of the loop that cuts the buffer into frames.  A length above the limit
clears the buffer. -/
def decodeStep (maxFrameSize : Nat) (buf : List UInt8) :
    Except Unit (Option (List UInt8)) × List UInt8 :=
  if buf.length < 4 then (.ok none, buf)
  else
    let frameLen := leNat (buf.take 4)
    if maxFrameSize < frameLen then (.error (), [])
    else if buf.length < 4 + frameLen then (.ok none, buf)
    else
      let buf := buf.drop 4
      (.ok (some (buf.take frameLen)), buf.drop frameLen)

/-- A session whose peer has gone is closed. -/
def SessionState.noticeClose (session : SessionState) (sock : Socket) : SessionState :=
  if !sock.active && !session.closed then session.close else session

/-- Take what the socket has received. -/
def Socket.takeReceived (sock : Socket) : List UInt8 × Socket :=
  if sock.canRecv then sock.recv else ([], sock)

/-- Queue the frames that the loop has cut off, and close the session when it has met
a length above the limit. -/
def SessionState.deliver (session : SessionState) (r : Received Unit) : SessionState :=
  let session := { session with rxQueue := session.rxQueue ++ r.frames }
  let session := match r.outcome with
    | .error () => session.close
    | .ok () => session
  if r.frames.isEmpty then session else { session with rxWaker := false }

/-- The receiving half of a round: note that the peer has gone, take what has been
received, cut it into frames. -/
def receive (maxFrameSize : Nat) (sock : Socket) (session : SessionState) (buf : List UInt8) :
    Socket × SessionState × List UInt8 :=
  let session := session.noticeClose sock
  let (bytes, sock) := sock.takeReceived
  let buf := buf ++ bytes
  -- every frame shortens the buffer, so the loop ends within these calls
  match drainWith (decodeStep maxFrameSize) (buf.length + 1) buf with
  | none => (sock, session, buf)
  | some r => (sock, session.deliver r, r.buffer)

/-- The sending half of a round: hand the waiting messages to the socket while it
has room.  The queue moves on whenever `send_slice` takes any part of the frame. -/
def transmit : Socket → List (List UInt8) → Socket × List (List UInt8)
  | sock, [] => (sock, [])
  | sock, msg :: rest =>
    if !sock.canSend then (sock, msg :: rest)
    else if 2 ^ 32 ≤ msg.length then transmit sock rest
    else
      match sock.sendSlice (leBytes 4 msg.length ++ msg) with
      | some (_, sock) => transmit sock rest
      | none => (sock, msg :: rest)

/-- A round for one session. -/
def pollSession (maxFrameSize : Nat) (sock : Socket) (session : SessionState) (buf : List UInt8) :
    Socket × SessionState × List UInt8 :=
  let (sock, session, buf) := receive maxFrameSize sock session buf
  let (sock, txQueue) := transmit sock session.txQueue
  (sock, { session with txQueue := txQueue }, buf)

/-! ## The stack -/

/-- The configuration with its defaults. -/
structure SmoltcpStackConfig where
  localPort : UInt16
  socketBufferSize : Nat := 64 * 1024
  maxSessions : Nat := 64
  maxFrameSize : Nat := 64 * 1024
  deriving DecidableEq, Repr

/-- The error of the stack, without the text of the crate's own error. -/
inductive SmoltcpStackError where
  | listen
  deriving DecidableEq, Repr

/-- The stack behind its lock. -/
structure SmoltcpStackInner where
  config : SmoltcpStackConfig
  sockets : Nat → Socket
  /-- The handle of the next socket that is added. -/
  nextHandle : Nat
  listening : List Nat
  sessions : List SessionState
  pendingAccepts : List Nat
  decodeBuffers : List (List UInt8)

namespace SmoltcpStackInner

/-- `add_listener`.  A socket does not listen on port zero. -/
def addListener (inner : SmoltcpStackInner) :
    Except SmoltcpStackError Nat × SmoltcpStackInner :=
  if inner.config.localPort = 0 then (.error .listen, inner)
  else
    let sock : Socket := { room := inner.config.socketBufferSize }
    (.ok inner.nextHandle,
      { inner with
        sockets := fun h => if h = inner.nextHandle then sock else inner.sockets h
        nextHandle := inner.nextHandle + 1 })

/-- A stack without sockets. -/
def empty (config : SmoltcpStackConfig) : SmoltcpStackInner where
  config := config
  sockets _ := {}
  nextHandle := 0
  listening := []
  sessions := []
  pendingAccepts := []
  decodeBuffers := []

/-- `SmoltcpStack::new`. -/
def new (config : SmoltcpStackConfig) : Except SmoltcpStackError SmoltcpStackInner :=
  match (empty config).addListener with
  | (.error e, _) => .error e
  | (.ok h, inner) => .ok { inner with listening := [h] }

/-- The listening sockets that have a peer, with their places in the list. -/
def toPromote (inner : SmoltcpStackInner) : List (Nat × Nat) :=
  (inner.listening.zipIdx.filter fun p => (inner.sockets p.1).active).map fun p => (p.2, p.1)

/-- Turn a listening socket into a session, without its replacement. -/
def openSession (inner : SmoltcpStackInner) (idx handle : Nat) : SmoltcpStackInner :=
  { inner with
    listening := inner.listening.eraseIdx idx
    sessions := inner.sessions ++ [{ handle := handle }]
    decodeBuffers := inner.decodeBuffers ++ [[]]
    pendingAccepts := inner.pendingAccepts ++ [inner.sessions.length] }

/-- Turn the sockets into sessions, and add a new listener for each as long as the
limit on sessions allows. -/
def promote : List (Nat × Nat) → SmoltcpStackInner →
    Except SmoltcpStackError Unit × SmoltcpStackInner
  | [], inner => (.ok (), inner)
  | (idx, handle) :: rest, inner =>
    let inner := inner.openSession idx handle
    if inner.sessions.length + inner.listening.length < inner.config.maxSessions then
      match inner.addListener with
      | (.error e, inner) => (.error e, inner)
      | (.ok h, inner) => promote rest { inner with listening := inner.listening ++ [h] }
    else promote rest inner

/-- The loop over the sessions with their decode buffers. -/
def pollSessions (maxFrameSize : Nat) : List SessionState → List (List UInt8) → (Nat → Socket) →
    List SessionState × List (List UInt8) × (Nat → Socket)
  | session :: sessions, buf :: bufs, sockets =>
    let r := pollSession maxFrameSize (sockets session.handle) session buf
    let rest := pollSessions maxFrameSize sessions bufs
      fun h => if h = session.handle then r.1 else sockets h
    (r.2.1 :: rest.1, r.2.2 :: rest.2.1, rest.2.2)
  | sessions, bufs, sockets => (sessions, bufs, sockets)

/-- `poll`; `network` is what the interface leaves in every socket. -/
def poll (inner : SmoltcpStackInner) (network : Nat → SocketEvent) :
    Except SmoltcpStackError Unit × SmoltcpStackInner :=
  let inner := { inner with sockets := fun h => (inner.sockets h).update (network h) }
  -- from the back, so that removals do not shift the places
  match promote inner.toPromote.reverse inner with
  | (.error e, inner) => (.error e, inner)
  | (.ok (), inner) =>
    let r := pollSessions inner.config.maxFrameSize inner.sessions inner.decodeBuffers inner.sockets
    (.ok (), { inner with sessions := r.1, decodeBuffers := r.2.1, sockets := r.2.2 })

end SmoltcpStackInner

namespace SmoltcpStackInner

/-- `on_rx`: the index of the session for which a connection is returned. -/
def onRx (inner : SmoltcpStackInner) (network : Nat → SocketEvent) :
    Except SmoltcpStackError (Option Nat) × SmoltcpStackInner :=
  match inner.poll network with
  | (.error e, inner) => (.error e, inner)
  | (.ok (), inner) =>
    (.ok inner.pendingAccepts.head?, { inner with pendingAccepts := inner.pendingAccepts.tail })

/-- `poll_timers`. -/
def pollTimers (inner : SmoltcpStackInner) (network : Nat → SocketEvent) :
    Except SmoltcpStackError Unit × SmoltcpStackInner :=
  inner.poll network

end SmoltcpStackInner

/-! ## Connections -/

/-- The errors of `SmoltcpConnection`. -/
inductive ConnectionError where
  | invalidData (length : Nat)
  | notConnected
  deriving DecidableEq, Repr

/-- The texts of the errors. -/
def ConnectionError.message : ConnectionError → String
  | .invalidData length => "frame length " ++ toString length ++ " exceeds u32::MAX"
  | .notConnected => "session has been dropped"

namespace SmoltcpStackInner

/-- `SmoltcpConnection::send_owned`. -/
def sendOwned (inner : SmoltcpStackInner) (sessionIdx : Nat) (msg : List UInt8) :
    Except ConnectionError Unit × SmoltcpStackInner :=
  if 2 ^ 32 ≤ msg.length then (.error (.invalidData msg.length), inner)
  else
    match inner.sessions[sessionIdx]? with
    | none => (.error .notConnected, inner)
    | some session =>
      (.ok (), { inner with
        sessions := inner.sessions.set sessionIdx
          { session with txQueue := session.txQueue ++ [msg] } })

/-- `SmoltcpConnection::drop`. -/
def dropConnection (inner : SmoltcpStackInner) (sessionIdx : Nat) : SmoltcpStackInner :=
  match inner.sessions[sessionIdx]? with
  | none => inner
  | some session => { inner with sessions := inner.sessions.set sessionIdx session.close }

/-- `SmoltcpRecvFuture::poll`, where `none` is `Poll::Pending`. -/
def pollRecv (inner : SmoltcpStackInner) (sessionIdx : Nat) :
    Option (Except ConnectionError (Option (List UInt8))) × SmoltcpStackInner :=
  match inner.sessions[sessionIdx]? with
  | none => (some (.error .notConnected), inner)
  | some session =>
    match session.rxQueue with
    | frame :: rxQueue =>
      (some (.ok (some frame)),
        { inner with
          sessions := inner.sessions.set sessionIdx { session with rxQueue := rxQueue } })
    | [] =>
      if session.closed then (some (.ok none), inner)
      else
        (none, { inner with
          sessions := inner.sessions.set sessionIdx { session with rxWaker := true } })

end SmoltcpStackInner

/-! ## One session -/

/-- The loop body reports the front of the buffer. -/
theorem implements_decodeStep (maxFrameSize : Nat) :
    Implements maxFrameSize (decodeStep maxFrameSize) := by
  have heq : decodeStep maxFrameSize = takeHead (fun _ _ => ((), [])) maxFrameSize := by
    funext buf
    simp only [decodeStep, takeHead, head, List.drop_drop]
    split_ifs <;> rfl
  rw [heq]
  exact implements_takeHead _ _

@[simp] theorem takeReceived_eq (sock : Socket) :
    sock.takeReceived = (sock.received, { sock with received := [] }) := by
  unfold Socket.takeReceived
  split_ifs with h
  · rfl
  · rw [← (by simpa [Socket.canRecv] using h : sock.received = [])]

/-- What the receiving half does: the loop has ended, and only the receiving side of
the session has changed. -/
theorem receive_eq (maxFrameSize : Nat) (sock : Socket) (session : SessionState)
    (buf : List UInt8) :
    ∃ r, drainWith (decodeStep maxFrameSize) ((buf ++ sock.received).length + 1)
        (buf ++ sock.received) = some r ∧
      receive maxFrameSize sock session buf =
        ({ sock with received := [] }, (session.noticeClose sock).deliver r, r.buffer) := by
  obtain ⟨r, hr, -⟩ := (implements_decodeStep maxFrameSize).drainWith_eq
    (Nat.lt_succ_self (buf ++ sock.received).length)
  refine ⟨r, hr, ?_⟩
  simp only [receive, takeReceived_eq]
  rw [hr]

@[simp] theorem noticeClose_eq (session : SessionState) (sock : Socket) :
    session.noticeClose sock = { session with
      closed := session.closed || !sock.active
      rxWaker := session.rxWaker && (session.closed || sock.active) } := by
  obtain ⟨handle, rxQueue, txQueue, rxWaker, closed⟩ := session
  unfold SessionState.noticeClose
  cases sock.active <;> cases closed <;> simp [SessionState.close]

@[simp] theorem deliver_eq (session : SessionState) (r : Received Unit) :
    session.deliver r = { session with
      rxQueue := session.rxQueue ++ r.frames
      closed := session.closed || !r.outcome.isOk
      rxWaker := session.rxWaker && r.outcome.isOk && r.frames.isEmpty } := by
  unfold SessionState.deliver
  cases r.outcome <;> cases r.frames.isEmpty <;>
    simp [SessionState.close, Except.isOk, Except.toBool]

/-- There is room for the whole of every frame that a round starts with. -/
def Fits : Nat → List (List UInt8) → Prop
  | _, [] => True
  | room, msg :: rest =>
    room = 0 ∨ ((frame msg).length ≤ room ∧ Fits (room - (frame msg).length) rest)

instance decidableFits : (room : Nat) → (queue : List (List UInt8)) → Decidable (Fits room queue)
  | _, [] => inferInstanceAs (Decidable True)
  | room, msg :: rest =>
    have := decidableFits (room - (frame msg).length) rest
    inferInstanceAs (Decidable (room = 0 ∨ ((frame msg).length ≤ room ∧ _)))

open List

variable {sock : Socket}

/-- A socket with room for all of the bytes takes all of them. -/
theorem sendSlice_of_le {data : List UInt8} (hmay : sock.maySend = true)
    (hroom : data.length ≤ sock.room) :
    sock.sendSlice data = some (data.length,
      { sock with room := sock.room - data.length, accepted := sock.accepted ++ data }) := by
  simp [Socket.sendSlice, hmay, Nat.min_eq_left hroom]

/-- When no frame is cut, a byte of the queue is either with the socket or still in the
queue. -/
theorem transmit_stream {queue : List (List UInt8)} (sock : Socket)
    (hsmall : ∀ msg ∈ queue, msg.length < 2 ^ 32)
    (hfits : sock.maySend = true → Fits sock.room queue) :
    (transmit sock queue).1.accepted ++ stream (transmit sock queue).2 =
        sock.accepted ++ stream queue ∧
      (transmit sock queue).2 <:+ queue := by
  induction queue generalizing sock with
  | nil => exact ⟨rfl, suffix_rfl⟩
  | cons msg rest ih =>
    rw [forall_mem_cons] at hsmall
    rw [transmit]
    by_cases hcan : sock.canSend = true
    · obtain ⟨hmay, hroom⟩ : sock.maySend = true ∧ 0 < sock.room := by
        simpa [Socket.canSend] using hcan
      obtain hzero | ⟨hle, hrest⟩ := hfits hmay
      · omega
      have hslice := sendSlice_of_le hmay hle
      rw [frame] at hslice
      rw [hcan, if_neg (by decide), if_neg (Nat.not_le.mpr hsmall.1), hslice]
      obtain ⟨hstream, hsuffix⟩ := ih
        { sock with
          room := sock.room - (frame msg).length, accepted := sock.accepted ++ frame msg }
        hsmall.2 fun _ => hrest
      refine ⟨hstream.trans ?_, hsuffix.trans (suffix_cons msg rest)⟩
      rw [stream_cons, append_assoc]
    · rw [if_pos (by simpa using hcan)]
      exact ⟨rfl, suffix_rfl⟩

/-- The bytes of a session on their way out, with a socket. -/
def outgoingBytes (sock : Socket) (session : SessionState) : List UInt8 :=
  sock.accepted ++ stream session.txQueue

@[simp] theorem pollSession_handle (maxFrameSize : Nat) (sock : Socket) (session : SessionState)
    (buf : List UInt8) :
    (pollSession maxFrameSize sock session buf).2.1.handle = session.handle := by
  obtain ⟨r, -, hr⟩ := receive_eq maxFrameSize sock session buf
  simp [pollSession, hr]

/-- The receiving side of a session after a round. -/
theorem pollSession_received (maxFrameSize : Nat) (sock : Socket) (session : SessionState)
    (buf : List UInt8) :
    ∃ r, drainWith (decodeStep maxFrameSize) ((buf ++ sock.received).length + 1)
        (buf ++ sock.received) = some r ∧
      let round := pollSession maxFrameSize sock session buf
      round.2.1.rxQueue = session.rxQueue ++ r.frames ∧
        round.2.1.closed = (session.closed || !sock.active || !r.outcome.isOk) ∧
        round.2.2 = r.buffer := by
  obtain ⟨r, hdrain, hr⟩ := receive_eq maxFrameSize sock session buf
  refine ⟨r, hdrain, ?_⟩
  simp [pollSession, hr]

/-- A round in which no frame is cut keeps the outgoing bytes of a session. -/
theorem pollSession_outgoing (maxFrameSize : Nat) {session : SessionState} (buf : List UInt8)
    (hsmall : ∀ msg ∈ session.txQueue, msg.length < 2 ^ 32)
    (hfits : sock.maySend = true → Fits sock.room session.txQueue) :
    let r := pollSession maxFrameSize sock session buf
    outgoingBytes r.1 r.2.1 = outgoingBytes sock session ∧ r.2.1.txQueue <:+ session.txQueue := by
  obtain ⟨r, -, hr⟩ := receive_eq maxFrameSize sock session buf
  simp only [pollSession, hr, outgoingBytes, noticeClose_eq, deliver_eq]
  exact transmit_stream { sock with received := [] } hsmall hfits

/-! ## All sessions -/

namespace SmoltcpStackInner

variable {sessions : List SessionState} {i idx handle : Nat} {session session' : SessionState}
  {places : List (Nat × Nat)} {network : Nat → SocketEvent}

/-- Every session has its round with its own socket, and no other socket changes. -/
theorem pollSessions_spec (maxFrameSize : Nat) {bufs : List (List UInt8)} (sockets : Nat → Socket)
    (hlen : bufs.length = sessions.length) (hnodup : (sessions.map (·.handle)).Nodup) :
    let r := pollSessions maxFrameSize sessions bufs sockets
    r.2.1.length = r.1.length ∧ r.1.map (·.handle) = sessions.map (·.handle) ∧
      (∀ h, h ∉ sessions.map (·.handle) → r.2.2 h = sockets h) ∧
      ∀ (i : Nat) session', r.1[i]? = some session' →
        ∃ session buf, sessions[i]? = some session ∧ bufs[i]? = some buf ∧
          pollSession maxFrameSize (sockets session.handle) session buf =
            (r.2.2 session'.handle, session', r.2.1.getD i []) := by
  induction sessions generalizing bufs sockets with
  | nil =>
    obtain rfl := length_eq_zero_iff.mp hlen
    exact ⟨rfl, rfl, fun _ _ => rfl, fun i session' h => absurd h (by simp [pollSessions])⟩
  | cons session sessions ih =>
    obtain _ | ⟨buf, bufs⟩ := bufs
    · exact absurd hlen (by simp)
    rw [map_cons, nodup_cons] at hnodup
    generalize hround : pollSession maxFrameSize (sockets session.handle) session buf = round
    have hhandle : round.2.1.handle = session.handle := by
      rw [← hround, pollSession_handle]
    obtain ⟨hlen', hhandles, hother, heach⟩ :=
      ih (fun h => if h = session.handle then round.1 else sockets h) (Nat.succ.inj hlen) hnodup.2
    simp only [pollSessions, hround]
    refine ⟨congrArg (· + 1) hlen', ?_, ?_, ?_⟩
    · rw [map_cons, map_cons, hhandle, hhandles]
    · intro h hh
      rw [map_cons, mem_cons, not_or] at hh
      rw [hother h hh.2, if_neg hh.1]
    · intro i session' hi
      cases i with
      | zero =>
        obtain rfl : round.2.1 = session' := by simpa using hi
        refine ⟨session, buf, rfl, rfl, hround.trans ?_⟩
        rw [hhandle, hother _ hnodup.1, if_pos rfl]
        rfl
      | succ i =>
        obtain ⟨s, b, hs, hb, hpoll⟩ := heach i session' (by simpa using hi)
        refine ⟨s, b, by simpa using hs, by simpa using hb, ?_⟩
        have hne : s.handle ≠ session.handle := by
          intro he
          exact hnodup.1 (he ▸ mem_map_of_mem (mem_of_getElem? hs))
        rw [if_neg hne] at hpoll
        exact hpoll

/-- The handles in use. -/
def handles (inner : SmoltcpStackInner) : List Nat :=
  inner.listening ++ inner.sessions.map (·.handle)

variable {inner inner' : SmoltcpStackInner}

/-- Every handle is used once, and every session has its decode buffer. -/
structure Shape (inner : SmoltcpStackInner) : Prop where
  nodup : inner.handles.Nodup
  bound : ∀ h ∈ inner.handles, h < inner.nextHandle
  buffers : inner.decodeBuffers.length = inner.sessions.length

/-- The sessions keep their handles. -/
theorem Shape.congr (h : Shape inner) (hlistening : inner'.listening = inner.listening)
    (hsessions : inner'.sessions.map (·.handle) = inner.sessions.map (·.handle))
    (hnext : inner'.nextHandle = inner.nextHandle)
    (hbuffers : inner'.decodeBuffers.length = inner.decodeBuffers.length) : Shape inner' := by
  have hhandles : inner'.handles = inner.handles := by
    rw [handles, handles, hlistening, hsessions]
  have hcount : inner'.sessions.length = inner.sessions.length := by
    simpa using congrArg length hsessions
  constructor
  · rw [hhandles]
    exact h.nodup
  · rw [hhandles, hnext]
    exact h.bound
  · rw [hbuffers, hcount]
    exact h.buffers

/-- A new listener has a handle of its own. -/
theorem Shape.addListener (h : Shape inner) (sockets : Nat → Socket) :
    Shape { inner with
      sockets := sockets, nextHandle := inner.nextHandle + 1
      listening := inner.listening ++ [inner.nextHandle] } := by
  have hperm : (inner.listening ++ [inner.nextHandle] ++ inner.sessions.map (·.handle)).Perm
      (inner.nextHandle :: inner.handles) := by
    rw [append_assoc]
    exact perm_middle
  refine ⟨?_, ?_, h.buffers⟩
  · refine hperm.nodup_iff.mpr (nodup_cons.mpr ⟨fun hmem => ?_, h.nodup⟩)
    exact absurd (h.bound _ hmem) (Nat.lt_irrefl _)
  · intro handle hmem
    rcases mem_cons.mp (hperm.mem_iff.mp hmem) with rfl | hmem
    · exact Nat.lt_succ_self _
    · exact Nat.lt_succ_of_lt (h.bound handle hmem)

/-- A listening socket becomes that of a session. -/
theorem Shape.openSession (h : Shape inner) (hidx : inner.listening[idx]? = some handle) :
    Shape (inner.openSession idx handle) := by
  obtain ⟨hlt, hget⟩ := List.getElem?_eq_some_iff.mp hidx
  have hperm : (inner.openSession idx handle).handles.Perm inner.handles := by
    have herase := getElem_cons_eraseIdx_perm hlt
    rw [hget] at herase
    have hmiddle : (inner.openSession idx handle).handles =
        (inner.listening.eraseIdx idx ++ inner.sessions.map (·.handle)) ++ [handle] := by
      simp [handles, SmoltcpStackInner.openSession]
    rw [hmiddle]
    exact (perm_append_singleton _ _).trans (herase.append_right _)
  refine ⟨hperm.nodup_iff.mpr h.nodup, fun h' hmem => h.bound h' (hperm.mem_iff.mp hmem), ?_⟩
  simp [SmoltcpStackInner.openSession, h.buffers]

/-- The loop over the sessions keeps their handles. -/
theorem Shape.pollSessions (h : Shape inner) (maxFrameSize : Nat) :
    let r := pollSessions maxFrameSize inner.sessions inner.decodeBuffers inner.sockets
    Shape { inner with sessions := r.1, decodeBuffers := r.2.1, sockets := r.2.2 } := by
  intro r
  obtain ⟨hlen, hhandles, -, -⟩ := pollSessions_spec maxFrameSize inner.sockets
    h.buffers (nodup_append.mp h.nodup).2.1
  have hcount : r.1.length = inner.sessions.length := by
    simpa using congrArg length hhandles
  exact h.congr rfl hhandles rfl (hlen.trans (hcount.trans h.buffers.symm))

/-- A session is replaced by one with the same handle. -/
theorem map_handle_set (hi : sessions[i]? = some session)
    (hhandle : session'.handle = session.handle) :
    (sessions.set i session').map (·.handle) = sessions.map (·.handle) := by
  obtain ⟨hlt, hget⟩ := List.getElem?_eq_some_iff.mp hi
  have hself := @List.set_getElem_self _ (sessions.map (·.handle)) i (by simpa using hlt)
  rw [getElem_map, hget] at hself
  rw [map_set, hhandle, hself]

/-- What holds of the stack between its calls, when `sent i` are the messages that
session `i` has accepted. -/
structure Inv (sent : Nat → List (List UInt8)) (inner : SmoltcpStackInner) : Prop where
  nodup : inner.handles.Nodup
  bound : ∀ h ∈ inner.handles, h < inner.nextHandle
  buffers : inner.decodeBuffers.length = inner.sessions.length
  /-- A socket that is not that of a session has taken no bytes. -/
  silent : ∀ h, h ∉ inner.sessions.map (·.handle) → (inner.sockets h).accepted = []
  small : ∀ session ∈ inner.sessions, ∀ msg ∈ session.txQueue, msg.length < 2 ^ 32
  outgoing : ∀ (i : Nat) session, inner.sessions[i]? = some session →
    outgoingBytes (inner.sockets session.handle) session = stream (sent i)
  unsent : ∀ i, inner.sessions.length ≤ i → sent i = []

/-- The next round of the loop over the sessions cuts no frame. -/
def Ready (inner : SmoltcpStackInner) : Prop :=
  ∀ session ∈ inner.sessions, (inner.sockets session.handle).maySend = true →
    Fits (inner.sockets session.handle).room session.txQueue

variable {sent : Nat → List (List UInt8)}

theorem Inv.shape (hinv : Inv sent inner) : Shape inner := ⟨hinv.nodup, hinv.bound, hinv.buffers⟩

/-- A listener is refused before anything changes, or it gets a new socket. -/
theorem addListener_cases (inner : SmoltcpStackInner) :
    (∃ e, inner.addListener = (.error e, inner)) ∨
      ∃ sockets : Nat → Socket, (sockets inner.nextHandle).accepted = [] ∧
        (∀ h, h ≠ inner.nextHandle → sockets h = inner.sockets h) ∧
        inner.addListener = (.ok inner.nextHandle,
          { inner with sockets := sockets, nextHandle := inner.nextHandle + 1 }) := by
  unfold addListener
  split_ifs
  · exact .inl ⟨_, rfl⟩
  · refine .inr ⟨_, ?_, fun h hne => ?_, rfl⟩
    · rw [if_pos rfl]
    · rw [if_neg hne]

/-- A new listener has taken no bytes. -/
theorem Inv.addListener (hinv : Inv sent inner) {sockets : Nat → Socket}
    (hnew : (sockets inner.nextHandle).accepted = [])
    (hold : ∀ h, h ≠ inner.nextHandle → sockets h = inner.sockets h) :
    let armed := { inner with
      sockets := sockets, nextHandle := inner.nextHandle + 1
      listening := inner.listening ++ [inner.nextHandle] }
    Inv sent armed ∧ (inner.Ready → armed.Ready) := by
  have hne : ∀ session ∈ inner.sessions, session.handle ≠ inner.nextHandle := by
    intro session hs
    exact (hinv.bound _ (mem_append_right _ (mem_map_of_mem hs))).ne
  obtain ⟨hnodup, hbound, hbuffers⟩ := hinv.shape.addListener sockets
  refine ⟨⟨hnodup, hbound, hbuffers, ?_, hinv.small, ?_, hinv.unsent⟩, ?_⟩
  · intro h hmem
    by_cases hh : h = inner.nextHandle
    · exact hh ▸ hnew
    · exact (congrArg Socket.accepted (hold h hh)).trans (hinv.silent h hmem)
  · intro i session hi
    show outgoingBytes (sockets session.handle) session = _
    rw [hold _ (hne session (mem_of_getElem? hi))]
    exact hinv.outgoing i session hi
  · intro hready session hs
    show (sockets session.handle).maySend = true → Fits (sockets session.handle).room _
    rw [hold _ (hne session hs)]
    exact hready session hs

/-- A session starts with a socket that has taken no bytes. -/
theorem Inv.openSession (hinv : Inv sent inner) (hidx : inner.listening[idx]? = some handle) :
    Inv sent (inner.openSession idx handle) ∧
      (inner.Ready → (inner.openSession idx handle).Ready) := by
  obtain ⟨hnodup, hbound, hbuffers⟩ := hinv.shape.openSession hidx
  have hfree : handle ∉ inner.sessions.map (·.handle) := by
    intro hmem
    exact (nodup_append.mp hinv.nodup).2.2 _ (mem_of_getElem? hidx) _ hmem rfl
  refine ⟨⟨hnodup, hbound, hbuffers, ?_, ?_, ?_, ?_⟩, ?_⟩
  · intro h hmem
    refine hinv.silent h fun hold => hmem ?_
    simp only [SmoltcpStackInner.openSession, map_append]
    exact mem_append_left _ hold
  · exact forall_mem_append.mpr ⟨hinv.small, forall_mem_singleton.mpr nofun⟩
  · intro i session hi
    rcases Nat.lt_or_ge i inner.sessions.length with hlt | hge
    · refine hinv.outgoing i session ?_
      rwa [SmoltcpStackInner.openSession, getElem?_append_left hlt] at hi
    · -- the new session, with a socket that nobody has used
      rw [SmoltcpStackInner.openSession, getElem?_append_right hge,
        getElem?_singleton] at hi
      split_ifs at hi with hzero
      cases hi
      rw [hinv.unsent i hge, outgoingBytes]
      simpa [SmoltcpStackInner.openSession] using hinv.silent handle hfree
  · intro i hi
    exact hinv.unsent i (by simp [SmoltcpStackInner.openSession] at hi; omega)
  · exact fun hready => forall_mem_append.mpr ⟨hready, forall_mem_singleton.mpr fun _ => trivial⟩

/-- The places of the list are those of the sockets, the last ones first. -/
def Places (inner : SmoltcpStackInner) (places : List (Nat × Nat)) : Prop :=
  places.Pairwise (fun p q => q.1 < p.1) ∧ ∀ p ∈ places, inner.listening[p.1]? = some p.2

theorem places_toPromote (inner : SmoltcpStackInner) : inner.Places inner.toPromote.reverse := by
  constructor
  · rw [pairwise_reverse, toPromote, pairwise_map]
    refine List.Pairwise.filter _ ?_
    have hrange : (inner.listening.zipIdx.map Prod.snd).Pairwise (· < ·) := by
      rw [zipIdx_map_snd]
      exact pairwise_lt_range'
    exact pairwise_map.mp hrange
  · intro p hp
    rw [List.mem_reverse, toPromote, List.mem_map] at hp
    obtain ⟨q, hq, rfl⟩ := hp
    exact List.mem_zipIdx_iff_getElem?.mp (List.mem_of_mem_filter hq)

/-- Removing a later place and adding one at the end leave the earlier places. -/
theorem Places.tail {place : Nat × Nat} (h : inner.Places (place :: places)) (more : List Nat) :
    inner'.listening = inner.listening.eraseIdx place.1 ++ more → inner'.Places places := by
  intro hlistening
  obtain ⟨hlt, hpairs⟩ := pairwise_cons.mp h.1
  refine ⟨hpairs, fun p hp => ?_⟩
  have hget := h.2 p (mem_cons_of_mem _ hp)
  rw [hlistening, getElem?_append_left, getElem?_eraseIdx_of_lt (hlt p hp), hget]
  rw [length_eraseIdx]
  have hplace := (List.getElem?_eq_some_iff.mp (h.2 place List.mem_cons_self)).1
  have := hlt p hp
  split_ifs
  omega

section

variable (hinv : Inv sent inner)
include hinv

theorem Inv.promote (hready : inner.Ready) (hplaces : inner.Places places) :
    Inv sent (promote places inner).2 ∧ (promote places inner).2.Ready := by
  induction places generalizing inner with
  | nil => exact ⟨hinv, hready⟩
  | cons place places ih =>
    obtain ⟨idx, handle⟩ := place
    obtain ⟨hopen, hopenReady⟩ := hinv.openSession (hplaces.2 _ mem_cons_self)
    rw [SmoltcpStackInner.promote]
    split_ifs
    · rcases (inner.openSession idx handle).addListener_cases with
        ⟨e, hadd⟩ | ⟨sockets, hnew, hold, hadd⟩
      · rw [hadd]
        exact ⟨hopen, hopenReady hready⟩
      · rw [hadd]
        obtain ⟨harmed, harmedReady⟩ := hopen.addListener hnew hold
        exact ih harmed (harmedReady (hopenReady hready)) (hplaces.tail _ rfl)
    · exact ih hopen (hopenReady hready) (hplaces.tail [] (by simp [SmoltcpStackInner.openSession]))

/-- What the interface does to the sockets takes no bytes from the stack. -/
theorem Inv.update (network : Nat → SocketEvent) :
    Inv sent { inner with sockets := fun h => (inner.sockets h).update (network h) } :=
  ⟨hinv.nodup, hinv.bound, hinv.buffers, hinv.silent, hinv.small, hinv.outgoing, hinv.unsent⟩

/-- The loop over the sessions. -/
theorem Inv.pollSessions (hready : inner.Ready) (maxFrameSize : Nat) :
    let r := pollSessions maxFrameSize inner.sessions inner.decodeBuffers inner.sockets
    Inv sent { inner with sessions := r.1, decodeBuffers := r.2.1, sockets := r.2.2 } := by
  intro r
  obtain ⟨-, hhandles, hother, heach⟩ := pollSessions_spec maxFrameSize inner.sockets
    hinv.buffers (nodup_append.mp hinv.nodup).2.1
  obtain ⟨hnodup, hbound, hbuffers⟩ := hinv.shape.pollSessions maxFrameSize
  have hround : ∀ (i : Nat) session', r.1[i]? = some session' →
      ∃ session, inner.sessions[i]? = some session ∧
        outgoingBytes (r.2.2 session'.handle) session' =
          outgoingBytes (inner.sockets session.handle) session ∧
        session'.txQueue <:+ session.txQueue := by
    intro i session' hi
    obtain ⟨session, buf, hs, -, hpoll⟩ := heach i session' hi
    have hmem := mem_of_getElem? hs
    have hkept := pollSession_outgoing maxFrameSize buf
      (hinv.small session hmem) (hready session hmem)
    rw [hpoll] at hkept
    exact ⟨session, hs, hkept⟩
  refine ⟨hnodup, hbound, hbuffers, ?_, ?_, ?_, ?_⟩
  · intro h hmem
    have hmem : h ∉ inner.sessions.map (·.handle) := hhandles ▸ hmem
    exact (congrArg Socket.accepted (hother h hmem)).trans (hinv.silent h hmem)
  · intro session' hs msg hmsg
    obtain ⟨i, hi⟩ := mem_iff_getElem?.mp hs
    obtain ⟨session, hsession, -, hsuffix⟩ := hround i session' hi
    exact hinv.small session (mem_of_getElem? hsession) msg (hsuffix.subset hmsg)
  · intro i session' hi
    obtain ⟨session, hsession, hbytes, -⟩ := hround i session' hi
    exact hbytes.trans (hinv.outgoing i session hsession)
  · intro i hi
    have hcount : r.1.length = inner.sessions.length := by
      simpa using congrArg List.length hhandles
    exact hinv.unsent i (hcount ▸ hi)

/-- A round of the stack in which no frame is cut. -/
theorem Inv.poll
    (hfits : ∀ session ∈ inner.sessions, (network session.handle).maySend = true →
      Fits (network session.handle).room session.txQueue) :
    Inv sent (inner.poll network).2 := by
  have hupdate := hinv.update network
  obtain ⟨hpromoted, hready⟩ := hupdate.promote hfits (places_toPromote _)
  unfold SmoltcpStackInner.poll
  generalize hpromote : SmoltcpStackInner.promote _ _ = promoted at hpromoted hready
  simp only [hpromote]
  obtain ⟨result, stack⟩ := promoted
  cases result with
  | error e => exact hpromoted
  | ok _ => exact hpromoted.pollSessions hready _

theorem Inv.onRx
    (hfits : ∀ session ∈ inner.sessions, (network session.handle).maySend = true →
      Fits (network session.handle).room session.txQueue) :
    Inv sent (inner.onRx network).2 := by
  have hpoll := hinv.poll hfits
  unfold SmoltcpStackInner.onRx
  generalize inner.poll network = polled at hpoll
  obtain ⟨result, stack⟩ := polled
  cases result with
  | error e => exact hpoll
  | ok _ =>
    exact ⟨hpoll.nodup, hpoll.bound, hpoll.buffers, hpoll.silent, hpoll.small, hpoll.outgoing,
      hpoll.unsent⟩

/-- One session changes, and accepts the messages `msgs`. -/
theorem Inv.setSession (hi : inner.sessions[i]? = some session)
    (hhandle : session'.handle = session.handle) {msgs : List (List UInt8)}
    (hqueue : session'.txQueue = session.txQueue ++ msgs)
    (hsmall : ∀ msg ∈ msgs, msg.length < 2 ^ 32) :
    Inv (fun j => if j = i then sent j ++ msgs else sent j)
      { inner with sessions := inner.sessions.set i session' } := by
  have hlt := (List.getElem?_eq_some_iff.mp hi).1
  have hhandles := map_handle_set hi hhandle
  obtain ⟨hnodup, hbound, hbuffers⟩ :
      Shape { inner with sessions := inner.sessions.set i session' } :=
    hinv.shape.congr rfl hhandles rfl rfl
  refine ⟨hnodup, hbound, hbuffers, ?_, ?_, ?_, ?_⟩
  · intro h hmem
    exact hinv.silent h (hhandles ▸ hmem)
  · intro s hs msg hmsg
    rcases mem_or_eq_of_mem_set hs with hs | rfl
    · exact hinv.small s hs msg hmsg
    · rw [hqueue, mem_append] at hmsg
      rcases hmsg with hmsg | hmsg
      · exact hinv.small session (mem_of_getElem? hi) msg hmsg
      · exact hsmall msg hmsg
  · intro j s hj
    have hj : (inner.sessions.set i session')[j]? = some s := hj
    by_cases hij : j = i
    · subst hij
      rw [getElem?_set_self hlt] at hj
      cases hj
      have hold := hinv.outgoing j session hi
      rw [outgoingBytes] at hold
      rw [if_pos rfl, outgoingBytes, hhandle, hqueue, stream_append, stream_append, ← hold,
        append_assoc]
    · rw [getElem?_set_ne (Ne.symm hij)] at hj
      rw [if_neg hij]
      exact hinv.outgoing j s hj
  · intro j hj
    rw [length_set] at hj
    rw [if_neg (by omega)]
    exact hinv.unsent j hj

/-- One session changes on its receiving side only. -/
theorem Inv.setReceiver (hi : inner.sessions[i]? = some session)
    (hhandle : session'.handle = session.handle) (hqueue : session'.txQueue = session.txQueue) :
    Inv sent { inner with sessions := inner.sessions.set i session' } := by
  have hset := hinv.setSession hi hhandle (hqueue.trans (append_nil _).symm) (by simp)
  simpa using hset

/-- A message is refused before anything changes, or it goes to the end of the queue. -/
theorem Inv.sendOwned (i : Nat) (msg : List UInt8) :
    match inner.sendOwned i msg with
    | (.error _, inner') => Inv sent inner'
    | (.ok (), inner') => Inv (fun j => if j = i then sent j ++ [msg] else sent j) inner' := by
  unfold SmoltcpStackInner.sendOwned
  split_ifs with hlen
  · exact hinv
  cases hi : inner.sessions[i]? with
  | none => exact hinv
  | some session =>
    have hqueue : SessionState.txQueue { session with txQueue := session.txQueue ++ [msg] } =
        session.txQueue ++ [msg] := rfl
    have hsmall : ∀ m ∈ [msg], m.length < 2 ^ 32 := by
      intro m hm
      rw [mem_singleton.mp hm]
      exact Nat.lt_of_not_le hlen
    exact hinv.setSession hi (by rfl) hqueue hsmall

theorem Inv.dropConnection (i : Nat) :
    Inv sent (inner.dropConnection i) := by
  unfold SmoltcpStackInner.dropConnection
  cases hi : inner.sessions[i]? with
  | none => exact hinv
  | some session => exact hinv.setReceiver hi rfl rfl

theorem Inv.pollRecv (i : Nat) : Inv sent (inner.pollRecv i).2 := by
  unfold SmoltcpStackInner.pollRecv
  cases hi : inner.sessions[i]? with
  | none => exact hinv
  | some session =>
    cases hqueue : session.rxQueue with
    | nil =>
      simp only [hqueue]
      split_ifs
      · exact hinv
      · exact hinv.setReceiver hi rfl rfl
    | cons frame rxQueue =>
      simp only [hqueue]
      exact hinv.setReceiver hi rfl rfl

end

/-- A new stack listens and has no session. -/
theorem inv_new {config : SmoltcpStackConfig} (h : new config = .ok inner) :
    Inv (fun _ => []) inner := by
  have hempty : Inv (fun _ => []) (empty config) :=
    ⟨by simp [handles, empty], by simp [handles, empty], rfl, fun _ _ => rfl, by simp [empty],
      by simp [empty], fun _ _ => rfl⟩
  unfold new at h
  rcases (empty config).addListener_cases with ⟨e, hadd⟩ | ⟨sockets, hnew, hold, hadd⟩
  · rw [hadd] at h
    cases h
  · rw [hadd] at h
    cases h
    exact (hempty.addListener hnew hold).1

end SmoltcpStackInner

/-! ## Runs -/

/-- The stack with its connections. -/
structure World where
  stack : SmoltcpStackInner
  /-- The connections that have been handed out and not been dropped. -/
  connections : List Nat := []
  /-- The messages that `send_owned` has accepted for each session, the oldest first. -/
  sent : Nat → List (List UInt8) := fun _ => []

/-- The calls of the datapath and of the application. -/
inductive Action where
  /-- The datapath hands over a frame. -/
  | onRx (network : Nat → SocketEvent)
  | pollTimers (network : Nat → SocketEvent)
  | sendOwned (sessionIdx : Nat) (msg : List UInt8)
  | pollRecv (sessionIdx : Nat)
  | dropConnection (sessionIdx : Nat)

/-- One call from the datapath or from the application. -/
def step (w : World) : Action → Option World
  | .onRx network =>
    let r := w.stack.onRx network
    match r.1 with
    | .ok (some sessionIdx) =>
      some { w with stack := r.2, connections := w.connections ++ [sessionIdx] }
    | _ => some { w with stack := r.2 }
  | .pollTimers network => some { w with stack := (w.stack.pollTimers network).2 }
  | .sendOwned sessionIdx msg =>
    if sessionIdx ∈ w.connections then
      match w.stack.sendOwned sessionIdx msg with
      | (.error _, stack) => some { w with stack := stack }
      | (.ok (), stack) =>
        some { w with
          stack := stack
          sent := fun i => if i = sessionIdx then w.sent i ++ [msg] else w.sent i }
    else none
  | .pollRecv sessionIdx =>
    if sessionIdx ∈ w.connections then some { w with stack := (w.stack.pollRecv sessionIdx).2 }
    else none
  | .dropConnection sessionIdx =>
    if sessionIdx ∈ w.connections then
      some { w with
        stack := w.stack.dropConnection sessionIdx
        connections := w.connections.erase sessionIdx }
    else none

/-- A round comes only when each session that may send has room for the whole of
every frame that the round starts to send. -/
def WholeFrames (w : World) : Action → Prop
  | .onRx network | .pollTimers network =>
    ∀ session ∈ w.stack.sessions, (network session.handle).maySend = true →
      Fits (network session.handle).room session.txQueue
  | _ => True

instance (w : World) (a : Action) : Decidable (WholeFrames w a) := by
  cases a <;> unfold WholeFrames <;> infer_instance

theorem inv_step {w w' : World} {a : Action} (h : w.stack.Inv w.sent) (ha : WholeFrames w a)
    (hstep : step w a = some w') : w'.stack.Inv w'.sent := by
  cases a with
  | onRx network =>
    have hnext := h.onRx ha
    rw [step] at hstep
    rcases hresult : (w.stack.onRx network).1 with e | _ | sessionIdx
    all_goals
      rw [hresult] at hstep
      cases hstep
      exact hnext
  | pollTimers network =>
    cases hstep
    exact h.poll ha
  | sendOwned sessionIdx msg =>
    rw [step] at hstep
    split_ifs at hstep
    have hnext := h.sendOwned sessionIdx msg
    rcases hsend : w.stack.sendOwned sessionIdx msg with ⟨_ | _, stack⟩
    all_goals
      rw [hsend] at hstep hnext
      cases hstep
      exact hnext
  | pollRecv sessionIdx =>
    obtain ⟨-, rfl⟩ := of_guard hstep
    exact h.pollRecv sessionIdx
  | dropConnection sessionIdx =>
    obtain ⟨-, rfl⟩ := of_guard hstep
    exact h.dropConnection sessionIdx

/-- In a run in which no frame is cut, the bytes that a socket has taken are a prefix of
the stream of the messages accepted for its session. -/
theorem accepted_of_reach {config : SmoltcpStackConfig} {stack : SmoltcpStackInner} {w : World}
    (hnew : SmoltcpStackInner.new config = .ok stack)
    (h : Reach step WholeFrames { stack := stack } w) (i : Nat) (session : SessionState)
    (hi : w.stack.sessions[i]? = some session) :
    (w.stack.sockets session.handle).accepted <+: stream (w.sent i) := by
  have hinv : w.stack.Inv w.sent :=
    h.invariant (fun w => w.stack.Inv w.sent) (SmoltcpStackInner.inv_new hnew)
      fun _ _ _ hs ha hstep => inv_step hs ha hstep
  exact ⟨stream session.txQueue, hinv.outgoing i session hi⟩

/-- A stack with its first listener. -/
def listening (config : SmoltcpStackConfig) : SmoltcpStackInner :=
  { (SmoltcpStackInner.empty config).addListener.2 with listening := [0] }

/-- What the interface reports for an established socket with some room. -/
def established (room : Nat) (_ : Nat) : SocketEvent := ⟨true, [], true, room⟩

/-- Two messages wait for room: the first one goes out alone, the second one later. -/
theorem accepted_of_reach_two :
    ∃ w session, SmoltcpStackInner.new ⟨9000, 64, 4, 64⟩ = .ok (listening ⟨9000, 64, 4, 64⟩) ∧
      Reach step WholeFrames { stack := listening ⟨9000, 64, 4, 64⟩ } w ∧
      w.stack.sessions[0]? = some session ∧
      w.sent 0 = [[7], [8, 9]] ∧
      (w.stack.sockets session.handle).accepted = [1, 0, 0, 0, 7, 2, 0, 0, 0, 8, 9] ∧
      (w.stack.sockets session.handle).accepted <+: stream (w.sent 0) := by
  have hnew : SmoltcpStackInner.new ⟨9000, 64, 4, 64⟩ = .ok (listening ⟨9000, 64, 4, 64⟩) := rfl
  have hreach : Reach step WholeFrames { stack := listening ⟨9000, 64, 4, 64⟩ } _ :=
    reach_of_run [.onRx (established 64), .sendOwned 0 [7], .sendOwned 0 [8, 9],
      .pollTimers (established 0), .pollTimers (established 5), .pollTimers (established 6)] rfl
  exact ⟨_, _, hnew, hreach, rfl, rfl, rfl, accepted_of_reach hnew hreach 0 _ rfl⟩

/-- The socket has room for eight bytes of ten, the rest of the frame is forgotten, and
the next frame follows in its middle. -/
theorem accepted_not_prefix :
    ∃ w session, SmoltcpStackInner.new ⟨9000, 8, 4, 64⟩ = .ok (listening ⟨9000, 8, 4, 64⟩) ∧
      Reach step Anything { stack := listening ⟨9000, 8, 4, 64⟩ } w ∧
      w.stack.sessions[0]? = some session ∧
      w.sent 0 = [[1, 2, 3, 4, 5, 6], [7]] ∧
      ¬ (w.stack.sockets session.handle).accepted <+: stream (w.sent 0) := by
  have hreach : Reach step Anything { stack := listening ⟨9000, 8, 4, 64⟩ } _ :=
    reach_of_run [.onRx (established 8), .sendOwned 0 [1, 2, 3, 4, 5, 6],
      .pollTimers (established 8), .sendOwned 0 [7], .pollTimers (established 8)] rfl
  exact ⟨_, _, rfl, hreach, rfl, rfl, by decide⟩

end IronSbe.Transport.Smoltcp
