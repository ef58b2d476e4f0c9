import IronSbe.Transport.Smoltcp.Round

/-!
# The life of a smoltcp session

A session starts when a listening socket gets a peer.  It ends when the peer closes, when
the peer sends a length above the limit, or when the application drops the connection.
The stack finds out about the peer through `is_active` alone, never calls `close` or
`abort` on a socket, and never removes a session.

The state machine of the sockets belongs to the `smoltcp` crate.  `Tcp` lists what is
assumed of it, and `Life` is the stack together with the states of its sockets.

* `Life.inv_step`: a listening socket is in LISTEN, and a session that is not marked
  closed has a socket whose own end is open.
* `Life.listener_armed_iff`: a slot is free for a new peer only as long as it has never
  been used.
* `Life.close_propagates_iff`: the end of a connection passes from one side to the other
  only through a reset, a timeout or a refused length.
-/

namespace IronSbe.Transport.Smoltcp

open Lib.Bytes Lib.Framing Lib.Transition SmoltcpStackInner Option

/-! ## Sockets as state machines -/

/-- The states of a `tcp::Socket`. -/
inductive TcpState where
  | closed
  | listen
  | synSent
  | synReceived
  | established
  | finWait1
  | finWait2
  | closeWait
  | closing
  | lastAck
  | timeWait
  deriving DecidableEq, Repr

/-- `tcp::Socket::is_active`. -/
def TcpState.isActive : TcpState → Bool
  | .closed | .listen | .timeWait => false
  | _ => true

/-- There is a peer, and it has not been told the end of the stream. -/
def TcpState.isOpen : TcpState → Bool
  | .synReceived | .established | .closeWait => true
  | _ => false

/-- What the interface makes of the traffic for a socket in one round. -/
inductive TcpEvent where
  | quiet
  | syn
  /-- An acknowledgement, with or without data. -/
  | segment
  | fin
  | reset
  | timeout
  deriving DecidableEq, Repr

/-- The connection is gone, whatever the two ends want. -/
def TcpEvent.cuts : TcpEvent → Bool
  | .reset | .timeout => true
  | _ => false

/-- The sockets of the crate, as long as nobody calls `close` or `abort`. -/
structure Tcp where
  next : TcpState → TcpEvent → TcpState
  /-- A listening socket waits for a SYN. -/
  listen : ∀ e, next .listen e = .listen ∨ next .listen e = .synReceived
  /-- The end of the peer's stream. -/
  fin : ∀ s, s.isOpen = true → next s .fin = .closeWait
  /-- Only the own side ends a connection whose peer has closed. -/
  closeWait : ∀ e, e.cuts = false → next .closeWait e = .closeWait
  /-- An end that is open is not closed by the traffic. -/
  isOpen : ∀ s e, s.isOpen = true → e.cuts = false → (next s e).isOpen = true
  /-- A connection that is cut is given up.  A reset in SYN-RECEIVED leads back to LISTEN. -/
  cut : ∀ s e, s.isOpen = true → e.cuts = true → next s e = .closed ∨ next s e = .listen

/-- The states that a listening socket goes through when it is left alone. -/
def Tcp.passive : Tcp where
  next
    | .listen, .syn => .synReceived
    | .synReceived, .segment => .established
    | .synReceived, .fin | .established, .fin => .closeWait
    | .synReceived, .reset => .listen
    | .established, .reset | .closeWait, .reset => .closed
    | .synReceived, .timeout | .established, .timeout | .closeWait, .timeout => .closed
    | s, _ => s
  listen e := by cases e <;> decide
  fin s := by cases s <;> decide
  closeWait e := by cases e <;> decide
  isOpen s e := by cases s <;> cases e <;> decide
  cut s e := by cases s <;> cases e <;> decide

/-! ## The stack with the states of its sockets -/

/-- Let the interface report which sockets are active. -/
def Action.withActive (active : Nat → Bool) : Action → Action
  | .onRx network => .onRx fun h => { network h with active := active h }
  | .pollTimers network => .pollTimers fun h => { network h with active := active h }
  | a => a

/-- A call, with what happens to the sockets in it. -/
structure Input where
  action : Action
  events : Nat → TcpEvent := fun _ => .quiet

/-- The socket is reset or times out in this call. -/
def Input.Cuts (x : Input) (handle : Nat) : Prop :=
  x.action.network?.isSome = true ∧ (x.events handle).cuts = true

/-- The stack with the TCP states of its sockets. -/
structure Life where
  world : World
  /-- The state of each socket.  Those that are not there yet will start in LISTEN. -/
  tcp : Nat → TcpState := fun _ => .listen
  /-- The sockets that have processed the FIN of their peer. -/
  fins : Nat → Bool := fun _ => false
  /-- The number of peers that have connected. -/
  accepted : Nat := 0
  /-- The sessions whose connection the application has dropped. -/
  dropped : List Nat := []

variable {i : Nat} {session session' : SessionState} {a : Action}

theorem Called.unparked (h : Called i session a session') (hunparked : session.Unparked) :
    session'.Unparked := by
  cases h with
  | send _ | recv _ => exact hunparked
  | park _ hopen => exact fun hclosed => absurd (hclosed.symm.trans hopen) nofun
  | drop => exact fun _ => rfl

theorem Called.closed (h : Called i session a session') (hopen : session'.closed = false) :
    session.closed = false := by
  cases h with
  | send _ | recv _ | park _ _ => exact hopen
  | drop => cases hopen

namespace Life

/-- The state of a socket after its part of a round. -/
def next (tcp : Tcp) (l : Life) (x : Input) (h : Nat) : TcpState := tcp.next (l.tcp h) (x.events h)

/-- The call, with the sockets that are active in it. -/
def call (tcp : Tcp) (l : Life) (x : Input) : Action :=
  x.action.withActive fun h => (l.next tcp x h).isActive

/-- A step, with the TCP states after it. -/
def step (tcp : Tcp) (l : Life) (x : Input) : Option Life :=
  (Smoltcp.step l.world (l.call tcp x)).map fun world =>
    match (l.call tcp x).network? with
    | none =>
      match x.action with
      | .dropConnection sessionIdx =>
        { l with world := world, dropped := sessionIdx :: l.dropped }
      | _ => { l with world := world }
    | some _ =>
      { l with
        world := world
        tcp := fun h => if h < l.world.stack.nextHandle then l.next tcp x h else .listen
        fins := fun h => l.fins h || ((l.tcp h).isOpen && decide (x.events h = .fin))
        accepted := l.accepted +
          l.world.stack.listening.countP fun h => (l.next tcp x h).isActive }

/-- What holds between the calls. -/
structure Inv (config : SmoltcpStackConfig) (l : Life) : Prop where
  config_eq : l.world.stack.config = config
  shape : l.world.stack.Shape
  slots : 1 ≤ config.maxSessions → l.world.stack.Slots
  count : l.accepted = l.world.stack.sessions.length
  listening : ∀ h ∈ l.world.stack.listening, l.tcp h = .listen ∧ l.fins h = false
  fresh : ∀ h, l.world.stack.nextHandle ≤ h → l.tcp h = .listen ∧ l.fins h = false
  /-- A session that is not marked closed still has its connection. -/
  live : ∀ session ∈ l.world.stack.sessions, session.closed = false →
    (l.tcp session.handle).isOpen = true ∧
      (l.fins session.handle = true → l.tcp session.handle = .closeWait)
  unparked : ∀ session ∈ l.world.stack.sessions, session.Unparked

section Invariant

open List

variable {tcp : Tcp} {config : SmoltcpStackConfig} {l l' : Life} {x : Input} {w : World}
  {network : Nat → SocketEvent}

/-- The interface reports the states of the sockets. -/
theorem network?_call (tcp : Tcp) (l : Life) (x : Input) :
    (l.call tcp x).network? = x.action.network?.map fun network handle =>
      { network handle with active := (l.next tcp x handle).isActive } := by
  unfold call
  generalize x.action = a
  cases a <;> rfl

theorem active_of_call (h : (l.call tcp x).network? = some network) (handle : Nat) :
    (network handle).active = (l.next tcp x handle).isActive := by
  rw [network?_call] at h
  obtain ⟨_, -, rfl⟩ := map_eq_some_iff.mp h
  rfl

/-- A socket that stays active has its connection through the round. -/
theorem isOpen_next {handle : Nat} (hopen : (l.tcp handle).isOpen = true)
    (hactive : (l.next tcp x handle).isActive = true) : (x.events handle).cuts = false := by
  by_contra hcut
  rw [Bool.not_eq_false] at hcut
  rcases tcp.cut _ _ hopen hcut with hnext | hnext
  all_goals
    rw [next, hnext] at hactive
    cases hactive

/-- A session that a round does not close. -/
theorem Inv.live_round (hinv : Inv config l) {i : Nat} {session : SessionState} {buf : List UInt8}
    (htakes : l.world.stack.TakesPart network i session buf) (hclosed : session.closed = false)
    (hactive : (l.next tcp x session.handle).isActive = true) :
    (l.next tcp x session.handle).isOpen = true ∧
      ((l.fins session.handle || ((l.tcp session.handle).isOpen &&
          decide (x.events session.handle = .fin))) = true →
        l.next tcp x session.handle = .closeWait) := by
  rcases htakes with ⟨hs, -⟩ | ⟨-, -, -, hlistening, -⟩
  · obtain ⟨hopen, hfin⟩ := hinv.live session (mem_of_getElem? hs) hclosed
    have hcuts := isOpen_next hopen hactive
    refine ⟨tcp.isOpen _ _ hopen hcuts, fun h => ?_⟩
    rcases Bool.or_eq_true_iff.mp h with h | h
    · rw [next, hfin h]
      exact tcp.closeWait _ hcuts
    · have hevent := of_decide_eq_true (Bool.and_eq_true_iff.mp h).2
      rw [next, hevent]
      exact tcp.fin _ hopen
  · -- a new session comes out of LISTEN
    obtain ⟨hstate, hfin⟩ := hinv.listening _ hlistening
    rcases tcp.listen (x.events session.handle) with hnext | hnext
    · rw [next, hstate, hnext] at hactive
      cases hactive
    · rw [next, hstate, hnext, hfin]
      exact ⟨rfl, nofun⟩

theorem Inv.round (hinv : Inv config l) (hnetwork : (l.call tcp x).network? = some network)
    (hpolled : l.world.stack.Polled network w.stack) :
    Inv config
      { l with
        world := w
        tcp := fun h => if h < l.world.stack.nextHandle then l.next tcp x h else .listen
        fins := fun h => l.fins h || ((l.tcp h).isOpen && decide (x.events h = .fin))
        accepted := l.accepted +
          l.world.stack.listening.countP fun h => (l.next tcp x h).isActive } := by
  have hactive := active_of_call hnetwork
  have hfresh : ∀ h, l.tcp h = .listen → l.fins h = false →
      (l.fins h || ((l.tcp h).isOpen && decide (x.events h = .fin))) = false := by
    intro h hstate hfin
    rw [hstate, hfin]
    rfl
  refine ⟨hpolled.config.trans hinv.config_eq, hpolled.shape,
    fun hmax => hpolled.slots (hinv.slots hmax), ?_, ?_, ?_, ?_, ?_⟩
  · simp only [hpolled.count, hinv.count, hactive]
  · intro h hh
    rcases hpolled.listening h hh with ⟨hmem, hinactive⟩ | hn
    · obtain ⟨hstate, hfin⟩ := hinv.listening h hmem
      refine ⟨?_, hfresh h hstate hfin⟩
      have hlt := hinv.shape.bound h (mem_append_left _ hmem)
      rw [hactive, next, hstate] at hinactive
      rcases tcp.listen (x.events h) with hnext | hnext
      · simp only [next, if_pos hlt, hstate, hnext]
      · rw [hnext] at hinactive
        cases hinactive
    · obtain ⟨hstate, hfin⟩ := hinv.fresh h hn
      exact ⟨if_neg (Nat.not_lt.mpr hn), hfresh h hstate hfin⟩
  · intro h hn
    have hn := hpolled.nextHandle.trans hn
    obtain ⟨hstate, hfin⟩ := hinv.fresh h hn
    exact ⟨if_neg (Nat.not_lt.mpr hn), hfresh h hstate hfin⟩
  · intro session' hmem hclosed'
    obtain ⟨i, hi⟩ := mem_iff_getElem?.mp hmem
    obtain ⟨session, buf, htakes, hsession⟩ := hpolled.sessions i session' hi
    rw [hsession.closed, Bool.or_eq_false_iff, Bool.or_eq_false_iff, Bool.not_eq_false',
      hactive] at hclosed'
    have hlive := hinv.live_round htakes hclosed'.1.1 hclosed'.1.2
    have hlt := SmoltcpStackInner.TakesPart.handle_lt hinv.shape htakes
    simp only [hsession.handle, if_pos hlt]
    exact hlive
  · intro session' hmem
    obtain ⟨i, hi⟩ := mem_iff_getElem?.mp hmem
    obtain ⟨session, buf, htakes, hsession⟩ := hpolled.sessions i session' hi
    refine hsession.unparked ?_
    rcases htakes with ⟨hs, -⟩ | ⟨-, hs, -⟩
    · exact hinv.unparked session (mem_of_getElem? hs)
    · rw [hs]
      exact nofun

/-- A call on a connection does not touch the sockets. -/
theorem Inv.call (hinv : Inv config l) {a : Action} (hnetwork : a.network? = none)
    (hstep : Smoltcp.step l.world a = some w) (dropped : List Nat) :
    Inv config { l with world := w, dropped := dropped } := by
  rcases step_call hnetwork hstep with ⟨hstack, -⟩ | ⟨i, session, session', hi, hcalled, hstack⟩
  · constructor
    all_goals simp only [hstack]
    exacts [hinv.config_eq, hinv.shape, hinv.slots, hinv.count, hinv.listening, hinv.fresh,
      hinv.live, hinv.unparked]
  · have hsession := mem_of_getElem? hi
    have hhandles := SmoltcpStackInner.map_handle_set hi hcalled.handle
    constructor
    all_goals simp only [hstack]
    · exact hinv.config_eq
    · exact hinv.shape.congr rfl hhandles rfl rfl
    · intro hmax
      exact ⟨by simpa using (hinv.slots hmax).bound, by simpa using (hinv.slots hmax).listener⟩
    · simpa using hinv.count
    · exact hinv.listening
    · exact hinv.fresh
    · intro s hs hclosed
      rcases mem_or_eq_of_mem_set hs with hs | rfl
      · exact hinv.live s hs hclosed
      · rw [hcalled.handle]
        exact hinv.live session hsession (hcalled.closed hclosed)
    · intro s hs
      rcases mem_or_eq_of_mem_set hs with hs | rfl
      · exact hinv.unparked s hs
      · exact hcalled.unparked (hinv.unparked session hsession)

theorem inv_step (hport : config.localPort ≠ 0) (hinv : Inv config l)
    (hstep : step tcp l x = some l') : Inv config l' := by
  obtain ⟨w, hw, rfl⟩ := map_eq_some_iff.mp hstep
  cases hnetwork : (l.call tcp x).network? with
  | some network =>
    exact hinv.round hnetwork (polled_step hinv.shape (hinv.config_eq ▸ hport) hnetwork hw)
  | none =>
    dsimp only
    split <;> exact hinv.call hnetwork hw _

variable {stack : SmoltcpStackInner}

/-- A new stack waits for its first peer. -/
theorem inv_new (h : SmoltcpStackInner.new config = .ok stack) :
    Inv config { world := { stack := stack } } ∧ config.localPort ≠ 0 := by
  have hinv := SmoltcpStackInner.inv_new h
  rw [SmoltcpStackInner.new, SmoltcpStackInner.addListener] at h
  split_ifs at h with hport
  cases h
  refine ⟨⟨rfl, hinv.shape, fun hmax => ⟨?_, ?_⟩, rfl, ?_, ?_, ?_, ?_⟩, hport⟩
  · simpa [empty] using hmax
  · simp
  · exact fun _ _ => ⟨rfl, rfl⟩
  · exact fun _ _ => ⟨rfl, rfl⟩
  all_goals simp [empty]

/-- What holds in every run of a stack. -/
theorem inv_of_reach (hnew : SmoltcpStackInner.new config = .ok stack)
    (h : Reach (step tcp) Anything { world := { stack := stack } } l) :
    Inv config l ∧ config.localPort ≠ 0 := by
  obtain ⟨hstart, hport⟩ := inv_new hnew
  exact ⟨h.invariant (Inv config) hstart fun _ _ _ hs _ hstep => inv_step hport hs hstep, hport⟩

end Invariant

/-! ## Listeners -/

/-- Neither the peer, nor a refused length, nor the application has closed the session. -/
def stillOpen (l : Life) (session : SessionState) : Bool :=
  !session.closed && !l.fins session.handle

/-- In every run: while fewer sessions than allowed are open, a socket listens, exactly if
fewer peers than that have ever connected or none of them has gone.  Nothing gives the
place of a session back. -/
theorem listener_armed_iff {tcp : Tcp} {config : SmoltcpStackConfig} {stack : SmoltcpStackInner}
    {l : Life} (hmax : 1 ≤ config.maxSessions) (hnew : SmoltcpStackInner.new config = .ok stack)
    (h : Reach (step tcp) Anything { world := { stack := stack } } l) :
    (l.world.stack.sessions.countP l.stillOpen < config.maxSessions →
        ∃ handle ∈ l.world.stack.listening, l.tcp handle = .listen) ↔
      l.accepted < config.maxSessions ∨
        ∀ session ∈ l.world.stack.sessions, l.stillOpen session = true := by
  have hinv := (inv_of_reach hnew h).1
  obtain ⟨hbound, hlistener⟩ := hinv.slots hmax
  rw [hinv.config_eq] at hbound hlistener
  have harmed : l.world.stack.sessions.length < config.maxSessions →
      ∃ handle ∈ l.world.stack.listening, l.tcp handle = .listen := by
    intro hslot
    obtain ⟨handle, hmem⟩ := List.exists_mem_of_ne_nil _ (hlistener hslot)
    exact ⟨handle, hmem, (hinv.listening handle hmem).1⟩
  rw [hinv.count]
  constructor
  · intro hproperty
    by_contra hneither
    obtain ⟨hfull, hgone⟩ := not_or.mp hneither
    -- all places are taken, so nobody listens
    have hnil : l.world.stack.listening = [] := List.length_eq_zero_iff.mp (by omega)
    have hfewer : l.world.stack.sessions.countP l.stillOpen < config.maxSessions := by
      refine Nat.lt_of_lt_of_le (Nat.lt_of_le_of_ne List.countP_le_length fun hall => ?_)
        (Nat.le_trans (Nat.le_add_right _ _) hbound)
      exact hgone (List.countP_eq_length.mp hall)
    obtain ⟨handle, hmem, -⟩ := hproperty hfewer
    rw [hnil] at hmem
    exact absurd hmem List.not_mem_nil
  · rintro (hslot | hall) hfewer
    · exact harmed hslot
    · rw [List.countP_eq_length.mpr hall] at hfewer
      exact harmed hfewer

/-- A frame of the datapath that brings `event` to every socket. -/
def frameWith (event : TcpEvent) : Input := ⟨.onRx (established 64), fun _ => event⟩

/-- A round of the timers that brings `event` to every socket. -/
def timerWith (event : TcpEvent) : Input := ⟨.pollTimers (established 64), fun _ => event⟩

/-- One of two places has been used: the next peer can still connect. -/
theorem listener_armed_second_place :
    ∃ l, SmoltcpStackInner.new ⟨9000, 64, 2, 64⟩ = .ok (listening ⟨9000, 64, 2, 64⟩) ∧
      Reach (step .passive) Anything { world := { stack := listening ⟨9000, 64, 2, 64⟩ } } l ∧
      l.accepted = 1 ∧ l.world.stack.sessions.countP l.stillOpen = 0 ∧
      ∃ handle ∈ l.world.stack.listening, l.tcp handle = .listen := by
  have hnew : new ⟨9000, 64, 2, 64⟩ = .ok (listening ⟨9000, 64, 2, 64⟩) := rfl
  have hreach : Reach (step .passive) Anything
      { world := { stack := listening ⟨9000, 64, 2, 64⟩ } } _ :=
    reach_of_run [frameWith .syn, frameWith .segment, frameWith .fin] rfl
  exact ⟨_, hnew, hreach, rfl, rfl,
    (listener_armed_iff (by decide) hnew hreach).mpr (.inl (by decide)) (by decide)⟩

/-- The only place has been used and the peer has closed: no session is open, and no socket
listens. -/
theorem listener_lost :
    ∃ l, SmoltcpStackInner.new ⟨9000, 64, 1, 64⟩ = .ok (listening ⟨9000, 64, 1, 64⟩) ∧
      Reach (step .passive) Anything { world := { stack := listening ⟨9000, 64, 1, 64⟩ } } l ∧
      l.world.stack.sessions.countP l.stillOpen < 1 ∧
      ¬ ∃ handle ∈ l.world.stack.listening, l.tcp handle = .listen := by
  have hreach : Reach (step .passive) Anything
      { world := { stack := listening ⟨9000, 64, 1, 64⟩ } } _ :=
    reach_of_run [frameWith .syn, frameWith .segment, frameWith .fin] rfl
  refine ⟨_, rfl, hreach, by decide, ?_⟩
  rintro ⟨handle, hmem, -⟩
  exact absurd (show handle ∈ ([] : List Nat) from hmem) List.not_mem_nil

/-! ## The end of a connection -/

/-- A `recv` on the session returns the end of the stream, and none is still parked. -/
def Resolves (l : Life) (i : Nat) : Prop :=
  (l.world.stack.pollRecv i).1 = some (.ok none) ∧
    ∀ session, l.world.stack.sessions[i]? = some session → session.rxWaker = false

section End

variable {tcp : Tcp} {config : SmoltcpStackConfig} {l l' : Life} {x : Input} {i handle : Nat}

variable {session : SessionState} {xs : List Input}

/-- With nothing left in the queue, `recv` resolves exactly for a session that is marked
closed. -/
theorem Inv.resolves_iff (hinv : Inv config l) (hi : l.world.stack.sessions[i]? = some session)
    (hqueue : session.rxQueue = []) :
    l.Resolves i ↔ session.closed = true := by
  rw [Resolves, pollRecv, hi]
  simp only [hqueue, some.injEq, forall_eq']
  cases hclosed : session.closed with
  | true => simpa using hinv.unparked session (List.mem_of_getElem? hi) hclosed
  | false => simp

/-- The next round after a FIN, when there is no frame left to return. -/
theorem Inv.resolves_step (hinv : Inv config l) (hport : config.localPort ≠ 0)
    {network : Nat → SocketEvent} (hnetwork : x.action.network? = some network)
    (hstep : step tcp l x = some l') {buf : List UInt8}
    (hi : l.world.stack.sessions[i]? = some session)
    (hb : l.world.stack.decodeBuffers[i]? = some buf) (hfin : l.fins session.handle = true)
    (hqueue : session.rxQueue = [])
    (hframe : ∀ payload rest, head config.maxFrameSize
      (buf ++ (network session.handle).received) ≠ .complete payload rest) :
    l'.Resolves i ↔ session.closed = true ∨ (x.events session.handle).cuts = true ∨
      Refused config.maxFrameSize (buf ++ (network session.handle).received) := by
  have hinv' := inv_step hport hinv hstep
  obtain ⟨w, hw, rfl⟩ := map_eq_some_iff.mp hstep
  have hcall := network?_call tcp l x
  rw [hnetwork, map_some] at hcall
  have hpolled := polled_step hinv.shape (hinv.config_eq ▸ hport) hcall hw
  simp only [hcall] at hinv' ⊢
  -- the session is still there, and it is the one that took part
  have hlt : i < w.stack.sessions.length := by
    have hlen : l.world.stack.sessions.length ≤ w.stack.sessions.length := by
      simpa using hpolled.handles.length_le
    exact Nat.lt_of_lt_of_le (getElem?_eq_some_iff.mp hi).1 hlen
  have hi' := List.getElem?_eq_getElem hlt
  generalize w.stack.sessions[i] = session' at hi'
  obtain ⟨s, b, htakes, hround⟩ := hpolled.sessions i session' hi'
  rcases htakes with ⟨hs, hbuf⟩ | ⟨hnew, -⟩
  · cases hi.symm.trans hs
    cases hb.symm.trans hbuf
    have hparse := parse_of_not_complete hframe
    have hqueue' := hround.rxQueue
    have hclosed' := hround.closed
    simp only [hinv.config_eq, hparse, hqueue, List.append_nil] at hqueue' hclosed'
    rw [hinv'.resolves_iff hi' hqueue', hclosed']
    cases hclosed : session.closed with
    | true => simp
    | false =>
      have hstate := (hinv.live session (List.mem_of_getElem? hi) hclosed).2 hfin
      have hactive :
          (!(l.next tcp x session.handle).isActive) = (x.events session.handle).cuts := by
        cases hcuts : (x.events session.handle).cuts with
        | false =>
          rw [next, hstate, tcp.closeWait _ hcuts]
          rfl
        | true =>
          rcases tcp.cut .closeWait _ rfl hcuts with hnext | hnext
          all_goals
            rw [next, hstate, hnext]
            rfl
      simp [hactive]
  · exact absurd (getElem?_eq_some_iff.mp hi).1 (Nat.not_lt.mpr hnew)

/-- The peer of the socket has been told the end of the stream, or it is gone. -/
def Ended (handle : Nat) (l : Life) : Prop := (l.tcp handle).isOpen = false

/-- A socket that is there changes its state in the rounds only. -/
theorem tcp_step (hstep : step tcp l x = some l') (hlt : handle < l.world.stack.nextHandle) :
    l'.tcp handle = if x.action.network?.isSome then l.next tcp x handle else l.tcp handle := by
  obtain ⟨w, -, rfl⟩ := map_eq_some_iff.mp hstep
  rw [network?_call]
  cases hnetwork : x.action.network? with
  | none =>
    simp only [map_none]
    split <;> rfl
  | some network => simp [hlt]

theorem nextHandle_step (hinv : Inv config l) (hport : config.localPort ≠ 0)
    (hstep : step tcp l x = some l') : l.world.stack.nextHandle ≤ l'.world.stack.nextHandle := by
  obtain ⟨w, hw, rfl⟩ := map_eq_some_iff.mp hstep
  cases hnetwork : (l.call tcp x).network? with
  | some network =>
    exact (polled_step hinv.shape (hinv.config_eq ▸ hport) hnetwork hw).nextHandle
  | none =>
    have hstack : w.stack.nextHandle = l.world.stack.nextHandle := by
      rcases step_call hnetwork hw with ⟨h, -⟩ | ⟨_, _, _, -, -, h⟩
      all_goals rw [h]
    dsimp only
    split <;> exact hstack.ge

/-- An end that is open is closed by a cut and by nothing else that can happen in a call. -/
theorem ended_step_iff (hstep : step tcp l x = some l') (hlt : handle < l.world.stack.nextHandle)
    (hopen : ¬ l.Ended handle) : l'.Ended handle ↔ x.Cuts handle := by
  rw [Ended, Bool.not_eq_false] at hopen
  rw [Ended, Input.Cuts, tcp_step hstep hlt]
  cases hnetwork : x.action.network? with
  | none => simp [hopen]
  | some network =>
    simp only [isSome_some, if_true, true_and, next]
    cases hcuts : (x.events handle).cuts with
    | false => simp [tcp.isOpen _ _ hopen hcuts]
    | true =>
      rcases tcp.cut _ _ hopen hcuts with hnext | hnext
      all_goals simp [hnext, TcpState.isOpen]

/-- A run in which the peer is told the end of the stream. -/
theorem Inv.cut_of_passes (hport : config.localPort ≠ 0) (hinv : Inv config l)
    (hlt : handle < l.world.stack.nextHandle) (h : Passes (step tcp) (Ended handle) l xs) :
    l.Ended handle ∨ ∃ x ∈ xs, x.Cuts handle := by
  induction xs generalizing l with
  | nil => exact .inl h
  | cons x xs ih =>
    by_cases hended : l.Ended handle
    · exact .inl hended
    rcases h with h | ⟨mid, hmid, hrest⟩
    · exact .inl h
    rcases ih (inv_step hport hinv hmid)
      (Nat.lt_of_lt_of_le hlt (nextHandle_step hinv hport hmid)) hrest with h | ⟨y, hy, hcut⟩
    · exact .inr ⟨x, List.mem_cons_self, (ended_step_iff hmid hlt hended).mp h⟩
    · exact .inr ⟨y, List.mem_cons_of_mem x hy, hcut⟩

theorem Inv.passes_of_cut (hport : config.localPort ≠ 0) (hinv : Inv config l)
    (hlt : handle < l.world.stack.nextHandle) (hrun : run (step tcp) l xs = some l')
    (h : l.Ended handle ∨ ∃ x ∈ xs, x.Cuts handle) :
    Passes (step tcp) (Ended handle) l xs := by
  induction xs generalizing l with
  | nil => exact h.resolve_right (by simp)
  | cons x xs ih =>
    by_cases hended : l.Ended handle
    · exact .inl hended
    obtain ⟨mid, hmid, hrest⟩ := bind_eq_some_iff.mp hrun
    refine .inr ⟨mid, hmid, ih (inv_step hport hinv hmid)
      (Nat.lt_of_lt_of_le hlt (nextHandle_step hinv hport hmid)) hrest ?_⟩
    obtain ⟨y, hy, hcut⟩ := h.resolve_left hended
    rcases List.mem_cons.mp hy with rfl | hy
    · exact .inl ((ended_step_iff hmid hlt hended).mpr hcut)
    · exact .inr ⟨y, hy, hcut⟩

end End

/-- In every run, for every session.  When the socket has processed the FIN of the peer and no
frame is left to return, the next round makes `recv` resolve to the end of the stream exactly
if the session was marked closed before, or the connection is cut, or the round meets a
refused length.  When the application has dropped the connection, the peer is told the end
of the stream in the calls that follow exactly if it has been told before or the connection
is cut. -/
theorem close_propagates_iff {tcp : Tcp} {config : SmoltcpStackConfig} {stack : SmoltcpStackInner}
    {l : Life} (hnew : SmoltcpStackInner.new config = .ok stack)
    (h : Reach (step tcp) Anything { world := { stack := stack } } l) {i : Nat}
    {session : SessionState} {buf : List UInt8} (hi : l.world.stack.sessions[i]? = some session)
    (hb : l.world.stack.decodeBuffers[i]? = some buf) :
    (∀ x network l', x.action.network? = some network → step tcp l x = some l' →
      l.fins session.handle = true → session.rxQueue = [] →
      (∀ payload rest, head config.maxFrameSize (buf ++ (network session.handle).received) ≠
        .complete payload rest) →
      (l'.Resolves i ↔ session.closed = true ∨ (x.events session.handle).cuts = true ∨
        Refused config.maxFrameSize (buf ++ (network session.handle).received))) ∧
    (∀ xs l', run (step tcp) l xs = some l' → i ∈ l.dropped →
      (Passes (step tcp) (Ended session.handle) l xs ↔
        l.Ended session.handle ∨ ∃ x ∈ xs, x.Cuts session.handle)) := by
  obtain ⟨hinv, hport⟩ := inv_of_reach hnew h
  have hlt : session.handle < l.world.stack.nextHandle := hinv.shape.bound _
    (List.mem_append_right _ (List.mem_map_of_mem (List.mem_of_getElem? hi)))
  constructor
  · intro x network l' hnetwork hstep hfin hqueue hframe
    exact hinv.resolves_step hport hnetwork hstep hi hb hfin hqueue hframe
  · intro xs l' hrun _
    exact ⟨hinv.cut_of_passes hport hlt, hinv.passes_of_cut hport hlt hrun⟩

/-- The peer has closed, the application drops the connection, and then the peer sends a reset:
both ends see the end of the stream. -/
theorem close_propagates_reset :
    ∃ l l', SmoltcpStackInner.new ⟨9000, 64, 1, 64⟩ = .ok (listening ⟨9000, 64, 1, 64⟩) ∧
      Reach (step .passive) Anything { world := { stack := listening ⟨9000, 64, 1, 64⟩ } } l ∧
      l.fins 0 = true ∧ 0 ∈ l.dropped ∧ step .passive l (timerWith .reset) = some l' ∧
      l'.Resolves 0 ∧ Passes (step .passive) (Ended 0) l [timerWith .reset] := by
  have hnew : new ⟨9000, 64, 1, 64⟩ = .ok (listening ⟨9000, 64, 1, 64⟩) := rfl
  have hreach : Reach (step .passive) Anything
      { world := { stack := listening ⟨9000, 64, 1, 64⟩ } } _ :=
    reach_of_run [frameWith .syn, frameWith .segment, frameWith .fin,
      ⟨.dropConnection 0, fun _ => .quiet⟩] rfl
  have hnil : ∀ payload rest, head 64 [] ≠ .complete payload rest := by simp [head]
  have hboth := close_propagates_iff hnew hreach (i := 0) rfl rfl
  refine ⟨_, _, hnew, hreach, rfl, List.mem_singleton_self 0, rfl, ?_, ?_⟩
  · exact (hboth.1 (timerWith .reset) _ _ rfl rfl rfl rfl hnil).mpr (.inr (.inl rfl))
  · exact (hboth.2 [timerWith .reset] _ rfl (List.mem_singleton_self 0)).mpr
      (.inr ⟨_, List.mem_singleton_self _, rfl, rfl⟩)

/-- The timers can always fire again. -/
theorem run_timers (tcp : Tcp) (l : Life) (event : TcpEvent) (n : Nat) :
    ∃ l', run (step tcp) l (List.replicate n (timerWith event)) = some l' := by
  induction n generalizing l with
  | zero => exact ⟨l, rfl⟩
  | succ n ih => exact ih _

/-- The peer has closed, and no frame has ever come: after the next round `recv` still waits.
The application has dropped the connection: however many rounds follow, the peer is not told
the end of the stream. -/
theorem close_not_propagated :
    ∃ l l' dropped, SmoltcpStackInner.new ⟨9000, 64, 1, 64⟩ = .ok (listening ⟨9000, 64, 1, 64⟩) ∧
      Reach (step .passive) Anything { world := { stack := listening ⟨9000, 64, 1, 64⟩ } } l ∧
      l.fins 0 = true ∧ l.world.stack.sessions = [{ handle := 0 }] ∧
      l.world.stack.decodeBuffers = [[]] ∧
      step .passive l (timerWith .quiet) = some l' ∧ ¬ l'.Resolves 0 ∧
      step .passive l ⟨.dropConnection 0, fun _ => .quiet⟩ = some dropped ∧ 0 ∈ dropped.dropped ∧
      ∀ n, (∃ end', run (step .passive) dropped (List.replicate n (timerWith .quiet)) = some end') ∧
        ¬ Passes (step .passive) (Ended 0) dropped (List.replicate n (timerWith .quiet)) := by
  have hnew : new ⟨9000, 64, 1, 64⟩ = .ok (listening ⟨9000, 64, 1, 64⟩) := rfl
  have hreach : Reach (step .passive) Anything
      { world := { stack := listening ⟨9000, 64, 1, 64⟩ } } _ :=
    reach_of_run [frameWith .syn, frameWith .segment, frameWith .fin] rfl
  have hdropped : Reach (step .passive) Anything
      { world := { stack := listening ⟨9000, 64, 1, 64⟩ } } _ :=
    .step hreach (a := ⟨.dropConnection 0, fun _ => .quiet⟩) trivial rfl
  obtain ⟨hinv, hport⟩ := inv_of_reach hnew hdropped
  refine ⟨_, _, _, hnew, hreach, rfl, rfl, rfl, rfl, fun h => absurd h.1 nofun, rfl,
    List.mem_singleton_self 0, fun n => ⟨run_timers _ _ _ n, fun hpasses => ?_⟩⟩
  rcases hinv.cut_of_passes hport (by decide) hpasses with hended | ⟨x, hx, hcut⟩
  · exact absurd (show true = false from hended) nofun
  · obtain rfl := List.eq_of_mem_replicate hx
    exact absurd hcut.2 nofun

end Life

end IronSbe.Transport.Smoltcp
