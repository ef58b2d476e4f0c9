import IronSbe.Lib.Framing
import IronSbe.Lib.Transition
import IronSbe.Transport.Xdp.Rounds

/-!
# One queue for each sender

`UdpStack` keeps a table of connections by the address of the sender.  An entry is made by
the first valid frame of a sender, together with the only `UdpConnection` for it, and it
stays when that connection is dropped.

`validMessage` says what a valid frame is and what it carries, without the stack.  It rests
on the crate that slices the frames, and `Etherparse.Sound` is what is assumed of it.  The
world of this file is the stack with its history: the frames it got, the connections it
gave out, and the messages that were returned.

* `verdict_eq_message_iff`: the stack enqueues exactly the valid messages.
* `inv_step`: what each peer has been given and what waits in its queue are the messages
  of its valid frames; a connection was given out for the first of them.
* `demultiplexes`: the stack against its history.
* `comes_back_iff`: a peer whose connection has been dropped is not taken up again.
-/

namespace IronSbe.Transport.Xdp

open Lib.Bytes Lib.Framing Lib.Transition UdpStackConfig UdpStack

/-! ## Valid frames -/

/-- A frame is sliced from its Ethernet header on, and no IPv4 packet is found behind the
type of ARP. -/
structure Etherparse.Sound (ether : Etherparse) : Prop where
  header : ∀ frame sliced, ether.slicedFromEthernet frame = .ok sliced →
    ∃ eth rest, ether.ethernet2FromSlice frame = .ok (eth, rest)
  ipv4 : ∀ frame sliced src dst eth rest, ether.slicedFromEthernet frame = .ok sliced →
    sliced.net = some (.ipv4 src dst) → ether.ethernet2FromSlice frame = .ok (eth, rest) →
    eth.etherType ≠ etherTypeArp

section Valid

variable (ether : Etherparse)

/-- The frame has an ARP request. -/
def isArpRequest (frame : List UInt8) : Bool :=
  match parseArp ether frame with
  | .ok (some arp) => arp.operation = 1
  | _ => false

/-- The sender and the message of a valid frame: UDP over IPv4 to the address of the stack,
no ARP request, and the datagram starts with a frame within the limit. -/
def validMessage (config : UdpStackConfig) (frame : List UInt8) :
    Option (SocketAddrV4 × List UInt8) :=
  match parseIpv4Udp ether frame with
  | .ok (some udp) =>
    if udp.dstIp = config.localIp ∧ udp.dstPort = config.localPort ∧
        isArpRequest ether frame = false then
      match head config.maxFrameSize udp.payload with
      | .complete payload _ => some (⟨udp.srcIp, udp.srcPort⟩, payload)
      | _ => none
    else none
  | _ => none

/-- The messages of the valid frames of a peer, in the order of their arrival. -/
def messagesFrom (config : UdpStackConfig) (peer : SocketAddrV4) (frames : List (List UInt8)) :
    List (List UInt8) :=
  frames.filterMap fun frame =>
    match validMessage ether config frame with
    | some (p, payload) => if p = peer then some payload else none
    | none => none

end Valid

variable {ether : Etherparse}

variable {frame : List UInt8} {udp : ParsedUdp}

theorem exists_sliced (h : parseIpv4Udp ether frame = .ok (some udp)) :
    ∃ sliced src dst, ether.slicedFromEthernet frame = .ok sliced ∧
      sliced.net = some (.ipv4 src dst) := by
  unfold parseIpv4Udp at h
  rcases hsliced : ether.slicedFromEthernet frame with e | ⟨net, transport⟩
  · rw [hsliced] at h
    cases h
  · rw [hsliced] at h
    dsimp only at h
    split at h
    · exact ⟨_, _, _, rfl, rfl⟩
    · cases h

/-- A datagram is no ARP packet, and it has a source. -/
theorem Etherparse.Sound.of_udp (hsound : ether.Sound)
    (h : parseIpv4Udp ether frame = .ok (some udp)) :
    parseArp ether frame = .ok none ∧ ∃ eth, parseEthernet ether frame = .ok eth := by
  obtain ⟨sliced, src, dst, hsliced, hnet⟩ := exists_sliced h
  obtain ⟨eth, rest, heth⟩ := hsound.header frame sliced hsliced
  have htype := hsound.ipv4 frame sliced src dst eth rest hsliced hnet heth
  rw [parseArp, parseEthernet, heth]
  exact ⟨if_pos htype, _, rfl⟩

/-- The stack decodes the frame at the start of the datagram. -/
theorem decodePayload_eq_some_iff {maxFrameSize : Nat} {payload message : List UInt8} :
    UdpStack.decodePayload maxFrameSize payload = .ok (some message) ↔
      ∃ rest, head maxFrameSize payload = .complete message rest := by
  by_cases hprefixed : payload.length < 4
  · simp [decodePayload, head, lengthPrefixBytes, hprefixed]
  by_cases hlimit : maxFrameSize < leNat (payload.take 4)
  · simp [decodePayload, head, lengthPrefixBytes, hprefixed, hlimit]
  by_cases hfits : payload.length < 4 + leNat (payload.take 4)
  · simp [decodePayload, head, lengthPrefixBytes, hprefixed, hlimit, hfits]
  · simp [decodePayload, head, lengthPrefixBytes, hprefixed, hlimit, hfits, List.drop_take]

/-- The stack enqueues the valid messages and no other. -/
theorem verdict_eq_message_iff (hsound : ether.Sound) {config : UdpStackConfig}
    {frame : List UInt8} {peer : SocketAddrV4} {payload : List UInt8} :
    (∃ mac, UdpStack.verdict ether config frame = .message peer mac payload) ↔
      validMessage ether config frame = some (peer, payload) := by
  unfold verdict validMessage
  rcases hudp : parseIpv4Udp ether frame with e | _ | udp
  · rcases arpRequest ether config frame with _ | arp
    · simp
    · dsimp only
      split <;> simp
  · rcases arpRequest ether config frame with _ | arp
    · simp
    · dsimp only
      split <;> simp
  · obtain ⟨harp, eth, heth⟩ := hsound.of_udp hudp
    have hrequest : arpRequest ether config frame = none := by
      rw [arpRequest, harp]
    have hnot : isArpRequest ether frame = false := by
      rw [isArpRequest, harp]
    rw [hrequest, hnot]
    dsimp only [datagramVerdict]
    by_cases haddr : udp.dstIp = config.localIp ∧ udp.dstPort = config.localPort
    · rw [if_neg (by simpa [not_or] using haddr), if_pos ⟨haddr.1, haddr.2, rfl⟩, heth]
      have hdecode := @decodePayload_eq_some_iff config.maxFrameSize udp.payload
      cases hhead : head config.maxFrameSize udp.payload with
      | complete message rest =>
        rw [hdecode.mpr ⟨rest, hhead⟩]
        simp
      | incomplete | oversized _ =>
        rcases hdec : decodePayload config.maxFrameSize udp.payload with e | _ | message
        · simp
        · simp
        · obtain ⟨rest, hcomplete⟩ := hdecode.mp hdec
          rw [hhead] at hcomplete
          cases hcomplete
    · rw [if_pos (not_and_or.mp haddr), if_neg fun h => haddr ⟨h.1, h.2.1⟩]
      simp

/-! ## The stack and its history -/

namespace Demux

/-- The stack, with the connections that are alive and what has happened so far. -/
structure World where
  stack : UdpStack
  live : List SocketAddrV4 := []
  /-- The frames that `on_rx` has been called with. -/
  received : List (List UInt8) := []
  /-- The peers for which a connection has been yielded. -/
  yielded : List SocketAddrV4 := []
  /-- The messages that `recv` has returned on the connection of each peer. -/
  returned : SocketAddrV4 → List (List UInt8) := fun _ => []

/-- A frame for `on_rx`, or a call on the connection of a peer. -/
inductive Action where
  | onRx (frame : List UInt8)
  | pollRecv (peer : SocketAddrV4) (waker : Nat)
  | sendOwned (peer : SocketAddrV4) (msg : List UInt8)
  | dropConnection (peer : SocketAddrV4)
  deriving DecidableEq, Repr

/-- The connection in the result of `on_rx`. -/
def connectionOf : Except UdpStackError (Option SocketAddrV4) → List SocketAddrV4
  | .ok (some peer) => [peer]
  | _ => []

/-- The message in the result of a poll. -/
def messageOf : Option (Except UdpConnectionError (Option (List UInt8))) → List (List UInt8)
  | some (.ok (some message)) => [message]
  | _ => []

/-- The datapath calls the stack, the application its live connections. -/
def step (ether : Etherparse) (w : World) : Action → Option World
  | .onRx frame =>
    let r := w.stack.onRx ether frame []
    some { w with
      stack := r.2.1
      live := w.live ++ connectionOf r.1
      received := w.received ++ [frame]
      yielded := w.yielded ++ connectionOf r.1 }
  | .pollRecv peer waker =>
    if peer ∈ w.live then
      let r := w.stack.pollRecv peer waker
      some { w with
        stack := r.2
        returned := fun p => if p = peer then w.returned p ++ messageOf r.1 else w.returned p }
    else none
  | .sendOwned peer msg =>
    if peer ∈ w.live then some { w with stack := (w.stack.sendOwned ether peer msg).2 } else none
  | .dropConnection peer =>
    if peer ∈ w.live then
      some { w with stack := w.stack.dropConnection peer, live := w.live.erase peer }
    else none

/-- The queue of a peer. -/
def queueOf (stack : UdpStack) (peer : SocketAddrV4) : List (List UInt8) :=
  match stack.connections peer with
  | none => []
  | some state => state.rxQueue

/-- The stack agrees with its history. -/
structure Inv (ether : Etherparse) (config : UdpStackConfig) (w : World) : Prop where
  config_eq : w.stack.config = config
  queue : ∀ peer,
    w.returned peer ++ queueOf w.stack peer = messagesFrom ether config peer w.received
  /-- A peer is in the table from its first message on, and has its connection. -/
  yielded : ∀ peer, w.yielded.count peer = if (w.stack.connections peer).isSome then 1 else 0
  known : ∀ peer, (w.stack.connections peer).isSome = true ↔
    messagesFrom ether config peer w.received ≠ []

/-! ## What the calls do to the table -/

section Calls

variable {stack : UdpStack} {peer : SocketAddrV4} {frame payload : List UInt8}

/-- A valid frame goes to the queue of its sender, and the first one yields a connection. -/
theorem onRx_of_valid (hsound : ether.Sound)
    (h : validMessage ether stack.config frame = some (peer, payload)) (out : List (List UInt8)) :
    ∃ mac, stack.onRx ether frame out =
      (.ok (if (stack.connections peer).isNone then some peer else none),
        stack.enqueue peer mac payload, out) := by
  obtain ⟨mac, hverdict⟩ := (verdict_eq_message_iff hsound).mpr h
  refine ⟨mac, ?_⟩
  rw [onRx_eq, hverdict]
  rfl

/-- Any other frame leaves the table as it is. -/
theorem onRx_of_invalid (hsound : ether.Sound) (h : validMessage ether stack.config frame = none)
    (out : List (List UInt8)) :
    (stack.onRx ether frame out).2.1 = stack ∧
      connectionOf (stack.onRx ether frame out).1 = [] := by
  rw [onRx_eq]
  cases hverdict : verdict ether stack.config frame with
  | ignored | reply _ | rejected _ => exact ⟨rfl, rfl⟩
  | message p mac m =>
    have hvalid := (verdict_eq_message_iff hsound).mp ⟨mac, hverdict⟩
    exact absurd (h.symm.trans hvalid) nofun

theorem queueOf_enqueue (stack : UdpStack) (peer : SocketAddrV4) (mac : MacAddr)
    (payload : List UInt8) (p : SocketAddrV4) :
    queueOf (stack.enqueue peer mac payload) p =
      if p = peer then queueOf stack p ++ [payload] else queueOf stack p := by
  rw [queueOf, connections_enqueue]
  by_cases hp : p = peer
  · subst hp
    rw [if_pos rfl, if_pos rfl, queueOf]
    cases stack.connections p <;> rfl
  · rw [if_neg hp, if_neg hp, queueOf]

/-- A call that keeps every entry in the table, and takes `taken` off the queue of `peer`. -/
structure Takes (peer : SocketAddrV4) (taken : List (List UInt8)) (stack stack' : UdpStack) :
    Prop where
  config : stack'.config = stack.config
  isSome : ∀ p, (stack'.connections p).isSome = (stack.connections p).isSome
  others : ∀ p, p ≠ peer → stack'.connections p = stack.connections p
  queue : taken ++ queueOf stack' peer = queueOf stack peer

theorem Takes.refl (peer : SocketAddrV4) (stack : UdpStack) : Takes peer [] stack stack :=
  ⟨rfl, fun _ => rfl, fun _ _ => rfl, rfl⟩

theorem takes_setConnection {state state' : ConnectionState}
    (h : stack.connections peer = some state)
    {taken : List (List UInt8)} (hqueue : taken ++ state'.rxQueue = state.rxQueue) :
    Takes peer taken stack (stack.setConnection peer state') := by
  refine ⟨rfl, fun p => ?_, fun p hp => if_neg hp, ?_⟩
  · by_cases hp : p = peer
    · subst hp
      simp [setConnection, h]
    · simp [setConnection, hp]
  · simp [queueOf, setConnection, h, hqueue]

/-- A poll takes the message that it returns. -/
theorem takes_pollRecv (stack : UdpStack) (peer : SocketAddrV4) (waker : Nat) :
    Takes peer (messageOf (stack.pollRecv peer waker).1) stack (stack.pollRecv peer waker).2 := by
  unfold pollRecv
  cases hstate : stack.connections peer with
  | none => exact .refl peer stack
  | some state =>
    cases hqueue : state.rxQueue with
    | cons message rxQueue =>
      simp only [hqueue]
      exact takes_setConnection hstate hqueue.symm
    | nil =>
      simp only [hqueue]
      split_ifs
      · exact .refl peer stack
      · exact takes_setConnection hstate hqueue.symm

theorem takes_dropConnection (stack : UdpStack) (peer : SocketAddrV4) :
    Takes peer [] stack (stack.dropConnection peer) := by
  unfold dropConnection
  cases hstate : stack.connections peer with
  | none => exact .refl peer stack
  | some state =>
    have hset : Takes peer [] stack
        (stack.setConnection peer { state with closed := true, rxWaker := none }) :=
      takes_setConnection hstate rfl
    exact ⟨hset.config, hset.isSome, hset.others, hset.queue⟩

theorem takes_sendOwned (stack : UdpStack) (peer : SocketAddrV4) (msg : List UInt8) :
    Takes peer [] stack (stack.sendOwned ether peer msg).2 := by
  unfold sendOwned
  cases stack.buildOutbound ether peer msg with
  | error e => exact .refl peer stack
  | ok frame => exact ⟨rfl, fun _ => rfl, fun _ _ => rfl, rfl⟩

end Calls

/-! ## Every run -/

section Runs

variable {config : UdpStackConfig} {w w' : World} {a : Action}

theorem messagesFrom_concat (ether : Etherparse) (config : UdpStackConfig) (p : SocketAddrV4)
    (frames : List (List UInt8)) (frame : List UInt8) :
    messagesFrom ether config p (frames ++ [frame]) = messagesFrom ether config p frames ++
      messagesFrom ether config p [frame] :=
  List.filterMap_append

variable {frame payload : List UInt8} {peer : SocketAddrV4} {stack : UdpStack}

theorem messagesFrom_valid (h : validMessage ether config frame = some (peer, payload))
    (p : SocketAddrV4) :
    messagesFrom ether config p [frame] = if peer = p then [payload] else [] := by
  by_cases hp : peer = p <;> simp [messagesFrom, h, hp]

theorem messagesFrom_invalid (h : validMessage ether config frame = none) (p : SocketAddrV4) :
    messagesFrom ether config p [frame] = [] := by
  simp [messagesFrom, h]

theorem Inv.onRx (hsound : ether.Sound) (hinv : Inv ether config w) (frame : List UInt8) :
    Inv ether config
      { w with
        stack := (w.stack.onRx ether frame []).2.1
        live := w.live ++ connectionOf (w.stack.onRx ether frame []).1
        received := w.received ++ [frame]
        yielded := w.yielded ++ connectionOf (w.stack.onRx ether frame []).1 } := by
  cases hvalid : validMessage ether w.stack.config frame with
  | none =>
    obtain ⟨hstack, hnone⟩ := onRx_of_invalid hsound hvalid []
    have hmessages : ∀ p, messagesFrom ether config p (w.received ++ [frame]) =
        messagesFrom ether config p w.received := by
      intro p
      rw [messagesFrom_concat, messagesFrom_invalid (hinv.config_eq ▸ hvalid), List.append_nil]
    constructor
    all_goals simp only [hstack, hnone, hmessages, List.append_nil]
    exacts [hinv.config_eq, hinv.queue, hinv.yielded, hinv.known]
  | some valid =>
    obtain ⟨peer, payload⟩ := valid
    obtain ⟨mac, hrx⟩ := onRx_of_valid hsound hvalid []
    rw [hinv.config_eq] at hvalid
    have hmessages : ∀ p, messagesFrom ether config p (w.received ++ [frame]) =
        messagesFrom ether config p w.received ++ if peer = p then [payload] else [] := by
      intro p
      rw [messagesFrom_concat, messagesFrom_valid hvalid]
    have hsome : ∀ p, ((w.stack.enqueue peer mac payload).connections p).isSome =
        (decide (p = peer) || (w.stack.connections p).isSome) := by
      intro p
      rw [connections_enqueue]
      by_cases hp : p = peer <;> simp [hp]
    constructor
    all_goals simp only [hrx, hmessages]
    · exact hinv.config_eq
    · intro p
      rw [queueOf_enqueue, ← hinv.queue p]
      by_cases hp : p = peer
      · simp [hp]
      · simp [hp, Ne.symm hp]
    · intro p
      have hcount := hinv.yielded p
      rw [List.count_append, hcount, hsome]
      by_cases hp : p = peer
      · subst hp
        cases w.stack.connections p <;> simp [connectionOf]
      · cases w.stack.connections peer <;> simp [connectionOf, hp, Ne.symm hp]
    · intro p
      rw [hsome, Bool.or_eq_true, decide_eq_true_eq, hinv.known]
      by_cases hp : p = peer
      · simp [hp]
      · simp [hp, Ne.symm hp]

theorem Inv.takes (hinv : Inv ether config w) {taken : List (List UInt8)}
    (h : Takes peer taken w.stack stack) (live : List SocketAddrV4) :
    Inv ether config
      { w with
        stack := stack
        live := live
        returned := fun p => if p = peer then w.returned p ++ taken else w.returned p } := by
  constructor
  · exact h.config.trans hinv.config_eq
  · intro p
    by_cases hp : p = peer
    · subst hp
      simp only [if_true]
      rw [List.append_assoc, h.queue]
      exact hinv.queue p
    · simp only [if_neg hp]
      rw [queueOf, h.others p hp]
      exact hinv.queue p
  · intro p
    rw [h.isSome]
    exact hinv.yielded p
  · intro p
    rw [h.isSome]
    exact hinv.known p

theorem inv_step (hsound : ether.Sound) (hinv : Inv ether config w)
    (hstep : step ether w a = some w') : Inv ether config w' := by
  cases a with
  | onRx frame =>
    cases hstep
    exact hinv.onRx hsound frame
  | pollRecv peer waker =>
    obtain ⟨-, rfl⟩ := of_guard hstep
    exact hinv.takes (takes_pollRecv w.stack peer waker) w.live
  | sendOwned peer msg =>
    obtain ⟨-, rfl⟩ := of_guard hstep
    simpa using hinv.takes (takes_sendOwned w.stack peer msg) w.live
  | dropConnection peer =>
    obtain ⟨-, rfl⟩ := of_guard hstep
    simpa using hinv.takes (takes_dropConnection w.stack peer) (w.live.erase peer)

theorem inv_new (ether : Etherparse) (config : UdpStackConfig) :
    Inv ether config { stack := .new config } :=
  ⟨rfl, fun _ => rfl, fun _ => rfl, fun _ => ⟨nofun, fun h => absurd rfl h⟩⟩

theorem inv_of_reach (hsound : ether.Sound)
    (h : Reach (step ether) Anything { stack := .new config } w) : Inv ether config w :=
  h.invariant (Inv ether config) (inv_new ether config) fun _ _ _ hs _ => inv_step hsound hs

/-- The action is no valid frame of the peer and does not touch its connection. -/
def Spares (ether : Etherparse) (config : UdpStackConfig) (peer : SocketAddrV4) : Action → Prop
  | .onRx frame => ∀ payload, validMessage ether config frame ≠ some (peer, payload)
  | .pollRecv p _ | .dropConnection p => p ≠ peer
  | .sendOwned _ _ => True

/-- A frame that is not from the peer leaves its entry. -/
theorem connections_onRx (hsound : ether.Sound)
    (h : ∀ payload, validMessage ether stack.config frame ≠ some (peer, payload)) :
    (stack.onRx ether frame []).2.1.connections peer = stack.connections peer := by
  cases hvalid : validMessage ether stack.config frame with
  | none => rw [(onRx_of_invalid hsound hvalid []).1]
  | some valid =>
    obtain ⟨p, payload⟩ := valid
    obtain ⟨mac, hrx⟩ := onRx_of_valid hsound hvalid []
    have hp : peer ≠ p := fun he => h payload (he ▸ hvalid)
    rw [hrx]
    exact if_neg hp

theorem connections_step (hsound : ether.Sound) (hinv : Inv ether config w)
    (ha : Spares ether config peer a) (hstep : step ether w a = some w') :
    w'.stack.connections peer = w.stack.connections peer := by
  cases a with
  | onRx frame =>
    cases hstep
    refine connections_onRx hsound ?_
    rw [hinv.config_eq]
    exact ha
  | pollRecv p waker =>
    obtain ⟨-, rfl⟩ := of_guard hstep
    exact (takes_pollRecv w.stack p waker).others peer (Ne.symm ha)
  | sendOwned p msg =>
    obtain ⟨-, rfl⟩ := of_guard hstep
    simp only [sendOwned]
    split <;> rfl
  | dropConnection p =>
    obtain ⟨-, rfl⟩ := of_guard hstep
    exact (takes_dropConnection w.stack p).others peer (Ne.symm ha)

theorem connections_run (hsound : ether.Sound) (hinv : Inv ether config w) {actions : List Action}
    (hspares : ∀ a ∈ actions, Spares ether config peer a)
    (hrun : run (step ether) w actions = some w') :
    w'.stack.connections peer = w.stack.connections peer ∧ Inv ether config w' := by
  induction actions generalizing w with
  | nil =>
    cases hrun
    exact ⟨rfl, hinv⟩
  | cons a actions ih =>
    rw [List.forall_mem_cons] at hspares
    obtain ⟨mid, hmid, hrest⟩ := Option.bind_eq_some_iff.mp hrun
    obtain ⟨hsame, hinv'⟩ := ih (inv_step hsound hinv hmid) hspares.2 hrest
    exact ⟨hsame.trans (connections_step hsound hinv hspares.1 hmid), hinv'⟩

/-- A poll that has to wait leaves its waker. -/
theorem rxWaker_of_pending {waker : Nat} (h : (stack.pollRecv peer waker).1 = none) :
    ∃ state, (stack.pollRecv peer waker).2.connections peer = some state ∧
      state.rxWaker = some waker := by
  unfold pollRecv at h ⊢
  cases hstate : stack.connections peer with
  | none => simp [hstate] at h
  | some state =>
    cases hqueue : state.rxQueue with
    | cons message rxQueue => simp [hstate, hqueue] at h
    | nil =>
      simp only [hstate, hqueue] at h ⊢
      split_ifs at h ⊢
      exact ⟨_, if_pos rfl, rfl⟩

/-- The waker in the entry of a peer is woken by the next valid frame. -/
theorem woken_onRx (hsound : ether.Sound)
    (hvalid : validMessage ether stack.config frame = some (peer, payload))
    {state : ConnectionState} (hstate : stack.connections peer = some state) :
    (stack.onRx ether frame []).2.1.woken = stack.woken ++ state.rxWaker.toList := by
  obtain ⟨mac, hrx⟩ := onRx_of_valid hsound hvalid []
  rw [hrx]
  simp [enqueue, hstate]

/-- In every run, for every peer.  What `recv` has returned and what waits in the queue are
the messages of its valid frames in the order of their arrival.  A poll that has to wait is
woken by the next valid frame, whatever happens in between to the others.  The frames of
another peer leave the entry alone.  One connection is yielded, with the first message. -/
theorem demultiplexes (hsound : ether.Sound)
    (h : Reach (step ether) Anything { stack := .new config } w) (peer : SocketAddrV4) :
    w.returned peer ++ queueOf w.stack peer = messagesFrom ether config peer w.received ∧
    (∀ waker w₁ actions w₂ frame payload, (w.stack.pollRecv peer waker).1 = none →
      step ether w (.pollRecv peer waker) = some w₁ →
      (∀ a ∈ actions, Spares ether config peer a) → run (step ether) w₁ actions = some w₂ →
      validMessage ether config frame = some (peer, payload) →
      (w₂.stack.onRx ether frame []).2.1.woken = w₂.stack.woken ++ [waker]) ∧
    (∀ frame other payload, validMessage ether config frame = some (other, payload) →
      other ≠ peer →
      (w.stack.onRx ether frame []).2.1.connections peer = w.stack.connections peer) ∧
    w.yielded.count peer = if messagesFrom ether config peer w.received = [] then 0 else 1 := by
  have hinv := inv_of_reach hsound h
  refine ⟨hinv.queue peer, ?_, ?_, ?_⟩
  · intro waker w₁ actions w₂ frame payload hpending hpoll hspares hrun hvalid
    have hinv₁ := inv_step hsound hinv hpoll
    obtain ⟨hsame, hinv₂⟩ := connections_run hsound hinv₁ hspares hrun
    obtain ⟨-, rfl⟩ := of_guard hpoll
    obtain ⟨state, hstate, hwaker⟩ := rxWaker_of_pending hpending
    rw [woken_onRx hsound (hinv₂.config_eq.symm ▸ hvalid) (hsame.trans hstate), hwaker]
    rfl
  · intro frame other payload hvalid hother
    refine connections_onRx hsound fun p hp => hother ?_
    rw [hinv.config_eq, hvalid] at hp
    exact congrArg Prod.fst (Option.some.inj hp)
  · have hknown := hinv.known peer
    rw [hinv.yielded peer]
    by_cases hmessages : messagesFrom ether config peer w.received = []
    · rw [if_pos hmessages, if_neg fun hsome => hknown.mp hsome hmessages]
    · rw [if_neg hmessages, if_pos (hknown.mpr hmessages)]

/-- A valid frame yields a connection of its sender; `recv` on it returns the message and then
waits for the next one. -/
def ComesBack (ether : Etherparse) (stack : UdpStack) (frame : List UInt8) (peer : SocketAddrV4)
    (payload : List UInt8) (waker : Nat) : Prop :=
  let r := stack.onRx ether frame []
  let first := r.2.1.pollRecv peer waker
  r.1 = .ok (some peer) ∧ first.1 = some (.ok (some payload)) ∧
    (first.2.pollRecv peer waker).1 = none

/-- In every run, for every valid frame: the peer is taken up exactly if this is its first
valid frame, with or without a live connection, as the entry of a dropped one stays in the
table. -/
theorem comes_back_iff (hsound : ether.Sound)
    (h : Reach (step ether) Anything { stack := .new config } w) {frame payload : List UInt8}
    {peer : SocketAddrV4} (hvalid : validMessage ether config frame = some (peer, payload))
    (waker : Nat) :
    ComesBack ether w.stack frame peer payload waker ↔
      messagesFrom ether config peer w.received = [] := by
  have hinv := inv_of_reach hsound h
  have hknown := hinv.known peer
  obtain ⟨mac, hrx⟩ := onRx_of_valid hsound (hinv.config_eq.symm ▸ hvalid) []
  rw [ComesBack, hrx]
  cases hstate : w.stack.connections peer with
  | some state =>
    rw [hstate] at hknown
    simpa using hknown.mp rfl
  | none =>
    have hnone : messagesFrom ether config peer w.received = [] := by
      by_contra hmessages
      rw [hstate] at hknown
      exact absurd (hknown.mpr hmessages) nofun
    simp [hnone, pollRecv, enqueue, setConnection, hstate]

end Runs

/-! ## Two datagrams -/

theorem sound_plain : Etherparse.plain.Sound := by
  constructor
  · intro frame sliced h
    replace h : Etherparse.plainSliced frame = .ok sliced := h
    show ∃ eth rest, Etherparse.plainEthernet2 frame = .ok (eth, rest)
    unfold Etherparse.plainSliced at h
    rcases hframe : Etherparse.plainEthernet2 frame with e | ⟨eth, rest⟩
    · rw [hframe] at h
      cases h
    · exact ⟨eth, rest, rfl⟩
  · intro frame sliced src dst eth rest h hnet heth
    replace h : Etherparse.plainSliced frame = .ok sliced := h
    replace heth : Etherparse.plainEthernet2 frame = .ok (eth, rest) := heth
    rw [Etherparse.plainSliced, heth] at h
    dsimp only at h
    split_ifs at h with htype
    · cases h
      cases hnet
    · rw [not_not] at htype
      rw [htype]
      decide

/-- A message from another sender, at `10.0.0.3:5555`. -/
def fromOther (payload : List UInt8) : List UInt8 :=
  (Etherparse.plainWriteUdp
    ⟨#v[2, 0, 0, 0, 0, 0xcc], localConfig.localMac, #v[10, 0, 0, 3], localConfig.localIp, 5555,
      localConfig.localPort⟩ payload).toOption.getD []

/-- Messages of two senders arrive in turns: the first sender gets its own two, one by `recv`
and one in the queue. -/
theorem demultiplexes_two :
    ∃ w, Etherparse.plain.Sound ∧
      Reach (step .plain) Anything { stack := .new localConfig } w ∧
      w.received = [fromPeer [1, 0, 0, 0, 7], fromOther [1, 0, 0, 0, 8], fromPeer [1, 0, 0, 0, 9]] ∧
      w.returned somePeer = [[7]] ∧ queueOf w.stack somePeer = [[9]] ∧
      w.returned somePeer ++ queueOf w.stack somePeer =
        messagesFrom .plain localConfig somePeer w.received ∧
      w.yielded.count somePeer =
        if messagesFrom .plain localConfig somePeer w.received = [] then 0 else 1 := by
  have hreach : Reach (step .plain) Anything { stack := .new localConfig } _ :=
    reach_of_run [.onRx (fromPeer [1, 0, 0, 0, 7]), .onRx (fromOther [1, 0, 0, 0, 8]),
      .pollRecv somePeer 0, .onRx (fromPeer [1, 0, 0, 0, 9])] rfl
  have hall := demultiplexes sound_plain hreach somePeer
  exact ⟨_, sound_plain, hreach, rfl, rfl, rfl, hall.1, hall.2.2.2⟩

/-- The first message of a sender yields a connection. -/
theorem comes_back_first :
    ∃ w, Etherparse.plain.Sound ∧
      Reach (step .plain) Anything { stack := .new localConfig } w ∧
      w.received = [fromOther [1, 0, 0, 0, 8]] ∧
      validMessage .plain localConfig (fromPeer [1, 0, 0, 0, 7]) = some (somePeer, [7]) ∧
      somePeer ∉ w.live ∧
      ComesBack .plain w.stack (fromPeer [1, 0, 0, 0, 7]) somePeer [7] 0 := by
  have hreach : Reach (step .plain) Anything { stack := .new localConfig } _ :=
    reach_of_run [.onRx (fromOther [1, 0, 0, 0, 8])] rfl
  have hdead : somePeer ∉ ([⟨#v[10, 0, 0, 3], 5555⟩] : List SocketAddrV4) := by decide
  exact ⟨_, sound_plain, hreach, rfl, rfl, hdead,
    (comes_back_iff sound_plain hreach rfl 0).mpr rfl⟩

/-- The connection of the sender has been dropped, and its next message yields none. -/
theorem gone_for_good :
    ∃ w, Etherparse.plain.Sound ∧
      Reach (step .plain) Anything { stack := .new localConfig } w ∧
      validMessage .plain localConfig (fromPeer [1, 0, 0, 0, 8]) = some (somePeer, [8]) ∧
      somePeer ∉ w.live ∧
      (w.stack.onRx .plain (fromPeer [1, 0, 0, 0, 8]) []).1 = .ok none ∧
      ¬ ComesBack .plain w.stack (fromPeer [1, 0, 0, 0, 8]) somePeer [8] 0 := by
  have hreach : Reach (step .plain) Anything { stack := .new localConfig } _ :=
    reach_of_run [.onRx (fromPeer [1, 0, 0, 0, 7]), .dropConnection somePeer] rfl
  refine ⟨_, sound_plain, hreach, rfl, ?_, rfl, fun h => absurd h.1 nofun⟩
  exact List.not_mem_nil

end Demux

end IronSbe.Transport.Xdp
