import IronSbe.Transport.Xdp.Frames

/-!
# The UDP stack

`UdpStack` takes the datagrams for its own address apart by their senders.  The first
message of a sender opens a connection, and every message is put in the queue of its
connection, where `recv` finds it.  What a connection sends is built into a frame at
once and waits in `pending_tx`.

* `Verdict`, `verdict`: what a frame means to a stack; the connections play no part in it.
* `onRx_eq`: a call of `on_rx` acts on the verdict, and a rejected frame changes nothing.
-/

namespace IronSbe.Transport.Xdp

open Lib.Bytes

/-- The address of a peer. -/
structure SocketAddrV4 where
  ip : Ipv4Addr
  port : UInt16
  deriving DecidableEq, Repr

instance : ToString SocketAddrV4 where
  toString peer :=
    ".".intercalate (peer.ip.toList.map toString) ++ ":" ++ toString peer.port

/-! ## Configuration -/

namespace UdpStackConfig

/-- The length in front of every message. -/
def lengthPrefixBytes : Nat := 4

/-- Largest payload that the sixteen-bit length of UDP can express. -/
def maxUdpPayload : Nat := 65535 - 8

/-- The longest message of a datagram. -/
def defaultMaxFrameSize : Nat := maxUdpPayload - lengthPrefixBytes

end UdpStackConfig

/-- The configuration of a stack. -/
structure UdpStackConfig where
  localIp : Ipv4Addr
  localPort : UInt16
  localMac : MacAddr
  maxFrameSize : Nat
  deriving DecidableEq, Repr

namespace UdpStackConfig

/-- A configuration with the default limit. -/
def new (localIp : Ipv4Addr) (localPort : UInt16) (localMac : MacAddr) : UdpStackConfig :=
  ⟨localIp, localPort, localMac, defaultMaxFrameSize⟩

/-- The setter `max_frame_size`, which clamps the size. -/
def withMaxFrameSize (config : UdpStackConfig) (size : Nat) : UdpStackConfig :=
  { config with maxFrameSize := min size (maxUdpPayload - lengthPrefixBytes) }

/-- Largest payload of a datagram that is sent.  The addition is that of `usize`. -/
def maxOnWire (config : UdpStackConfig) : Nat :=
  if config.maxFrameSize + lengthPrefixBytes < 2 ^ 64 then config.maxFrameSize + lengthPrefixBytes
  else maxUdpPayload

end UdpStackConfig

open UdpStackConfig

/-! ## The stack -/

/-- The state of a connection.  Wakers are numbered. -/
structure ConnectionState where
  peerIp : Ipv4Addr
  peerPort : UInt16
  peerMac : MacAddr
  rxQueue : List (List UInt8) := []
  rxWaker : Option Nat := none
  closed : Bool := false
  deriving DecidableEq, Repr

/-- The state that the stack and its connections share. -/
structure UdpStack where
  config : UdpStackConfig
  connections : SocketAddrV4 → Option ConnectionState := fun _ => none
  pendingTx : List (List UInt8) := []
  /-- The wakers that have been woken, the first one first. -/
  woken : List Nat := []

/-- The errors of the stack. -/
inductive UdpStackError where
  | frame (e : FrameError)
  deriving DecidableEq, Repr

/-- The texts of the errors. -/
def UdpStackError.message : UdpStackError → String
  | .frame e => "frame error: " ++ e.message

/-- The errors of `UdpConnection`. -/
inductive UdpConnectionError where
  | notConnected (peer : SocketAddrV4)
  | other (message : String)
  deriving DecidableEq, Repr

/-- The texts of the errors. -/
def UdpConnectionError.message : UdpConnectionError → String
  | .notConnected peer => "peer " ++ toString peer ++ " dropped from stack state"
  | .other message => message

namespace UdpStack

/-- A stack without connections. -/
def new (config : UdpStackConfig) : UdpStack := { config := config }

/-- Replace the state of a connection. -/
def setConnection (s : UdpStack) (peer : SocketAddrV4) (state : ConnectionState) : UdpStack :=
  { s with connections := fun p => if p = peer then some state else s.connections p }

section OnRx

variable (ether : Etherparse)

/-- The ARP request in the frame, if there is one for the address of the stack. -/
def arpRequest (config : UdpStackConfig) (frame : List UInt8) : Option ParsedArp :=
  match parseArp ether frame with
  | .ok (some arp) =>
    if arp.operation = 1 ∧ arp.targetIp = config.localIp then some arp else none
  | _ => none

/-- The message in the payload of a datagram, or `none` if it is not for us to judge:
too short for a length, or longer than the limit. -/
def decodePayload (maxFrameSize : Nat) (payload : List UInt8) :
    Except FrameError (Option (List UInt8)) :=
  if payload.length < lengthPrefixBytes then .ok none
  else
    let frameLen := leNat (payload.take lengthPrefixBytes)
    if maxFrameSize < frameLen then .ok none
    else
      let total := lengthPrefixBytes + frameLen
      if payload.length < total then
        .error (.malformed ("udp payload " ++ toString payload.length ++
          " too short for frame_len " ++ toString frameLen))
      else .ok (some ((payload.take total).drop lengthPrefixBytes))

/-- Put a message in the queue of its sender, and wake the `recv` that waits for it. -/
def enqueue (s : UdpStack) (peer : SocketAddrV4) (peerMac : MacAddr) (payload : List UInt8) :
    UdpStack :=
  let state := (s.connections peer).getD
    { peerIp := peer.ip, peerPort := peer.port, peerMac := peerMac }
  { s.setConnection peer { state with rxQueue := state.rxQueue ++ [payload], rxWaker := none } with
    woken := s.woken ++ state.rxWaker.toList }

/-- `on_rx`: the connection that has become ready, the stack, and the transmit queue. -/
def onRx (s : UdpStack) (frame : List UInt8) (out : List (List UInt8)) :
    Except UdpStackError (Option SocketAddrV4) × UdpStack × List (List UInt8) :=
  match arpRequest ether s.config frame with
  | some arp =>
    match buildArpReply ether s.config.localMac s.config.localIp arp.senderMac arp.senderIp with
    | .error e => (.error (.frame e), s, out)
    | .ok reply => (.ok none, s, out ++ [reply])
  | none =>
    match parseIpv4Udp ether frame with
    | .ok (some udp) =>
      if udp.dstIp ≠ s.config.localIp ∨ udp.dstPort ≠ s.config.localPort then (.ok none, s, out)
      else
        match decodePayload s.config.maxFrameSize udp.payload with
        | .error e => (.error (.frame e), s, out)
        | .ok none => (.ok none, s, out)
        | .ok (some payload) =>
          -- the source address of the Ethernet header is where answers go
          match parseEthernet ether frame with
          | .error e => (.error (.frame e), s, out)
          | .ok eth =>
            let peer : SocketAddrV4 := ⟨udp.srcIp, udp.srcPort⟩
            (.ok (if (s.connections peer).isNone then some peer else none),
              s.enqueue peer eth.srcMac payload, out)
    | _ => (.ok none, s, out)

end OnRx

/-- `poll_timers`: there are none. -/
def pollTimers (s : UdpStack) (out : List (List UInt8)) :
    Except UdpStackError Unit × UdpStack × List (List UInt8) :=
  (.ok (), s, out)

/-! ## Connections -/

/-- `UdpConnection::drop`. -/
def dropConnection (s : UdpStack) (peer : SocketAddrV4) : UdpStack :=
  match s.connections peer with
  | none => s
  | some state =>
    { s.setConnection peer { state with closed := true, rxWaker := none } with
      woken := s.woken ++ state.rxWaker.toList }

/-- `UdpRecvFuture::poll`, where `none` is `Poll::Pending`. -/
def pollRecv (s : UdpStack) (peer : SocketAddrV4) (waker : Nat) :
    Option (Except UdpConnectionError (Option (List UInt8))) × UdpStack :=
  match s.connections peer with
  | none => (some (.error (.notConnected peer)), s)
  | some state =>
    match state.rxQueue with
    | frame :: rxQueue =>
      (some (.ok (some frame)), s.setConnection peer { state with rxQueue := rxQueue })
    | [] =>
      if state.closed then (some (.ok none), s)
      else (none, s.setConnection peer { state with rxWaker := some waker })

section Send

variable (ether : Etherparse)

/-- The frame for a message to a peer. -/
def buildOutbound (s : UdpStack) (peer : SocketAddrV4) (payload : List UInt8) :
    Except FrameError (List UInt8) :=
  match s.connections peer with
  | none => .error (.malformed ("no connection state for peer " ++ toString peer))
  | some state =>
    let datagramLen := lengthPrefixBytes + payload.length
    if s.config.maxOnWire < datagramLen then
      .error (.malformed ("frame too large: on-wire UDP payload " ++ toString datagramLen ++
        " exceeds limit " ++ toString s.config.maxOnWire))
    else if 2 ^ 32 ≤ payload.length then
      .error (.malformed ("frame length " ++ toString payload.length ++ " > u32::MAX"))
    else
      buildUdpIpv4 ether
        ⟨s.config.localMac, state.peerMac, s.config.localIp, state.peerIp, s.config.localPort,
          state.peerPort⟩
        (leBytes lengthPrefixBytes payload.length ++ payload)

/-- `UdpConnection::send_owned`; `send` copies the message and calls it. -/
def sendOwned (s : UdpStack) (peer : SocketAddrV4) (msg : List UInt8) :
    Except UdpConnectionError Unit × UdpStack :=
  match s.buildOutbound ether peer msg with
  | .error e => (.error (.other e.message), s)
  | .ok frame => (.ok (), { s with pendingTx := s.pendingTx ++ [frame] })

end Send

/-! ## What a frame means to the stack -/

/-- What `on_rx` makes of a frame. -/
inductive Verdict where
  | ignored
  | reply (frame : List UInt8)
  | rejected (e : FrameError)
  | message (peer : SocketAddrV4) (peerMac : MacAddr) (payload : List UInt8)
  deriving DecidableEq, Repr

section Verdict

variable (ether : Etherparse)

/-- The verdict on the datagram in a frame. -/
def datagramVerdict (config : UdpStackConfig) (frame : List UInt8) (udp : ParsedUdp) : Verdict :=
  if udp.dstIp ≠ config.localIp ∨ udp.dstPort ≠ config.localPort then .ignored
  else
    match decodePayload config.maxFrameSize udp.payload, parseEthernet ether frame with
    | .ok none, _ => .ignored
    | .error e, _ => .rejected e
    | .ok (some _), .error e => .rejected e
    | .ok (some payload), .ok eth => .message ⟨udp.srcIp, udp.srcPort⟩ eth.srcMac payload

/-- What the stack does with a frame. -/
def verdict (config : UdpStackConfig) (frame : List UInt8) : Verdict :=
  match arpRequest ether config frame with
  | some arp =>
    match buildArpReply ether config.localMac config.localIp arp.senderMac arp.senderIp with
    | .error e => .rejected e
    | .ok reply => .reply reply
  | none =>
    match parseIpv4Udp ether frame with
    | .ok (some udp) => datagramVerdict ether config frame udp
    | _ => .ignored

/-- The effect of a verdict. -/
def act (s : UdpStack) (out : List (List UInt8)) :
    Verdict → Except UdpStackError (Option SocketAddrV4) × UdpStack × List (List UInt8)
  | .ignored => (.ok none, s, out)
  | .reply frame => (.ok none, s, out ++ [frame])
  | .rejected e => (.error (.frame e), s, out)
  | .message peer peerMac payload =>
    (.ok (if (s.connections peer).isNone then some peer else none), s.enqueue peer peerMac payload,
      out)

/-- A call of `on_rx` acts on what the frame means to the stack. -/
theorem onRx_eq (s : UdpStack) (frame : List UInt8) (out : List (List UInt8)) :
    s.onRx ether frame out = s.act out (verdict ether s.config frame) := by
  unfold onRx verdict
  cases arpRequest ether s.config frame with
  | some arp =>
    dsimp only
    cases buildArpReply ether s.config.localMac s.config.localIp arp.senderMac arp.senderIp <;> rfl
  | none =>
    rcases parseIpv4Udp ether frame with e | _ | udp
    · rfl
    · rfl
    · dsimp only [datagramVerdict]
      by_cases haddr : udp.dstIp ≠ s.config.localIp ∨ udp.dstPort ≠ s.config.localPort
      · rw [if_pos haddr, if_pos haddr]
        rfl
      · rw [if_neg haddr, if_neg haddr]
        rcases decodePayload s.config.maxFrameSize udp.payload with e | _ | payload
        · rfl
        · rfl
        · cases parseEthernet ether frame <;> rfl

end Verdict

/-! ## What is sent -/

theorem connections_enqueue (s : UdpStack) (peer : SocketAddrV4) (peerMac : MacAddr)
    (payload : List UInt8) (p : SocketAddrV4) :
    (s.enqueue peer peerMac payload).connections p =
      if p = peer then
        some { (s.connections peer).getD
            { peerIp := peer.ip, peerPort := peer.port, peerMac := peerMac } with
          rxQueue := ((s.connections peer).getD
            { peerIp := peer.ip, peerPort := peer.port, peerMac := peerMac }).rxQueue ++ [payload]
          rxWaker := none }
      else s.connections p := rfl

@[simp] theorem config_dropConnection (s : UdpStack) (peer : SocketAddrV4) :
    (s.dropConnection peer).config = s.config := by
  unfold dropConnection
  split <;> rfl

@[simp] theorem pendingTx_dropConnection (s : UdpStack) (peer : SocketAddrV4) :
    (s.dropConnection peer).pendingTx = s.pendingTx := by
  unfold dropConnection
  split <;> rfl

/-- A poll changes nothing but the state of its connection. -/
theorem pollRecv_stack (s : UdpStack) (peer : SocketAddrV4) (waker : Nat) :
    (s.pollRecv peer waker).2 = s ∨
      ∃ state, (s.pollRecv peer waker).2 = s.setConnection peer state := by
  unfold pollRecv
  split
  · exact .inl rfl
  · split
    · exact .inr ⟨_, rfl⟩
    · split_ifs
      · exact .inl rfl
      · exact .inr ⟨_, rfl⟩

@[simp] theorem config_pollRecv (s : UdpStack) (peer : SocketAddrV4) (waker : Nat) :
    (s.pollRecv peer waker).2.config = s.config := by
  rcases s.pollRecv_stack peer waker with h | ⟨state, h⟩
  · rw [h]
  · rw [h]
    rfl

@[simp] theorem pendingTx_pollRecv (s : UdpStack) (peer : SocketAddrV4) (waker : Nat) :
    (s.pollRecv peer waker).2.pendingTx = s.pendingTx := by
  rcases s.pollRecv_stack peer waker with h | ⟨state, h⟩
  · rw [h]
  · rw [h]
    rfl

end UdpStack

end IronSbe.Transport.Xdp
