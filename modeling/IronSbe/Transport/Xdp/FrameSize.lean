import Mathlib.Data.List.GetD
import IronSbe.Transport.Xdp.Demux

/-!
# Payloads of the largest size

`max_frame_size` is clamped so that the length prefix and the payload fit into the sixteen bits
of the UDP length.  The length of an IPv4 packet has sixteen bits as well, and its own header
of twenty bytes counts.

* `Etherparse.Inverse`: the crate reads what it writes, and writes what fits.
* `addressed_of_reach`: a peer is in the table under the address that frames are sent to.
* `sendOwned_of_reach`, `onRx_of_writeUdp`: the two ends of a frame.
* `delivers_iff`: the payloads that arrive.
-/

namespace IronSbe.Transport.Xdp

open Lib.Bytes Lib.Framing Lib.Transition UdpStackConfig List UdpStack Etherparse

/-! ## What is assumed of the crate -/

/-- The lengths in the IPv4 and in the UDP header of a datagram fit into sixteen bits. -/
def FitsIpv4 (payload : List UInt8) : Prop :=
  20 + (8 + payload.length) ≤ 65535 ∧ 8 + payload.length ≤ 65535

/-- Exactly the datagrams that fit are written, and they are read back. -/
structure Etherparse.Inverse (ether : Etherparse) : Prop where
  writes : ∀ route payload, (∃ frame, ether.writeUdp route payload = .ok frame) ↔ FitsIpv4 payload
  ethernet : ∀ route payload frame, ether.writeUdp route payload = .ok frame →
    ∃ rest, ether.ethernet2FromSlice frame =
      .ok (⟨route.srcMac, route.dstMac, etherTypeIpv4⟩, rest)
  sliced : ∀ route payload frame, ether.writeUdp route payload = .ok frame →
    ether.slicedFromEthernet frame =
      .ok ⟨some (.ipv4 route.srcIp route.dstIp),
        some (.udp route.srcPort route.dstPort payload)⟩

/-! ## Known peers -/

/-- The frames for a peer go to the address under which it is known. -/
def Addressed (stack : UdpStack) : Prop :=
  ∀ peer state, stack.connections peer = some state →
    state.peerIp = peer.ip ∧ state.peerPort = peer.port

section addressed

variable {stack : UdpStack} {peer : SocketAddrV4}

theorem Addressed.setConnection (h : Addressed stack) {state : ConnectionState}
    (hip : state.peerIp = peer.ip) (hport : state.peerPort = peer.port) :
    Addressed (stack.setConnection peer state) := by
  intro p state' hstate
  by_cases hp : p = peer
  · subst hp
    rw [setConnection] at hstate
    cases (if_pos rfl).symm.trans hstate
    exact ⟨hip, hport⟩
  · exact h p state' ((if_neg hp).symm.trans hstate)

theorem Addressed.enqueue (h : Addressed stack) (peer : SocketAddrV4) (mac : MacAddr)
    (payload : List UInt8) : Addressed (stack.enqueue peer mac payload) := by
  have hset : ∀ state : ConnectionState, state.peerIp = peer.ip → state.peerPort = peer.port →
      Addressed (stack.setConnection peer state) := fun _ hip hport => h.setConnection hip hport
  cases hstate : stack.connections peer with
  | none =>
    rw [UdpStack.enqueue, hstate]
    exact hset _ rfl rfl
  | some state =>
    obtain ⟨hip, hport⟩ := h peer state hstate
    rw [UdpStack.enqueue, hstate]
    exact hset _ hip hport

theorem Addressed.act (h : Addressed stack) (out : List (List UInt8))
    (verdict : UdpStack.Verdict) : Addressed (stack.act out verdict).2.1 := by
  cases verdict with
  | ignored | reply _ | rejected _ => exact h
  | message peer mac payload => exact h.enqueue peer mac payload

theorem Addressed.pollRecv (h : Addressed stack) (peer : SocketAddrV4) (waker : Nat) :
    Addressed (stack.pollRecv peer waker).2 := by
  unfold UdpStack.pollRecv
  cases hstate : stack.connections peer with
  | none => exact h
  | some state =>
    obtain ⟨hip, hport⟩ := h peer state hstate
    cases hqueue : state.rxQueue with
    | cons message rxQueue =>
      simp only [hqueue]
      exact h.setConnection hip hport
    | nil =>
      simp only [hqueue]
      split_ifs
      · exact h
      · exact h.setConnection hip hport

theorem Addressed.dropConnection (h : Addressed stack) (peer : SocketAddrV4) :
    Addressed (stack.dropConnection peer) := by
  unfold UdpStack.dropConnection
  cases hstate : stack.connections peer with
  | none => exact h
  | some state =>
    obtain ⟨hip, hport⟩ := h peer state hstate
    have hset :
        Addressed (stack.setConnection peer { state with closed := true, rxWaker := none }) :=
      h.setConnection hip hport
    exact hset

end addressed

variable {ether : Etherparse} {config : UdpStackConfig}

variable {w : Demux.World} {peer : SocketAddrV4} {payload : List UInt8}

theorem addressed_step {w' : Demux.World} {a : Demux.Action} (h : Addressed w.stack)
    (hstep : Demux.step ether w a = some w') :
    w'.stack.config = w.stack.config ∧ Addressed w'.stack := by
  cases a with
  | onRx frame =>
    cases hstep
    rw [onRx_eq]
    refine ⟨?_, h.act [] _⟩
    cases verdict ether w.stack.config frame <;> rfl
  | pollRecv peer waker =>
    obtain ⟨-, rfl⟩ := of_guard hstep
    exact ⟨config_pollRecv w.stack peer waker, h.pollRecv peer waker⟩
  | sendOwned peer msg =>
    obtain ⟨-, rfl⟩ := of_guard hstep
    -- a frame that waits to be sent is no part of the table
    dsimp only [sendOwned]
    split <;> exact ⟨rfl, h⟩
  | dropConnection peer =>
    obtain ⟨-, rfl⟩ := of_guard hstep
    exact ⟨config_dropConnection w.stack peer, h.dropConnection peer⟩

theorem addressed_of_reach (h : Reach (Demux.step ether) Anything { stack := .new config } w) :
    w.stack.config = config ∧ Addressed w.stack := by
  refine h.invariant (fun w => w.stack.config = config ∧ Addressed w.stack) ?_ ?_
  · exact ⟨rfl, fun _ _ hstate => absurd hstate nofun⟩
  · intro w a w' hw _ hstep
    obtain ⟨hcfg, haddressed⟩ := addressed_step hw.2 hstep
    exact ⟨hcfg.trans hw.1, haddressed⟩

/-! ## The two ends of a frame -/

/-- A configuration with the default size, or with one that has been set. -/
def Configured (config : UdpStackConfig) : Prop :=
  (∃ localIp localPort localMac, config = .new localIp localPort localMac) ∨
    ∃ (base : UdpStackConfig) (size : Nat), config = base.withMaxFrameSize size

theorem Configured.le (h : Configured config) : config.maxFrameSize ≤ defaultMaxFrameSize := by
  rcases h with ⟨_, _, _, rfl⟩ | ⟨base, size, rfl⟩
  · exact Nat.le_refl _
  · exact Nat.min_le_right _ _

/-- The route of the frames to a peer. -/
def routeTo (stack : UdpStack) (peer : SocketAddrV4) (mac : MacAddr) : UdpRoute :=
  ⟨stack.config.localMac, mac, stack.config.localIp, peer.ip, stack.config.localPort, peer.port⟩

/-- The checks of `build_outbound` let all payloads of the configured size pass, and leave the
rest to the crate. -/
theorem buildOutbound_eq (ether : Etherparse) {stack : UdpStack} (hconfig : Configured stack.config)
    (haddressed : Addressed stack) {state : ConnectionState}
    (hstate : stack.connections peer = some state)
    (hlen : payload.length ≤ stack.config.maxFrameSize) :
    stack.buildOutbound ether peer payload =
      buildUdpIpv4 ether (routeTo stack peer state.peerMac) (frame payload) := by
  obtain ⟨hip, hport⟩ := haddressed peer state hstate
  have hle : stack.config.maxFrameSize ≤ 65523 := hconfig.le
  have hwire : stack.config.maxOnWire = stack.config.maxFrameSize + 4 :=
    if_pos (by rw [lengthPrefixBytes]; omega)
  rw [buildOutbound, hstate]
  dsimp only
  rw [hwire, lengthPrefixBytes, if_neg (by omega), if_neg (by omega), hip, hport]
  rfl

/-- A frame that was written for the stack is put in the queue of its sender. -/
theorem onRx_of_writeUdp (hether : ether.Inverse) {route : UdpRoute} {bytes : List UInt8}
    (hwrite : ether.writeUdp route (frame payload) = .ok bytes) {receiver : UdpStack}
    (hip : route.dstIp = receiver.config.localIp)
    (hport : route.dstPort = receiver.config.localPort)
    (hlimit : payload.length ≤ receiver.config.maxFrameSize) (hfit : payload.length < 2 ^ 32)
    (out : List (List UInt8)) :
    receiver.onRx ether bytes out =
      (.ok (if (receiver.connections ⟨route.srcIp, route.srcPort⟩).isNone then
          some ⟨route.srcIp, route.srcPort⟩ else none),
        receiver.enqueue ⟨route.srcIp, route.srcPort⟩ route.srcMac payload, out) := by
  obtain ⟨rest, heth⟩ := hether.ethernet route _ bytes hwrite
  have hparsed : parseEthernet ether bytes =
      .ok ⟨route.srcMac, route.dstMac, etherTypeIpv4, rest⟩ := by
    rw [parseEthernet, heth]
  have harp : arpRequest ether receiver.config bytes = none := by
    rw [arpRequest, parseArp, hparsed]
    rfl
  have hudp : parseIpv4Udp ether bytes =
      .ok (some ⟨route.srcIp, route.dstIp, route.srcPort, route.dstPort, frame payload⟩) := by
    rw [parseIpv4Udp, hether.sliced route _ bytes hwrite]
  have hdecode : decodePayload receiver.config.maxFrameSize (frame payload) =
      .ok (some payload) := by
    have hhead := head_frame_append hlimit hfit []
    rw [append_nil] at hhead
    exact decodePayload_eq_some_iff.mpr ⟨[], hhead⟩
  have hverdict : verdict ether receiver.config bytes =
      .message ⟨route.srcIp, route.srcPort⟩ route.srcMac payload := by
    rw [verdict, harp]
    rw [hudp]
    dsimp only [datagramVerdict]
    rw [if_neg (by simp [hip, hport]), hdecode, hparsed]
  rw [onRx_eq, hverdict]
  rfl

/-! ## Payloads that arrive -/

/-- A stack that a peer of `stack` may run: it has the address of the peer and the same limit. -/
structure IsPeer (stack : UdpStack) (peer : SocketAddrV4) (receiver : UdpStack) : Prop where
  ip : receiver.config.localIp = peer.ip
  port : receiver.config.localPort = peer.port
  maxFrameSize : receiver.config.maxFrameSize = stack.config.maxFrameSize

/-- `send` succeeds, and the peer puts the payload in the queue of this stack and changes no
other queue. -/
def Delivers (ether : Etherparse) (stack : UdpStack) (peer : SocketAddrV4)
    (payload : List UInt8) : Prop :=
  ∃ bytes, stack.sendOwned ether peer payload =
      (.ok (), { stack with pendingTx := stack.pendingTx ++ [bytes] }) ∧
    ∀ receiver out, IsPeer stack peer receiver →
      (∃ conn, (receiver.onRx ether bytes out).1 = .ok conn) ∧
      ∀ p, Demux.queueOf (receiver.onRx ether bytes out).2.1 p =
        Demux.queueOf receiver p ++
          if p = ⟨stack.config.localIp, stack.config.localPort⟩ then [payload] else []

/-- In every run, `send` returns what the crate makes of the datagram. -/
theorem sendOwned_of_reach (hconfig : Configured config)
    (h : Reach (Demux.step ether) Anything { stack := .new config } w)
    (hknown : (w.stack.connections peer).isSome = true)
    (hlen : payload.length ≤ config.maxFrameSize) :
    ∃ mac, w.stack.sendOwned ether peer payload =
      match ether.writeUdp (routeTo w.stack peer mac) (frame payload) with
      | .error e => (.error (.other (FrameError.malformed e).message), w.stack)
      | .ok bytes => (.ok (), { w.stack with pendingTx := w.stack.pendingTx ++ [bytes] }) := by
  obtain ⟨hcfg, haddressed⟩ := addressed_of_reach h
  obtain ⟨state, hstate⟩ := Option.isSome_iff_exists.mp hknown
  rw [← hcfg] at hconfig hlen
  refine ⟨state.peerMac, ?_⟩
  rw [sendOwned, buildOutbound_eq ether hconfig haddressed hstate hlen, buildUdpIpv4]
  cases ether.writeUdp (routeTo w.stack peer state.peerMac) (frame payload) <;> rfl

/-- In every run, for every peer in the table and every payload within the limit: it arrives
exactly if there is room for the headers of IPv4 and UDP and for the length prefix. -/
theorem delivers_iff (hether : ether.Inverse) (hconfig : Configured config) {w : Demux.World}
    (h : Reach (Demux.step ether) Anything { stack := .new config } w) {peer : SocketAddrV4}
    (hknown : (w.stack.connections peer).isSome = true) {payload : List UInt8}
    (hlen : payload.length ≤ config.maxFrameSize) :
    Delivers ether w.stack peer payload ↔ 20 + 8 + 4 + payload.length ≤ 65535 := by
  obtain ⟨mac, hsend⟩ := sendOwned_of_reach hconfig h hknown hlen
  have hle : config.maxFrameSize ≤ 65523 := hconfig.le
  have hfits : FitsIpv4 (frame payload) ↔ 20 + 8 + 4 + payload.length ≤ 65535 := by
    rw [FitsIpv4, length_frame]
    omega
  rw [← hfits, ← hether.writes (routeTo w.stack peer mac)]
  constructor
  · rintro ⟨bytes, hok, -⟩
    cases hwrite : ether.writeUdp (routeTo w.stack peer mac) (frame payload) with
    | error e =>
      rw [hwrite, hok] at hsend
      exact absurd (congrArg Prod.fst hsend) nofun
    | ok bytes => exact ⟨bytes, rfl⟩
  · rintro ⟨bytes, hwrite⟩
    rw [hwrite] at hsend
    refine ⟨bytes, hsend, fun receiver out hpeer => ?_⟩
    have hlimit : payload.length ≤ receiver.config.maxFrameSize := by
      rw [hpeer.maxFrameSize, (addressed_of_reach h).1]
      exact hlen
    rw [onRx_of_writeUdp hether hwrite hpeer.ip.symm hpeer.port.symm hlimit (by omega) out]
    refine ⟨⟨_, rfl⟩, fun p => ?_⟩
    rw [Demux.queueOf_enqueue]
    change (if p = ⟨w.stack.config.localIp, w.stack.config.localPort⟩ then _ else _) = _
    split_ifs
    · rfl
    · exact (append_nil _).symm

/-! ## Frames without options -/

/-- A number in the middle of a frame is read back. -/
theorem u16OfBe_append (n : UInt16) {front : List UInt8} {start : Nat}
    (hstart : front.length = start) (rest : List UInt8) :
    u16OfBe ((front ++ (u16ToBe n ++ rest)).getD start 0)
      ((front ++ (u16ToBe n ++ rest)).getD (start + 1) 0) = n := by
  obtain ⟨low, high, hbytes⟩ := length_eq_two.mp (length_leBytes 2 n.toNat)
  have hbe : u16ToBe n = [high, low] := by
    rw [u16ToBe, hbytes]
    rfl
  subst hstart
  rw [hbe, getD_append_right _ _ _ _ (Nat.le_refl _),
    getD_append_right _ _ _ _ (Nat.le_add_right _ 1), Nat.sub_self, Nat.add_sub_cancel_left]
  change UInt16.ofNat (leNat [low, high]) = n
  rw [← hbytes, leNat_leBytes n.toNat_lt, UInt16.ofNat_toNat]

theorem length_u16ToBe (n : UInt16) : (u16ToBe n).length = 2 := by simp [u16ToBe]

/-- The part of the IPv4 header in front of the addresses. -/
def plainHeader (totalLen : Nat) : List UInt8 :=
  [0x45, 0] ++ (u16ToBe (UInt16.ofNat totalLen) ++ [0, 0, 0, 0, 64, 17, 0, 0])

theorem length_plainHeader (totalLen : Nat) : (plainHeader totalLen).length = 12 := by
  simp [plainHeader, length_u16ToBe]

/-- The packet that follows the Ethernet header. -/
def plainPacket (route : UdpRoute) (payload : List UInt8) : List UInt8 :=
  plainHeader (28 + payload.length) ++ (route.srcIp.toList ++ (route.dstIp.toList ++
    (u16ToBe route.srcPort ++ (u16ToBe route.dstPort ++
      (u16ToBe (UInt16.ofNat (8 + payload.length)) ++ ([0, 0] ++ payload))))))

theorem plainSliced_packet (route : UdpRoute) (payload : List UInt8) :
    28 ≤ (plainPacket route payload).length ∧
    bytesAt (plainPacket route payload) 12 4 = route.srcIp ∧
    bytesAt (plainPacket route payload) 16 4 = route.dstIp ∧
    Etherparse.plainDatagram (plainPacket route payload) =
      some (.udp route.srcPort route.dstPort payload) := by
  have hheader := length_plainHeader (28 + payload.length)
  have hprotocol : (plainPacket route payload).getD 9 0 = 17 := by
    rw [plainPacket, getD_append _ _ _ _ (by omega), plainHeader, ← append_assoc,
      getD_append_right _ _ _ _ (by simp [length_u16ToBe])]
    simp [length_u16ToBe]
  have hdrop : (plainPacket route payload).drop 28 = payload := by
    simp only [plainPacket, ← append_assoc]
    exact drop_left' (by simp [hheader, length_u16ToBe])
  refine ⟨?_, bytesAt_append route.srcIp hheader _, ?_, ?_⟩
  · simp [plainPacket, hheader, length_u16ToBe]
    omega
  · rw [plainPacket, ← append_assoc]
    exact bytesAt_append route.dstIp (by simp [hheader]) _
  · rw [plainDatagram, if_pos hprotocol, hdrop]
    congr 2
    · rw [plainPacket, ← append_assoc, ← append_assoc]
      exact u16OfBe_append route.srcPort (by simp [hheader]) _
    · rw [plainPacket, ← append_assoc, ← append_assoc, ← append_assoc]
      exact u16OfBe_append route.dstPort (by simp [hheader, length_u16ToBe]) _

theorem plainEthernet2_append (eth : Ethernet2Header) (rest : List UInt8) :
    Etherparse.plainEthernet2 (Etherparse.plainWriteEthernet2 eth ++ rest) = .ok (eth, rest) := by
  have hframe : plainWriteEthernet2 eth ++ rest =
      eth.destination.toList ++ (eth.source.toList ++ (u16ToBe eth.etherType ++ rest)) := by
    rw [plainWriteEthernet2, append_assoc, append_assoc]
  have hdrop : (plainWriteEthernet2 eth ++ rest).drop 14 = rest :=
    drop_left' (by simp [plainWriteEthernet2, length_u16ToBe])
  have hlen : ¬ (plainWriteEthernet2 eth ++ rest).length < 14 := by
    simp [hframe, length_u16ToBe]
    omega
  rw [plainEthernet2, if_neg hlen, hdrop, hframe]
  congr 3
  · exact bytesAt_append eth.source (by simp) _
  · exact bytesAt_append eth.destination (show ([] : List UInt8).length = 0 from rfl) _
  · rw [← append_assoc]
    exact u16OfBe_append eth.etherType (by simp) rest

theorem plainWriteUdp_eq (route : UdpRoute) (payload : List UInt8) :
    Etherparse.plainWriteUdp route payload =
      if 65535 < 28 + payload.length then .error "payload too long"
      else .ok (Etherparse.plainWriteEthernet2 ⟨route.srcMac, route.dstMac, etherTypeIpv4⟩ ++
        plainPacket route payload) := by
  simp only [plainWriteUdp, plainPacket, plainHeader, append_assoc]

theorem inverse_plain : Etherparse.plain.Inverse := by
  have hok : ∀ route payload frame, plainWriteUdp route payload = .ok frame →
      frame = plainWriteEthernet2 ⟨route.srcMac, route.dstMac, etherTypeIpv4⟩ ++
        plainPacket route payload := by
    intro route payload frame h
    rw [plainWriteUdp_eq] at h
    split_ifs at h
    exact (Except.ok.inj h).symm
  constructor
  · intro route payload
    change (∃ frame, plainWriteUdp route payload = .ok frame) ↔ _
    rw [plainWriteUdp_eq, FitsIpv4]
    split_ifs with hlen
    · exact iff_of_false nofun (by omega)
    · exact iff_of_true ⟨_, rfl⟩ (by omega)
  · intro route payload frame h
    obtain rfl := hok route payload frame h
    exact ⟨_, plainEthernet2_append _ _⟩
  · intro route payload frame h
    obtain rfl := hok route payload frame h
    obtain ⟨hlen, hsrc, hdst, hudp⟩ := plainSliced_packet route payload
    change plainSliced _ = _
    rw [plainSliced, plainEthernet2_append]
    dsimp only
    rw [if_neg (not_not_intro rfl), if_neg (by omega), hsrc, hdst, hudp]

theorem delivers_three :
    ∃ w, Etherparse.plain.Inverse ∧ Configured localConfig ∧
      Reach (Demux.step .plain) Anything { stack := .new localConfig } w ∧
      (w.stack.connections somePeer).isSome = true ∧
      Delivers .plain w.stack somePeer [1, 2, 3] := by
  have hreach : Reach (Demux.step .plain) Anything { stack := .new localConfig } _ :=
    reach_of_run [.onRx (fromPeer [1, 0, 0, 0, 7])] rfl
  have hconfig : Configured localConfig := .inl ⟨_, _, _, rfl⟩
  exact ⟨_, inverse_plain, hconfig, hreach, rfl,
    (delivers_iff inverse_plain hconfig hreach rfl (by decide)).mpr (by decide)⟩

/-- A payload within the default limit is refused by the crate. -/
theorem not_delivers_of_default :
    ∃ w payload, Etherparse.plain.Inverse ∧ Configured localConfig ∧
      Reach (Demux.step .plain) Anything { stack := .new localConfig } w ∧
      (w.stack.connections somePeer).isSome = true ∧
      payload.length ≤ localConfig.maxFrameSize ∧
      (w.stack.sendOwned .plain somePeer payload).1 =
        .error (.other "malformed frame: payload too long") ∧
      ¬ Delivers .plain w.stack somePeer payload := by
  have hreach : Reach (Demux.step .plain) Anything { stack := .new localConfig } _ :=
    reach_of_run [.onRx (fromPeer [1, 0, 0, 0, 7])] rfl
  have hconfig : Configured localConfig := .inl ⟨_, _, _, rfl⟩
  obtain ⟨payload, hlength⟩ : ∃ payload : List UInt8, payload.length = 65504 :=
    ⟨replicate 65504 0, length_replicate⟩
  have hlen : payload.length ≤ localConfig.maxFrameSize := by
    rw [hlength]
    decide
  have hwrite : ∀ route, plain.writeUdp route (frame payload) =
      .error "payload too long" := by
    intro route
    refine (plainWriteUdp_eq route _).trans (if_pos ?_)
    rw [length_frame, hlength]
    decide
  obtain ⟨mac, hsend⟩ := sendOwned_of_reach hconfig hreach
    (show (connections _ somePeer).isSome = true from rfl) hlen
  rw [hwrite] at hsend
  refine ⟨_, payload, inverse_plain, hconfig, hreach, rfl, hlen, congrArg Prod.fst hsend, ?_⟩
  rintro ⟨bytes, hok, -⟩
  exact absurd (congrArg Prod.fst (hok.symm.trans hsend)) nofun

end IronSbe.Transport.Xdp
