import IronSbe.Lib.LittleEndian

/-!
# Ethernet, ARP and UDP frames

The stack above AF_XDP gets whole Ethernet frames and builds whole frames.  Ethernet,
IPv4 and UDP headers are read and written by the `etherparse` crate, which is a
parameter here; ARP packets are read and written by hand.

`Etherparse.plain` is an `etherparse` for frames without options and checksums, for the
examples of the modules above.
-/

namespace IronSbe.Transport.Xdp

open Lib.Bytes

/-- On-wire size of an ARP packet. -/
def arpPacketLen : Nat := 28

/-- EtherType of ARP. -/
def etherTypeArp : UInt16 := 0x0806

/-- EtherType of IPv4. -/
def etherTypeIpv4 : UInt16 := 0x0800

/-- A hardware address. -/
abbrev MacAddr := Vector UInt8 6

/-- An IPv4 address. -/
abbrev Ipv4Addr := Vector UInt8 4

/-- `u16::from_be_bytes`. -/
def u16OfBe (high low : UInt8) : UInt16 := UInt16.ofNat (leNat [low, high])

/-- `u16::to_be_bytes`. -/
def u16ToBe (n : UInt16) : List UInt8 := (leBytes 2 n.toNat).reverse

/-- The `n` bytes of a slice from `start` on; the slice is long enough. -/
def bytesAt (p : List UInt8) (start n : Nat) : Vector UInt8 n :=
  Vector.ofFn fun i => p.getD (start + i) 0

/-- The errors of this layer with their texts. -/
inductive FrameError where
  | malformed (reason : String)
  | unsupported
  deriving DecidableEq, Repr

/-- The texts of the errors. -/
def FrameError.message : FrameError → String
  | .malformed reason => "malformed frame: " ++ reason
  | .unsupported => "unsupported protocol"

/-! ## The `etherparse` crate -/

/-- The header of a frame. -/
structure Ethernet2Header where
  source : MacAddr
  destination : MacAddr
  etherType : UInt16
  deriving DecidableEq, Repr

/-- The network layer of a sliced packet. -/
inductive NetSlice where
  | ipv4 (source destination : Ipv4Addr)
  | other
  deriving DecidableEq, Repr

/-- The transport layer of a sliced packet. -/
inductive TransportSlice where
  | udp (sourcePort destinationPort : UInt16) (payload : List UInt8)
  | other
  deriving DecidableEq, Repr

/-- What the crate finds in a frame behind the Ethernet header. -/
structure SlicedPacket where
  net : Option NetSlice
  transport : Option TransportSlice
  deriving DecidableEq, Repr

/-- Where a UDP datagram goes and where it comes from. -/
structure UdpRoute where
  srcMac : MacAddr
  dstMac : MacAddr
  srcIp : Ipv4Addr
  dstIp : Ipv4Addr
  srcPort : UInt16
  dstPort : UInt16
  deriving DecidableEq, Repr

/-- What the stack uses of the crate.  Errors are the texts of the crate's errors. -/
structure Etherparse where
  /-- `Ethernet2Header::from_slice`. -/
  ethernet2FromSlice : List UInt8 → Except String (Ethernet2Header × List UInt8)
  /-- `SlicedPacket::from_ethernet`. -/
  slicedFromEthernet : List UInt8 → Except String SlicedPacket
  /-- `Ethernet2Header::write`. -/
  writeEthernet2 : Ethernet2Header → Except String (List UInt8)
  /-- `PacketBuilder::write` for a UDP datagram over IPv4. -/
  writeUdp : UdpRoute → List UInt8 → Except String (List UInt8)

/-! ## Parsing -/

/-- A frame with its header read. -/
structure ParsedFrame where
  srcMac : MacAddr
  dstMac : MacAddr
  etherType : UInt16
  l3Payload : List UInt8
  deriving DecidableEq, Repr

/-- A UDP datagram over IPv4. -/
structure ParsedUdp where
  srcIp : Ipv4Addr
  dstIp : Ipv4Addr
  srcPort : UInt16
  dstPort : UInt16
  payload : List UInt8
  deriving DecidableEq, Repr

/-- What the stack uses of an ARP packet. -/
structure ParsedArp where
  senderMac : MacAddr
  senderIp : Ipv4Addr
  targetIp : Ipv4Addr
  /-- One is a request, two a reply. -/
  operation : UInt16
  deriving DecidableEq, Repr

section Parsing

variable (ether : Etherparse)

/-- Read the Ethernet header of a frame. -/
def parseEthernet (frame : List UInt8) : Except FrameError ParsedFrame :=
  match ether.ethernet2FromSlice frame with
  | .error e => .error (.malformed e)
  | .ok (eth, rest) => .ok ⟨eth.source, eth.destination, eth.etherType, rest⟩

/-- The datagram in the frame, or `none` if the frame is well formed but of another
protocol. -/
def parseIpv4Udp (frame : List UInt8) : Except FrameError (Option ParsedUdp) :=
  match ether.slicedFromEthernet frame with
  | .error e => .error (.malformed e)
  | .ok sliced =>
    match sliced.net, sliced.transport with
    | some (.ipv4 srcIp dstIp), some (.udp srcPort dstPort payload) =>
      .ok (some ⟨srcIp, dstIp, srcPort, dstPort, payload⟩)
    | _, _ => .ok none

/-- The part of `parse_arp` behind the Ethernet header. -/
def parseArpPayload (p : List UInt8) : Except FrameError (Option ParsedArp) :=
  if p.length < arpPacketLen then
    .error (.malformed ("arp payload " ++ toString p.length ++ " < " ++ toString arpPacketLen))
  else
    let htype := u16OfBe (p.getD 0 0) (p.getD 1 0)
    let ptype := u16OfBe (p.getD 2 0) (p.getD 3 0)
    let hlen := p.getD 4 0
    let plen := p.getD 5 0
    if htype ≠ 1 ∨ ptype ≠ 0x0800 ∨ hlen ≠ 6 ∨ plen ≠ 4 then .error .unsupported
    else
      .ok (some {
        operation := u16OfBe (p.getD 6 0) (p.getD 7 0)
        senderMac := bytesAt p 8 6
        senderIp := bytesAt p 14 4
        targetIp := bytesAt p 24 4 })

/-- The ARP packet in the frame, or `none` if the frame is of another EtherType. -/
def parseArp (frame : List UInt8) : Except FrameError (Option ParsedArp) :=
  match parseEthernet ether frame with
  | .error e => .error e
  | .ok parsed =>
    if parsed.etherType ≠ etherTypeArp then .ok none else parseArpPayload parsed.l3Payload

end Parsing

/-! ## Building -/

section Building

variable (ether : Etherparse)

/-- A frame with a UDP datagram. -/
def buildUdpIpv4 (route : UdpRoute) (payload : List UInt8) : Except FrameError (List UInt8) :=
  match ether.writeUdp route payload with
  | .error e => .error (.malformed e)
  | .ok frame => .ok frame

/-- The fields of an ARP reply behind the Ethernet header. -/
def arpReplyPacket (ourMac : MacAddr) (ourIp : Ipv4Addr) (targetMac : MacAddr)
    (targetIp : Ipv4Addr) : List UInt8 :=
  u16ToBe 1 ++ u16ToBe 0x0800 ++ [6, 4] ++ u16ToBe 2 ++
    ourMac.toList ++ ourIp.toList ++ targetMac.toList ++ targetIp.toList

/-- A frame with the reply to an ARP request. -/
def buildArpReply (ourMac : MacAddr) (ourIp : Ipv4Addr) (targetMac : MacAddr)
    (targetIp : Ipv4Addr) : Except FrameError (List UInt8) :=
  match ether.writeEthernet2 ⟨ourMac, targetMac, etherTypeArp⟩ with
  | .error e => .error (.malformed e)
  | .ok out => .ok (out ++ arpReplyPacket ourMac ourIp targetMac targetIp)

end Building

/-! ## What is built is read back -/

theorem bytesAt_append {n : Nat} (v : Vector UInt8 n) {front : List UInt8} {start : Nat}
    (hstart : front.length = start) (rest : List UInt8) :
    bytesAt (front ++ (v.toList ++ rest)) start n = v := by
  subst hstart
  ext i hi
  have hlt : i < v.toList.length := by simpa using hi
  simp [bytesAt, List.getD_eq_getElem?_getD, List.getElem?_append_right,
    List.getElem?_append_left hlt, hi]

/-! ## Frames without options and checksums -/

namespace Etherparse

/-- A header of 14 bytes. -/
def plainEthernet2 (frame : List UInt8) : Except String (Ethernet2Header × List UInt8) :=
  if frame.length < 14 then .error "not enough data"
  else
    .ok (⟨bytesAt frame 6 6, bytesAt frame 0 6, u16OfBe (frame.getD 12 0) (frame.getD 13 0)⟩,
      frame.drop 14)

/-- The datagram behind an IPv4 header of 20 bytes. -/
def plainDatagram (ip : List UInt8) : Option TransportSlice :=
  if ip.getD 9 0 = 17 then
    some (.udp (u16OfBe (ip.getD 20 0) (ip.getD 21 0)) (u16OfBe (ip.getD 22 0) (ip.getD 23 0))
      (ip.drop 28))
  else some .other

/-- An IPv4 header of 20 bytes and what is behind it. -/
def plainSliced (frame : List UInt8) : Except String SlicedPacket :=
  match plainEthernet2 frame with
  | .error e => .error e
  | .ok (eth, ip) =>
    if eth.etherType ≠ etherTypeIpv4 then .ok ⟨none, none⟩
    else if ip.length < 28 then .error "not enough data"
    else .ok ⟨some (.ipv4 (bytesAt ip 12 4) (bytesAt ip 16 4)), plainDatagram ip⟩

/-- The 14 bytes of a header. -/
def plainWriteEthernet2 (eth : Ethernet2Header) : List UInt8 :=
  eth.destination.toList ++ eth.source.toList ++ u16ToBe eth.etherType

/-- The headers have sixteen bits for the length of the packet and of the datagram. -/
def plainWriteUdp (r : UdpRoute) (payload : List UInt8) : Except String (List UInt8) :=
  if 65535 < 28 + payload.length then .error "payload too long"
  else
    .ok (plainWriteEthernet2 ⟨r.srcMac, r.dstMac, etherTypeIpv4⟩ ++
      [0x45, 0] ++ u16ToBe (UInt16.ofNat (28 + payload.length)) ++ [0, 0, 0, 0, 64, 17, 0, 0] ++
      r.srcIp.toList ++ r.dstIp.toList ++
      u16ToBe r.srcPort ++ u16ToBe r.dstPort ++
      u16ToBe (UInt16.ofNat (8 + payload.length)) ++ [0, 0] ++ payload)

/-- The `etherparse` of these frames. -/
def plain : Etherparse where
  ethernet2FromSlice := plainEthernet2
  slicedFromEthernet := plainSliced
  writeEthernet2 eth := .ok (plainWriteEthernet2 eth)
  writeUdp := plainWriteUdp

end Etherparse

end IronSbe.Transport.Xdp
