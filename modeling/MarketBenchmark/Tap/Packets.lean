import MarketBenchmark.Tap.Reassembler
import MarketBenchmark.Foundation.Panics
import MarketBenchmark.Foundation.Endian

/-!
# Captured packets

The capture socket hands over whole IPv4 packets, network header first, and
`parse_ipv4_tcp` takes a TCP segment of the tapped peer out of each.  Two
header lengths, a total length that may be wrong, and padding behind the packet
decide where the payload is.  The parser stands here twice, once as it indexes
the packet and once without the checks of its reads.
-/

namespace MarketBenchmark.Tap

open Foundation.Panics
open Foundation.Endian

structure Ipv4Addr where
  a : UInt8
  b : UInt8
  c : UInt8
  d : UInt8
  deriving DecidableEq, Repr

namespace Ipv4Addr

def octets (addr : Ipv4Addr) : List UInt8 := [addr.a, addr.b, addr.c, addr.d]

/-- `u32::from(addr)` -/
def toU32 (addr : Ipv4Addr) : Nat := fromBe addr.octets

end Ipv4Addr

/-! ## The parser -/

/-- The part of `parse_ipv4_tcp` behind the IP header. -/
def tcpSegmentChecked (tcp : Slice) (srcPort : UInt16) (wallNs : Nat) : Fallible Segment := do
  if tcp.length < 20 then failure
  else
    let port := fromBe (← tcp.bytesAt 0 2)
    if port ≠ srcPort.toNat then failure
    else
      let offset ← tcp.byteAt 12
      let dataOffset := (offset >>> 4).toNat * 4
      if dataOffset < 20 ∨ tcp.length < dataOffset then failure
      else
        let dstPort := fromBe (← tcp.bytesAt 2 2)
        let seq := fromBe (← tcp.bytesAt 4 4)
        let flags ← tcp.byteAt 13
        let payload ← tcp.range dataOffset tcp.length
        pure
          { dstPort := dstPort
            seq := BitVec.ofNat 32 seq
            flags := flags.toBitVec
            payload := payload.bytes
            wallNs := wallNs }

/-- `parse_ipv4_tcp`, with every read of the packet. -/
def parseIpv4TcpChecked (packet : Slice) (src : Ipv4Addr) (srcPort : UInt16) (wallNs : Nat) :
    Fallible Segment := do
  if packet.length < 20 then failure
  else
    let first ← packet.byteAt 0
    if first >>> 4 ≠ 4 then failure
    else
      let ihl := (first &&& 0x0f).toNat * 4
      let total := fromBe (← packet.bytesAt 2 2)
      let frag := fromBe (← packet.bytesAt 6 2)
      let protocol ← packet.byteAt 9
      if ihl < 20 ∨ protocol ≠ 6 ∨ frag &&& 0x3fff ≠ 0 then failure
      else
        let octets ← packet.bytesAt 12 4
        if octets ≠ src.octets then failure
        else
          let stop := if ihl + 20 ≤ total ∧ total ≤ packet.length then total else packet.length
          let tcp ← packet.getRange ihl stop
          tcpSegmentChecked tcp srcPort wallNs

/-- The byte at an index that is known to be inside. -/
def octet (bytes : List UInt8) (index : Nat) : UInt8 := bytes.getD index 0

/-- So many bytes from an index on. -/
def field (bytes : List UInt8) (start size : Nat) : List UInt8 := (bytes.drop start).take size

/-- The length of the IP header that its first byte states. -/
def headerLength (bytes : List UInt8) : Nat := (octet bytes 0 &&& 0x0f).toNat * 4

/-- Where the parser lets the packet end. -/
def packetEnd (bytes : List UInt8) : Nat :=
  if headerLength bytes + 20 ≤ fromBe (field bytes 2 2) ∧
      fromBe (field bytes 2 2) ≤ bytes.length then fromBe (field bytes 2 2)
  else bytes.length

/-- What the parser takes for the TCP segment. -/
def tcpBytes (bytes : List UInt8) : List UInt8 :=
  (bytes.take (packetEnd bytes)).drop (headerLength bytes)

/-- The length of the TCP header that its data offset states. -/
def tcpDataOffset (tcp : List UInt8) : Nat := (octet tcp 12 >>> 4).toNat * 4

/-- The segment that the header fields describe. -/
def segmentOf (tcp : List UInt8) (wallNs : Nat) : Segment where
  dstPort := fromBe (field tcp 2 2)
  seq := BitVec.ofNat 32 (fromBe (field tcp 4 4))
  flags := (octet tcp 13).toBitVec
  payload := tcp.drop (tcpDataOffset tcp)
  wallNs := wallNs

/-- The IP header is that of an unfragmented TCP packet of the peer. -/
structure FromPeer (bytes : List UInt8) (src : Ipv4Addr) : Prop where
  long : 20 ≤ bytes.length
  version : octet bytes 0 >>> 4 = 4
  header : 20 ≤ headerLength bytes
  protocol : octet bytes 9 = 6
  whole : fromBe (field bytes 6 2) &&& 0x3fff = 0
  source : field bytes 12 4 = src.octets

/-- The TCP header is whole, of the port, and its data offset is inside the segment. -/
structure OfPort (tcp : List UInt8) (srcPort : UInt16) : Prop where
  long : 20 ≤ tcp.length
  source : fromBe (field tcp 0 2) = srcPort.toNat
  offset : 20 ≤ tcpDataOffset tcp
  within : tcpDataOffset tcp ≤ tcp.length

instance (bytes : List UInt8) (src : Ipv4Addr) : Decidable (FromPeer bytes src) :=
  decidable_of_iff
    (20 ≤ bytes.length ∧ octet bytes 0 >>> 4 = 4 ∧ 20 ≤ headerLength bytes ∧
      octet bytes 9 = 6 ∧ fromBe (field bytes 6 2) &&& 0x3fff = 0 ∧
      field bytes 12 4 = src.octets)
    ⟨fun ⟨long, version, header, protocol, whole, source⟩ =>
        ⟨long, version, header, protocol, whole, source⟩,
      fun peer => ⟨peer.long, peer.version, peer.header, peer.protocol, peer.whole, peer.source⟩⟩

instance (tcp : List UInt8) (srcPort : UInt16) : Decidable (OfPort tcp srcPort) :=
  decidable_of_iff
    (20 ≤ tcp.length ∧ fromBe (field tcp 0 2) = srcPort.toNat ∧ 20 ≤ tcpDataOffset tcp ∧
      tcpDataOffset tcp ≤ tcp.length)
    ⟨fun ⟨long, source, offset, within⟩ => ⟨long, source, offset, within⟩,
      fun port => ⟨port.long, port.source, port.offset, port.within⟩⟩

/-- `parse_ipv4_tcp`, without the checks of its reads. -/
def parseIpv4Tcp (bytes : List UInt8) (src : Ipv4Addr) (srcPort : UInt16) (wallNs : Nat) :
    Option Segment :=
  if FromPeer bytes src ∧ OfPort (tcpBytes bytes) srcPort then
    some (segmentOf (tcpBytes bytes) wallNs)
  else none

section Reads

variable {packet : Slice} {src : Ipv4Addr} {srcPort : UInt16}

theorem parseIpv4Tcp_of_not_peer {bytes : List UInt8} (wallNs : Nat)
    (other : ¬FromPeer bytes src) : parseIpv4Tcp bytes src srcPort wallNs = none :=
  if_neg fun both => other both.1

theorem parseIpv4Tcp_of_not_port {bytes : List UInt8} (wallNs : Nat)
    (other : ¬OfPort (tcpBytes bytes) srcPort) :
    parseIpv4Tcp bytes src srcPort wallNs = none :=
  if_neg fun both => other both.2

theorem packetEnd_le (bytes : List UInt8) : packetEnd bytes ≤ bytes.length := by
  unfold packetEnd
  split
  · next trusted => exact trusted.2
  · exact Nat.le_refl _

theorem length_tcpBytes (bytes : List UInt8) :
    (tcpBytes bytes).length = packetEnd bytes - headerLength bytes := by
  unfold tcpBytes
  rw [List.length_drop, List.length_take_of_le (packetEnd_le bytes)]

theorem byteAt_run {index : Nat} (within : index < packet.length) :
    packet.byteAt index = .ok (octet packet.bytes index) := packet.byteAt_of_lt within

theorem bytesAt_run {start size : Nat} (within : start + size ≤ packet.length) :
    packet.bytesAt start size = .ok (field packet.bytes start size) := packet.bytesAt_of_le within

theorem tcpSegmentChecked_run (tcp : Slice) (wallNs : Nat) :
    (tcpSegmentChecked tcp srcPort wallNs).run =
      .ok (if OfPort tcp.bytes srcPort then some (segmentOf tcp.bytes wallNs) else none) := by
  unfold tcpSegmentChecked
  by_cases short : tcp.length < 20
  · rw [if_pos short, if_neg fun port => Nat.not_le.mpr short port.long]
    rfl
  rw [if_neg short, run_lift_bind (bytesAt_run (by omega))]
  by_cases other : fromBe (field tcp.bytes 0 2) ≠ srcPort.toNat
  · rw [if_pos other, if_neg fun port => other port.source]
    rfl
  rw [if_neg other, run_lift_bind (byteAt_run (by omega))]
  by_cases outside : tcpDataOffset tcp.bytes < 20 ∨ tcp.length < tcpDataOffset tcp.bytes
  · have refused : ¬OfPort tcp.bytes srcPort := fun port =>
      outside.elim (Nat.not_lt.mpr port.offset) (Nat.not_lt.mpr port.within)
    rw [if_neg refused]
    exact congrArg OptionT.run (if_pos outside)
  obtain ⟨offset, within⟩ := not_or.mp outside
  have port : OfPort tcp.bytes srcPort :=
    ⟨Nat.not_lt.mp short, not_not.mp other, Nat.not_lt.mp offset, Nat.not_lt.mp within⟩
  rw [if_pos port]
  refine (congrArg OptionT.run (if_neg outside)).trans ?_
  rw [run_lift_bind (bytesAt_run (by omega)), run_lift_bind (bytesAt_run (by omega)),
    run_lift_bind (byteAt_run (by omega))]
  have ranged : tcp.range ((octet tcp.bytes 12 >>> 4).toNat * 4) tcp.length =
      .ok (tcp.cut (tcpDataOffset tcp.bytes) tcp.length) :=
    tcp.range_of_le (Nat.not_lt.mp within) (Nat.le_refl _)
  rw [run_lift_bind ranged, tcp.cut_length]
  rfl

/-- No read of the parser is out of range, and without its checks it returns the same. -/
theorem parseIpv4TcpChecked_run (packet : Slice) (src : Ipv4Addr) (srcPort : UInt16)
    (wallNs : Nat) :
    (parseIpv4TcpChecked packet src srcPort wallNs).run =
      .ok (parseIpv4Tcp packet.bytes src srcPort wallNs) := by
  unfold parseIpv4TcpChecked
  by_cases short : packet.length < 20
  · rw [if_pos short, parseIpv4Tcp_of_not_peer wallNs fun peer => Nat.not_le.mpr short peer.long]
    rfl
  rw [if_neg short, run_lift_bind (byteAt_run (by omega))]
  by_cases version : octet packet.bytes 0 >>> 4 ≠ 4
  · rw [if_pos version, parseIpv4Tcp_of_not_peer wallNs fun peer => version peer.version]
    rfl
  rw [if_neg version, run_lift_bind (bytesAt_run (by omega)),
    run_lift_bind (bytesAt_run (by omega)), run_lift_bind (byteAt_run (by omega))]
  by_cases refused : headerLength packet.bytes < 20 ∨ octet packet.bytes 9 ≠ 6 ∨
      fromBe (field packet.bytes 6 2) &&& 0x3fff ≠ 0
  · have other : ¬FromPeer packet.bytes src := by
      rintro peer
      rcases refused with header | protocol | fragment
      · exact Nat.not_le.mpr header peer.header
      · exact protocol peer.protocol
      · exact fragment peer.whole
    rw [parseIpv4Tcp_of_not_peer wallNs other]
    exact congrArg OptionT.run (if_pos refused)
  obtain ⟨header, accepted⟩ := not_or.mp refused
  obtain ⟨protocol, whole⟩ := not_or.mp accepted
  refine (congrArg OptionT.run (if_neg refused)).trans ?_
  rw [run_lift_bind (bytesAt_run (by omega))]
  by_cases source : field packet.bytes 12 4 ≠ src.octets
  · rw [if_pos source, parseIpv4Tcp_of_not_peer wallNs fun peer => source peer.source]
    rfl
  rw [if_neg source]
  have peer : FromPeer packet.bytes src :=
    ⟨Nat.not_lt.mp short, not_not.mp version, Nat.not_lt.mp header, not_not.mp protocol,
      not_not.mp whole, not_not.mp source⟩
  rcases Nat.lt_or_ge (packetEnd packet.bytes) (headerLength packet.bytes) with before | after
  · have refusedPort : ¬OfPort (tcpBytes packet.bytes) srcPort := by
      intro port
      have long := port.long
      rw [length_tcpBytes] at long
      omega
    rw [parseIpv4Tcp_of_not_port wallNs refusedPort]
    exact run_bind_of_none (packet.getRange_run_of_lt before) _
  · refine (run_bind_of_some (packet.getRange_run after (packetEnd_le packet.bytes)) _).trans ?_
    rw [tcpSegmentChecked_run]
    unfold parseIpv4Tcp
    exact congrArg Except.ok (if_congr (and_iff_right peer).symm rfl rfl)

end Reads

end MarketBenchmark.Tap
