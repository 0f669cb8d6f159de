import MarketBenchmark.Tap.Packets

/-!
# Parsing undoes encoding

An unfragmented IPv4 packet with one TCP segment, as a host writes it: any
options in both headers, any other field of them, any payload.  The parser
reads the segment back, whatever padding the link added, when the total length
is right, and also when it is zero and there is no padding.
-/

namespace MarketBenchmark.Tap

open Foundation.Panics
open Foundation.Endian

/-- An unfragmented IPv4 packet that carries one TCP segment. -/
structure TcpPacket where
  ihl : Nat
  ihlLow : 5 ≤ ihl
  ihlHigh : ihl ≤ 15
  tos : UInt8
  identification : UInt16
  fragment : UInt16
  unfragmented : fragment &&& 0x3fff = 0
  ttl : UInt8
  ipChecksum : UInt16
  source : Ipv4Addr
  destination : Ipv4Addr
  ipOptions : List UInt8
  ipOptionsFit : 20 + ipOptions.length = 4 * ihl
  srcPort : UInt16
  dstPort : UInt16
  seq : BitVec 32
  acknowledgment : UInt32
  dataOffset : Nat
  dataOffsetLow : 5 ≤ dataOffset
  dataOffsetHigh : dataOffset ≤ 15
  reserved : Nat
  reservedFits : reserved < 16
  flags : UInt8
  window : UInt16
  tcpChecksum : UInt16
  urgent : UInt16
  tcpOptions : List UInt8
  tcpOptionsFit : 20 + tcpOptions.length = 4 * dataOffset
  payload : List UInt8

namespace TcpPacket

variable (packet : TcpPacket)

/-- The total length that the packet has. -/
def size : Nat := 4 * packet.ihl + 4 * packet.dataOffset + packet.payload.length

/-- The fixed part of the IP header, with a total length field. -/
def ipHeader (total : Nat) : List UInt8 :=
  [UInt8.ofNat (0x40 + packet.ihl), packet.tos] ++ toBe 2 total ++
    toBe 2 packet.identification.toNat ++ toBe 2 packet.fragment.toNat ++ [packet.ttl, 6] ++
    toBe 2 packet.ipChecksum.toNat ++ packet.source.octets ++ packet.destination.octets

/-- The fixed part of the TCP header. -/
def tcpHeader : List UInt8 :=
  toBe 2 packet.srcPort.toNat ++ toBe 2 packet.dstPort.toNat ++ toBe 4 packet.seq.toNat ++
    toBe 4 packet.acknowledgment.toNat ++
    [UInt8.ofNat (16 * packet.dataOffset + packet.reserved), packet.flags] ++
    toBe 2 packet.window.toNat ++ toBe 2 packet.tcpChecksum.toNat ++ toBe 2 packet.urgent.toNat

def segmentBytes : List UInt8 := packet.tcpHeader ++ packet.tcpOptions ++ packet.payload

/-- The packet as it is sent, with a total length field. -/
def encode (total : Nat) : List UInt8 :=
  packet.ipHeader total ++ packet.ipOptions ++ packet.segmentBytes

/-- The segment that the packet carries. -/
def segment (wallNs : Nat) : Segment where
  dstPort := packet.dstPort.toNat
  seq := packet.seq
  flags := packet.flags.toBitVec
  payload := packet.payload
  wallNs := wallNs

/-! ## The layout -/

theorem length_ipHeader (total : Nat) : (packet.ipHeader total).length = 20 := rfl

theorem length_tcpHeader : packet.tcpHeader.length = 20 := rfl

theorem length_headers (total : Nat) :
    (packet.ipHeader total ++ packet.ipOptions).length = 4 * packet.ihl := by
  rw [List.length_append, length_ipHeader]
  exact packet.ipOptionsFit

theorem length_segmentBytes :
    packet.segmentBytes.length = 4 * packet.dataOffset + packet.payload.length := by
  unfold segmentBytes
  rw [List.length_append, List.length_append, length_tcpHeader, packet.tcpOptionsFit]

theorem length_encode (total : Nat) : (packet.encode total).length = packet.size := by
  unfold encode size
  rw [List.length_append, length_headers, length_segmentBytes, Nat.add_assoc]

theorem drop_segmentBytes :
    packet.segmentBytes.drop (4 * packet.dataOffset) = packet.payload := by
  unfold segmentBytes
  refine List.drop_left' ?_
  rw [List.length_append, length_tcpHeader, packet.tcpOptionsFit]

theorem drop_encode (total : Nat) :
    (packet.encode total).drop (4 * packet.ihl) = packet.segmentBytes :=
  List.drop_left' (packet.length_headers total)

/-! ## The fields -/

/-- Version four and a header length share the first byte. -/
theorem firstByte : ∀ ihl < 16, UInt8.ofNat (0x40 + ihl) >>> 4 = 4 ∧
    (UInt8.ofNat (0x40 + ihl) &&& 0x0f).toNat = ihl := by
  decide

/-- The data offset is the upper half of its byte. -/
theorem offsetByte : ∀ dataOffset < 16, ∀ reserved < 16,
    (UInt8.ofNat (16 * dataOffset + reserved) >>> 4).toNat = dataOffset := by
  decide

section Padded

variable (total : Nat) (padding : List UInt8)

theorem octet_first :
    octet (packet.encode total ++ padding) 0 = UInt8.ofNat (0x40 + packet.ihl) := rfl

theorem field_total : field (packet.encode total ++ padding) 2 2 = toBe 2 total := rfl

theorem field_fragment :
    field (packet.encode total ++ padding) 6 2 = toBe 2 packet.fragment.toNat := rfl

theorem headerLength_encode :
    headerLength (packet.encode total ++ padding) = 4 * packet.ihl := by
  unfold headerLength
  rw [octet_first, (firstByte packet.ihl (Nat.lt_succ_of_le packet.ihlHigh)).2, Nat.mul_comm]

/-- The packet passes every check of its IP header. -/
theorem fromPeer_encode : FromPeer (packet.encode total ++ padding) packet.source where
  long := by
    have low := packet.ihlLow
    rw [List.length_append, length_encode]
    unfold size
    omega
  version := (firstByte packet.ihl (Nat.lt_succ_of_le packet.ihlHigh)).1
  header := by
    have low := packet.ihlLow
    rw [headerLength_encode]
    omega
  protocol := rfl
  whole := by
    rw [field_fragment, fromBe_toBe packet.fragment.toNat_lt]
    have unfragmented := congrArg UInt16.toNat packet.unfragmented
    rwa [UInt16.toNat_and] at unfragmented
  source := rfl

end Padded

section Tcp

theorem field_srcPort : field packet.segmentBytes 0 2 = toBe 2 packet.srcPort.toNat := rfl

theorem field_dstPort : field packet.segmentBytes 2 2 = toBe 2 packet.dstPort.toNat := rfl

theorem field_seq : field packet.segmentBytes 4 4 = toBe 4 packet.seq.toNat := rfl

theorem octet_flags : octet packet.segmentBytes 13 = packet.flags := rfl

theorem octet_offset :
    octet packet.segmentBytes 12 = UInt8.ofNat (16 * packet.dataOffset + packet.reserved) := rfl

theorem tcpDataOffset_segmentBytes :
    tcpDataOffset packet.segmentBytes = 4 * packet.dataOffset := by
  unfold tcpDataOffset
  rw [octet_offset, offsetByte packet.dataOffset (Nat.lt_succ_of_le packet.dataOffsetHigh)
    packet.reserved packet.reservedFits, Nat.mul_comm]

/-- The segment passes every check of its TCP header. -/
theorem ofPort_segmentBytes : OfPort packet.segmentBytes packet.srcPort where
  long := by
    have low := packet.dataOffsetLow
    rw [length_segmentBytes]
    omega
  source := by rw [field_srcPort, fromBe_toBe packet.srcPort.toNat_lt]
  offset := by
    have low := packet.dataOffsetLow
    rw [tcpDataOffset_segmentBytes]
    omega
  within := by
    rw [tcpDataOffset_segmentBytes, length_segmentBytes]
    exact Nat.le_add_right _ _

theorem segmentOf_segmentBytes (wallNs : Nat) :
    segmentOf packet.segmentBytes wallNs = packet.segment wallNs := by
  unfold segmentOf segment
  rw [field_dstPort, field_seq, octet_flags, tcpDataOffset_segmentBytes, drop_segmentBytes,
    fromBe_toBe packet.dstPort.toNat_lt, fromBe_toBe packet.seq.isLt, BitVec.ofNat_toNat,
    BitVec.setWidth_eq]

end Tcp

/-! ## Where the payload ends -/

/-- A right total length cuts the padding off. -/
theorem tcpBytes_encode (padding : List UInt8) (fits : packet.size < 65536) :
    tcpBytes (packet.encode packet.size ++ padding) = packet.segmentBytes := by
  have low := packet.dataOffsetLow
  have total : fromBe (field (packet.encode packet.size ++ padding) 2 2) = packet.size := by
    rw [field_total, fromBe_toBe fits]
  have trusted : packetEnd (packet.encode packet.size ++ padding) = packet.size := by
    unfold packetEnd
    rw [headerLength_encode, total]
    refine if_pos ⟨?_, ?_⟩
    · unfold size
      omega
    · rw [List.length_append, length_encode]
      exact Nat.le_add_right _ _
  unfold tcpBytes
  rw [trusted, headerLength_encode, List.take_left' (packet.length_encode _), drop_encode]

/-- A total length of zero leaves the whole capture. -/
theorem tcpBytes_encode_zero : tcpBytes (packet.encode 0) = packet.segmentBytes := by
  have total : fromBe (field (packet.encode 0 ++ []) 2 2) = 0 := rfl
  have header := packet.headerLength_encode 0 []
  rw [List.append_nil] at total header
  have untrusted : packetEnd (packet.encode 0) = (packet.encode 0).length := by
    unfold packetEnd
    rw [total]
    exact if_neg fun both => absurd both.1 (by omega)
  unfold tcpBytes
  rw [untrusted, header, List.take_length, drop_encode]

/-- A capture in which the parser finds the segment. -/
theorem parse_of_tcpBytes {captured : List UInt8} (wallNs : Nat)
    (peer : FromPeer captured packet.source) (found : tcpBytes captured = packet.segmentBytes) :
    parseIpv4Tcp captured packet.source packet.srcPort wallNs =
      some (packet.segment wallNs) := by
  unfold parseIpv4Tcp
  rw [found, if_pos ⟨peer, packet.ofPort_segmentBytes⟩, segmentOf_segmentBytes]

end TcpPacket

/--
The parser reads back the segment of every packet whose total length is right,
whatever padding follows, and of every unpadded packet whose total length is
zero; and it indexes no capture out of range.
-/
theorem parse_undoes_encoding :
    (∀ (packet : TcpPacket) (padding : List UInt8) (captured : Slice) (wallNs : Nat),
      packet.size < 65536 → captured.bytes = packet.encode packet.size ++ padding →
        (parseIpv4TcpChecked captured packet.source packet.srcPort wallNs).run =
          .ok (some (packet.segment wallNs))) ∧
    (∀ (packet : TcpPacket) (captured : Slice) (wallNs : Nat),
      captured.bytes = packet.encode 0 →
        (parseIpv4TcpChecked captured packet.source packet.srcPort wallNs).run =
          .ok (some (packet.segment wallNs))) ∧
    ∀ (captured : Slice) (src : Ipv4Addr) (srcPort : UInt16) (wallNs : Nat),
      ∃ result, (parseIpv4TcpChecked captured src srcPort wallNs).run = .ok result := by
  refine ⟨?_, ?_, ?_⟩
  · intro packet padding captured wallNs fits same
    rw [parseIpv4TcpChecked_run, same]
    exact congrArg Except.ok (packet.parse_of_tcpBytes wallNs (packet.fromPeer_encode _ padding)
      (packet.tcpBytes_encode padding fits))
  · intro packet captured wallNs same
    have peer := packet.fromPeer_encode 0 []
    rw [List.append_nil] at peer
    rw [parseIpv4TcpChecked_run, same]
    exact congrArg Except.ok
      (packet.parse_of_tcpBytes wallNs peer packet.tcpBytes_encode_zero)
  · intro captured src srcPort wallNs
    exact ⟨_, parseIpv4TcpChecked_run captured src srcPort wallNs⟩

/-- A packet with one word of options in each header. -/
def optionedPacket : TcpPacket where
  ihl := 6
  ihlLow := by decide
  ihlHigh := by decide
  tos := 0
  identification := 0x1c46
  fragment := 0x4000
  unfragmented := by decide
  ttl := 64
  ipChecksum := 0
  source := { a := 175, b := 41, c := 198, d := 192 }
  destination := { a := 10, b := 0, c := 0, d := 1 }
  ipOptions := [148, 4, 0, 0]
  ipOptionsFit := by decide
  srcPort := 4001
  dstPort := 50123
  seq := 7
  acknowledgment := 0
  dataOffset := 6
  dataOffsetLow := by decide
  dataOffsetHigh := by decide
  reserved := 0
  reservedFits := by decide
  flags := 0x18
  window := 512
  tcpChecksum := 0
  urgent := 0
  tcpOptions := [1, 1, 1, 0]
  tcpOptionsFit := by decide
  payload := [97, 98, 99]

/-- Its capture, with three bytes of padding. -/
def paddedCapture : Slice where
  bytes := optionedPacket.encode optionedPacket.size ++ [0, 0, 0]
  short := by decide

theorem parse_undoes_encoding_padded :
    (parseIpv4TcpChecked paddedCapture optionedPacket.source optionedPacket.srcPort 9).run =
      .ok (some (optionedPacket.segment 9)) :=
  parse_undoes_encoding.1 optionedPacket [0, 0, 0] paddedCapture 9 (by decide) rfl

end MarketBenchmark.Tap
