import MarketBenchmark.Tap.PacketEncoding
import MarketBenchmark.Foundation.ClassicBpf

/-!
# The kernel filter

The capture socket carries a filter program that keeps TCP packets from the
tapped address and port and drops the rest in the kernel.  It looks at less of
a packet than the parser does, at the same bytes: what the parser takes, the
filter keeps.
-/

namespace MarketBenchmark.Tap

open Foundation.Panics
open Foundation.Endian
open Foundation.ClassicBpf

/-- `bpf_program` -/
def bpfProgram (src : Ipv4Addr) (srcPort : UInt16) : List Instruction :=
  [⟨0x20, 0, 0, 12⟩,
    ⟨0x15, 0, 6, src.toU32⟩,
    ⟨0x30, 0, 0, 9⟩,
    ⟨0x15, 0, 4, 6⟩,
    ⟨0xb1, 0, 0, 0⟩,
    ⟨0x48, 0, 0, 0⟩,
    ⟨0x15, 0, 1, srcPort.toNat⟩,
    ⟨0x06, 0, 0, 0x00040000⟩,
    ⟨0x06, 0, 0, 0⟩]

section Filter

variable {packet : List UInt8} {src : Ipv4Addr} {srcPort : UInt16}

/-- The program as operations. -/
theorem execute_bpfProgram (packet : List UInt8) (src : Ipv4Addr) (srcPort : UInt16) :
    execute (bpfProgram src srcPort) packet =
      exec packet
        [.loadAbsolute 4 12, .jumpEqual src.toU32 0 6, .loadAbsolute 1 9, .jumpEqual 6 0 4,
          .loadHeaderLength 0, .loadIndexed 2 0, .jumpEqual srcPort.toNat 0 1, .ret 0x00040000,
          .ret 0] 0 { acc := 0, index := 0 } := rfl

/-- One byte as a number. -/
theorem fromBe_field_one {index : Nat} (inside : index < packet.length) :
    fromBe (field packet index 1) = (octet packet index).toNat := by
  have single : field packet index 1 = [octet packet index] := by
    unfold field octet
    rw [List.drop_eq_getElem_cons inside, List.getD_eq_getElem _ _ inside]
    rfl
  rw [single]
  exact Nat.add_zero _

/-- The header length that the index register takes from the first byte. -/
theorem headerLength_eq (packet : List UInt8) :
    headerLength packet = (octet packet 0).toNat % 16 * 4 := by
  unfold headerLength
  rw [UInt8.toNat_and]
  exact congrArg (· * 4) (Nat.and_two_pow_sub_one_eq_mod _ 4)

theorem headerLength_lt (packet : List UInt8) : headerLength packet < 64 := by
  rw [headerLength_eq]
  omega

/-- What the filter looks at, where the loads are within the packet. -/
structure Kept (packet : List UInt8) (src : Ipv4Addr) (srcPort : UInt16) : Prop where
  addressed : 16 ≤ packet.length
  source : field packet 12 4 = src.octets
  protocol : octet packet 9 = 6
  headed : headerLength packet + 2 ≤ packet.length
  port : fromBe (field packet (headerLength packet) 2) = srcPort.toNat

/-- The load of the source address compares the address. -/
theorem source_eq_iff (addressed : 16 ≤ packet.length) :
    fromBe (field packet 12 4) = src.toU32 ↔ field packet 12 4 = src.octets := by
  refine ⟨fun same => fromBe_inj ?_ same, congrArg fromBe⟩
  unfold field
  rw [List.length_take, List.length_drop]
  exact Nat.min_eq_left (by omega)

theorem protocol_eq_iff (inside : 9 < packet.length) :
    fromBe (field packet 9 1) = 6 ↔ octet packet 9 = 6 := by
  rw [fromBe_field_one inside]
  exact ⟨fun same => UInt8.toNat_inj.mp same, congrArg UInt8.toNat⟩

/-- Where the port is loaded from. -/
theorem portOffset_eq (inside : 0 < packet.length) :
    (fromBe (field packet 0 1) % 16 * 4 + 0) % 2 ^ 32 = headerLength packet := by
  rw [fromBe_field_one inside, ← headerLength_eq, Nat.add_zero]
  exact Nat.mod_eq_of_lt ((headerLength_lt packet).trans (by decide))

theorem kept_of_accepts (accepts : Accepts (bpfProgram src srcPort) packet) :
    Kept packet src srcPort := by
  obtain ⟨kept, executed, positive⟩ := accepts
  rw [execute_bpfProgram] at executed
  obtain ⟨address, loadedAddress, executed⟩ := exec_loadAbsolute_kept positive executed
  obtain ⟨sameAddress, executed⟩ := exec_jumpEqual_kept positive rfl executed
  obtain ⟨protocol, loadedProtocol, executed⟩ := exec_loadAbsolute_kept positive executed
  obtain ⟨sameProtocol, executed⟩ := exec_jumpEqual_kept positive rfl executed
  obtain ⟨first, loadedFirst, executed⟩ := exec_loadHeaderLength_kept positive executed
  obtain ⟨port, loadedPort, executed⟩ := exec_loadIndexed_kept positive executed
  obtain ⟨samePort, _⟩ := exec_jumpEqual_kept positive rfl executed
  obtain ⟨addressed, isAddress⟩ := load_eq_some loadedAddress
  obtain ⟨inside, isProtocol⟩ := load_eq_some loadedProtocol
  obtain ⟨nonempty, isFirst⟩ := load_eq_some loadedFirst
  have offset : (first % 16 * 4 + 0) % 2 ^ 32 = headerLength packet := by
    rw [← isFirst]
    exact portOffset_eq nonempty
  rw [offset] at loadedPort
  obtain ⟨headed, isPort⟩ := load_eq_some loadedPort
  exact
    { addressed := addressed
      source := (source_eq_iff addressed).mp (isAddress.trans sameAddress)
      protocol := (protocol_eq_iff inside).mp (isProtocol.trans sameProtocol)
      headed := headed
      port := isPort.trans samePort }

theorem accepts_of_kept (kept : Kept packet src srcPort) :
    Accepts (bpfProgram src srcPort) packet := by
  have addressed := kept.addressed
  refine ⟨0x00040000, ?_, by decide⟩
  have loadedPort : load packet ((fromBe (field packet 0 1) % 16 * 4 + 0) % 2 ^ 32) 2 =
      some (fromBe (field packet (headerLength packet) 2)) := by
    rw [portOffset_eq (by omega)]
    exact load_of_le kept.headed
  rw [execute_bpfProgram, exec_loadAbsolute (load_of_le addressed),
    exec_jumpEqual_of_eq ((source_eq_iff addressed).mpr kept.source),
    exec_loadAbsolute (load_of_le (by omega)),
    exec_jumpEqual_of_eq ((protocol_eq_iff (by omega)).mpr kept.protocol),
    exec_loadHeaderLength (load_of_le (by omega)), exec_loadIndexed loadedPort,
    exec_jumpEqual_of_eq kept.port]
  rfl

/-- The TCP segment starts with the bytes behind the IP header. -/
theorem field_tcpBytes {start size : Nat} (short : start + size ≤ (tcpBytes packet).length) :
    field (tcpBytes packet) start size = field packet (headerLength packet + start) size := by
  rw [length_tcpBytes] at short
  unfold field tcpBytes
  rw [List.drop_drop, List.drop_take, List.take_take, Nat.min_eq_left (by omega)]

/-- The filter keeps what the parser takes. -/
theorem kept_of_parsed {wallNs : Nat} {segment : Segment}
    (parsed : parseIpv4Tcp packet src srcPort wallNs = some segment) :
    Kept packet src srcPort := by
  unfold parseIpv4Tcp at parsed
  split at parsed
  · next both =>
      obtain ⟨peer, port⟩ := both
      have long := peer.long
      have whole := port.long
      have inside := packetEnd_le packet
      have portField : field (tcpBytes packet) 0 2 = field packet (headerLength packet + 0) 2 :=
        field_tcpBytes (by omega)
      rw [length_tcpBytes] at whole
      exact
        { addressed := by omega
          source := peer.source
          protocol := peer.protocol
          headed := by omega
          port := portField ▸ port.source }
  · cases parsed

end Filter

/--
Every packet that yields a segment passes the kernel filter, and every packet
that passes it has the address, the protocol and, behind the IP header, the port.
-/
theorem filter_keeps_parsed (src : Ipv4Addr) (srcPort : UInt16) :
    (∀ (packet : Slice) (wallNs : Nat) (segment : Segment),
      (parseIpv4TcpChecked packet src srcPort wallNs).run = .ok (some segment) →
        Accepts (bpfProgram src srcPort) packet.bytes) ∧
    ∀ packet : List UInt8, Accepts (bpfProgram src srcPort) packet → Kept packet src srcPort := by
  refine ⟨fun packet wallNs segment parsed => ?_, fun packet => kept_of_accepts⟩
  rw [parseIpv4TcpChecked_run] at parsed
  exact accepts_of_kept (kept_of_parsed (Except.ok.inj parsed))

theorem filter_keeps_parsed_padded :
    Accepts (bpfProgram optionedPacket.source optionedPacket.srcPort) paddedCapture.bytes ∧
    Kept paddedCapture.bytes optionedPacket.source optionedPacket.srcPort := by
  have agree := filter_keeps_parsed optionedPacket.source optionedPacket.srcPort
  have accepted := agree.1 paddedCapture 9 (optionedPacket.segment 9) rfl
  exact ⟨accepted, agree.2 paddedCapture.bytes accepted⟩

end MarketBenchmark.Tap
