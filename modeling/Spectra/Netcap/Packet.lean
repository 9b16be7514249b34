import Spectra.Library.GoSlice
import Spectra.Netcap.Summary

/-! The decoder of captured packets. -/
namespace Spectra.Netcap

open Library Checked GoBytes

def linkTypeNull : UInt32 := 0

def linkTypeEthernet : UInt32 := 1

def linkTypeRaw : UInt32 := 101

def linkTypeLoop : UInt32 := 108

def linkTypeLinuxSLL : UInt32 := 113

def etherTypeIPv4 : ℕ := 0x0800

def etherTypeIPv6 : ℕ := 0x86dd

def loopFamilyIPv4 : ℕ := 2

def loopFamiliesIPv6 : List ℕ := [30, 28, 10]

def ipProtoTCP : UInt8 := 6

def ipProtoUDP : UInt8 := 17

def ipv6HeaderLen : ℕ := 40

def ipProtoIPv6Frag : UInt8 := 44

def maxIPv6ExtHeaders : ℕ := 8

/-- Hop-by-hop options, routing, and destination options. -/
def ipv6ExtHeaders : List UInt8 := [0, 43, 60]

/-- An address of `netip`. -/
inductive NetipAddr
  | from4 (a b c d : UInt8)
  | from16 (bytes : Bytes)
  deriving DecidableEq

/-- A decoded packet, with the acknowledgment number that the summary does not read. -/
structure DecodedPacket extends FlowPacket NetipAddr where
  tcpAck : UInt32

inductive PacketError
  | ethernetTooShort
  | ethertype
  | linkType (linkType : UInt32)
  | linuxSLLTooShort
  | linuxSLLProtocol
  | loopbackTooShort
  | loopbackFamily
  | emptyIP
  | ipVersion (version : UInt8)
  | ipv4TooShort
  | ipv4HeaderLength
  | ipv4TotalLength
  | ipv4Fragmented
  | ipProtocol (protocol : UInt8)
  | ipv6TooShort
  | ipv6ExtensionTruncated
  | ipv6ExtensionLength
  | ipv6Fragmented
  | ipv6NextHeader (nextHeader : UInt8)
  | ipv6TooManyExtensions
  | tcpTooShort
  | tcpHeaderLength
  | udpTooShort
  | udpLength
  deriving DecidableEq

def DecodedPacket.new (networkProto : String) (srcAddr dstAddr : NetipAddr) : DecodedPacket where
  networkProto := networkProto
  transportProto := ""
  srcAddr := srcAddr
  dstAddr := dstAddr
  srcPort := 0
  dstPort := 0
  tcpSeq := 0
  tcpAck := 0
  tcpFlags := 0
  payload := []

def decodeTCPFlow (out : DecodedPacket) (data : Bytes) : Checked PacketError DecodedPacket :=
  if data.length < 20 then fail .tcpTooShort
  else do
    let headerLen := ((← index data 12) >>> 4).toNat * 4
    if headerLen < 20 ∨ data.length < headerLen then fail .tcpHeaderLength
    else do
      let srcPort ← slice data 0 2
      let dstPort ← slice data 2 4
      let tcpSeq ← slice data 4 8
      let tcpAck ← slice data 8 12
      let tcpFlags ← index data 13
      let payload ← sliceFrom data headerLen
      .ok { out with
        transportProto := "tcp"
        srcPort := UInt16.ofNat (Reader.bigEndian srcPort)
        dstPort := UInt16.ofNat (Reader.bigEndian dstPort)
        tcpSeq := UInt32.ofNat (Reader.bigEndian tcpSeq)
        tcpAck := UInt32.ofNat (Reader.bigEndian tcpAck)
        tcpFlags, payload }

def decodeUDPFlow (out : DecodedPacket) (data : Bytes) : Checked PacketError DecodedPacket :=
  if data.length < 8 then fail .udpTooShort
  else do
    let udpLen := Reader.bigEndian (← slice data 4 6)
    if udpLen < 8 ∨ data.length < udpLen then fail .udpLength
    else do
      let srcPort ← slice data 0 2
      let dstPort ← slice data 2 4
      let payload ← slice data 8 udpLen
      .ok { out with
        transportProto := "udp"
        srcPort := UInt16.ofNat (Reader.bigEndian srcPort)
        dstPort := UInt16.ofNat (Reader.bigEndian dstPort)
        payload }

def decodeIPv4Flow (data : Bytes) : Checked PacketError DecodedPacket :=
  if data.length < 20 then fail .ipv4TooShort
  else do
    let first ← index data 0
    if first >>> 4 ≠ 4 then fail (.ipVersion (first >>> 4))
    else
      let ihl := (first &&& 0x0f).toNat * 4
      if ihl < 20 ∨ data.length < ihl then fail .ipv4HeaderLength
      else do
        let totalLen := Reader.bigEndian (← slice data 2 4)
        if totalLen < ihl ∨ data.length < totalLen then fail .ipv4TotalLength
        else do
          let frag := Reader.bigEndian (← slice data 6 8)
          if frag &&& 0x3fff ≠ 0 then fail .ipv4Fragmented
          else do
            let src := NetipAddr.from4 (← index data 12) (← index data 13) (← index data 14)
              (← index data 15)
            let dst := NetipAddr.from4 (← index data 16) (← index data 17) (← index data 18)
              (← index data 19)
            let body ← slice data ihl totalLen
            let out := DecodedPacket.new "ipv4" src dst
            let protocol ← index data 9
            if protocol = ipProtoTCP then decodeTCPFlow out body
            else if protocol = ipProtoUDP then decodeUDPFlow out body
            else fail (.ipProtocol protocol)

/-- The loop of `decodeIPv6Flow` over the extension headers, with the number of rounds left. -/
def decodeIPv6Headers (out : DecodedPacket) (data : Bytes) (stop : ℕ) :
    ℕ → UInt8 → ℕ → Checked PacketError DecodedPacket
  | 0, _, _ => fail .ipv6TooManyExtensions
  | hops + 1, nextHeader, offset =>
    if nextHeader = ipProtoTCP then slice data offset stop >>= decodeTCPFlow out
    else if nextHeader = ipProtoUDP then slice data offset stop >>= decodeUDPFlow out
    else if nextHeader ∈ ipv6ExtHeaders then
      if stop < offset + 2 then fail .ipv6ExtensionTruncated
      else do
        let next ← index data offset
        let extLen := ((← index data (offset + 1)).toNat + 1) * 8
        if stop < offset + extLen then fail .ipv6ExtensionLength
        else decodeIPv6Headers out data stop hops next (offset + extLen)
    else if nextHeader = ipProtoIPv6Frag then fail .ipv6Fragmented
    else fail (.ipv6NextHeader nextHeader)

/-- The end of an IPv6 packet: a length of zero, or one beyond the bytes, means all of them. -/
def ipv6End (payloadLen captured : ℕ) : ℕ :=
  if ipv6HeaderLen + payloadLen ≤ ipv6HeaderLen ∨ captured < ipv6HeaderLen + payloadLen then captured
  else ipv6HeaderLen + payloadLen

def decodeIPv6Flow (data : Bytes) : Checked PacketError DecodedPacket :=
  if data.length < ipv6HeaderLen then fail .ipv6TooShort
  else do
    let first ← index data 0
    if first >>> 4 ≠ 6 then fail (.ipVersion (first >>> 4))
    else do
      let stop := ipv6End (Reader.bigEndian (← slice data 4 6)) data.length
      let src ← slice data 8 24
      let dst ← slice data 24 40
      let out := DecodedPacket.new "ipv6" (.from16 src) (.from16 dst)
      let nextHeader ← index data 6
      decodeIPv6Headers out data stop maxIPv6ExtHeaders nextHeader ipv6HeaderLen

def decodeRawIPFlow (data : Bytes) : Checked PacketError DecodedPacket :=
  if data.length < 1 then fail .emptyIP
  else do
    let version := (← index data 0) >>> 4
    if version = 4 then decodeIPv4Flow data
    else if version = 6 then decodeIPv6Flow data
    else fail (.ipVersion version)

def isIPv6LoopFamily (family : ℕ) : Bool := loopFamiliesIPv6.any (family == ·)

def decodeLoopbackFlow (data : Bytes) : Checked PacketError DecodedPacket :=
  if data.length < 4 then fail .loopbackTooShort
  else do
    let header ← slice data 0 4
    let familyBE := Reader.bigEndian header
    let familyLE := Reader.bigEndian header.reverse
    if familyBE = loopFamilyIPv4 ∨ familyLE = loopFamilyIPv4 then sliceFrom data 4 >>= decodeIPv4Flow
    else if isIPv6LoopFamily familyBE ∨ isIPv6LoopFamily familyLE then
      sliceFrom data 4 >>= decodeIPv6Flow
    else fail .loopbackFamily

/-- The packet after a link header of `n` bytes and an ether type. -/
def decodeByEtherType (n : ℕ) (tooShort unsupported : PacketError) (data : Bytes) :
    Checked PacketError DecodedPacket :=
  if data.length < n + 2 then fail tooShort
  else do
    let etherType := Reader.bigEndian (← slice data n (n + 2))
    if etherType = etherTypeIPv4 then sliceFrom data (n + 2) >>= decodeIPv4Flow
    else if etherType = etherTypeIPv6 then sliceFrom data (n + 2) >>= decodeIPv6Flow
    else fail unsupported

def decodeLinuxSLLFlow : Bytes → Checked PacketError DecodedPacket :=
  decodeByEtherType 14 .linuxSLLTooShort .linuxSLLProtocol

def decodeEthernetFlow : Bytes → Checked PacketError DecodedPacket :=
  decodeByEtherType 12 .ethernetTooShort .ethertype

def decodeFlowPacket (linkType : UInt32) (data : Bytes) : Checked PacketError DecodedPacket :=
  if linkType = linkTypeEthernet then decodeEthernetFlow data
  else if linkType = linkTypeRaw then decodeRawIPFlow data
  else if linkType = linkTypeNull ∨ linkType = linkTypeLoop then decodeLoopbackFlow data
  else if linkType = linkTypeLinuxSLL then decodeLinuxSLLFlow data
  else fail (.linkType linkType)

variable {out : DecodedPacket} {data : Bytes}

theorem safe_decodeTCPFlow : Safe (decodeTCPFlow out data) := by
  refine .ite (fun _ => .fail _) fun hlen => .index (by omega) fun first => ?_
  refine .ite (fun _ => .fail _) fun hheader => ?_
  refine .slice (by omega) fun _ _ => .slice (by omega) fun _ _ => .slice (by omega) fun _ _ => ?_
  refine .slice (by omega) fun _ _ => .index (by omega) fun _ => ?_
  exact .sliceFrom (by omega) fun _ _ => .ok _

theorem safe_decodeUDPFlow : Safe (decodeUDPFlow out data) := by
  refine .ite (fun _ => .fail _) fun hlen => .slice (by omega) fun _ _ => ?_
  refine .ite (fun _ => .fail _) fun hudp => ?_
  refine .slice (by omega) fun _ _ => .slice (by omega) fun _ _ => ?_
  exact .slice (by omega) fun _ _ => .ok _

theorem safe_decodeIPv4Flow : Safe (decodeIPv4Flow data) := by
  refine .ite (fun _ => .fail _) fun hlen => .index (by omega) fun first => ?_
  refine .ite (fun _ => .fail _) fun _ => .ite (fun _ => .fail _) fun hihl => ?_
  refine .slice (by omega) fun _ _ => .ite (fun _ => .fail _) fun htotal => ?_
  refine .slice (by omega) fun _ _ => .ite (fun _ => .fail _) fun _ => ?_
  refine .index (by omega) fun _ => .index (by omega) fun _ => .index (by omega) fun _ => ?_
  refine .index (by omega) fun _ => .index (by omega) fun _ => .index (by omega) fun _ => ?_
  refine .index (by omega) fun _ => .index (by omega) fun _ => ?_
  refine .slice (by omega) fun _ _ => .index (by omega) fun _ => ?_
  exact .ite (fun _ => safe_decodeTCPFlow) fun _ => .ite (fun _ => safe_decodeUDPFlow) fun _ =>
    .fail _

private theorem safe_decodeIPv6Headers {stop : ℕ} (hstop : stop ≤ data.length) {hops : ℕ}
    {nextHeader : UInt8} {offset : ℕ} (hoffset : offset ≤ stop) :
    Safe (decodeIPv6Headers out data stop hops nextHeader offset) := by
  induction hops generalizing nextHeader offset with
  | zero => exact .fail _
  | succ hops ih =>
    refine .ite (fun _ => .slice ⟨hoffset, hstop⟩ fun _ _ => safe_decodeTCPFlow) fun _ => ?_
    refine .ite (fun _ => .slice ⟨hoffset, hstop⟩ fun _ _ => safe_decodeUDPFlow) fun _ => ?_
    refine .ite (fun _ => ?_) fun _ => .ite (fun _ => .fail _) fun _ => .fail _
    refine .ite (fun _ => .fail _) fun hroom => .index (by omega) fun _ => .index (by omega) fun _ => ?_
    exact .ite (fun _ => .fail _) fun hlen => ih (by omega)

theorem safe_decodeIPv6Flow : Safe (decodeIPv6Flow data) := by
  refine .ite (fun _ => .fail _) fun hlen => ?_
  rw [ipv6HeaderLen] at hlen
  refine .index (by omega) fun first => .ite (fun _ => .fail _) fun _ => ?_
  refine .slice (by omega) fun payloadLen _ => .slice (by omega) fun _ _ => ?_
  refine .slice (by omega) fun _ _ => .index (by omega) fun _ => ?_
  have hstop : ipv6HeaderLen ≤ ipv6End (Reader.bigEndian payloadLen) data.length ∧
      ipv6End (Reader.bigEndian payloadLen) data.length ≤ data.length := by
    rw [ipv6End, ipv6HeaderLen]
    split <;> omega
  exact safe_decodeIPv6Headers hstop.2 hstop.1

theorem safe_decodeByEtherType {n : ℕ} {tooShort unsupported : PacketError} :
    Safe (decodeByEtherType n tooShort unsupported data) := by
  refine .ite (fun _ => .fail _) fun hlen => .slice (by omega) fun _ _ => ?_
  exact .ite (fun _ => .sliceFrom (by omega) fun _ _ => safe_decodeIPv4Flow) fun _ =>
    .ite (fun _ => .sliceFrom (by omega) fun _ _ => safe_decodeIPv6Flow) fun _ => .fail _

private theorem safe_decodeRawIPFlow : Safe (decodeRawIPFlow data) := by
  refine .ite (fun _ => .fail _) fun hlen => .index (by omega) fun _ => ?_
  exact .ite (fun _ => safe_decodeIPv4Flow) fun _ => .ite (fun _ => safe_decodeIPv6Flow) fun _ =>
    .fail _

private theorem safe_decodeLoopbackFlow : Safe (decodeLoopbackFlow data) := by
  refine .ite (fun _ => .fail _) fun hlen => .slice (by omega) fun _ _ => ?_
  exact .ite (fun _ => .sliceFrom (by omega) fun _ _ => safe_decodeIPv4Flow) fun _ =>
    .ite (fun _ => .sliceFrom (by omega) fun _ _ => safe_decodeIPv6Flow) fun _ => .fail _

theorem safe_decodeFlowPacket (linkType : UInt32) (data : Bytes) : Safe (decodeFlowPacket linkType data) := by
  refine .ite (fun _ => safe_decodeByEtherType) fun _ => ?_
  refine .ite (fun _ => safe_decodeRawIPFlow) fun _ => ?_
  refine .ite (fun _ => safe_decodeLoopbackFlow) fun _ => ?_
  exact .ite (fun _ => safe_decodeByEtherType) fun _ => .fail _

end Spectra.Netcap
