import Spectra.Netcap.Packet
import Mathlib.Data.Fin.VecNotation

/-! Packets as they are put on the wire, and that the decoder gets back what was put there. -/
namespace Spectra.Netcap
open List UInt8 Library Checked GoBytes Reader
open Library.Reader (bigEndianBytes)

abbrev be16 (v : UInt16) : Bytes := bigEndianBytes 2 v.toNat

abbrev be32 (v : UInt32) : Bytes := bigEndianBytes 4 v.toNat

abbrev byteAt (data : Bytes) (i : ℕ) : Checked PacketError UInt8 := index data i

abbrev bytesAt (data : Bytes) (lo hi : ℕ) : Checked PacketError Bytes :=
  slice data lo hi

theorem bigEndian_be16 (v : UInt16) : bigEndian (be16 v) = v.toNat :=
  bigEndian_bigEndianBytes v.toNat_lt

private theorem bigEndian_be32 (v : UInt32) : bigEndian (be32 v) = v.toNat :=
  bigEndian_bigEndianBytes v.toNat_lt

/-- The option bytes of a header, in words of four bytes. -/
structure HeaderOptions where
  bytes : Bytes
  words : ℕ
  length : bytes.length = 4 * words
  fits : words ≤ 10

structure TCPSegment where
  srcPort : UInt16
  dstPort : UInt16
  seq : UInt32
  ack : UInt32
  reserved : Fin 16
  flags : UInt8
  window : UInt16
  checksum : UInt16
  urgent : UInt16
  options : HeaderOptions
  payload : Bytes

structure UDPDatagram where
  srcPort : UInt16
  dstPort : UInt16
  checksum : UInt16
  payload : Bytes
  fits : 8 + payload.length < 2 ^ 16

namespace TCPSegment

def encode (t : TCPSegment) : Bytes :=
  [be16 t.srcPort, be16 t.dstPort, be32 t.seq, be32 t.ack,
    [UInt8.ofNat ((5 + t.options.words) * 16 + t.reserved)], [t.flags], be16 t.window,
    be16 t.checksum, be16 t.urgent, t.options.bytes, t.payload].flatten

theorem length_encode (t : TCPSegment) : t.encode.length = 20 + 4 * t.options.words + t.payload.length := by
  simp [encode, t.options.length]
  omega

theorem offset_byte : ∀ k < 11, ∀ r < 16, (ofNat ((5 + k) * 16 + r) >>> 4).toNat = 5 + k := by
  decide

theorem decode_encode (t : TCPSegment) (out : DecodedPacket) :
    decodeTCPFlow out t.encode = .ok { out with
      transportProto := "tcp", srcPort := t.srcPort, dstPort := t.dstPort, tcpSeq := t.seq,
      tcpAck := t.ack, tcpFlags := t.flags, payload := t.payload } := by
  have hlen := t.length_encode
  have hoffset := offset_byte t.options.words (Nat.lt_succ_of_le t.options.fits) t.reserved
    t.reserved.isLt
  have hfirst : byteAt t.encode 12 = .ok (ofNat ((5 + t.options.words) * 16 + t.reserved)) :=
    index_chunk 4 rfl rfl
  have hsrc : bytesAt t.encode 0 2 = .ok (be16 t.srcPort) := slice_chunk 0 rfl rfl rfl
  have hdst : bytesAt t.encode 2 4 = .ok (be16 t.dstPort) := slice_chunk 1 rfl rfl rfl
  have hseq : bytesAt t.encode 4 8 = .ok (be32 t.seq) := slice_chunk 2 rfl rfl rfl
  have hack : bytesAt t.encode 8 12 = .ok (be32 t.ack) := slice_chunk 3 rfl rfl rfl
  have hflags : byteAt t.encode 13 = .ok t.flags := index_chunk 5 rfl rfl
  have hpayload : bytesAt t.encode ((5 + t.options.words) * 4) t.encode.length = .ok t.payload :=
    slice_chunk 10 rfl (by simp [t.options.length]; omega) (by omega)
  have hheader : ¬ ((5 + t.options.words) * 4 < 20 ∨ t.encode.length < (5 + t.options.words) * 4) := by omega
  rw [decodeTCPFlow, if_neg (by omega)]
  simp only [hfirst, ok_bind, hoffset, if_neg hheader, hsrc, hdst, hseq, hack, hflags, sliceFrom,
    hpayload, bigEndian_be16, bigEndian_be32, UInt16.ofNat_toNat, UInt32.ofNat_toNat]

end TCPSegment

namespace UDPDatagram

def encode (u : UDPDatagram) : Bytes :=
  [be16 u.srcPort, be16 u.dstPort, bigEndianBytes 2 (8 + u.payload.length), be16 u.checksum, u.payload].flatten

theorem length_encode (u : UDPDatagram) : u.encode.length = 8 + u.payload.length := by
  simp [encode]
  omega

theorem decode_encode (u : UDPDatagram) (out : DecodedPacket) :
    decodeUDPFlow out u.encode = .ok { out with
      transportProto := "udp", srcPort := u.srcPort, dstPort := u.dstPort,
      payload := u.payload } := by
  have hlen := u.length_encode
  have hsrc : bytesAt u.encode 0 2 = .ok (be16 u.srcPort) := slice_chunk 0 rfl rfl rfl
  have hdst : bytesAt u.encode 2 4 = .ok (be16 u.dstPort) := slice_chunk 1 rfl rfl rfl
  have hudp : bytesAt u.encode 4 6 = .ok (bigEndianBytes 2 (8 + u.payload.length)) :=
    slice_chunk 2 rfl rfl rfl
  have hpayload : bytesAt u.encode 8 (8 + u.payload.length) = .ok u.payload :=
    slice_chunk 4 rfl rfl rfl
  have hvalue : bigEndian (bigEndianBytes 2 (8 + u.payload.length)) =
      8 + u.payload.length := bigEndian_bigEndianBytes u.fits
  have hfits : ¬ (8 + u.payload.length < 8 ∨ u.encode.length < 8 + u.payload.length) := by omega
  rw [decodeUDPFlow, if_neg (by omega)]
  simp only [hudp, ok_bind, hvalue, if_neg hfits, hsrc, hdst, hpayload, bigEndian_be16, UInt16.ofNat_toNat]

end UDPDatagram

inductive Transport
  | tcp (segment : TCPSegment)
  | udp (datagram : UDPDatagram)

namespace Transport

def protocol : Transport → UInt8
  | tcp _ => ipProtoTCP
  | udp _ => ipProtoUDP

def encode : Transport → Bytes
  | tcp segment => segment.encode
  | udp datagram => datagram.encode

/-- The packet that carries these ports, TCP fields and payload between two addresses. -/
def flow (networkProto : String) (srcAddr dstAddr : NetipAddr) : Transport → DecodedPacket
  | tcp t => ⟨⟨networkProto, "tcp", srcAddr, dstAddr, t.srcPort, t.dstPort, t.seq, t.flags, t.payload⟩, t.ack⟩
  | udp u => ⟨⟨networkProto, "udp", srcAddr, dstAddr, u.srcPort, u.dstPort, 0, 0, u.payload⟩, 0⟩

theorem decode_encode (t : Transport) (networkProto : String) (srcAddr dstAddr : NetipAddr)
    (other : Checked PacketError DecodedPacket) :
    (if t.protocol = ipProtoTCP then
        decodeTCPFlow (.new networkProto srcAddr dstAddr) t.encode
      else if t.protocol = ipProtoUDP then
        decodeUDPFlow (.new networkProto srcAddr dstAddr) t.encode
      else other) = .ok (t.flow networkProto srcAddr dstAddr) := by
  cases t with
  | tcp segment => exact (if_pos rfl).trans (segment.decode_encode _)
  | udp datagram =>
    have hudp : ¬ ipProtoUDP = ipProtoTCP := by decide
    exact (if_neg hudp).trans ((if_pos rfl).trans (datagram.decode_encode _))

end Transport

/-- An IPv4 packet without fragments: more-fragments is clear and the offset is zero. -/
structure IPv4Packet where
  tos : UInt8
  ident : UInt16
  reserved : Bool
  dontFragment : Bool
  ttl : UInt8
  checksum : UInt16
  src : UInt8 × UInt8 × UInt8 × UInt8
  dst : UInt8 × UInt8 × UInt8 × UInt8
  options : HeaderOptions
  transport : Transport
  fits : 20 + 4 * options.words + transport.encode.length < 2 ^ 16

namespace IPv4Packet

def totalLen (p : IPv4Packet) : ℕ := 20 + 4 * p.options.words + p.transport.encode.length

def frag (p : IPv4Packet) : ℕ :=
  (if p.reserved then 0x8000 else 0) + (if p.dontFragment then 0x4000 else 0)

/-- The bytes of a packet, followed by what the link layer adds. -/
def encode (p : IPv4Packet) (padding : Bytes) : Bytes :=
  [[UInt8.ofNat (0x45 + p.options.words)], [p.tos], bigEndianBytes 2 p.totalLen, be16 p.ident,
    bigEndianBytes 2 p.frag, [p.ttl], [p.transport.protocol], be16 p.checksum,
    [p.src.1], [p.src.2.1], [p.src.2.2.1], [p.src.2.2.2],
    [p.dst.1], [p.dst.2.1], [p.dst.2.2.1], [p.dst.2.2.2],
    p.options.bytes, p.transport.encode, padding].flatten

def flow (p : IPv4Packet) : DecodedPacket :=
  p.transport.flow "ipv4" (.from4 p.src.1 p.src.2.1 p.src.2.2.1 p.src.2.2.2)
    (.from4 p.dst.1 p.dst.2.1 p.dst.2.2.1 p.dst.2.2.2)

theorem first_byte : ∀ k < 11, ofNat (0x45 + k) >>> 4 = 4 ∧ (ofNat (0x45 + k) &&& 0x0f).toNat = 5 + k := by
  decide

variable (p : IPv4Packet) (padding : Bytes)

theorem version_encode : ∃ first, byteAt (p.encode padding) 0 = .ok first ∧ first >>> 4 = 4 :=
  ⟨_, index_chunk 0 rfl rfl, (first_byte p.options.words (Nat.lt_succ_of_le p.options.fits)).1⟩

theorem decode_encode : decodeIPv4Flow (p.encode padding) = .ok p.flow := by
  have hlen : (p.encode padding).length = p.totalLen + padding.length := by
    simp [encode, totalLen, p.options.length]
    omega
  obtain ⟨hversion, hihl⟩ := first_byte p.options.words (Nat.lt_succ_of_le p.options.fits)
  have hfirst : byteAt (p.encode padding) 0 = .ok (ofNat (0x45 + p.options.words)) :=
    index_chunk 0 rfl rfl
  have htotal : bytesAt (p.encode padding) 2 4 = .ok (bigEndianBytes 2 p.totalLen) :=
    slice_chunk 2 rfl rfl rfl
  have hfrag : bytesAt (p.encode padding) 6 8 = .ok (bigEndianBytes 2 p.frag) :=
    slice_chunk 4 rfl rfl rfl
  have hbody : bytesAt (p.encode padding) ((5 + p.options.words) * 4) p.totalLen =
      .ok p.transport.encode :=
    slice_chunk 17 rfl (by simp [p.options.length]; omega) (by rw [totalLen]; omega)
  have htotalValue : bigEndian (bigEndianBytes 2 p.totalLen) = p.totalLen :=
    bigEndian_bigEndianBytes p.fits
  have hfragValue : bigEndian (bigEndianBytes 2 p.frag) &&& 0x3fff = 0 := by
    rw [frag]
    cases p.reserved <;> cases p.dontFragment <;> rfl
  have hlarge : 20 + 4 * p.options.words ≤ p.totalLen := Nat.le_add_right _ _
  have hheader : ¬ ((5 + p.options.words) * 4 < 20 ∨ (p.encode padding).length < (5 + p.options.words) * 4) := by omega
  have hends : ¬ (p.totalLen < (5 + p.options.words) * 4 ∨ (p.encode padding).length < p.totalLen) := by omega
  rw [decodeIPv4Flow]
  simp only [hfirst, ok_bind, hversion, hihl, if_neg hheader,
    htotal, htotalValue, if_neg hends, hfrag, hfragValue, hbody]
  exact p.transport.decode_encode _ _ _ _

end IPv4Packet

/-- An extension header that gives its length in units of eight bytes, the first not counted. -/
structure ExtHeader where
  kind : UInt8
  listed : kind ∈ ipv6ExtHeaders
  len : UInt8
  content : Bytes
  length : content.length = 8 * len.toNat + 6

/-- The number of the header that comes first. -/
def firstHeader (protocol : UInt8) : List ExtHeader → UInt8
  | [] => protocol
  | ext :: _ => ext.kind

def encodeExtensions (protocol : UInt8) : List ExtHeader → Bytes
  | [] => []
  | ext :: exts =>
    firstHeader protocol exts :: ext.len :: (ext.content ++ encodeExtensions protocol exts)

/-- One round of the loop over the extension headers. -/
theorem decodeIPv6Headers_ext (out : DecodedPacket) (ext : ExtHeader) (next : UInt8)
    (before rest : Bytes) {stop hops : ℕ} (hstop : before.length + (ext.len.toNat + 1) * 8 ≤ stop) :
    decodeIPv6Headers out (before ++ next :: ext.len :: rest) stop (hops + 1) ext.kind
        before.length =
      decodeIPv6Headers out (before ++ next :: ext.len :: rest) stop hops next
        (before.length + (ext.len.toNat + 1) * 8) := by
  have hlisted : ∀ kind ∈ ipv6ExtHeaders, kind ≠ ipProtoTCP ∧ kind ≠ ipProtoUDP := by
    decide +kernel
  obtain ⟨htcp, hudp⟩ := hlisted _ ext.listed
  have hnext : byteAt (before ++ next :: ext.len :: rest) before.length = .ok next :=
    index_append rfl
  have hlen : byteAt (before ++ next :: ext.len :: rest) (before.length + 1) = .ok ext.len := by
    rw [append_cons]
    exact index_append (by simp)
  rw [decodeIPv6Headers, if_neg htcp, if_neg hudp, if_pos ext.listed, if_neg (by omega)]
  simp [hnext, hlen, if_neg (Nat.not_lt.mpr hstop)]

/-- The loop over the extension headers comes to the transport layer. -/
theorem decodeIPv6Headers_encode (transport : Transport) (srcAddr dstAddr : NetipAddr)
    (after : Bytes) {exts : List ExtHeader} {hops : ℕ} (hhops : exts.length ≤ hops) (before : Bytes) :
    decodeIPv6Headers (.new "ipv6" srcAddr dstAddr)
      (before ++ (encodeExtensions transport.protocol exts ++ (transport.encode ++ after)))
      (before.length + (encodeExtensions transport.protocol exts).length + transport.encode.length)
      (hops + 1) (firstHeader transport.protocol exts) before.length = .ok (transport.flow "ipv6" srcAddr dstAddr) := by
  induction exts generalizing hops before with
  | nil =>
    have hbody : bytesAt (before ++ (transport.encode ++ after)) before.length
        (before.length + transport.encode.length) = .ok transport.encode := slice_append rfl rfl
    simp only [decodeIPv6Headers, encodeExtensions, nil_append, length_nil, Nat.add_zero, hbody]
    exact transport.decode_encode _ _ _ _
  | cons ext exts ih =>
    obtain ⟨hops, rfl⟩ := Nat.exists_eq_add_one.mpr (Nat.zero_lt_of_lt hhops)
    have hlen : (ext.len.toNat + 1) * 8 = ext.content.length + 2 := by
      rw [ext.length]
      omega
    have hstep := ih (Nat.le_of_succ_le_succ hhops)
      (before ++ firstHeader transport.protocol exts :: ext.len :: ext.content)
    have hstop : (encodeExtensions transport.protocol (ext :: exts)).length =
        ext.content.length + 2 + (encodeExtensions transport.protocol exts).length := by
      rw [encodeExtensions, length_cons, length_cons, length_append]
      omega
    rw [hstop, encodeExtensions, cons_append, cons_append, firstHeader,
      decodeIPv6Headers_ext _ ext _ before _ (by omega), hlen]
    simpa [Nat.add_assoc] using hstep

/-- An IPv6 packet; a length field of zero is that of a jumbogram. -/
structure IPv6Packet where
  trafficClass : Fin 16
  flowLabel : UInt8 × UInt8 × UInt8
  payloadLen : UInt16
  hopLimit : UInt8
  src : Bytes
  length_src : src.length = 16
  dst : Bytes
  length_dst : dst.length = 16
  extensions : List ExtHeader
  few : extensions.length ≤ 7
  transport : Transport

namespace IPv6Packet

def extensionBytes (p : IPv6Packet) : Bytes :=
  encodeExtensions p.transport.protocol p.extensions

def header (p : IPv6Packet) : List Bytes :=
  [[UInt8.ofNat (0x60 + p.trafficClass)], [p.flowLabel.1], [p.flowLabel.2.1], [p.flowLabel.2.2],
    be16 p.payloadLen, [firstHeader p.transport.protocol p.extensions], [p.hopLimit], p.src, p.dst]

/-- The bytes of a packet, followed by what the link layer adds. -/
def encode (p : IPv6Packet) (padding : Bytes) : Bytes :=
  (p.header ++ [p.extensionBytes ++ (p.transport.encode ++ padding)]).flatten

/-- The length field says where the packet ends, or nothing follows the packet. -/
def Delimited (p : IPv6Packet) (padding : Bytes) : Prop :=
  p.payloadLen.toNat = p.extensionBytes.length + p.transport.encode.length ∨
    p.payloadLen = 0 ∧ padding = []

def flow (p : IPv6Packet) : DecodedPacket :=
  p.transport.flow "ipv6" (.from16 p.src) (.from16 p.dst)

variable (p : IPv6Packet)

theorem length_header : p.header.flatten.length = ipv6HeaderLen := by
  simp [header, p.length_src, p.length_dst, ipv6HeaderLen]

theorem encode_eq (padding : Bytes) :
    p.encode padding = p.header.flatten ++ (p.extensionBytes ++ (p.transport.encode ++ padding)) := by
  rw [encode, flatten_append, flatten_singleton]

theorem transport_pos (t : Transport) : 0 < t.encode.length := by
  cases t with
  | tcp segment | udp segment =>
    rw [Transport.encode, segment.length_encode]
    omega

variable {p : IPv6Packet} {padding : Bytes}

theorem end_eq (h : p.Delimited padding) :
    ipv6End p.payloadLen.toNat (p.encode padding).length =
      p.header.flatten.length + p.extensionBytes.length + p.transport.encode.length := by
  have hlen : (p.encode padding).length = ipv6HeaderLen +
      (p.extensionBytes.length + (p.transport.encode.length + padding.length)) := by
    rw [encode_eq, length_append, length_header, length_append, length_append]
  have hpos := transport_pos p.transport
  rw [ipv6End, length_header, hlen]
  rcases h with hfield | ⟨hzero, rfl⟩
  · rw [if_neg (by omega), hfield, Nat.add_assoc]
  · rw [hzero, if_pos (by simp), length_nil, Nat.add_zero, Nat.add_assoc]

theorem first_byte : ∀ c < 16, ofNat (0x60 + c) >>> 4 = 6 := by decide

theorem version_encode (padding : Bytes) : ∃ first, byteAt (p.encode padding) 0 = .ok first ∧ first >>> 4 = 6 :=
  ⟨_, index_chunk 0 rfl rfl, first_byte p.trafficClass p.trafficClass.isLt⟩

theorem decode_encode (h : p.Delimited padding) :
    decodeIPv6Flow (p.encode padding) = .ok p.flow := by
  have hversion := first_byte p.trafficClass p.trafficClass.isLt
  have hfirst : byteAt (p.encode padding) 0 = .ok (ofNat (0x60 + p.trafficClass)) :=
    index_chunk 0 rfl rfl
  have hpayloadLen : bytesAt (p.encode padding) 4 6 = .ok (be16 p.payloadLen) :=
    slice_chunk 4 rfl rfl rfl
  have hsrc : bytesAt (p.encode padding) 8 24 = .ok p.src :=
    slice_chunk 7 rfl rfl (by rw [p.length_src])
  have hdst : bytesAt (p.encode padding) 24 40 = .ok p.dst :=
    slice_chunk 8 rfl (by simp [header, p.length_src]) (by rw [p.length_dst])
  have hlong : ¬ (p.encode padding).length < ipv6HeaderLen := by
    rw [encode_eq, length_append, length_header]
    omega
  have hheaders := decodeIPv6Headers_encode p.transport (.from16 p.src) (.from16 p.dst) padding p.few
    p.header.flatten
  rw [← extensionBytes, ← encode_eq, ← end_eq h, length_header] at hheaders
  rw [decodeIPv6Flow, if_neg hlong]
  simp only [hfirst, ok_bind, hversion, hpayloadLen, hsrc, hdst, bigEndian_be16]
  exact hheaders

end IPv6Packet

inductive IPPacket
  | v4 (packet : IPv4Packet)
  | v6 (packet : IPv6Packet)

namespace IPPacket

def encode (padding : Bytes) : IPPacket → Bytes
  | v4 packet => packet.encode padding
  | v6 packet => packet.encode padding

def Delimited (padding : Bytes) : IPPacket → Prop
  | v4 _ => True
  | v6 packet => packet.Delimited padding

def flow : IPPacket → DecodedPacket
  | v4 packet => packet.flow
  | v6 packet => packet.flow

def etherType : IPPacket → ℕ
  | v4 _ => etherTypeIPv4
  | v6 _ => etherTypeIPv6

end IPPacket

/-- The link layers. A loopback header holds a family in either byte order, which for IPv6 is one of
three. -/
inductive Link
  | ethernet (addresses : Bytes) (length : addresses.length = 12)
  | raw
  | loopback (linkType : UInt32) (hlink : linkType = linkTypeNull ∨ linkType = linkTypeLoop)
    (bigEndian : Bool) (family : Fin 3)
  | linuxSLL (fields : Bytes) (length : fields.length = 14)

open Link

namespace Link

def linkType : Link → UInt32
  | ethernet _ _ => linkTypeEthernet
  | raw => linkTypeRaw
  | loopback linkType _ _ _ => linkType
  | linuxSLL _ _ => linkTypeLinuxSLL

def family (i : Fin 3) : IPPacket → ℕ
  | .v4 _ => loopFamilyIPv4
  | .v6 _ => loopFamiliesIPv6[i]

def familyBytes (bigEndian : Bool) (family : ℕ) : Bytes :=
  if bigEndian then bigEndianBytes 4 family else (bigEndianBytes 4 family).reverse

def header (packet : IPPacket) : Link → Bytes
  | ethernet addresses _ => addresses ++ bigEndianBytes 2 packet.etherType
  | raw => []
  | loopback _ _ bigEndian i => familyBytes bigEndian (family i packet)
  | linuxSLL fields _ => fields ++ bigEndianBytes 2 packet.etherType

end Link

private theorem bigEndian_etherType (packet : IPPacket) :
    bigEndian (bigEndianBytes 2 packet.etherType) = packet.etherType := by
  cases packet with
  | v4 _ => exact bigEndian_bigEndianBytes (show etherTypeIPv4 < 256 ^ 2 by decide)
  | v6 _ => exact bigEndian_bigEndianBytes (show etherTypeIPv6 < 256 ^ 2 by decide)

/-- What a link header selects: the header and the rest of the packet are read apart. -/
theorem decodeByEtherType_append {fields value : Bytes} {n : ℕ} (hfields : fields.length = n)
    (hvalue : value.length = 2) (tooShort unsupported : PacketError) (rest : Bytes) :
    decodeByEtherType n tooShort unsupported (fields ++ value ++ rest) =
      if bigEndian value = etherTypeIPv4 then decodeIPv4Flow rest
      else if bigEndian value = etherTypeIPv6 then decodeIPv6Flow rest else fail unsupported := by
  have hheader : (fields ++ value).length = n + 2 := by rw [length_append, hfields, hvalue]
  have htype : bytesAt (fields ++ value ++ rest) n (n + 2) = .ok value := by
    rw [append_assoc]
    exact slice_append hfields (by rw [hvalue])
  have hrest : bytesAt (fields ++ value ++ rest) (n + 2) (fields ++ value ++ rest).length =
      .ok rest := sliceFrom_append hheader
  rw [decodeByEtherType, if_neg (by rw [length_append]; omega)]
  simp only [htype, sliceFrom, hrest, ok_bind]

private theorem decodeLoopbackFlow_append {header : Bytes} (hlen : header.length = 4) (rest : Bytes) :
    decodeLoopbackFlow (header ++ rest) =
      if bigEndian header = loopFamilyIPv4 ∨
          bigEndian header.reverse = loopFamilyIPv4 then decodeIPv4Flow rest
      else if isIPv6LoopFamily (bigEndian header) ∨
          isIPv6LoopFamily (bigEndian header.reverse) then decodeIPv6Flow rest else fail .loopbackFamily := by
  have hfamily : bytesAt (header ++ rest) 0 4 = .ok header :=
    slice_append length_nil (by rw [hlen])
  have hrest : bytesAt (header ++ rest) 4 (header ++ rest).length = .ok rest :=
    sliceFrom_append hlen
  rw [decodeLoopbackFlow, if_neg (by rw [length_append]; omega)]
  simp only [hfamily, sliceFrom, hrest, ok_bind]

section

variable {packet : IPPacket} {padding : Bytes} (h : packet.Delimited padding)
include h

private theorem decodeByEtherType_encode {fields : Bytes} {n : ℕ} (hlen : fields.length = n)
    (tooShort unsupported : PacketError) :
    decodeByEtherType n tooShort unsupported (fields ++ bigEndianBytes 2 packet.etherType ++
      packet.encode padding) = .ok packet.flow := by
  rw [decodeByEtherType_append hlen (length_bigEndianBytes ..), bigEndian_etherType]
  cases packet with
  | v4 packet => exact (if_pos rfl).trans (packet.decode_encode padding)
  | v6 packet =>
    have hne : ¬ etherTypeIPv6 = etherTypeIPv4 := by decide
    exact (if_neg hne).trans ((if_pos rfl).trans (IPv6Packet.decode_encode h))

private theorem decodeRawIPFlow_encode : decodeRawIPFlow (packet.encode padding) = .ok packet.flow := by
  have hlong {data : Bytes} {first : UInt8} (hfirst : byteAt data 0 = .ok first) :
      ¬ data.length < 1 := by
    cases data with
    | nil => exact nomatch hfirst
    | cons b data => simp
  cases packet with
  | v4 packet =>
    obtain ⟨first, hfirst, hversion⟩ := packet.version_encode padding
    rw [IPPacket.encode, decodeRawIPFlow]
    simp only [hfirst, ok_bind, hversion]
    exact packet.decode_encode padding
  | v6 packet =>
    obtain ⟨first, hfirst, hversion⟩ := packet.version_encode padding
    rw [IPPacket.encode, decodeRawIPFlow, if_neg (hlong hfirst)]
    simp only [hfirst, ok_bind, hversion, if_true, if_neg (show ¬ (6 : UInt8) = 4 by decide)]
    exact IPv6Packet.decode_encode h

private theorem decodeLoopbackFlow_encode (bigEndian : Bool) (i : Fin 3) :
    decodeLoopbackFlow (familyBytes bigEndian (family i packet) ++ packet.encode padding) = .ok packet.flow := by
  rw [decodeLoopbackFlow_append (by cases bigEndian <;> simp [familyBytes])]
  cases packet with
  | v4 packet =>
    rw [family, if_pos (by cases bigEndian <;> decide)]
    exact packet.decode_encode padding
  | v6 packet =>
    rw [family, if_neg (by cases bigEndian <;> revert i <;> decide),
      if_pos (by cases bigEndian <;> revert i <;> decide)]
    exact IPv6Packet.decode_encode h

end

/-- The decoder gets back what was put into a packet, whatever the link layer and what follows the
packet, and it never reads out of bounds. -/
theorem decodeFlowPacket_encode :
    (∀ (link : Link) (packet : IPPacket) (padding : Bytes), packet.Delimited padding →
      decodeFlowPacket link.linkType (link.header packet ++ packet.encode padding) =
        .ok packet.flow) ∧ ∀ linkType data, decodeFlowPacket linkType data ≠ .error .panic := by
  refine ⟨fun link packet padding h => ?_, safe_decodeFlowPacket⟩
  cases link with
  | ethernet addresses hlen | linuxSLL fields hlen => exact decodeByEtherType_encode h hlen _ _
  | raw => exact decodeRawIPFlow_encode h
  | loopback linkType hlink bigEndian i =>
    have hdecode := decodeLoopbackFlow_encode h bigEndian i
    rcases hlink with rfl | rfl <;> exact hdecode

/-- A UDP datagram behind a hop-by-hop header, padded by Ethernet. -/
theorem decodeFlowPacket_encode_query :
    ∃ packet : IPPacket, packet.Delimited [0, 0, 0] ∧ (packet.encode [0, 0, 0]).length = 61 ∧
      decodeFlowPacket linkTypeEthernet
        (List.replicate 12 0 ++ bigEndianBytes 2 etherTypeIPv6 ++ packet.encode [0, 0, 0]) =
      .ok ⟨⟨"ipv6", "udp", .from16 (List.replicate 16 1), .from16 (List.replicate 16 2), 5353, 53, 0,
        0, [7, 8]⟩, 0⟩ := by
  let ext : ExtHeader := ⟨0, by decide, 0, [5, 2, 0, 0, 1, 0], rfl⟩
  let packet : IPv6Packet := ⟨0, (0, 0, 0), 18, 64, replicate 16 1, rfl, replicate 16 2, rfl,
    [ext], by decide, .udp ⟨5353, 53, 0, [7, 8], by decide⟩⟩
  have hdelimited : IPPacket.Delimited [0, 0, 0] (.v6 packet) := .inl rfl
  exact ⟨.v6 packet, hdelimited, rfl,
    decodeFlowPacket_encode.1 (.ethernet (replicate 12 0) rfl) (.v6 packet) _ hdelimited⟩

end Spectra.Netcap
