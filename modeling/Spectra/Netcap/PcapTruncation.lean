import Spectra.Netcap.Pcap

/-! Classic pcap files, and what the summary makes of a file that was cut. -/
namespace Spectra.Netcap
open List Library GoBytes Reader

def ByteOrder.put (n v : ℕ) : ByteOrder → Bytes
  | littleEndian => (Reader.bigEndianBytes n v).reverse
  | bigEndian => Reader.bigEndianBytes n v

variable (order : ByteOrder)

@[simp] theorem ByteOrder.length_put (n v : ℕ) : (order.put n v).length = n := by
  cases order with
  | littleEndian => rw [put, length_reverse, length_bigEndianBytes]
  | bigEndian => exact length_bigEndianBytes n v

theorem ByteOrder.uint_put {n v : ℕ} (h : v < 256 ^ n) : order.uint (order.put n v) = v := by
  cases order with
  | littleEndian => rw [put, uint, reverse_reverse, bigEndian_bigEndianBytes h]
  | bigEndian => exact bigEndian_bigEndianBytes h

theorem ByteOrder.uint_put_four {v : ℕ} (h : v < 2 ^ 32) : order.uint (order.put 4 v) = v :=
  order.uint_put h

/-- One packet of a file: any bytes that a length field can count. -/
structure PcapRecord where
  timestampSec : UInt32
  timestampFrac : UInt32
  originalLen : UInt32
  data : Bytes
  bounded : data.length < 2 ^ 32

namespace PcapRecord

def header (order : ByteOrder) (r : PcapRecord) : Bytes :=
  [order.put 4 r.timestampSec.toNat, order.put 4 r.timestampFrac.toNat,
    order.put 4 r.data.length, order.put 4 r.originalLen.toNat].flatten

def encode (order : ByteOrder) (r : PcapRecord) : Bytes := r.header order ++ r.data

def packet (r : PcapRecord) : PCAPPacket :=
  ⟨r.timestampSec.toNat, r.timestampFrac.toNat, r.data.length, r.originalLen.toNat, r.data⟩

variable (order : ByteOrder) (r : PcapRecord)

@[simp] theorem length_header : (r.header order).length = 16 := by
  simp [header]

@[simp] theorem length_encode : (r.encode order).length = 16 + r.data.length := by
  rw [encode, length_append, length_header]

end PcapRecord

def encodeRecords (order : ByteOrder) (records : List PcapRecord) : Bytes :=
  (records.map (PcapRecord.encode order)).flatten

theorem encodeRecords_cons (r : PcapRecord) (records : List PcapRecord) :
    encodeRecords order (r :: records) = r.encode order ++ encodeRecords order records := rfl

def pcapMagic (nanosecond : Bool) : ByteOrder → Bytes
  | .littleEndian => if nanosecond then [0x4d, 0x3c, 0xb2, 0xa1] else [0xd4, 0xc3, 0xb2, 0xa1]
  | .bigEndian => if nanosecond then [0xa1, 0xb2, 0x3c, 0x4d] else [0xa1, 0xb2, 0xc3, 0xd4]

/-- A classic pcap file of version 2. -/
structure PcapFile where
  order : ByteOrder
  nanosecond : Bool
  minor : UInt16
  thisZone : UInt32
  sigFigs : UInt32
  snapLen : UInt32
  linkType : UInt32
  records : List PcapRecord

namespace PcapFile

def header (file : PcapFile) : Bytes :=
  [pcapMagic file.nanosecond file.order, file.order.put 2 2, file.order.put 2 file.minor.toNat,
    file.order.put 4 file.thisZone.toNat, file.order.put 4 file.sigFigs.toNat,
    file.order.put 4 file.snapLen.toNat, file.order.put 4 file.linkType.toNat].flatten

def encode (file : PcapFile) : Bytes := file.header ++ encodeRecords file.order file.records

def reader (file : PcapFile) : PCAPReader :=
  ⟨file.order, file.linkType, file.snapLen.toNat, file.nanosecond⟩

end PcapFile

section

variable {chunks : List Bytes} {part : Bytes} {lo hi : ℕ}

theorem headerField_chunk (i : ℕ) (h : chunks[i]? = some part)
    (hlo : (chunks.take i).flatten.length = lo) (hhi : lo + part.length = hi) :
    headerField chunks.flatten lo hi = part := by
  have hslice := Checked.slice_chunk (ε := PCAPError) i h hlo hhi
  rw [Checked.slice] at hslice
  split at hslice
  · exact Except.ok.inj hslice
  · exact nomatch hslice

variable (nanosecond : Bool) (order : ByteOrder)

@[simp] theorem length_pcapMagic : (pcapMagic nanosecond order).length = 4 := by
  cases order <;> cases nanosecond <;> rfl

private theorem pcapByteOrder_pcapMagic :
    pcapByteOrder (pcapMagic nanosecond order) = some (order, nanosecond) := by
  cases order <;> cases nanosecond <;> decide

variable (file : PcapFile)

@[simp] theorem PcapFile.length_header : file.header.length = pcapHeaderLen := by
  simp [header, pcapHeaderLen]

private theorem parsePCAPHeader_header : parsePCAPHeader file.header = .ok file.reader := by
  have hmagic : headerField file.header 0 4 = pcapMagic file.nanosecond file.order :=
    headerField_chunk 0 rfl (by simp) (by simp)
  have hmajor : headerField file.header 4 6 = file.order.put 2 2 :=
    headerField_chunk 1 rfl (by simp) (by simp)
  have hsnap : headerField file.header 16 20 = file.order.put 4 file.snapLen.toNat :=
    headerField_chunk 5 rfl (by simp) (by simp)
  have hlink : headerField file.header 20 24 = file.order.put 4 file.linkType.toNat :=
    headerField_chunk 6 rfl (by simp) (by simp)
  simp only [parsePCAPHeader, hmagic, pcapByteOrder_pcapMagic, hmajor, hsnap, hlink]
  rw [file.order.uint_put (by decide), file.order.uint_put_four file.snapLen.toNat_lt,
    file.order.uint_put_four file.linkType.toNat_lt, UInt32.ofNat_toNat]
  rfl

private theorem newPCAPReader_header (rest : Bytes) :
    newPCAPReader (file.header ++ rest) = .ok (file.reader, rest) := by
  rw [newPCAPReader, run_readFull_append file.length_header]
  dsimp only
  rw [parsePCAPHeader_header]
  rfl

end

namespace PCAPReader

def Accepts (p : PCAPReader) (r : PcapRecord) : Prop :=
  (p.snapLen = 0 ∨ r.data.length ≤ p.snapLen) ∧ r.data.length ≤ defaultSnapLen

variable {p : PCAPReader} {r : PcapRecord} {rest : Bytes}

theorem next_nil (p : PCAPReader) : p.next [] = .error .eof := rfl

theorem next_short {bytes : Bytes} (hne : bytes ≠ []) (h : bytes.length < 16) :
    p.next bytes = .error (.packetHeader .unexpectedEof) := by
  rw [next, run_readFull_short h, if_neg hne]

theorem next_header (r : PcapRecord) (rest : Bytes) :
    p.next (r.header p.order ++ rest) =
      if 0 < p.snapLen ∧ p.snapLen < r.data.length then
        .error (.exceedsSnapLen r.data.length p.snapLen)
      else if defaultSnapLen < r.data.length then .error (.exceedsMax r.data.length)
      else match (readFull r.data.length).run rest with
        | .error err => .error (.packetData err)
        | .ok (data, rest) => .ok ({ r.packet with data := data }, rest) := by
  have hread := run_readFull_append (r.length_header p.order) rest
  have hsec : headerField (r.header p.order) 0 4 = p.order.put 4 r.timestampSec.toNat :=
    headerField_chunk 0 rfl (by simp) (by simp)
  have hfrac : headerField (r.header p.order) 4 8 = p.order.put 4 r.timestampFrac.toNat :=
    headerField_chunk 1 rfl (by simp) (by simp)
  have hincl : headerField (r.header p.order) 8 12 = p.order.put 4 r.data.length :=
    headerField_chunk 2 rfl (by simp) (by simp)
  have horig : headerField (r.header p.order) 12 16 = p.order.put 4 r.originalLen.toNat :=
    headerField_chunk 3 rfl (by simp) (by simp)
  simp only [next, hread, hsec, hfrac, hincl, horig, p.order.uint_put_four r.bounded,
    p.order.uint_put_four r.timestampSec.toNat_lt, p.order.uint_put_four r.timestampFrac.toNat_lt,
    p.order.uint_put_four r.originalLen.toNat_lt]
  rfl

theorem next_rejected (h : ¬ p.Accepts r) (rest : Bytes) :
    ∃ err, p.next (r.header p.order ++ rest) = .error err ∧ err.isEOF = false := by
  rw [next_header]
  by_cases hsnap : 0 < p.snapLen ∧ p.snapLen < r.data.length
  · exact ⟨_, if_pos hsnap, rfl⟩
  · rw [if_neg hsnap]
    by_cases hmax : defaultSnapLen < r.data.length
    · exact ⟨_, if_pos hmax, rfl⟩
    · exact absurd ⟨by omega, by omega⟩ h

theorem next_encode (h : p.Accepts r) (rest : Bytes) :
    p.next (r.encode p.order ++ rest) = .ok (r.packet, rest) := by
  obtain ⟨hsnap, hmax⟩ := h
  rw [PcapRecord.encode, append_assoc, next_header, if_neg (by omega), if_neg (by omega),
    run_readFull_append rfl]
  rfl

theorem next_cut (h : p.Accepts r) (hrest : rest.length < r.data.length) :
    p.next (r.header p.order ++ rest) = .error (.packetData (if rest = [] then .eof else .unexpectedEof)) := by
  obtain ⟨hsnap, hmax⟩ := h
  rw [next_header, if_neg (by omega), if_neg (by omega), run_readFull_short hrest]

end PCAPReader

/-- The first `n` bytes are those of the first `count` records. -/
def EndsAfter (order : ByteOrder) (records : List PcapRecord) (n count : ℕ) : Prop :=
  count ≤ records.length ∧ n = (encodeRecords order (records.take count)).length

/-- The first `n` bytes end after the header of a packet that has data, and no packet that the
reader comes to before it is rejected. -/
def CutAfterHeader (reader : PCAPReader) (records : List PcapRecord) (n : ℕ) : Prop :=
  ∃ before record after, records = before ++ record :: after ∧
    (∀ r ∈ before ++ [record], reader.Accepts r) ∧ record.data ≠ [] ∧
    n = (encodeRecords reader.order before).length + 16

section

variable {reader : PCAPReader} {r : PcapRecord} {records : List PcapRecord} {n count : ℕ}

theorem EndsAfter.zero (order : ByteOrder) (records : List PcapRecord) : EndsAfter order records 0 0 :=
  ⟨Nat.zero_le _, rfl⟩

theorem endsAfter_cons_succ (order : ByteOrder) :
    EndsAfter order (r :: records) ((r.encode order).length + n) (count + 1) ↔ EndsAfter order records n count := by
  simp only [EndsAfter, length_cons, take_succ_cons, encodeRecords_cons, length_append]
  omega

theorem not_endsAfter_cons {order : ByteOrder} (hpos : 0 < n) (hn : n < (r.encode order).length) :
    ¬ EndsAfter order (r :: records) n count := by
  rintro ⟨-, h⟩
  cases count with
  | zero =>
    rw [h] at hpos
    exact absurd hpos (Nat.lt_irrefl 0)
  | succ count =>
    rw [take_succ_cons, encodeRecords_cons, length_append] at h
    omega

private theorem not_cutAfterHeader_nil : ¬ CutAfterHeader reader [] n := by
  rintro ⟨before, record, after, h, -⟩
  exact cons_ne_nil _ _ (append_eq_nil_iff.mp h.symm).2

theorem not_cutAfterHeader_short (h : n < 16) : ¬ CutAfterHeader reader records n := by
  rintro ⟨before, record, after, -, -, -, hn⟩
  omega

theorem CutAfterHeader.accepts (h : CutAfterHeader reader (r :: records) n) : reader.Accepts r := by
  obtain ⟨before, record, after, hsplit, hacc, -⟩ := h
  cases before with
  | nil =>
    obtain ⟨rfl, -⟩ := cons.inj hsplit
    exact hacc r (mem_singleton_self r)
  | cons b before =>
    obtain ⟨rfl, -⟩ := cons.inj hsplit
    exact hacc r mem_cons_self

private theorem cutAfterHeader_cons_lt (hacc : reader.Accepts r) (hn : n < (r.encode reader.order).length) :
    CutAfterHeader reader (r :: records) n ↔ n = 16 := by
  constructor
  · rintro ⟨before, record, after, hsplit, -, -, rfl⟩
    cases before with
    | nil => rfl
    | cons b before =>
      obtain ⟨rfl, -⟩ := cons.inj hsplit
      rw [encodeRecords_cons, length_append] at hn
      omega
  · rintro rfl
    rw [r.length_encode] at hn
    refine ⟨[], r, records, rfl, ?_, ?_, rfl⟩
    · intro r' hr'
      rw [mem_singleton.mp hr']
      exact hacc
    · exact ne_nil_of_length_pos (by omega)

theorem cutAfterHeader_cons_add (hacc : reader.Accepts r) :
    CutAfterHeader reader (r :: records) ((r.encode reader.order).length + n) ↔ CutAfterHeader reader records n := by
  constructor
  · rintro ⟨before, record, after, hsplit, hall, hne, hn⟩
    cases before with
    | nil =>
      obtain ⟨rfl, -⟩ := cons.inj hsplit
      have hdata := length_pos_iff.mpr hne
      rw [r.length_encode] at hn
      change _ = 0 + 16 at hn
      omega
    | cons b before =>
      obtain ⟨rfl, htail⟩ := cons.inj hsplit
      rw [encodeRecords_cons, length_append] at hn
      exact ⟨before, record, after, htail, fun r' hr' => hall r' (.tail _ hr'), hne, by omega⟩
  · rintro ⟨before, record, after, rfl, hall, hne, rfl⟩
    refine ⟨r :: before, record, after, rfl, ?_, hne, ?_⟩
    · rw [cons_append, forall_mem_cons]
      exact ⟨hacc, hall⟩
    · rw [encodeRecords_cons, length_append]
      omega

end

section

variable {DNS : Type} (parseDNSMessage : Bytes → Option DNS) (addrString : NetipAddr → String)
  {reader : PCAPReader} {limit : ℤ}

private theorem summarizePacket_packets (linkType : UInt32)
    (state : PCAPReport DNS × TcpSummaryStreams NetipAddr) (packet : PCAPPacket) :
    (summarizePacket parseDNSMessage addrString linkType limit state packet).1.packets = state.1.packets + 1 := by
  rw [summarizePacket]
  split <;> rfl

variable {state : PCAPReport DNS × TcpSummaryStreams NetipAddr} {bytes rest : Bytes}

theorem summarizePackets_error {err : PCAPError} (h : reader.next bytes = .error err) :
    summarizePackets parseDNSMessage addrString reader limit state bytes =
      if err.isEOF then .ok state.1 else .error err := by
  rw [summarizePackets]
  split
  · rename_i err' herr
    cases h.symm.trans herr
    rfl
  · rename_i herr
    cases h.symm.trans herr

private theorem summarizePackets_ok {packet : PCAPPacket} (h : reader.next bytes = .ok (packet, rest)) :
    summarizePackets parseDNSMessage addrString reader limit state bytes =
      summarizePackets parseDNSMessage addrString reader limit
        (summarizePacket parseDNSMessage addrString reader.linkType limit state packet) rest := by
  rw [summarizePackets]
  split
  · rename_i herr
    cases h.symm.trans herr
  · rename_i hok
    cases h.symm.trans hok
    rfl

/-- A report without an error counts the records that are there, as long as the cut is not one
that passes for the end of the file. -/
theorem summarizePackets_take_iff (reader : PCAPReader) (limit : ℤ)
    (state : PCAPReport DNS × TcpSummaryStreams NetipAddr) (records : List PcapRecord) (n : ℕ)
    (hn : n ≤ (encodeRecords reader.order records).length) :
    (∀ report, summarizePackets parseDNSMessage addrString reader limit state
        ((encodeRecords reader.order records).take n) = .ok report →
      ∃ count, EndsAfter reader.order records n count ∧
        report.packets = state.1.packets + count) ↔ ¬ CutAfterHeader reader records n := by
  induction records generalizing n state with
  | nil =>
    obtain rfl : n = 0 := Nat.le_zero.mp hn
    rw [take_zero, summarizePackets_error _ _ reader.next_nil]
    refine iff_of_true ?_ not_cutAfterHeader_nil
    rintro report ⟨rfl⟩
    exact ⟨0, .zero _ _, rfl⟩
  | cons r records ih =>
    rw [encodeRecords_cons] at hn ⊢
    rcases Nat.lt_or_ge n 16 with hshort | hheader
    · refine iff_of_true ?_ (not_cutAfterHeader_short hshort)
      rcases Nat.eq_zero_or_pos n with rfl | hpos
      · rw [take_zero, summarizePackets_error _ _ reader.next_nil]
        rintro report ⟨rfl⟩
        exact ⟨0, .zero _ _, rfl⟩
      · have hlen := length_take_of_le hn
        rw [summarizePackets_error _ _ (reader.next_short (ne_nil_of_length_pos (by omega))
          (by omega))]
        exact fun report h => nomatch h
    · have hcut : (r.encode reader.order ++ encodeRecords reader.order records).take n =
          r.header reader.order ++
            (r.data ++ encodeRecords reader.order records).take (n - 16) := by
        rw [PcapRecord.encode, append_assoc, take_append, r.length_header, take_of_length_le (by simpa using hheader)]
      by_cases hacc : reader.Accepts r
      · rcases Nat.lt_or_ge n (r.encode reader.order).length with hdata | hwhole
        · rw [cutAfterHeader_cons_lt hacc hdata, hcut]
          have hlt : ((r.data ++ encodeRecords reader.order records).take (n - 16)).length <
              r.data.length := by
            rw [r.length_encode] at hdata
            rw [length_take]
            omega
          rw [summarizePackets_error _ _ (reader.next_cut hacc hlt)]
          by_cases h16 : n = 16
          · rw [h16]
            refine iff_of_false ?_ (not_not_intro rfl)
            intro h
            obtain ⟨count, hends, -⟩ := h state.1 rfl
            exact not_endsAfter_cons (by decide) (h16 ▸ hdata) hends
          · refine iff_of_true ?_ h16
            have hne : (r.data ++ encodeRecords reader.order records).take (n - 16) ≠ [] := by
              refine ne_nil_of_length_pos ?_
              rw [length_take, length_append]
              omega
            rw [if_neg hne]
            exact fun report h => nomatch h
        · obtain ⟨m, rfl⟩ := Nat.exists_eq_add_of_le hwhole
          have hm : m ≤ (encodeRecords reader.order records).length := by
            rw [length_append] at hn
            omega
          rw [take_length_add_append, summarizePackets_ok _ _ (reader.next_encode hacc _),
            cutAfterHeader_cons_add hacc, ← ih _ m hm]
          refine forall_congr' fun report => imp_congr_right fun _ => ?_
          rw [summarizePacket_packets]
          constructor
          · rintro ⟨count, hends, hcount⟩
            cases count with
            | zero =>
              have hzero : (r.encode reader.order).length + m = 0 := hends.2
              omega
            | succ count =>
              exact ⟨count, (endsAfter_cons_succ _).mp hends, by omega⟩
          · rintro ⟨count, hends, hcount⟩
            exact ⟨count + 1, (endsAfter_cons_succ _).mpr hends, by omega⟩
      · obtain ⟨err, hnext, heof⟩ := reader.next_rejected hacc
          ((r.data ++ encodeRecords reader.order records).take (n - 16))
        rw [hcut, summarizePackets_error _ _ hnext, heof]
        refine iff_of_true (fun report h => nomatch h) fun h => hacc h.accepts

end

section

variable {DNS : Type} (parseDNSMessage : Bytes → Option DNS) (addrString : NetipAddr → String)

theorem summarizePCAP_header (file : PcapFile) (rest : Bytes) (eventLimit : ℤ) :
    summarizePCAP parseDNSMessage addrString (file.header ++ rest) eventLimit =
      summarizePackets parseDNSMessage addrString file.reader
        (if eventLimit ≤ 0 then defaultSummaryEventLimit else eventLimit)
        ({ linkType := file.linkType }, fun _ => none) rest := by
  rw [summarizePCAP, newPCAPReader_header]
  rfl

/-- A summary of a prefix of a file that has the global header is without an error only if the
prefix ends at a packet boundary, and then counts the packets of the prefix, exactly if the prefix
does not end after the header of a packet that has data. -/
theorem summarizePCAP_prefix_iff (file : PcapFile) (n : ℕ) (eventLimit : ℤ)
    (hn : n ≤ (encodeRecords file.order file.records).length) :
    (∀ report, summarizePCAP parseDNSMessage addrString (file.encode.take (pcapHeaderLen + n))
        eventLimit = .ok report → EndsAfter file.order file.records n report.packets) ↔
      ¬ CutAfterHeader file.reader file.records n := by
  have hcut : file.encode.take (pcapHeaderLen + n) =
      file.header ++ (encodeRecords file.order file.records).take n := by
    rw [PcapFile.encode, ← file.length_header, take_length_add_append]
  rw [hcut, summarizePCAP_header]
  refine .trans (forall_congr' fun report => imp_congr_right fun _ => ⟨fun h => ⟨_, h, ?_⟩, ?_⟩)
    (summarizePackets_take_iff parseDNSMessage addrString file.reader _ _ file.records n hn)
  · rintro ⟨count, hends, hcount⟩
    rw [hcount, Nat.zero_add]
    exact hends
  · rw [Nat.zero_add]

end

def twoBytes : PcapFile :=
  { order := .littleEndian, nanosecond := false, minor := 4, thisZone := 0, sigFigs := 0,
    snapLen := 65535, linkType := 1,
    records := [⟨0, 0, 1, [7], by decide⟩, ⟨1, 0, 1, [8], by decide⟩] }

private theorem twoBytes_accepts (r : PcapRecord) (h : r.data.length = 1) : twoBytes.reader.Accepts r := by
  rw [PCAPReader.Accepts, h]
  decide

theorem summarizePCAP_prefix_iff_boundary :
    17 ≤ (encodeRecords twoBytes.order twoBytes.records).length ∧
      ∀ report, summarizePCAP (fun _ => (none : Option Unit)) (fun _ => "")
        (twoBytes.encode.take (pcapHeaderLen + 17)) 0 = .ok report →
        EndsAfter twoBytes.order twoBytes.records 17 report.packets := by
  have hcut : ¬ CutAfterHeader twoBytes.reader twoBytes.records 17 := by
    intro h
    have hrest := (cutAfterHeader_cons_add (n := 0) (twoBytes_accepts _ rfl)).mp h
    exact not_cutAfterHeader_short (by decide) hrest
  exact ⟨by decide, (summarizePCAP_prefix_iff _ _ twoBytes 17 0 (by decide)).mpr hcut⟩

/-- A file that is cut after the header of its first packet is reported as one with no packets. -/
theorem summarizePCAP_cut_unnoticed :
    ∃ report, summarizePCAP (fun _ => (none : Option Unit)) (fun _ => "")
        (twoBytes.encode.take (pcapHeaderLen + 16)) 0 = .ok report ∧
      ¬ EndsAfter twoBytes.order twoBytes.records 16 report.packets := by
  have hcut : twoBytes.encode.take (pcapHeaderLen + 16) =
      twoBytes.header ++ (encodeRecords twoBytes.order twoBytes.records).take 16 := by
    decide
  have hnext : twoBytes.reader.next ((encodeRecords twoBytes.order twoBytes.records).take 16) =
      .error (.packetData .eof) := by
    decide
  rw [hcut, summarizePCAP_header, summarizePackets_error _ _ hnext]
  exact ⟨_, rfl, not_endsAfter_cons (by decide) (by decide)⟩

end Spectra.Netcap
