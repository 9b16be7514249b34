import Spectra.Netcap.Packet

/-! The reader of classic pcap files, and the summary of a whole file. -/
namespace Spectra.Netcap

open Library GoBytes

/-- The byte orders of `encoding/binary`. -/
inductive ByteOrder
  | littleEndian
  | bigEndian
  deriving DecidableEq

def ByteOrder.uint (bytes : Bytes) : ByteOrder → ℕ
  | littleEndian => Reader.bigEndian bytes.reverse
  | bigEndian => Reader.bigEndian bytes

def pcapHeaderLen : ℕ := 24

def defaultSnapLen : ℕ := 262144

def defaultSummaryEventLimit : ℤ := 100

/-- The errors of the reader; those of `io.ReadFull` are wrapped, but for an end of file where a
packet would begin. -/
inductive PCAPError
  | header (err : IoError)
  | magic (magic : Bytes)
  | version (major minor : ℕ)
  | eof
  | packetHeader (err : IoError)
  | exceedsSnapLen (inclLen snapLen : ℕ)
  | exceedsMax (inclLen : ℕ)
  | packetData (err : IoError)
  deriving DecidableEq

/-- `errors.Is(err, io.EOF)`. -/
def PCAPError.isEOF : PCAPError → Bool
  | eof | header .eof | packetHeader .eof | packetData .eof => true
  | _ => false

structure PCAPReader where
  order : ByteOrder
  linkType : UInt32
  snapLen : ℕ
  nanosecond : Bool
  deriving DecidableEq

structure PCAPPacket where
  timestampSec : ℕ
  timestampFrac : ℕ
  capturedLen : ℕ
  originalLen : ℕ
  data : Bytes
  deriving DecidableEq

def pcapByteOrder (magic : Bytes) : Option (ByteOrder × Bool) :=
  if magic = [0xd4, 0xc3, 0xb2, 0xa1] then some (.littleEndian, false)
  else if magic = [0xa1, 0xb2, 0xc3, 0xd4] then some (.bigEndian, false)
  else if magic = [0x4d, 0x3c, 0xb2, 0xa1] then some (.littleEndian, true)
  else if magic = [0xa1, 0xb2, 0x3c, 0x4d] then some (.bigEndian, true)
  else none

/-- The bytes `hdr[lo:hi]` of a header that is an array. -/
def headerField (hdr : Bytes) (lo hi : ℕ) : Bytes := (hdr.take hi).drop lo

/-- What `NewPCAPReader` makes of a global header. -/
def parsePCAPHeader (hdr : Bytes) : Except PCAPError PCAPReader :=
  match pcapByteOrder (headerField hdr 0 4) with
  | none => .error (.magic (headerField hdr 0 4))
  | some (order, nanosecond) =>
    let major := order.uint (headerField hdr 4 6)
    if major ≠ 2 then .error (.version major (order.uint (headerField hdr 6 8)))
    else .ok ⟨order, UInt32.ofNat (order.uint (headerField hdr 20 24)), order.uint (headerField hdr 16 20), nanosecond⟩

/-- `NewPCAPReader`, and the bytes after the header. -/
def newPCAPReader (bytes : Bytes) : Except PCAPError (PCAPReader × Bytes) :=
  match (Reader.readFull pcapHeaderLen).run bytes with
  | .error err => .error (.header err)
  | .ok (hdr, rest) => (parsePCAPHeader hdr).map (·, rest)

/-- `Next`, and the bytes after the packet. -/
def PCAPReader.next (p : PCAPReader) (bytes : Bytes) :
    Except PCAPError (PCAPPacket × Bytes) :=
  match (Reader.readFull 16).run bytes with
  | .error .eof => .error .eof
  | .error err => .error (.packetHeader err)
  | .ok (hdr, rest) =>
    let inclLen := p.order.uint (headerField hdr 8 12)
    let origLen := p.order.uint (headerField hdr 12 16)
    if 0 < p.snapLen ∧ p.snapLen < inclLen then .error (.exceedsSnapLen inclLen p.snapLen)
    else if defaultSnapLen < inclLen then .error (.exceedsMax inclLen)
    else
      match (Reader.readFull inclLen).run rest with
      | .error err => .error (.packetData err)
      | .ok (data, rest) =>
        .ok (⟨p.order.uint (headerField hdr 0 4), p.order.uint (headerField hdr 4 8), inclLen, origLen, data⟩, rest)

/-- A packet takes at least its header. -/
theorem PCAPReader.next_length {p : PCAPReader} {bytes rest : Bytes} {packet : PCAPPacket}
    (h : p.next bytes = .ok (packet, rest)) : rest.length < bytes.length := by
  rw [next] at h
  split at h
  · exact nomatch h
  · exact nomatch h
  · rename_i hdr mid hhdr
    dsimp only at h
    split at h
    · exact nomatch h
    · split at h
      · exact nomatch h
      · split at h
        · exact nomatch h
        · rename_i data rest' hdata
          obtain ⟨-, rfl⟩ := Prod.mk.inj (Except.ok.inj h)
          have hmid := ((Reader.readFull _).suffix hdata).length_le
          obtain ⟨hle, rfl, -⟩ := Reader.takes_readFull 16 _ _ _ hhdr
          rw [List.length_drop] at hmid
          omega

/-- `PCAPSummary` with its counts. -/
structure PCAPReport (DNS : Type) extends PCAPSummary DNS where
  linkType : UInt32
  packets : ℕ := 0
  decodedFlows : ℕ := 0
  decodeErrors : ℕ := 0

variable {DNS : Type} (parseDNSMessage : Bytes → Option DNS) (addrString : NetipAddr → String)

/-- One iteration of `SummarizePCAP`. -/
def summarizePacket (linkType : UInt32) (eventLimit : ℤ)
    (state : PCAPReport DNS × TcpSummaryStreams NetipAddr) (packet : PCAPPacket) :
    PCAPReport DNS × TcpSummaryStreams NetipAddr :=
  let (report, streams) := state
  let report := { report with packets := report.packets + 1 }
  match decodeFlowPacket linkType packet.data with
  | .error _ => ({ report with decodeErrors := report.decodeErrors + 1 }, streams)
  | .ok flow =>
    let (summary, streams) := summarizeFlow parseDNSMessage addrString eventLimit
      (report.toPCAPSummary, streams) flow.toFlowPacket
    ({ report with toPCAPSummary := summary, decodedFlows := report.decodedFlows + 1 }, streams)

/-- The loop of `SummarizePCAP`. -/
def summarizePackets (reader : PCAPReader) (eventLimit : ℤ)
    (state : PCAPReport DNS × TcpSummaryStreams NetipAddr) (bytes : Bytes) :
    Except PCAPError (PCAPReport DNS) :=
  match h : reader.next bytes with
  | .error err => if err.isEOF then .ok state.1 else .error err
  | .ok (packet, rest) =>
    have : rest.length < bytes.length := reader.next_length h
    summarizePackets reader eventLimit
      (summarizePacket parseDNSMessage addrString reader.linkType eventLimit state packet) rest
termination_by bytes.length

def summarizePCAP (bytes : Bytes) (eventLimit : ℤ) : Except PCAPError (PCAPReport DNS) :=
  match newPCAPReader bytes with
  | .error err => .error err
  | .ok (reader, rest) =>
    let eventLimit := if eventLimit ≤ 0 then defaultSummaryEventLimit else eventLimit
    summarizePackets parseDNSMessage addrString reader eventLimit
      ({ linkType := reader.linkType }, fun _ => none) rest

/-- The packets that `Next` returns one after the other, up to its first error. -/
inductive PCAPReader.Reads (reader : PCAPReader) : Bytes → List PCAPPacket → Prop
  | stop {bytes : Bytes} {err : PCAPError} : reader.next bytes = .error err → Reads reader bytes []
  | next {bytes rest : Bytes} {packet : PCAPPacket} {packets : List PCAPPacket} :
      reader.next bytes = .ok (packet, rest) → Reads reader rest packets → Reads reader bytes (packet :: packets)

def PCAPSummary.events (s : PCAPSummary DNS) : ℕ := s.dns.length + s.tls.length + s.http.length

/-- There were at most `n` events, and some were dropped only if there are as many as there may be. -/
def PCAPSummary.Within (limit : ℤ) (n : ℕ) (s : PCAPSummary DNS) : Prop :=
  s.events + s.eventsDropped ≤ n ∧ s.events ≤ limit ∧ (0 < s.eventsDropped → s.events = limit)

/-- The report counts these packets, those that decode and those that do not, and accounts for the
events. -/
structure PCAPReport.Accounts (limit : ℤ) (linkType : UInt32) (packets : List PCAPPacket)
    (r : PCAPReport DNS) : Prop where
  packets_eq : r.packets = packets.length
  decodedFlows : r.decodedFlows = packets.countP fun p => (decodeFlowPacket linkType p.data).isOk
  decodeErrors : r.decodeErrors = packets.countP fun p => !(decodeFlowPacket linkType p.data).isOk
  events : r.Within limit r.decodedFlows

variable {limit : ℤ} {state : PCAPReport DNS × TcpSummaryStreams NetipAddr} {bytes : Bytes} {report : PCAPReport DNS}

namespace PCAPSummary.Within
variable {n : ℕ} {s : PCAPSummary DNS}

theorem succ (h : s.Within limit n) : s.Within limit (n + 1) := ⟨h.1.trans n.le_succ, h.2⟩

theorem record {add : PCAPSummary DNS → PCAPSummary DNS} (h : s.Within limit n)
    (hadd : (add s).events = s.events + 1 ∧ (add s).eventsDropped = s.eventsDropped) :
    (s.record limit add).Within limit (n + 1) := by
  obtain ⟨hcount, hlimit, hdropped⟩ := h
  rw [PCAPSummary.record]
  split
  · rename_i hroom
    have hroom : (s.events : ℤ) < limit := of_decide_eq_true hroom
    rw [Within, hadd.1, hadd.2]
    exact ⟨by omega, by omega, fun hpos => absurd (hdropped hpos) hroom.ne⟩
  · rename_i hfull
    have hfull : limit ≤ s.events := not_lt.mp fun hlt => hfull (decide_eq_true hlt)
    exact ⟨Nat.succ_le_succ hcount, hlimit, fun _ => hlimit.antisymm hfull⟩

theorem inspect (h : s.Within limit n) (flow : FlowSummary) (stream : TcpSummaryStream) :
    (inspect s flow limit stream).1.Within limit (n + 1) := by
  rw [Netcap.inspect]
  split
  · split
    · exact h.record ⟨by simp [events]; omega, rfl⟩
    · exact h.succ
  · split
    · split
      · exact h.record ⟨by simp [events]; omega, rfl⟩
      · exact h.succ
    · exact h.succ

theorem flow {state : PCAPSummary DNS × TcpSummaryStreams NetipAddr} (h : state.1.Within limit n)
    (flow : FlowPacket NetipAddr) :
    (summarizeFlow parseDNSMessage addrString limit state flow).1.Within limit (n + 1) := by
  rw [summarizeFlow]
  split
  · exact h.succ
  · split
    · split
      · exact h.record ⟨by simp [events]; omega, rfl⟩
      · exact h.succ
    · split
      · exact h.succ
      · dsimp only
        split
        · exact h.inspect _ _
        · exact h.succ

end PCAPSummary.Within

theorem PCAPReport.Accounts.packet {linkType : UInt32} {packets : List PCAPPacket}
    (h : state.1.Accounts limit linkType packets) (packet : PCAPPacket) :
    (summarizePacket parseDNSMessage addrString linkType limit state packet).1.Accounts limit linkType
      (packets ++ [packet]) := by
  rw [summarizePacket]
  dsimp only
  split
  · rename_i hdecode
    refine ⟨?_, ?_, ?_, h.events⟩ <;>
      simp [hdecode, h.packets_eq, h.decodedFlows, h.decodeErrors, Except.isOk, Except.toBool]
  · rename_i hdecode
    refine ⟨?_, ?_, ?_, h.events.flow ..⟩ <;>
      simp [hdecode, h.packets_eq, h.decodedFlows, h.decodeErrors, Except.isOk, Except.toBool]

theorem PCAPReport.Accounts.run {reader : PCAPReader} {packets : List PCAPPacket}
    (h : state.1.Accounts limit reader.linkType packets)
    (hrun : summarizePackets parseDNSMessage addrString reader limit state bytes = .ok report) :
    ∃ read, reader.Reads bytes read ∧ report.Accounts limit reader.linkType (packets ++ read) := by
  fun_induction summarizePackets generalizing packets with
  | case1 state bytes err hnext =>
    refine ⟨[], .stop hnext, ?_⟩
    rw [List.append_nil]
    exact Except.ok.inj hrun ▸ h
  | case2 => exact nomatch hrun
  | case3 state bytes packet rest hnext _ ih =>
    obtain ⟨read, hread, haccounts⟩ := ih (h.packet ..) hrun
    rw [List.append_assoc] at haccounts
    exact ⟨packet :: read, .next hnext hread, haccounts⟩

/-- The report of any file counts each packet that is read, as decoded or not, and accounts for the
events. -/
theorem summarizePCAP_accounts (h : summarizePCAP parseDNSMessage addrString bytes limit = .ok report) :
    ∃ reader rest packets, newPCAPReader bytes = .ok (reader, rest) ∧ reader.Reads rest packets ∧
      report.Accounts (if limit ≤ 0 then defaultSummaryEventLimit else limit) reader.linkType packets := by
  rw [summarizePCAP] at h
  split at h
  · exact nomatch h
  · rename_i reader rest hreader
    have hlimit : 0 ≤ if limit ≤ 0 then defaultSummaryEventLimit else limit := by
      split
      · decide
      · omega
    have hstart : PCAPReport.Accounts _ reader.linkType [] ({ linkType := reader.linkType } : PCAPReport DNS) :=
      ⟨rfl, rfl, rfl, le_rfl, hlimit, fun h => absurd h (lt_irrefl 0)⟩
    obtain ⟨packets, hreads, haccounts⟩ := PCAPReport.Accounts.run _ _ hstart h
    exact ⟨reader, rest, packets, hreader, hreads, haccounts⟩

/-- A capture of one byte that is not a frame, and of a DNS message over Ethernet, IPv4 and UDP. -/
def dnsCapture : Bytes :=
  [0xd4, 0xc3, 0xb2, 0xa1, 2, 0, 4, 0, 0, 0, 0, 0, 0, 0, 0, 0, 255, 255, 0, 0, 1, 0, 0, 0] ++
  [0, 0, 0, 0, 0, 0, 0, 0, 1, 0, 0, 0, 1, 0, 0, 0, 7] ++
  [1, 0, 0, 0, 0, 0, 0, 0, 43, 0, 0, 0, 43, 0, 0, 0] ++ [0, 0, 0, 0, 0, 1, 0, 0, 0, 0, 0, 2, 8, 0] ++
  [0x45, 0, 0, 29, 0, 0, 0, 0, 64, 17, 0, 0, 10, 0, 0, 1, 10, 0, 0, 2] ++ [0x30, 0x39, 0, 53, 0, 9, 0, 0, 1]

theorem summarizePCAP_accounts_dns : ∃ report,
    summarizePCAP (fun _ => some ()) (fun _ => "") dnsCapture 0 = .ok report ∧
      (report.decodedFlows, report.decodeErrors, report.dns.length) = (1, 1, 1) ∧
      ∃ reader rest packets, newPCAPReader dnsCapture = .ok (reader, rest) ∧ reader.Reads rest packets ∧
        report.Accounts 100 reader.linkType packets := by
  have hcounts : (summarizePCAP (fun _ => some ()) (fun _ => "") dnsCapture 0).toOption.map
      (fun r => (r.decodedFlows, r.decodeErrors, r.dns.length)) = some (1, 1, 1) := by
    decide +kernel
  cases hrun : summarizePCAP (fun _ => some ()) (fun _ => "") dnsCapture 0 with
  | error err =>
    rw [hrun] at hcounts
    cases hcounts
  | ok report =>
    rw [hrun] at hcounts
    exact ⟨report, rfl, Option.some.inj hcounts, summarizePCAP_accounts _ _ hrun⟩

end Spectra.Netcap
