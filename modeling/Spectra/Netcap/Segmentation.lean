import Spectra.Netcap.Summary
import Spectra.Netproto.HeaderBlock

/-! The events of a TCP stream do not depend on its segments. -/
namespace Spectra.Netcap
open List UInt32 Library.GoBytes Netproto

/-- A message that the parsers find in the data of a stream. -/
inductive Event
  | tls (hello : TLSClientHello)
  | http (msg : HTTPMessage)

open Event

/-- What the parsers find in the data as a whole. -/
def event (data : Bytes) : Option Event :=
  if isTLSClientHelloPayload data then (parseTLSClientHello data).toOption.map .tls
  else if isHTTP1Payload data && hasHTTPHeaderTerminator data then
    (parseHTTP1Headers data).toOption.map .http
  else none

def Event.isTLS : Event → Bool
  | .tls _ => true
  | .http _ => false

def PCAPSummary.emit {DNS : Type} (summary : PCAPSummary DNS) (flow : FlowSummary) (limit : ℤ) :
    Option Event → PCAPSummary DNS
  | none => summary
  | some (.tls hello) => appendTLSSummary summary flow hello limit
  | some (.http msg) => appendHTTPSummary summary flow msg limit

section

variable {data : Bytes}

theorem getD_append_of_lt {i : ℕ} (h : i < data.length) (more : Bytes) :
    (data ++ more).getD i 0 = data.getD i 0 := by
  rw [getD_eq_getElem?_getD, getD_eq_getElem?_getD, getElem?_append_left h]

private theorem uint16_drop_append {i : ℕ} (h : i + 2 ≤ data.length) (more : Bytes) :
    uint16 ((data ++ more).drop i) = uint16 (data.drop i) := by
  rw [uint16, uint16, drop_append_of_le_length (by omega),
    take_append_of_le_length (by rw [length_drop]; omega)]

/-- A ClientHello that is complete stays the same. -/
theorem parseTLSClientHello_append {hello : TLSClientHello}
    (h : parseTLSClientHello data = .ok hello) (more : Bytes) :
    parseTLSClientHello (data ++ more) = .ok hello := by
  simp only [parseTLSClientHello] at h
  split at h
  · exact nomatch h
  · split at h
    · exact nomatch h
    · rename_i hkind
      split at h
      · exact nomatch h
      · rename_i hrecord
        rw [length_drop] at hrecord
        have hmore : ¬ (data ++ more).length < 5 := by
          rw [length_append]
          omega
        simp only [parseTLSClientHello, uint16_drop_append (show 3 + 2 ≤ data.length by omega),
          getD_append_of_lt (show 0 < data.length by omega), if_neg hmore, if_neg hkind]
        rw [drop_append_of_le_length (by omega), length_append, length_drop,
          if_neg (by omega), take_append_of_le_length (by rw [length_drop]; omega)]
        exact h

private theorem isTLSClientHelloPayload_append (h : isTLSClientHelloPayload data = true)
    (more : Bytes) : isTLSClientHelloPayload (data ++ more) = true := by
  obtain ⟨hlen, hkind, htype⟩ := of_decide_eq_true h
  refine decide_eq_true ⟨?_, ?_, ?_⟩
  · rw [length_append]
    omega
  · rwa [getD_append_of_lt (by omega)]
  · rwa [getD_append_of_lt (by omega)]

theorem terminated_append (h : Terminated data) (more : Bytes) : Terminated (data ++ more) :=
  h.imp (·.trans (prefix_append data more).isInfix)
    (·.trans (prefix_append data more).isInfix)

private theorem isHTTP1Payload_append (h : isHTTP1Payload data = true) (more : Bytes) :
    isHTTP1Payload (data ++ more) = true := by
  rw [isHTTP1Payload] at h ⊢
  split
  · rfl
  · rename_i hstarts
    split at h
    · rename_i hold
      have hlonger := ( isPrefixOf_iff_prefix.mp hold).trans (prefix_append data more)
      exact absurd ( isPrefixOf_iff_prefix.mpr hlonger) hstarts
    · cases hindex : index (ascii " ") data with
      | none => simp [hindex] at h
      | some i =>
        have hle := (eq_of_index hindex).1
        have hmore : index (ascii " ") (data ++ more) = some i :=
          index_singleton_append_right hindex more
        rw [hmore]
        rw [hindex] at h
        simpa only [take_append_of_le_length hle] using h

theorem isHTTP1Payload_eq_false_of_tls (h : isTLSClientHelloPayload data = true) : isHTTP1Payload data = false := by
  obtain ⟨hlen, hkind, -⟩ := of_decide_eq_true h
  obtain ⟨rest, rfl⟩ : ∃ rest, data = 22 :: rest := by
    cases data with
    | nil => exact absurd hlen (by decide)
    | cons b rest => exact ⟨rest, congrArg (· :: rest) hkind⟩
  have hmethods : ∀ m ∈ httpMethods, m.head? ≠ some 22 := by decide
  rw [isHTTP1Payload]
  cases index (ascii " ") (22 :: rest) with
  | none => rfl
  | some i =>
    cases i with
    | zero => rfl
    | succ i =>
      have hmethod : toUpper (22 :: rest.take i) ∉ httpMethods := fun hmem =>
        hmethods _ hmem rfl
      exact decide_eq_false hmethod

/-- A header block that is complete stays the same. -/
theorem parseHTTP1Headers_append (h : Terminated data) {more : Bytes}
    (hlen : (data ++ more).length ≤ maxTokenSize) : parseHTTP1Headers (data ++ more) = parseHTTP1Headers data := by
  have hne : data ≠ [] := by
    rintro rfl
    cases h with
    | inl hend | inr hend => exact absurd (infix_nil.mp hend) (by decide)
  have hshort : data.length ≤ maxTokenSize := by
    rw [length_append] at hlen
    omega
  have hmore := terminated_append h more
  have hend {d : Bytes} (hd : Terminated d) : (splitHTTPHeaderBlock d).2 = false :=
    Bool.eq_false_iff.mpr fun htrue => splitHTTPHeaderBlock_snd.mp htrue hd
  rw [parseHTTP1Headers_eq hne fun l hl => length_lt_of_mem_headerBlock hl hshort (.inr h),
    parseHTTP1Headers_eq (append_ne_nil_of_left_ne_nil hne more) fun l hl =>
      length_lt_of_mem_headerBlock hl hlen (.inr hmore), hend h, hend hmore]
  obtain ⟨head, blank, after, hlf, hblank, rfl, -⟩ | ⟨hopen, -⟩ := splitHTTPHeaderBlock_cases data
  · have hassoc : head ++ lf :: (blank ++ lf :: after) ++ more =
        head ++ lf :: (blank ++ lf :: (after ++ more)) := by simp
    rw [hassoc, splitOn_block hlf, splitOn_block hlf]
    obtain ⟨start, segments, hhead⟩ := exists_cons_of_ne_nil (splitOn_ne_nil lf head)
    rw [hhead, cons_append, cons_append, parseSegments, parseSegments, entries, entries,
      headerSection_append (by simpa using hblank), headerSection_append (by simpa using hblank)]
  · exact absurd h hopen

theorem event_eq_some_tls_iff {hello : TLSClientHello} :
    event data = some (.tls hello) ↔ isTLSClientHelloPayload data = true ∧ parseTLSClientHello data = .ok hello := by
  rw [event]
  split
  · rename_i htls
    cases hparse : parseTLSClientHello data <;> simp [Except.toOption, htls]
  · rename_i htls
    split
    · cases parseHTTP1Headers data <;> simp [htls]
    · simp [htls]

theorem event_eq_some_http_iff {msg : HTTPMessage} :
    event data = some (.http msg) ↔
      isTLSClientHelloPayload data = false ∧ isHTTP1Payload data = true ∧ Terminated data ∧
        parseHTTP1Headers data = .ok msg := by
  rw [event, Terminated, ← contains_iff, ← contains_iff, ← Bool.or_eq_true, ← hasHTTPHeaderTerminator]
  split
  · rename_i htls
    cases parseTLSClientHello data <;> simp [htls]
  · rename_i htls
    split
    · rename_i hhttp
      rw [Bool.and_eq_true] at hhttp
      cases hparse : parseHTTP1Headers data <;> simp [Except.toOption, htls, hhttp]
    · rename_i hhttp
      rw [Bool.and_eq_true, not_and] at hhttp
      simp only [reduceCtorEq, false_iff]
      exact fun hall => hhttp hall.2.1 hall.2.2.1

private theorem event_append {e : Event} {more : Bytes} (h : event data = some e)
    (hlen : (data ++ more).length ≤ maxTCPReassemblyBytes) : event (data ++ more) = some e := by
  cases e with
  | tls hello =>
    rw [event_eq_some_tls_iff] at h ⊢
    exact ⟨isTLSClientHelloPayload_append h.1 more, parseTLSClientHello_append h.2 more⟩
  | http msg =>
    rw [event_eq_some_http_iff] at h ⊢
    obtain ⟨-, hhttp, hterminated, hparse⟩ := h
    have hhttp' := isHTTP1Payload_append hhttp more
    refine ⟨?_, hhttp', terminated_append hterminated more, (parseHTTP1Headers_append hterminated hlen).trans hparse⟩
    by_contra htls
    rw [isHTTP1Payload_eq_false_of_tls ((Bool.not_eq_false _).mp htls)] at hhttp'
    exact nomatch hhttp'

end

/-- The stream that has put together these bytes from a sequence number on. -/
def streamAt (seq : ℕ) (bytes : Bytes) : TcpSummaryStream where
  data := bytes.take maxTCPReassemblyBytes
  startSeq := UInt32.ofNat seq
  nextSeq := UInt32.ofNat (seq + (bytes.take maxTCPReassemblyBytes).length)
  parsedTLS := (event (bytes.take maxTCPReassemblyBytes)).any Event.isTLS
  parsedHTTP := (event (bytes.take maxTCPReassemblyBytes)).any (!·.isTLS)

variable {Addr DNS : Type} {bytes : Bytes}

/-- The attempts find what is in the data, if it was not found before. -/
theorem inspect_eq (summary : PCAPSummary DNS) (flow : FlowSummary) (limit : ℤ)
    (startSeq nextSeq : UInt32) {data data' : Bytes} (h : ∀ e, event data = some e → event data' = some e) :
    inspect (summary.emit flow limit (event data)) flow limit
      ⟨data', startSeq, nextSeq, (event data).any isTLS, (event data).any (!·.isTLS)⟩ =
    (summary.emit flow limit (event data'),
      ⟨data', startSeq, nextSeq, (event data').any isTLS, (event data').any (!·.isTLS)⟩) := by
  cases hevent : event data with
  | none =>
    rw [inspect, event]
    by_cases htls : isTLSClientHelloPayload data' = true
    · cases parseTLSClientHello data' <;>
        simp [htls, Except.toOption, PCAPSummary.emit, isTLS]
    · cases hhttp : isHTTP1Payload data' && hasHTTPHeaderTerminator data' with
      | true =>
        cases parseHTTP1Headers data' <;>
          simp_all [Except.toOption, PCAPSummary.emit, isTLS]
      | false => simp [htls, hhttp]
  | some e =>
    rw [h e hevent]
    cases e with
    | tls hello =>
      have htls := (event_eq_some_tls_iff.mp (h _ hevent)).1
      simp [inspect, isTLS, isHTTP1Payload_eq_false_of_tls htls]
    | http msg =>
      have htls := (event_eq_some_http_iff.mp (h _ hevent)).1
      simp [inspect, isTLS, htls]

private theorem event_take_append {e : Event} (bytes payload : Bytes)
    (h : event (bytes.take maxTCPReassemblyBytes) = some e) :
    event ((bytes ++ payload).take maxTCPReassemblyBytes) = some e := by
  rw [take_append]
  refine event_append h ?_
  rw [← take_append, length_take]
  exact Nat.min_le_left _ _

variable {seq : ℕ}

private theorem append_streamAt (payload : Bytes) (hle : bytes.length ≤ maxTCPReassemblyBytes) :
    (streamAt seq bytes).append payload =
      ({ streamAt seq (bytes ++ payload) with
          parsedTLS := (streamAt seq bytes).parsedTLS
          parsedHTTP := (streamAt seq bytes).parsedHTTP }, true) := by
  have hdata : (streamAt seq bytes).data = bytes := take_of_length_le hle
  have hgrown : (bytes ++ payload).take maxTCPReassemblyBytes =
      bytes ++ payload.take (maxTCPReassemblyBytes - bytes.length) := by
    rw [take_append, take_of_length_le hle]
  rw [TcpSummaryStream.append, hdata]
  split
  · rename_i hfull
    rw [Nat.sub_eq_zero_of_le hfull, take_zero, append_nil] at hgrown
    simp only [streamAt, hgrown, take_of_length_le hle]
  · simp only [streamAt, hgrown, take_of_length_le hle, length_append, ← Nat.add_assoc, ofNat_add]

variable {payload : Bytes}

/-- The next segment extends the stream, unless the stream has reached its limit before. -/
theorem add_streamAt (hpayload : payload ≠ [])
    (hwrap : seq + bytes.length + payload.length ≤ 2 ^ 32) :
    (streamAt seq bytes).add (ofNat (seq + bytes.length)) payload =
      if bytes.length ≤ maxTCPReassemblyBytes then
        ({ streamAt seq (bytes ++ payload) with
            parsedTLS := (streamAt seq bytes).parsedTLS
            parsedHTTP := (streamAt seq bytes).parsedHTTP }, true)
      else (streamAt seq bytes, false) := by
  have hpos := length_pos_iff.mpr hpayload
  have hsize : size = 2 ^ 32 := rfl
  have hstart : ¬ ofNat (seq + bytes.length) < (streamAt seq bytes).startSeq := by
    rw [streamAt, ofNat_lt_iff_lt (by omega) (by omega)]
    omega
  have hnext : (streamAt seq bytes).nextSeq =
      ofNat (seq + min maxTCPReassemblyBytes bytes.length) := by
    rw [streamAt, length_take]
  have hoverlap : ¬ ofNat (seq + bytes.length) < (streamAt seq bytes).nextSeq := by
    rw [hnext, ofNat_lt_iff_lt (by omega) (by omega)]
    omega
  have hgap : (streamAt seq bytes).nextSeq < ofNat (seq + bytes.length) ↔
      maxTCPReassemblyBytes < bytes.length := by
    rw [hnext, ofNat_lt_iff_lt (by omega) (by omega)]
    omega
  rw [TcpSummaryStream.add, if_neg hstart, if_neg hoverlap]
  by_cases hle : bytes.length ≤ maxTCPReassemblyBytes
  · rw [if_neg (hgap.not.mpr (by omega)), if_pos hle, append_streamAt payload hle]
  · rw [if_pos (hgap.mpr (by omega)), if_neg hle]

/-- One direction of a TCP connection. -/
structure Direction (Addr : Type) where
  networkProto : String
  srcAddr : Addr
  dstAddr : Addr
  srcPort : UInt16
  dstPort : UInt16

def Direction.key (d : Direction Addr) : TcpFlowKey Addr :=
  ⟨d.srcAddr, d.dstAddr, d.srcPort, d.dstPort⟩

/-- The packet of a direction with this sequence number, these flags and this payload. -/
def Direction.packet (d : Direction Addr) (tcpSeq : UInt32) (tcpFlags : UInt8)
    (payload : Bytes) : FlowPacket Addr :=
  ⟨d.networkProto, "tcp", d.srcAddr, d.dstAddr, d.srcPort, d.dstPort, tcpSeq, tcpFlags, payload⟩

/-- Packets of one direction that cut a byte stream into in-order segments, from a sequence number
on. Packets without a payload may come anywhere. -/
inductive Segments (d : Direction Addr) : ℕ → List (FlowPacket Addr) → Bytes → Prop
  | nil (seq : ℕ) : Segments d seq [] []
  | cons {seq : ℕ} {flows : List (FlowPacket Addr)} {bytes : Bytes} (tcpSeq : UInt32)
    (tcpFlags : UInt8) (payload : Bytes)
    (hseq : payload ≠ [] → (d.packet tcpSeq tcpFlags payload).dataSeq.toNat = seq)
    (hrest : Segments d (seq + payload.length) flows bytes) :
    Segments d seq (d.packet tcpSeq tcpFlags payload :: flows) (payload ++ bytes)

section

variable [DecidableEq Addr] (parseDNSMessage : Bytes → Option DNS)
  (addrString : Addr → String) (eventLimit : ℤ) (d : Direction Addr)

/-- What the packets of one direction look like in a summary. -/
def Direction.summary : FlowSummary :=
  ⟨d.networkProto, "tcp", addrString d.srcAddr, d.srcPort, addrString d.dstAddr, d.dstPort⟩

/-- The state after the segments of these bytes: the summary has what is in the data. -/
structure After (summary : PCAPSummary DNS) (seq : ℕ) (bytes : Bytes)
    (state : PCAPSummary DNS × TcpSummaryStreams Addr) : Prop where
  summary : state.1 =
    summary.emit (d.summary addrString) eventLimit (event (bytes.take maxTCPReassemblyBytes))
  stream : state.2 d.key = if bytes = [] then none else some (streamAt seq bytes)

variable {addrString eventLimit d}

section
variable {summary : PCAPSummary DNS} {tcpSeq : UInt32} {tcpFlags : UInt8}

/-- `summarizeFlow` on a packet with a payload. -/
theorem summarizeFlow_packet (parseDNSMessage : Bytes → Option DNS)
    {summary' : PCAPSummary DNS} {streams : TcpSummaryStreams Addr}
    {stream added stream' : TcpSummaryStream} {ok : Bool} (hpayload : payload ≠ [])
    (hstream : streams.stream (d.packet tcpSeq tcpFlags payload) = stream)
    (hadd : stream.add (d.packet tcpSeq tcpFlags payload).dataSeq payload = (added, ok))
    (hseen : (if ok then inspect summary (d.summary addrString) eventLimit added
      else (summary, added)) = (summary', stream')) :
    summarizeFlow parseDNSMessage addrString eventLimit (summary, streams)
      (d.packet tcpSeq tcpFlags payload) =
    (summary', Function.update streams d.key (some stream')) := by
  have hdns : isDNSFlow (d.packet tcpSeq tcpFlags payload) = false := rfl
  have hkey : (d.packet tcpSeq tcpFlags payload).key = d.key := rfl
  have hflow : newFlowSummary addrString (d.packet tcpSeq tcpFlags payload) =
      d.summary addrString := rfl
  have hproto : ¬ (d.packet tcpSeq tcpFlags payload).transportProto ≠ "tcp" := not_not.mpr rfl
  have hbytes : (d.packet tcpSeq tcpFlags payload).payload = payload := rfl
  simp only [summarizeFlow, TcpSummaryStreams.add, hdns, hkey, hflow, hstream, if_neg hproto, hbytes, hadd, hseen]
  rw [if_neg hpayload, if_neg Bool.false_ne_true]

variable {state : PCAPSummary DNS × TcpSummaryStreams Addr}

/-- A segment that comes next. -/
theorem After.step {bytes : Bytes}
    (h : After addrString eventLimit d summary seq bytes state) (hseq : payload ≠ [] →
      (d.packet tcpSeq tcpFlags payload).dataSeq.toNat = seq + bytes.length)
    (hwrap : seq + bytes.length + payload.length ≤ 2 ^ 32) :
    After addrString eventLimit d summary seq (bytes ++ payload)
      (summarizeFlow parseDNSMessage addrString eventLimit state (d.packet tcpSeq tcpFlags payload)) := by
  obtain ⟨old, streams⟩ := state
  by_cases hpayload : payload = []
  · subst hpayload
    rw [append_nil]
    exact h
  · have hdata : (d.packet tcpSeq tcpFlags payload).dataSeq = ofNat (seq + bytes.length) := by
      rw [← hseq hpayload, UInt32.ofNat_toNat]
    have hstream : streams.stream (d.packet tcpSeq tcpFlags payload) = streamAt seq bytes := by
      have hold : streams (d.packet tcpSeq tcpFlags payload).key =
          if bytes = [] then none else some (streamAt seq bytes) := h.stream
      rw [TcpSummaryStreams.stream, hold, hdata]
      split
      · rename_i hbytes
        subst hbytes
        rfl
      · rfl
    have hold := h.summary
    have hne := append_ne_nil_of_right_ne_nil bytes hpayload
    have hadd := add_streamAt hpayload hwrap
    rw [← hdata] at hadd
    by_cases hle : bytes.length ≤ maxTCPReassemblyBytes
    · rw [if_pos hle] at hadd
      have hseen := inspect_eq summary (d.summary addrString) eventLimit
        (streamAt seq (bytes ++ payload)).startSeq (streamAt seq (bytes ++ payload)).nextSeq
        fun e he => event_take_append bytes payload he
      rw [← hold] at hseen
      rw [summarizeFlow_packet parseDNSMessage hpayload hstream hadd ((if_pos rfl).trans hseen)]
      exact ⟨rfl, (Function.update_self ..).trans (if_neg hne).symm⟩
    · rw [if_neg hle] at hadd
      have hsame : (bytes ++ payload).take maxTCPReassemblyBytes =
          bytes.take maxTCPReassemblyBytes := take_append_of_le_length (by omega)
      rw [summarizeFlow_packet parseDNSMessage hpayload hstream hadd (if_neg Bool.false_ne_true)]
      refine ⟨hsame ▸ hold, (Function.update_self ..).trans ?_⟩
      rw [if_neg hne, streamAt, streamAt, hsame]

/-- A run over in-order segments. -/
theorem After.run {start : ℕ} {before bytes : Bytes} {flows : List (FlowPacket Addr)}
    (h : After addrString eventLimit d summary start before state)
    (hsegments : Segments d seq flows bytes) (hseq : seq = start + before.length)
    (hwrap : seq + bytes.length ≤ 2 ^ 32) :
    After addrString eventLimit d summary start (before ++ bytes)
      (flows.foldl (summarizeFlow parseDNSMessage addrString eventLimit) state) := by
  induction hsegments generalizing before state with
  | nil => rwa [append_nil]
  | cons tcpSeq tcpFlags payload hpacket hrest ih =>
    rw [length_append] at hwrap
    have hstep := h.step parseDNSMessage (fun hne => (hpacket hne).trans hseq) (by omega)
    rw [← append_assoc]
    exact ih hstep (by rw [length_append]; omega) (by omega)

theorem After.of_segments {streams : TcpSummaryStreams Addr}
    {flows : List (FlowPacket Addr)} (hnew : streams d.key = none)
    (hsegments : Segments d seq flows bytes) (hwrap : seq + bytes.length ≤ 2 ^ 32) :
    After addrString eventLimit d summary seq bytes
      (flows.foldl (summarizeFlow parseDNSMessage addrString eventLimit) (summary, streams)) := by
  have hstart : After addrString eventLimit d summary seq [] (summary, streams) := ⟨rfl, hnew⟩
  exact hstart.run parseDNSMessage hsegments (Nat.add_zero seq).symm hwrap

end

/-- Two ways of cutting the bytes of one direction into in-order segments give the same events and
the same number of dropped events, whatever the summary had before. -/
theorem summary_independent_of_segments {summary : PCAPSummary DNS}
    {streams : TcpSummaryStreams Addr} {seq : ℕ} {flows flows' : List (FlowPacket Addr)}
    (hnew : streams d.key = none) (hsegments : Segments d seq flows bytes)
    (hsegments' : Segments d seq flows' bytes) (hwrap : seq + bytes.length ≤ 2 ^ 32) :
    (flows.foldl (summarizeFlow parseDNSMessage addrString eventLimit) (summary, streams)).1 =
      (flows'.foldl (summarizeFlow parseDNSMessage addrString eventLimit) (summary, streams)).1 :=
  (After.of_segments parseDNSMessage hnew hsegments hwrap).summary.trans
    (After.of_segments parseDNSMessage hnew hsegments' hwrap).summary.symm

end

/-- A request in one packet and in two. -/
theorem summary_independent_of_segments_request :
    ∃ (flows flows' : List (FlowPacket Unit)) (summary : PCAPSummary Unit),
      flows.length = 1 ∧ flows'.length = 2 ∧ summary.http.length = 1 ∧
      (flows.foldl (summarizeFlow (fun _ => none) (fun _ => "10.0.0.1") 100)
        (⟨[], [], [], 0⟩, fun _ => none)).1 = summary ∧
      (flows'.foldl (summarizeFlow (fun _ => none) (fun _ => "10.0.0.1") 100)
        (⟨[], [], [], 0⟩, fun _ => none)).1 = summary := by
  let d : Direction Unit := ⟨"ipv4", (), (), 53125, 80⟩
  have hone : Segments d 1000 [d.packet 1000 0x18 (ascii "GET / HTTP/1.1\r\n\r\n")]
      (ascii "GET / HTTP/1.1\r\n\r\n") := .cons 1000 0x18 _ (fun _ => by decide) (.nil _)
  have htwo : Segments d 1000
      [d.packet 1000 0x18 (ascii "GET / HT"), d.packet 1008 0x18 (ascii "TP/1.1\r\n\r\n")]
      (ascii "GET / HTTP/1.1\r\n\r\n") :=
    .cons 1000 0x18 (ascii "GET / HT") (fun _ => by decide)
      (.cons 1008 0x18 _ (fun _ => by decide) (.nil _))
  refine ⟨_, _, _, rfl, rfl, ?_, summary_independent_of_segments (fun _ => none) rfl hone htwo (by decide), rfl⟩
  decide +kernel

end Spectra.Netcap
