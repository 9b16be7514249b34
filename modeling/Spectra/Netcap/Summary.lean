import Spectra.Netproto.Http
import Spectra.Netproto.Tls

/-! The summary of captured packets. -/
namespace Spectra.Netcap

open Library.GoBytes Netproto

def maxTCPReassemblyBytes : ℕ := 256 * 1024

def tcpFlagSYN : UInt8 := 0x02

/-- A packet with its addresses. -/
structure FlowPacket (Addr : Type) where
  networkProto : String
  transportProto : String
  srcAddr : Addr
  dstAddr : Addr
  srcPort : UInt16
  dstPort : UInt16
  tcpSeq : UInt32
  tcpFlags : UInt8
  payload : Bytes

structure FlowSummary where
  networkProto : String
  transportProto : String
  srcAddr : String
  srcPort : UInt16
  dstAddr : String
  dstPort : UInt16
  deriving DecidableEq

/-- A parsed message with the flow that carried it. -/
structure FlowEvent (α : Type) where
  flow : FlowSummary
  message : α
  deriving DecidableEq

/-- The events of `PCAPSummary`. -/
structure PCAPSummary (DNS : Type) where
  dns : List (FlowEvent DNS) := []
  tls : List (FlowEvent TLSClientHello) := []
  http : List (FlowEvent HTTPMessage) := []
  eventsDropped : ℕ := 0
  deriving DecidableEq

structure TcpFlowKey (Addr : Type) where
  srcAddr : Addr
  dstAddr : Addr
  srcPort : UInt16
  dstPort : UInt16
  deriving DecidableEq

structure TcpSummaryStream where
  data : Bytes := []
  startSeq : UInt32
  nextSeq : UInt32
  parsedTLS : Bool := false
  parsedHTTP : Bool := false
  deriving DecidableEq

/-- The streams by their keys. -/
abbrev TcpSummaryStreams (Addr : Type) := TcpFlowKey Addr → Option TcpSummaryStream

variable {Addr DNS : Type}

def FlowPacket.key (flow : FlowPacket Addr) : TcpFlowKey Addr :=
  ⟨flow.srcAddr, flow.dstAddr, flow.srcPort, flow.dstPort⟩

/-- The sequence number of the first byte of the payload. -/
def FlowPacket.dataSeq (flow : FlowPacket Addr) : UInt32 :=
  if flow.tcpFlags &&& tcpFlagSYN ≠ 0 then flow.tcpSeq + 1 else flow.tcpSeq

def newFlowSummary (addrString : Addr → String) (flow : FlowPacket Addr) : FlowSummary :=
  ⟨flow.networkProto, flow.transportProto, addrString flow.srcAddr, flow.srcPort, addrString flow.dstAddr, flow.dstPort⟩

def isDNSFlow (flow : FlowPacket Addr) : Bool :=
  decide (flow.transportProto = "udp" ∧ (flow.srcPort = 53 ∨ flow.dstPort = 53))

def isTLSClientHelloPayload (payload : Bytes) : Bool :=
  decide (6 ≤ payload.length ∧ payload.getD 0 0 = 22 ∧ payload.getD 5 0 = 1)

def httpMethods : List Bytes :=
  [ascii "CONNECT", ascii "DELETE", ascii "GET", ascii "HEAD", ascii "OPTIONS", ascii "PATCH",
    ascii "POST", ascii "PUT", ascii "TRACE"]

def isHTTP1Payload (payload : Bytes) : Bool :=
  if (ascii "HTTP/").isPrefixOf payload then true
  else
    match index (ascii " ") payload with
    | none => false
    | some methodEnd =>
      if methodEnd ≤ 0 then false else decide (toUpper (payload.take methodEnd) ∈ httpMethods)

def hasHTTPHeaderTerminator (payload : Bytes) : Bool :=
  contains payload (ascii "\r\n\r\n") || contains payload (ascii "\n\n")

/-- The end of `add`: the payload goes to the end of the data, up to the limit. -/
def TcpSummaryStream.append (stream : TcpSummaryStream) (payload : Bytes) :
    TcpSummaryStream × Bool :=
  if maxTCPReassemblyBytes ≤ stream.data.length then (stream, true)
  else
    let payload := payload.take (maxTCPReassemblyBytes - stream.data.length)
    ({ stream with
        data := stream.data ++ payload
        nextSeq := stream.nextSeq + UInt32.ofNat payload.length }, true)

/-- The end of `prependTCPPayload`: the payload goes before the data, up to the limit. -/
def TcpSummaryStream.prepend (stream : TcpSummaryStream) (dataSeq : UInt32) (payload : Bytes) :
    TcpSummaryStream × Bool :=
  let remaining := maxTCPReassemblyBytes - stream.data.length
  if maxTCPReassemblyBytes ≤ stream.data.length then (stream, true)
  else if remaining < payload.length then
    let payload := payload.drop (payload.length - remaining)
    ({ stream with
        data := payload ++ stream.data
        startSeq := stream.startSeq - UInt32.ofNat payload.length }, true)
  else ({ stream with data := payload ++ stream.data, startSeq := dataSeq }, true)

def prependTCPPayload (stream : TcpSummaryStream) (dataSeq : UInt32) (payload : Bytes) :
    TcpSummaryStream × Bool :=
  let length := UInt32.ofNat payload.length
  let endSeq := dataSeq + length
  let overlap := endSeq - stream.startSeq
  if endSeq < stream.startSeq then (stream, false)
  else if stream.startSeq < endSeq then
    if length ≤ overlap then (stream, true)
    else stream.prepend dataSeq (payload.take (payload.length - overlap.toNat))
  else stream.prepend dataSeq payload

/-- `add` from where the stream is found; the result says whether the data is contiguous. -/
def TcpSummaryStream.add (stream : TcpSummaryStream) (dataSeq : UInt32) (payload : Bytes) :
    TcpSummaryStream × Bool :=
  if dataSeq < stream.startSeq then prependTCPPayload stream dataSeq payload
  else if dataSeq < stream.nextSeq then
    let overlap := stream.nextSeq - dataSeq
    if UInt32.ofNat payload.length ≤ overlap then (stream, true)
    else stream.append (payload.drop overlap.toNat)
  else if stream.nextSeq < dataSeq then (stream, false)
  else stream.append payload

namespace TcpSummaryStreams

/-- The stream of a packet, which is made if there is none. -/
def stream (streams : TcpSummaryStreams Addr) (flow : FlowPacket Addr) : TcpSummaryStream :=
  (streams flow.key).getD { startSeq := flow.dataSeq, nextSeq := flow.dataSeq }

def add (streams : TcpSummaryStreams Addr) (flow : FlowPacket Addr) : TcpSummaryStream × Bool :=
  (streams.stream flow).add flow.dataSeq flow.payload

end TcpSummaryStreams

def summaryHasRoom (summary : PCAPSummary DNS) (limit : ℤ) : Bool :=
  decide (((summary.dns.length + summary.tls.length + summary.http.length : ℕ) : ℤ) < limit)

/-- An event is added while there is room and counted after that. -/
def PCAPSummary.record (summary : PCAPSummary DNS) (limit : ℤ)
    (addEvent : PCAPSummary DNS → PCAPSummary DNS) : PCAPSummary DNS :=
  if summaryHasRoom summary limit then addEvent summary
  else { summary with eventsDropped := summary.eventsDropped + 1 }

def appendDNSSummary (summary : PCAPSummary DNS) (flow : FlowSummary) (msg : DNS) (limit : ℤ) :
    PCAPSummary DNS :=
  summary.record limit fun s => { s with dns := s.dns ++ [⟨flow, msg⟩] }

def appendTLSSummary (summary : PCAPSummary DNS) (flow : FlowSummary) (hello : TLSClientHello)
    (limit : ℤ) : PCAPSummary DNS :=
  summary.record limit fun s => { s with tls := s.tls ++ [⟨flow, hello⟩] }

def appendHTTPSummary (summary : PCAPSummary DNS) (flow : FlowSummary) (msg : HTTPMessage)
    (limit : ℤ) : PCAPSummary DNS :=
  summary.record limit fun s => { s with http := s.http ++ [⟨flow, msg⟩] }

def inspect (summary : PCAPSummary DNS) (flow : FlowSummary) (eventLimit : ℤ)
    (stream : TcpSummaryStream) : PCAPSummary DNS × TcpSummaryStream :=
  if !stream.parsedTLS && isTLSClientHelloPayload stream.data then
    match parseTLSClientHello stream.data with
    | .ok hello =>
      (appendTLSSummary summary flow hello eventLimit, { stream with parsedTLS := true })
    | .error _ => (summary, stream)
  else if !stream.parsedHTTP && isHTTP1Payload stream.data && hasHTTPHeaderTerminator stream.data
  then
    match parseHTTP1Headers stream.data with
    | .ok msg => (appendHTTPSummary summary flow msg eventLimit, { stream with parsedHTTP := true })
    | .error _ => (summary, stream)
  else (summary, stream)

/-- `summarizeFlow`, with the parser of DNS messages and the text of an address as parameters. -/
def summarizeFlow [DecidableEq Addr] (parseDNSMessage : Bytes → Option DNS)
    (addrString : Addr → String) (eventLimit : ℤ)
    (state : PCAPSummary DNS × TcpSummaryStreams Addr) (flow : FlowPacket Addr) :
    PCAPSummary DNS × TcpSummaryStreams Addr :=
  let (summary, streams) := state
  let flowSummary := newFlowSummary addrString flow
  if flow.payload = [] then (summary, streams)
  else if isDNSFlow flow then
    match parseDNSMessage flow.payload with
    | some msg => (appendDNSSummary summary flowSummary msg eventLimit, streams)
    | none => (summary, streams)
  else if flow.transportProto ≠ "tcp" then (summary, streams)
  else
    let (stream, ok) := streams.add flow
    let (summary, stream) :=
      if ok then inspect summary flowSummary eventLimit stream else (summary, stream)
    (summary, Function.update streams flow.key (some stream))

end Spectra.Netcap
