import Spectra.Netcap.Summary
import Spectra.Library.SeqBytes
import Mathlib.Algebra.BigOperators.Group.List.Basic

/-! The bytes that TCP reassembly puts together. -/
namespace Spectra.Netcap
open List UInt32 Function Library GoBytes

/-- The bytes of a stream are the ones that `f` has at their sequence numbers. -/
structure TcpSummaryStream.Faithful (f : UInt32 → UInt8) (s : TcpSummaryStream) : Prop where
  bounded : s.data.length ≤ maxTCPReassemblyBytes
  next : s.nextSeq = s.startSeq + UInt32.ofNat s.data.length
  bytes : AtSeq f s.startSeq s.data

namespace TcpSummaryStream

variable {f : UInt32 → UInt8} {s : TcpSummaryStream} {dataSeq : UInt32} {payload : Bytes}

theorem Faithful.append (h : s.Faithful f) (hpayload : AtSeq f s.nextSeq payload) :
    (s.append payload).1.Faithful f := by
  rw [TcpSummaryStream.append]
  split
  · exact h
  · refine ⟨?_, ?_, ?_⟩
    · rw [length_append, length_take]
      omega
    · rw [length_append, ofNat_add, ← add_assoc, ← h.next]
    · rw [h.next] at hpayload
      exact h.bytes.append (hpayload.take _)

theorem toNat_lt_of_not_le {overlap : UInt32} (h : ¬ ofNat payload.length ≤ overlap) :
    overlap.toNat < payload.length := by
  rw [UInt32.not_le, lt_iff_toNat_lt] at h
  exact h.trans_le (Nat.mod_le _ _)

variable (h : s.Faithful f)
include h

/-- A payload that ends where the stream begins. -/
theorem Faithful.prepend (hend : dataSeq + ofNat payload.length = s.startSeq)
    (hpayload : AtSeq f dataSeq payload) : (s.prepend dataSeq payload).1.Faithful f := by
  rw [TcpSummaryStream.prepend]
  split
  · exact h
  · split
    · generalize hn : payload.length - (maxTCPReassemblyBytes - s.data.length) = n
      have hlength : (payload.drop n).length = payload.length - n := length_drop
      have hsplit : ofNat payload.length = ofNat n + ofNat (payload.drop n).length := by
        rw [← ofNat_add, hlength, Nat.add_sub_cancel' (by omega)]
      have hstart : dataSeq + ofNat n = s.startSeq - ofNat (payload.drop n).length := by
        rw [← hend, hsplit, ← add_assoc, UInt32.add_sub_cancel]
      refine ⟨?_, ?_, ?_⟩
      · rw [length_append]
        omega
      · rw [h.next, length_append, ofNat_add, ← add_assoc, sub_add_cancel]
      · have hbefore := hpayload.drop (n := n) (by omega)
        rw [hstart] at hbefore
        refine hbefore.append ?_
        rw [sub_add_cancel]
        exact h.bytes
    · refine ⟨?_, ?_, ?_⟩
      · rw [length_append]
        omega
      · rw [h.next, ← hend, length_append, ofNat_add, add_assoc]
      · exact hpayload.append (hend ▸ h.bytes)

/-- A segment that begins before the stream is used if it reaches the beginning. -/
theorem Faithful.prependTCPPayload (hpayload : AtSeq f dataSeq payload) :
    (prependTCPPayload s dataSeq payload).1.Faithful f := by
  rw [Netcap.prependTCPPayload]
  split
  · exact h
  · rename_i hreach
    split
    · split
      · exact h
      · rename_i hover hpart
        generalize hoverlap : dataSeq + ofNat payload.length - s.startSeq = overlap at hpart
        have hlt := toNat_lt_of_not_le hpart
        refine h.prepend ?_ (hpayload.take _)
        rw [length_take, Nat.min_eq_left (Nat.sub_le _ _), ofNat_sub hlt.le, UInt32.ofNat_toNat]
        grind
    · rename_i hover
      have hend := UInt32.le_antisymm (UInt32.not_lt.mp hover) (UInt32.not_lt.mp hreach)
      exact h.prepend hend hpayload

theorem Faithful.add (hpayload : AtSeq f dataSeq payload) :
    (s.add dataSeq payload).1.Faithful f := by
  rw [TcpSummaryStream.add]
  split
  · exact h.prependTCPPayload hpayload
  · split
    · dsimp only
      split
      · exact h
      · rename_i hpart
        have hlt := toNat_lt_of_not_le hpart
        have hnext : dataSeq + (s.nextSeq - dataSeq) = s.nextSeq := by grind
        have hdrop := hpayload.drop hlt.le
        rw [UInt32.ofNat_toNat, hnext] at hdrop
        exact h.append hdrop
    · rename_i hover
      split
      · exact h
      · rename_i hgap
        have hseq := UInt32.le_antisymm (UInt32.not_lt.mp hgap) (UInt32.not_lt.mp hover)
        exact h.append (hseq ▸ hpayload)

theorem Faithful.inspect {DNS : Type} (summary : PCAPSummary DNS) (flow : FlowSummary) (eventLimit : ℤ) :
    (Netcap.inspect summary flow eventLimit s).2.Faithful f := by
  rw [Netcap.inspect]
  split
  · split
    · exact ⟨h.bounded, h.next, h.bytes⟩
    · exact h
  · split
    · split
      · exact ⟨h.bounded, h.next, h.bytes⟩
      · exact h
    · exact h

end TcpSummaryStream

namespace TcpSummaryStreams

variable {Addr : Type} [DecidableEq Addr]

/-- The streams after these packets, and what each call of `add` reported. -/
def addAll : List (FlowPacket Addr) → TcpSummaryStreams Addr → TcpSummaryStreams Addr × List Bool
  | [], streams => (streams, [])
  | flow :: flows, streams =>
    let (stream, ok) := streams.add flow
    let (streams, oks) := addAll flows (update streams flow.key (some stream))
    (streams, ok :: oks)

variable {f : UInt32 → UInt8} {key : TcpFlowKey Addr} {streams : TcpSummaryStreams Addr}

/-- The stream of a direction, if there is one, holds the bytes of `f`. -/
def Faithful (f : UInt32 → UInt8) (key : TcpFlowKey Addr) (streams : TcpSummaryStreams Addr) : Prop :=
  ∀ stream, streams key = some stream → stream.Faithful f

variable {flow : FlowPacket Addr}

omit [DecidableEq Addr] in
theorem Faithful.stream (h : streams.Faithful f flow.key) : (streams.stream flow).Faithful f := by
  rw [TcpSummaryStreams.stream]
  cases hold : streams flow.key with
  | none => exact ⟨Nat.zero_le _, (add_zero _).symm, .nil⟩
  | some old => exact h old hold

theorem Faithful.update {stream : TcpSummaryStream} (h : streams.Faithful f key)
    (hstream : flow.key = key → stream.Faithful f) : Faithful f key (update streams flow.key (some stream)) := by
  intro stream' hlookup
  by_cases hkey : flow.key = key
  · rw [← hkey, update_self, Option.some.injEq] at hlookup
    exact hlookup ▸ hstream hkey
  · rw [update_of_ne (Ne.symm hkey)] at hlookup
    exact h stream' hlookup

theorem Faithful.add (h : streams.Faithful f key) (hpayload : flow.key = key → AtSeq f flow.dataSeq flow.payload) :
    Faithful f key (Function.update streams flow.key (some (streams.add flow).1)) :=
  h.update fun hkey => (hkey ▸ h).stream.add (hpayload hkey)

variable {flows : List (FlowPacket Addr)}

theorem Faithful.addAll (h : streams.Faithful f key)
    (hpayload : ∀ flow ∈ flows, flow.key = key → AtSeq f flow.dataSeq flow.payload) :
    (streams.addAll flows).1.Faithful f key := by
  induction flows generalizing streams with
  | nil => exact h
  | cons flow flows ih =>
    exact ih (h.add (hpayload flow (.head _)))
      fun flow' hflow => hpayload flow' (.tail _ hflow)

/-- The summary of a packet changes the streams as `add` does, but for what has been parsed. -/
theorem Faithful.summarizeFlow {DNS : Type} (parseDNSMessage : Bytes → Option DNS)
    (addrString : Addr → String) (eventLimit : ℤ)
    {state : PCAPSummary DNS × TcpSummaryStreams Addr} (h : state.2.Faithful f key)
    (hpayload : flow.key = key → AtSeq f flow.dataSeq flow.payload) :
    (Netcap.summarizeFlow parseDNSMessage addrString eventLimit state flow).2.Faithful f key := by
  have hadded (hkey : flow.key = key) :
      ((state.2.stream flow).add flow.dataSeq flow.payload).1.Faithful f :=
    (hkey ▸ h).stream.add (hpayload hkey)
  rw [Netcap.summarizeFlow]
  split
  · exact h
  · split
    · split <;> exact h
    · split
      · exact h
      · refine h.update fun hkey => ?_
        split
        · exact (hadded hkey).inspect _ _ _
        · exact hadded hkey

/-- Whatever the order and the overlaps of the segments of one direction, its stream stays within the
limit, and each of its bytes is the one that was sent at its place. -/
theorem reassembly_faithful (f : UInt32 → UInt8) (key : TcpFlowKey Addr) {flows before : List (FlowPacket Addr)}
    (hflows : ∀ flow ∈ flows, flow.key = key → AtSeq f flow.dataSeq flow.payload)
    (hbefore : before <+: flows) {stream : TcpSummaryStream}
    (hstream : (addAll before fun _ => none).1 key = some stream) :
    stream.data.length ≤ 256 * 1024 ∧
      stream.nextSeq = stream.startSeq + UInt32.ofNat stream.data.length ∧
      ∀ i (h : i < stream.data.length), stream.data[i] = f (stream.startSeq + UInt32.ofNat i) := by
  have hnew : Faithful f key fun _ => none := fun _ h => nomatch h
  have hfaithful := hnew.addAll fun flow hflow => hflows flow (hbefore.subset hflow)
  obtain ⟨hbounded, hnext, hbytes⟩ := hfaithful stream hstream
  exact ⟨hbounded, hnext, hbytes⟩

/-- Packets of one direction with this sequence number, these flags and this payload. -/
def packet (tcpSeq : UInt32) (tcpFlags : UInt8) (payload : Bytes) : FlowPacket Unit :=
  ⟨"ipv4", "tcp", (), (), 50000, 443, tcpSeq, tcpFlags, payload⟩

/-- A segment across the end of the sequence numbers, then one from before it that overlaps. -/
theorem reassembly_faithful_wrapped :
    (addAll [packet 4294967294 0x18 [254, 255, 0, 1], packet 4294967290 0x02 [251, 252, 253, 254]]
      fun _ => none).1 ⟨(), (), 50000, 443⟩ =
        some ⟨[251, 252, 253, 254, 255, 0, 1], 4294967291, 2, false, false⟩ ∧
      ∀ i (h : i < [251, 252, 253, 254, 255, 0, 1].length),
        [251, 252, 253, 254, 255, 0, 1][i] = (4294967291 + UInt32.ofNat i).toUInt8 := by
  refine (and_iff_left_of_imp fun hstream => ?_).mpr (by decide)
  refine (reassembly_faithful (fun seq => seq.toUInt8) ⟨(), (), 50000, 443⟩ ?_ (prefix_refl _) hstream).2.2
  intro flow hflow _
  rcases mem_pair.mp hflow with rfl | rfl <;> decide

/-- Segments of one direction that follow each other from a sequence number on. -/
def InOrder (key : TcpFlowKey Addr) : UInt32 → List (FlowPacket Addr) → Prop
  | _, [] => True
  | seq, flow :: flows =>
    flow.key = key ∧ flow.payload ≠ [] ∧ flow.dataSeq = seq ∧
      InOrder key (seq + UInt32.ofNat flow.payload.length) flows

def data (streams : TcpSummaryStreams Addr) (key : TcpFlowKey Addr) : Bytes :=
  (streams key).elim [] TcpSummaryStream.data

def totalLength (flows : List (FlowPacket Addr)) : ℕ :=
  (flows.map fun flow => flow.payload.length).sum

/-- A stream that holds these bytes from a sequence number on. -/
structure Holds (seq : UInt32) (bytes : Bytes) (stream : TcpSummaryStream) : Prop where
  data : stream.data = bytes
  start : stream.startSeq = seq
  next : stream.nextSeq = seq + UInt32.ofNat bytes.length

section

variable {seq : UInt32} {bytes payload : Bytes} {stream : TcpSummaryStream}
  (h : Holds seq bytes stream) (hlen : bytes.length + payload.length ≤ maxTCPReassemblyBytes)
include h hlen

/-- The next segment is added at the end if its number has not wrapped. -/
theorem Holds.add (hpayload : payload ≠ []) (hwrap : seq.toNat + bytes.length < 2 ^ 32) :
    Holds seq (bytes ++ payload) (stream.add (seq + ofNat bytes.length) payload).1 ∧
      (stream.add (seq + ofNat bytes.length) payload).2 = true := by
  have hpos := length_pos_iff.mpr hpayload
  have hseq : (seq + ofNat bytes.length).toNat = seq.toNat + bytes.length := by
    rw [UInt32.toNat_add, toNat_ofNat', Nat.add_mod_mod, Nat.mod_eq_of_lt hwrap]
  have hstart : ¬ seq + ofNat bytes.length < stream.startSeq := by
    rw [h.start, lt_iff_toNat_lt]
    omega
  have hnext : ¬ seq + ofNat bytes.length < stream.nextSeq := h.next ▸ UInt32.lt_irrefl _
  have hgap : ¬ stream.nextSeq < seq + ofNat bytes.length := h.next ▸ UInt32.lt_irrefl _
  rw [TcpSummaryStream.add, if_neg hstart, if_neg hnext, if_neg hgap, TcpSummaryStream.append,
    h.data, if_neg (by omega), take_of_length_le (by omega)]
  refine ⟨⟨rfl, h.start, ?_⟩, rfl⟩
  rw [length_append, ofNat_add, ← add_assoc, ← h.next]

/-- A next segment whose number has wrapped is taken for one before the stream, and lost. -/
theorem Holds.add_wrapped (hwrap : 2 ^ 32 ≤ seq.toNat + bytes.length) :
    (stream.add (seq + ofNat bytes.length) payload).2 = false := by
  have hmax : maxTCPReassemblyBytes = 2 ^ 18 := rfl
  have hseq : (seq + ofNat bytes.length).toNat = seq.toNat + bytes.length - 2 ^ 32 := by
    rw [UInt32.toNat_add, toNat_ofNat']
    have := seq.toNat_lt
    omega
  have hend : (seq + ofNat bytes.length + ofNat payload.length).toNat =
      seq.toNat + bytes.length - 2 ^ 32 + payload.length := by
    rw [UInt32.toNat_add, toNat_ofNat']
    have := seq.toNat_lt
    omega
  have hstart : seq + ofNat bytes.length < stream.startSeq := by
    rw [h.start, lt_iff_toNat_lt]
    omega
  have hbefore : seq + ofNat bytes.length + ofNat payload.length < stream.startSeq := by
    rw [h.start, lt_iff_toNat_lt]
    omega
  rw [TcpSummaryStream.add, if_pos hstart, prependTCPPayload, if_pos hbefore]

end

/-- The streams when these bytes of a direction have come in order. -/
def Reached (key : TcpFlowKey Addr) (seq : UInt32) (bytes : Bytes)
    (streams : TcpSummaryStreams Addr) : Prop :=
  (streams key).elim (bytes = []) (Holds seq bytes)

variable {seq : UInt32} {bytes : Bytes}

omit [DecidableEq Addr] in
theorem Reached.data_eq (h : streams.Reached key seq bytes) : streams.data key = bytes := by
  rw [Reached] at h
  rw [data]
  cases hstream : streams key with
  | none =>
    rw [hstream] at h
    exact h.symm
  | some stream =>
    rw [hstream] at h
    exact h.data

omit [DecidableEq Addr] in
theorem Reached.holds (h : streams.Reached flow.key seq bytes)
    (hseq : flow.dataSeq = seq + ofNat bytes.length) : Holds seq bytes (streams.stream flow) := by
  rw [Reached] at h
  rw [TcpSummaryStreams.stream]
  cases hstream : streams flow.key with
  | none =>
    rw [hstream] at h
    obtain rfl : bytes = [] := h
    have hfirst := hseq.trans (UInt32.add_zero seq)
    exact ⟨rfl, hfirst, hseq⟩
  | some stream =>
    rw [hstream] at h
    exact h

omit [DecidableEq Addr] in
private theorem totalLength_dropLast_cons (flow : FlowPacket Addr) (h : flows ≠ []) :
    totalLength (flow :: flows).dropLast = flow.payload.length + totalLength flows.dropLast := by
  rw [dropLast_cons_of_ne_nil h, totalLength, map_cons, sum_cons, totalLength]

/-- A run of in-order segments is complete as long as no segment has a number that has wrapped. -/
theorem Reached.addAll (h : streams.Reached key seq bytes) (hflows : InOrder key (seq + ofNat bytes.length) flows)
    (hlen : bytes.length + totalLength flows ≤ maxTCPReassemblyBytes) :
    ((streams.addAll flows).1.data key = bytes ++ (flows.map FlowPacket.payload).flatten ∧
      ∀ ok ∈ (streams.addAll flows).2, ok = true) ↔
    flows = [] ∨ seq.toNat + bytes.length + totalLength flows.dropLast < 2 ^ 32 := by
  induction flows generalizing bytes streams with
  | nil => simpa [TcpSummaryStreams.addAll] using h.data_eq
  | cons flow flows ih =>
    obtain ⟨rfl, hpayload, hseq, hrest⟩ := hflows
    have hholds := h.holds hseq
    have htotal : totalLength (flow :: flows) = flow.payload.length + totalLength flows := by
      rw [totalLength, map_cons, sum_cons, totalLength]
    have hnext : streams.addAll (flow :: flows) =
        ((addAll flows (update streams flow.key (some (streams.add flow).1))).1,
          (streams.add flow).2 :: (addAll flows (update streams flow.key (some (streams.add flow).1))).2) := rfl
    rw [hnext, map_cons, flatten_cons, ← append_assoc, forall_mem_cons, TcpSummaryStreams.add, hseq]
    by_cases hwrap : seq.toNat + bytes.length < 2 ^ 32
    · obtain ⟨hadded, hadd⟩ := hholds.add (by omega) hpayload hwrap
      have hreached : Reached flow.key seq (bytes ++ flow.payload) (update streams flow.key
          (some ((streams.stream flow).add (seq + ofNat bytes.length) flow.payload).1)) := by
        rw [Reached, update_self]
        exact hadded
      have hrun := ih hreached (by rwa [length_append, ofNat_add, ← add_assoc])
        (by rw [length_append]; omega)
      rw [hadd, eq_self, true_and, hrun, length_append]
      by_cases hnil : flows = []
      · subst hnil
        simpa [totalLength] using hwrap
      · rw [totalLength_dropLast_cons flow hnil]
        simp only [hnil, reduceCtorEq, false_or]
        omega
    · rw [hholds.add_wrapped (by omega) (by omega)]
      simp only [false_and, and_false, reduceCtorEq, false_or, false_iff]
      omega

/-- In-order segments are put together, with every call of `add` successful, exactly if no segment
begins after the sequence numbers have wrapped. -/
theorem inOrder_complete_iff {flows : List (FlowPacket Addr)} (seq : UInt32)
    (hnew : streams key = none) (hflows : InOrder key seq flows) (hlen : totalLength flows ≤ 256 * 1024) :
    ((streams.addAll flows).1.data key = (flows.map FlowPacket.payload).flatten ∧
      ∀ ok ∈ (streams.addAll flows).2, ok = true) ↔ seq.toNat + totalLength flows.dropLast < 2 ^ 32 := by
  have hreached : streams.Reached key seq [] := by
    rw [Reached, hnew]
    rfl
  have hstart : InOrder key (seq + ofNat ([] : Bytes).length) flows :=
    (add_zero seq).symm ▸ hflows
  have hrun := hreached.addAll hstart (by rwa [length_nil, Nat.zero_add])
  rw [nil_append, length_nil, Nat.add_zero] at hrun
  rw [hrun, or_iff_right_of_imp]
  rintro rfl
  exact seq.toNat_lt

/-- Two segments whose numbers do not wrap. -/
theorem inOrder_complete_iff_request :
    InOrder ⟨(), (), 50000, 443⟩ 1001 [packet 1000 0x02 [71, 69], packet 1003 0x18 [84, 32]] ∧
      (addAll [packet 1000 0x02 [71, 69], packet 1003 0x18 [84, 32]] fun _ => none).1.data
        ⟨(), (), 50000, 443⟩ = [71, 69, 84, 32] := by
  have hflows : InOrder ⟨(), (), 50000, 443⟩ 1001
      [packet 1000 0x02 [71, 69], packet 1003 0x18 [84, 32]] :=
    ⟨rfl, by decide, rfl, rfl, by decide, rfl, trivial⟩
  exact ⟨hflows, ((inOrder_complete_iff 1001 rfl hflows (by decide)).mpr (by decide)).1⟩

/-- Of two segments the second one, which begins at zero, is lost. -/
theorem inOrder_lost_wrapped :
    InOrder ⟨(), (), 50000, 443⟩ 4294967293
        [packet 4294967293 0x18 [1, 2, 3], packet 0 0x18 [4]] ∧
      (addAll [packet 4294967293 0x18 [1, 2, 3], packet 0 0x18 [4]] fun _ => none).1.data
        ⟨(), (), 50000, 443⟩ = [1, 2, 3] ∧
      (addAll [packet 4294967293 0x18 [1, 2, 3], packet 0 0x18 [4]] fun _ => none).2 = [true, false] :=
  ⟨⟨rfl, by decide, rfl, rfl, by decide, rfl, trivial⟩, by decide, by decide⟩

end TcpSummaryStreams
end Spectra.Netcap
