import Spectra.Library.ByteReader
import Spectra.Library.GoBytes
import Spectra.Library.GoSlice
import Spectra.Library.GoText

/-! The parser of DNS messages, with the accesses that Go checks. -/
namespace Spectra.Netproto

open Library Checked GoBytes

def dnsHeaderLen : ℕ := 12

inductive DNSError
  | tooShort
  | questionExceedsBuffer
  | compressionLoop
  | nameExceedsBuffer
  | pointerExceedsBuffer
  | labelType
  | labelExceedsBuffer
  deriving DecidableEq

structure DNSQuestion where
  name : Bytes
  type : String
  cls : String
  deriving DecidableEq

structure DNSMessage where
  id : UInt16
  response : Bool
  opCode : ℕ
  rCode : ℕ
  truncated : Bool
  questions : List DNSQuestion
  answers : ℕ
  deriving DecidableEq

def dnsType (t : UInt16) : String :=
  if t = 1 then "A"
  else if t = 2 then "NS"
  else if t = 5 then "CNAME"
  else if t = 15 then "MX"
  else if t = 16 then "TXT"
  else if t = 28 then "AAAA"
  else if t = 33 then "SRV"
  else if t = 65 then "HTTPS"
  else "TYPE" ++ GoText.itoa t.toNat

def dnsClass (c : UInt16) : String :=
  if c = 1 then "IN" else "CLASS" ++ GoText.itoa c.toNat

abbrev dot : UInt8 := 46

def joinLabels (labels : List Bytes) : Bytes := [dot].intercalate labels

/-- Where a compression pointer leads. -/
def pointerTarget (high low : UInt8) : ℕ := (high &&& 0x3f).toNat * 256 + low.toNat

/-- The loop of `parseDNSName`; `resolve` is the recursive call at the target of a pointer. -/
def parseDNSLabels (resolve : ℕ → Checked DNSError Bytes) (packet : Bytes)
    (labels : List Bytes) (next : ℕ) : Checked DNSError (Bytes × ℕ) :=
  if packet.length ≤ next then fail .nameExceedsBuffer
  else do
    let l ← index packet next
    if l = 0 then
      if labels.length = 0 then .ok ([dot], next + 1) else .ok (joinLabels labels, next + 1)
    else if l &&& 0xc0 = 0xc0 then
      if packet.length ≤ next + 1 then fail .pointerExceedsBuffer
      else do
        let low ← index packet (next + 1)
        let name ← resolve (pointerTarget l low)
        .ok (joinLabels (labels ++ [name]), next + 2)
    else if l &&& 0xc0 ≠ 0 then fail .labelType
    else do
      let rest ← sliceFrom packet (next + 1)
      if l.toNat = 0 ∨ rest.length < l.toNat then fail .labelExceedsBuffer
      else do
        let label ← slice packet (next + 1) (next + 1 + l.toNat)
        parseDNSLabels resolve packet (labels ++ [label]) (next + 1 + l.toNat)
termination_by packet.length - next

def parseDNSName (packet : Bytes) (pos depth : ℕ) : Checked DNSError (Bytes × ℕ) :=
  if depth > 8 then fail .compressionLoop
  else
    parseDNSLabels (fun target => do
      let (name, _) ← parseDNSName packet target (depth + 1)
      .ok name) packet [] pos
termination_by 9 - depth

def uint16At (packet : Bytes) (lo hi : ℕ) : Checked DNSError UInt16 := do
  let bytes ← slice packet lo hi
  .ok (UInt16.ofNat (Reader.bigEndian bytes))

/-- The loop of `ParseDNSMessage` over the questions that are left. -/
def parseDNSQuestions (packet : Bytes) : ℕ → ℕ → Checked DNSError (List DNSQuestion)
  | 0, _ => .ok []
  | count + 1, pos => do
    let (name, pos) ← parseDNSName packet pos 0
    let rest ← sliceFrom packet pos
    if rest.length < 4 then fail .questionExceedsBuffer
    else do
      let qType ← uint16At packet pos (pos + 2)
      let qClass ← uint16At packet (pos + 2) (pos + 4)
      let questions ← parseDNSQuestions packet count (pos + 4)
      .ok (⟨name, dnsType qType, dnsClass qClass⟩ :: questions)

def parseDNSMessage (packet : Bytes) : Checked DNSError DNSMessage :=
  if packet.length < dnsHeaderLen then fail .tooShort
  else do
    let flags ← uint16At packet 2 4
    let qdCount ← uint16At packet 4 6
    let anCount ← uint16At packet 6 8
    let id ← uint16At packet 0 2
    let questions ← parseDNSQuestions packet qdCount.toNat dnsHeaderLen
    .ok ⟨id, flags &&& 0x8000 ≠ 0, ((flags >>> 11) &&& 0x0f).toNat, (flags &&& 0x0f).toNat,
      flags &&& 0x0200 ≠ 0, questions, anCount.toNat⟩

variable {resolve : ℕ → Checked DNSError Bytes} {packet : Bytes}

/-- A call that does not panic, and whose position is within the packet. -/
structure Within (packet : Bytes) (x : Checked DNSError (Bytes × ℕ)) : Prop where
  safe : Safe x
  bounded : ∀ name next, x = .ok (name, next) → next ≤ packet.length

theorem Within.fail (e : DNSError) : Within packet (Checked.fail e) :=
  ⟨Safe.fail e, fun _ _ h => nomatch h⟩

theorem Within.ok (name : Bytes) {next : ℕ} (h : next ≤ packet.length) :
    Within packet (.ok (name, next)) := by
  refine ⟨.ok _, ?_⟩
  rintro _ _ ⟨rfl, rfl⟩
  exact h

private theorem within_parseDNSLabels (hresolve : ∀ target, Safe (resolve target))
    (labels : List Bytes) (next : ℕ) : Within packet (parseDNSLabels resolve packet labels next) := by
  induction hk : packet.length - next using Nat.strong_induction_on generalizing labels next with
  | _ k ih =>
    rw [parseDNSLabels]
    split
    · exact .fail _
    · rename_i hnext
      rw [Nat.not_le] at hnext
      rw [index_eq hnext, ok_bind]
      split
      · split <;> exact .ok _ hnext
      · split
        · split
          · exact .fail _
          · rename_i hlow
            rw [Nat.not_le] at hlow
            rw [index_eq hlow, ok_bind]
            refine ⟨(hresolve _).bind fun name _ => .ok _, ?_⟩
            cases resolve (pointerTarget packet[next] packet[next + 1]) with
            | error e => exact fun _ _ h => nomatch h
            | ok name => exact (Within.ok _ hlow).bounded
        · split
          · exact .fail _
          · rw [sliceFrom_eq hnext, ok_bind]
            split
            · exact .fail _
            · rename_i hfits
              rw [List.length_drop] at hfits
              rw [slice_eq (Nat.le_add_right _ _) (by omega)]
              exact ih (packet.length - (next + 1 + packet[next].toNat)) (by omega) _ _ rfl

private theorem within_parseDNSName (packet : Bytes) (pos depth : ℕ) :
    Within packet (parseDNSName packet pos depth) := by
  induction hk : 9 - depth using Nat.strong_induction_on generalizing pos depth with
  | _ k ih =>
    rw [parseDNSName]
    split
    · exact .fail _
    · refine within_parseDNSLabels (fun target => ?_) [] pos
      have hcall := ih (9 - (depth + 1)) (by omega) target (depth + 1) rfl
      exact hcall.safe.bind fun result _ => .ok _

theorem safe_uint16At {α : Type} {lo hi : ℕ} {f : UInt16 → Checked DNSError α}
    (hlo : lo ≤ hi) (hhi : hi ≤ packet.length) (hf : ∀ v, Safe (f v)) : Safe (uint16At packet lo hi >>= f) := by
  rw [uint16At, slice_eq hlo hhi]
  exact hf _

private theorem safe_parseDNSQuestions (count pos : ℕ) : Safe (parseDNSQuestions packet count pos) := by
  induction count generalizing pos with
  | zero => exact .ok _
  | succ count ih =>
    have hname := within_parseDNSName packet pos 0
    refine hname.safe.bind ?_
    rintro ⟨name, next⟩ hok
    refine .sliceFrom (hname.bounded name next hok) fun rest hrest => ?_
    refine .ite (fun _ => .fail _) fun hfour => ?_
    refine safe_uint16At (by omega) (by omega) fun qType => ?_
    refine safe_uint16At (by omega) (by omega) fun qClass => ?_
    exact (ih _).bind fun questions _ => .ok _

theorem safe_parseDNSMessage (packet : Bytes) : Safe (parseDNSMessage packet) := by
  refine .ite (fun _ => .fail _) fun hlen => ?_
  rw [dnsHeaderLen] at hlen
  refine safe_uint16At (by omega) (by omega) fun flags => ?_
  refine safe_uint16At (by omega) (by omega) fun qdCount => ?_
  refine safe_uint16At (by omega) (by omega) fun anCount => ?_
  refine safe_uint16At (by omega) (by omega) fun id => ?_
  exact (safe_parseDNSQuestions _ _).bind fun questions _ => .ok _

end Spectra.Netproto
