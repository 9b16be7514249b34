import Spectra.Netproto.Dns

/-! The ways to write names in a DNS message, and what the parser makes of the pointers in them. -/
namespace Spectra.Netproto
open List UInt8 Library Checked GoBytes

structure Label where
  bytes : Bytes
  nonempty : 0 < bytes.length
  fits : bytes.length ≤ 63

def encodeLabel (label : Bytes) : Bytes := UInt8.ofNat label.length :: label

def pointerBytes (target : ℕ) : Bytes :=
  [UInt8.ofNat (192 + target / 256), UInt8.ofNat target]

/-- A way to write a name: a pointer stands for the rest of the name, written elsewhere. -/
inductive NameForm
  | root
  | label (l : Label) (rest : NameForm)
  | pointer (target : NameForm)

open NameForm

namespace NameForm

def labels : NameForm → List Bytes
  | root => []
  | label l rest => l.bytes :: rest.labels
  | pointer target => target.labels

def hops : NameForm → ℕ
  | root => 0
  | label _ rest => rest.hops
  | pointer target => target.hops + 1

/-- The bytes taken before the first pointer has been read. -/
def size : NameForm → ℕ
  | root => 1
  | label l rest => 1 + l.bytes.length + rest.size
  | pointer _ => 2

/-- The name is written so at a position of a packet; pointers lead to earlier positions. -/
def At (packet : Bytes) : NameForm → ℕ → Prop
  | root, pos => [0] <+: packet.drop pos
  | label l rest, pos =>
    encodeLabel l.bytes <+: packet.drop pos ∧ rest.At packet (pos + 1 + l.bytes.length)
  | pointer t, pos =>
    ∃ target < pos, target < 2 ^ 14 ∧ pointerBytes target <+: packet.drop pos ∧ t.At packet target

instance decidableAt (packet : Bytes) : ∀ f pos, Decidable (At packet f pos)
  | root, pos => inferInstanceAs (Decidable ([0] <+: packet.drop pos))
  | label l rest, pos =>
    have := decidableAt packet rest (pos + 1 + l.bytes.length)
    inferInstanceAs (Decidable (_ ∧ _))
  | pointer t, pos =>
    have := decidableAt packet t
    inferInstanceAs (Decidable (∃ target < pos,
      target < 2 ^ 14 ∧ pointerBytes target <+: packet.drop pos ∧ t.At packet target))

def isRoot : NameForm → Bool
  | root => true
  | _ => false

/-- The zero byte that ends the name is the target of a pointer. -/
def rootByPointer : NameForm → Bool
  | root => false
  | label _ rest => rest.rootByPointer
  | pointer target => target.isRoot || target.rootByPointer

/-- What the parser returns for the form, after labels that it has collected. -/
def render : NameForm → List Bytes → Bytes
  | root, labels => if labels.length = 0 then [dot] else joinLabels labels
  | label l rest, labels => rest.render (labels ++ [l.bytes])
  | pointer target, labels => joinLabels (labels ++ [target.render []])

end NameForm

def spelled (labels : List Bytes) : Bytes :=
  if labels = [] then [dot] else joinLabels labels

section

theorem joinLabels_singleton (label : Bytes) : joinLabels [label] = label := by
  rw [joinLabels, intercalate_singleton]

theorem joinLabels_append {xs ys : List Bytes} (hxs : xs ≠ []) (hys : ys ≠ []) :
    joinLabels (xs ++ ys) = joinLabels xs ++ dot :: joinLabels ys := by
  obtain ⟨y, ys, rfl⟩ := exists_cons_of_ne_nil hys
  simp only [joinLabels]
  induction xs with
  | nil => exact absurd rfl hxs
  | cons x xs ih =>
    cases xs with
    | nil =>
      simp
    | cons x' xs =>
      rw [cons_append, cons_append, intercalate_cons_cons, ← cons_append, ih nofun]
      simp

theorem NameForm.rootByPointer_of_labels {f : NameForm} (h : f.labels = []) : (f.isRoot || f.rootByPointer) = true := by
  induction f with
  | root => rfl
  | label l rest ih => exact absurd h nofun
  | pointer target ih => exact ih h

/-- The parser spells the name, and two dots after it if it has labels and a pointer leads to its
root. -/
theorem NameForm.render_eq (f : NameForm) (labels : List Bytes) :
    f.render labels = spelled (labels ++ f.labels) ++
      if f.rootByPointer ∧ labels ++ f.labels ≠ [] then [dot, dot] else [] := by
  induction f generalizing labels with
  | root =>
    have hroot : ¬ (root.rootByPointer = true ∧ labels ≠ []) := fun h => nomatch h.1
    rw [NameForm.labels, append_nil, if_neg hroot, render, spelled]
    simp
  | label l rest ih =>
    rw [render, ih, NameForm.labels, rootByPointer, append_assoc, singleton_append]
  | pointer target ih =>
    rw [render, ih, nil_append, NameForm.labels, rootByPointer]
    by_cases hempty : target.labels = []
    · rw [hempty, append_nil, rootByPointer_of_labels hempty, if_neg (by simp),
        append_nil, spelled, if_pos rfl]
      by_cases hlabels : labels = []
      · rw [hlabels]
        rfl
      · rw [if_pos ⟨rfl, hlabels⟩, joinLabels_append hlabels (cons_ne_nil _ _), spelled,
          if_neg hlabels, joinLabels_singleton]
    · have hroot : target.isRoot = false := by
        cases target with
        | root => exact absurd rfl hempty
        | label l rest | pointer t => rfl
      rw [hroot, Bool.false_or, spelled]
      by_cases hlabels : labels = []
      · rw [hlabels, nil_append, nil_append, joinLabels_singleton, spelled,
          if_neg hempty]
      · rw [spelled, joinLabels_append hlabels (cons_ne_nil _ _),
          joinLabels_append hlabels hempty, joinLabels_singleton]
        simp [hempty]

theorem NameForm.render_eq_spelled_iff (f : NameForm) :
    f.render [] = spelled f.labels ↔ (f.rootByPointer → f.labels = []) := by
  rw [render_eq, nil_append]
  by_cases h : f.rootByPointer ∧ f.labels ≠ []
  · simp
  · rw [if_neg h, append_nil]
    exact iff_of_true rfl fun hroot => not_not.mp fun hne => h ⟨hroot, hne⟩

end

section

variable {packet : Bytes} {resolve : ℕ → Checked DNSError Bytes}
  {collected : List Bytes} {pos : ℕ}

theorem exists_split {part : Bytes} (h : part <+: packet.drop pos) (hne : part ≠ []) :
    ∃ before after, packet = before ++ (part ++ after) ∧ before.length = pos := by
  obtain ⟨after, hafter⟩ := h
  refine ⟨packet.take pos, after, ?_, ?_⟩
  · rw [hafter, take_append_drop]
  · have hpos : pos < packet.length := by
      by_contra hle
      rw [drop_eq_nil_of_le (Nat.not_lt.mp hle)] at hafter
      exact hne (append_eq_nil_iff.mp hafter).1
    exact length_take_of_le (Nat.le_of_lt hpos)

private theorem label_byte : ∀ k < 64, 0 < k → ofNat k ≠ 0 ∧
    ofNat k &&& 0xc0 ≠ 0xc0 ∧ ¬ ofNat k &&& 0xc0 ≠ 0 ∧ (ofNat k).toNat = k := by
  decide

private theorem parseDNSLabels_label (l : Label) (h : encodeLabel l.bytes <+: packet.drop pos) :
    parseDNSLabels resolve packet collected pos =
      parseDNSLabels resolve packet (collected ++ [l.bytes]) (pos + 1 + l.bytes.length) := by
  obtain ⟨hne, hptr, htype, hlen⟩ :=
    label_byte l.bytes.length (Nat.lt_succ_of_le l.fits) l.nonempty
  obtain ⟨before, after, hpacket, hpos⟩ := exists_split h nofun
  rw [encodeLabel, cons_append] at hpacket
  have hl : index (ε := DNSError) packet pos = .ok (ofNat l.bytes.length) := by
    rw [hpacket]
    exact index_append hpos
  have hsplit : packet = (before ++ [ofNat l.bytes.length]) ++ (l.bytes ++ after) := by
    rw [hpacket, append_assoc, singleton_append]
  have hbefore : (before ++ [ofNat l.bytes.length]).length = pos + 1 := by
    rw [length_append, hpos, length_singleton]
  have hrest : sliceFrom (ε := DNSError) packet (pos + 1) = .ok (l.bytes ++ after) := by
    rw [hsplit]
    exact sliceFrom_append hbefore
  have hslice : slice (ε := DNSError) packet (pos + 1) (pos + 1 + l.bytes.length) =
      .ok l.bytes := by
    rw [hsplit]
    exact slice_append hbefore rfl
  have hin : ¬ packet.length ≤ pos := by
    rw [hpacket, length_append, length_cons]
    omega
  rw [parseDNSLabels, if_neg hin, hl, ok_bind, if_neg hne, if_neg hptr, if_neg htype, hrest,
    ok_bind, hlen, if_neg, hslice, ok_bind]
  have := l.nonempty
  rw [length_append]
  omega

private theorem pointer_byte : ∀ k < 64, ofNat (192 + k) ≠ 0 ∧
    ofNat (192 + k) &&& 0xc0 = 0xc0 ∧ (ofNat (192 + k) &&& 0x3f).toNat = k := by
  decide

private theorem parseDNSLabels_pointer {target : ℕ} {name : Bytes} (htarget : target < 2 ^ 14)
    (h : pointerBytes target <+: packet.drop pos) (hname : resolve target = .ok name) :
    parseDNSLabels resolve packet collected pos = .ok (joinLabels (collected ++ [name]), pos + 2) := by
  obtain ⟨hne, hptr, hhigh⟩ := pointer_byte (target / 256) (by omega)
  obtain ⟨before, after, hpacket, hpos⟩ := exists_split h nofun
  rw [pointerBytes, cons_append, singleton_append] at hpacket
  have hl : index (ε := DNSError) packet pos = .ok (ofNat (192 + target / 256)) := by
    rw [hpacket]
    exact index_append hpos
  have hlow : index (ε := DNSError) packet (pos + 1) = .ok (ofNat target) := by
    rw [hpacket, ← singleton_append, ← append_assoc]
    refine index_append ?_
    rw [length_append, hpos, length_singleton]
  have hlength : packet.length = pos + 2 + after.length := by
    rw [hpacket, length_append, length_cons, length_cons]
    omega
  have hvalue : pointerTarget (ofNat (192 + target / 256)) (ofNat target) = target := by
    rw [pointerTarget, toNat_ofNat']
    omega
  rw [parseDNSLabels, if_neg (by omega), hl, ok_bind, if_neg hne, if_pos hptr, if_neg (by omega),
    hlow, ok_bind, hvalue, hname, ok_bind]

/-- What the parser returns for a name that is written with few enough pointers. -/
theorem parseDNSName_form {f : NameForm} {depth : ℕ} (hdepth : depth + f.hops ≤ 8) (hat : f.At packet pos) :
    parseDNSName packet pos depth = .ok (f.render [], pos + f.size) := by
  suffices hloop : ∀ collected, parseDNSLabels (fun target =>
      parseDNSName packet target (depth + 1) >>= fun named => .ok named.1) packet collected pos =
        .ok (f.render collected, pos + f.size) by
    rw [parseDNSName, if_neg (by omega)]
    exact hloop []
  induction f generalizing pos depth with
  | root =>
    intro collected
    obtain ⟨before, after, rfl, hpos⟩ := exists_split hat (cons_ne_nil _ _)
    have hl : index (ε := DNSError) (before ++ ([0] ++ after)) pos = .ok 0 := index_append hpos
    rw [parseDNSLabels, if_neg (by simp [← hpos]), hl, ok_bind, if_pos rfl, render, NameForm.size]
    split <;> rfl
  | label l rest ih =>
    intro collected
    rw [parseDNSLabels_label l hat.1, ih hdepth hat.2, render, NameForm.size]
    simp only [Nat.add_assoc]
  | pointer t ih =>
    intro collected
    obtain ⟨target, -, htarget, hbytes, ht⟩ := hat
    rw [hops] at hdepth
    have hcall : parseDNSName packet target (depth + 1) = .ok (t.render [], target + t.size) := by
      rw [parseDNSName, if_neg (by omega)]
      exact ih (by omega) ht []
    refine parseDNSLabels_pointer htarget hbytes ?_
    rw [hcall]
    rfl

end

abbrev bytes16 (v : UInt16) : Bytes := Reader.bigEndianBytes 2 v.toNat

theorem uint16At_append {before after : Bytes} {v : UInt16} {lo hi : ℕ}
    (hlo : before.length = lo) (hhi : lo + 2 = hi) : uint16At (before ++ (bytes16 v ++ after)) lo hi = .ok v := by
  have hslice : slice (ε := DNSError) (before ++ (bytes16 v ++ after)) lo hi = .ok (bytes16 v) :=
    slice_append hlo hhi
  rw [uint16At, hslice, ok_bind, Reader.bigEndian_bigEndianBytes v.toNat_lt, UInt16.ofNat_toNat]

/-- A question, with the way its name is written. -/
structure QuestionForm where
  name : NameForm
  qType : UInt16
  qClass : UInt16

open QuestionForm

namespace QuestionForm

def At (packet : Bytes) (q : QuestionForm) (pos : ℕ) : Prop :=
  q.name.At packet pos ∧ bytes16 q.qType ++ bytes16 q.qClass <+: packet.drop (pos + q.name.size)

def question (q : QuestionForm) : DNSQuestion :=
  ⟨spelled q.name.labels, dnsType q.qType, dnsClass q.qClass⟩

def parsed (q : QuestionForm) : DNSQuestion :=
  ⟨q.name.render [], dnsType q.qType, dnsClass q.qClass⟩

theorem parsed_eq_question_iff (q : QuestionForm) :
    q.parsed = q.question ↔ (q.name.rootByPointer → q.name.labels = []) := by
  rw [← q.name.render_eq_spelled_iff]
  exact ⟨fun h => (DNSQuestion.mk.inj h).1, fun h => by rw [parsed, question, h]⟩

end QuestionForm

instance (packet : Bytes) (q : QuestionForm) (pos : ℕ) : Decidable (q.At packet pos) :=
  inferInstanceAs (Decidable (_ ∧ _))

def QuestionsAt (packet : Bytes) : List QuestionForm → ℕ → Prop
  | [], _ => True
  | q :: qs, pos => q.At packet pos ∧ QuestionsAt packet qs (pos + q.name.size + 4)

instance decidableQuestionsAt (packet : Bytes) :
    ∀ qs pos, Decidable (QuestionsAt packet qs pos)
  | [], _ => isTrue trivial
  | q :: qs, pos =>
    have := decidableQuestionsAt packet qs (pos + q.name.size + 4)
    inferInstanceAs (Decidable (_ ∧ _))

variable {qs : List QuestionForm}

private theorem parseDNSQuestions_forms {packet : Bytes} {pos : ℕ}
    (hat : QuestionsAt packet qs pos) (hhops : ∀ q ∈ qs, q.name.hops ≤ 8) :
    parseDNSQuestions packet qs.length pos = .ok (qs.map parsed) := by
  induction qs generalizing pos with
  | nil => rfl
  | cons q qs ih =>
    obtain ⟨⟨hname, hfields⟩, hrest⟩ := hat
    obtain ⟨hq, hqs⟩ := forall_mem_cons.mp hhops
    obtain ⟨before, after, hpacket, hpos⟩ := exists_split hfields (by simp [← length_pos_iff])
    rw [append_assoc] at hpacket
    have hsuffix : sliceFrom (ε := DNSError) packet (pos + q.name.size) =
        .ok (bytes16 q.qType ++ (bytes16 q.qClass ++ after)) := by
      rw [hpacket]
      exact sliceFrom_append hpos
    have htype : uint16At packet (pos + q.name.size) (pos + q.name.size + 2) = .ok q.qType := by
      rw [hpacket]
      exact uint16At_append hpos rfl
    have hclass : uint16At packet (pos + q.name.size + 2) (pos + q.name.size + 4) =
        .ok q.qClass := by
      rw [hpacket, ← append_assoc]
      refine uint16At_append ?_ rfl
      rw [length_append, hpos, Reader.length_bigEndianBytes]
    rw [length_cons, parseDNSQuestions, parseDNSName_form (by omega) hname, ok_bind]
    dsimp only
    rw [hsuffix, htype, hclass, ih hrest hqs]
    rfl

/-- The header of a message, without the number of questions. -/
structure DNSHeader where
  id : UInt16
  flags : UInt16
  anCount : UInt16
  nsCount : UInt16
  arCount : UInt16

namespace DNSHeader

def encode (h : DNSHeader) (qdCount : ℕ) : Bytes :=
  bytes16 h.id ++ (bytes16 h.flags ++ (bytes16 (UInt16.ofNat qdCount) ++ (bytes16 h.anCount ++
    (bytes16 h.nsCount ++ bytes16 h.arCount))))

def message (h : DNSHeader) (questions : List DNSQuestion) : DNSMessage :=
  ⟨h.id, h.flags &&& 0x8000 ≠ 0, ((h.flags >>> 11) &&& 0x0f).toNat, (h.flags &&& 0x0f).toNat,
    h.flags &&& 0x0200 ≠ 0, questions, h.anCount.toNat⟩

@[simp] theorem length_encode (h : DNSHeader) (qdCount : ℕ) : (h.encode qdCount).length = dnsHeaderLen := by
  simp [encode, dnsHeaderLen]

end DNSHeader

theorem parseDNSMessage_forms {header : DNSHeader} {packet : Bytes}
    (hcount : qs.length < 2 ^ 16) (hheader : header.encode qs.length <+: packet)
    (hat : QuestionsAt packet qs dnsHeaderLen) (hhops : ∀ q ∈ qs, q.name.hops ≤ 8) :
    parseDNSMessage packet = .ok (header.message (qs.map parsed)) := by
  have hlen := hheader.length_le
  rw [header.length_encode] at hlen
  obtain ⟨after, hpacket⟩ := hheader
  simp only [DNSHeader.encode, append_assoc] at hpacket
  have hid : uint16At packet 0 2 = .ok header.id := by
    rw [← hpacket, ← nil_append (bytes16 header.id ++ _)]
    exact uint16At_append rfl rfl
  have hflags : uint16At packet 2 4 = .ok header.flags := by
    rw [← hpacket]
    exact uint16At_append (Reader.length_bigEndianBytes _ _) rfl
  have hqd : uint16At packet 4 6 = .ok (UInt16.ofNat qs.length) := by
    rw [← hpacket, ← append_assoc (bytes16 _)]
    exact uint16At_append (by simp) rfl
  have han : uint16At packet 6 8 = .ok header.anCount := by
    rw [← hpacket, ← append_assoc (bytes16 _), ← append_assoc (_ ++ _)]
    exact uint16At_append (by simp) rfl
  rw [parseDNSMessage, if_neg (Nat.not_lt.mpr hlen), hflags, hqd, han, ok_bind,
    hid, ok_bind, UInt16.toNat_ofNat', Nat.mod_eq_of_lt hcount, parseDNSQuestions_forms hat hhops]
  rfl

section

def encodeName (labels : List Bytes) : Bytes := labels.flatMap encodeLabel ++ [0]

def QuestionForm.encode (q : QuestionForm) : Bytes :=
  encodeName q.name.labels ++ (bytes16 q.qType ++ bytes16 q.qClass)

/-- The message with the names of its questions written out. -/
def encodeUncompressed (header : DNSHeader) (qs : List QuestionForm) : Bytes :=
  header.encode qs.length ++ qs.flatMap QuestionForm.encode

def NameForm.writtenOut : NameForm → NameForm
  | root => root
  | label l rest => label l rest.writtenOut
  | pointer target => target.writtenOut

namespace NameForm

variable (f : NameForm)

theorem labels_writtenOut : f.writtenOut.labels = f.labels := by
  induction f with
  | root => rfl
  | label l rest ih => rw [writtenOut, labels, labels, ih]
  | pointer target ih => exact ih

theorem hops_writtenOut : f.writtenOut.hops = 0 := by
  induction f with
  | root => rfl
  | label l rest ih | pointer target ih => exact ih

theorem rootByPointer_writtenOut : f.writtenOut.rootByPointer = false := by
  induction f with
  | root => rfl
  | label l rest ih | pointer target ih => exact ih

theorem size_writtenOut : f.writtenOut.size = (encodeName f.labels).length := by
  induction f with
  | root => rfl
  | label l rest ih =>
    rw [writtenOut, size, ih, labels, encodeName, encodeName, flatMap_cons, encodeLabel]
    simp
    omega
  | pointer target ih => exact ih

theorem at_writtenOut (before after : Bytes) :
    f.writtenOut.At (before ++ (encodeName f.labels ++ after)) before.length := by
  induction f generalizing before with
  | root =>
    rw [writtenOut, At, drop_left]
    exact prefix_append _ _
  | label l rest ih =>
    rw [writtenOut, At, drop_left, labels, encodeName, flatMap_cons, append_assoc, append_assoc]
    refine ⟨prefix_append _ _, ?_⟩
    have hrest := ih (before ++ encodeLabel l.bytes)
    have hlength : (before ++ encodeLabel l.bytes).length = before.length + 1 + l.bytes.length := by
      rw [length_append, encodeLabel, length_cons]
      omega
    rw [hlength, encodeName, append_assoc, append_assoc] at hrest
    exact hrest
  | pointer target ih => exact ih before

end NameForm

def QuestionForm.writtenOut (q : QuestionForm) : QuestionForm :=
  { q with name := q.name.writtenOut }

variable (q : QuestionForm)

theorem QuestionForm.parsed_writtenOut : q.writtenOut.parsed = q.question := by
  have hsame : q.writtenOut.question = q.question := by
    rw [question, question, writtenOut, labels_writtenOut]
  rw [← hsame, parsed_eq_question_iff, writtenOut, rootByPointer_writtenOut]
  exact fun h => nomatch h

theorem QuestionForm.at_writtenOut (before after : Bytes) :
    q.writtenOut.At (before ++ (q.encode ++ after)) before.length := by
  rw [encode, append_assoc]
  refine ⟨q.name.at_writtenOut _ _, ?_⟩
  rw [writtenOut, size_writtenOut, ← append_assoc, ← length_append, drop_left]
  exact prefix_append _ _

theorem QuestionForm.length_encode : q.encode.length = q.writtenOut.name.size + 4 := by
  rw [encode, writtenOut, size_writtenOut]
  simp

private theorem questionsAt_writtenOut (qs : List QuestionForm) (before after : Bytes) :
    QuestionsAt (before ++ (qs.flatMap encode ++ after)) (qs.map writtenOut) before.length := by
  induction qs generalizing before with
  | nil => trivial
  | cons q qs ih =>
    rw [flatMap_cons, append_assoc]
    refine ⟨q.at_writtenOut _ _, ?_⟩
    have hrest := ih (before ++ q.encode)
    rw [length_append, q.length_encode, append_assoc] at hrest
    exact hrest

theorem parseDNSMessage_uncompressed (header : DNSHeader)
    (hcount : qs.length < 2 ^ 16) (after : Bytes) :
    parseDNSMessage (encodeUncompressed header qs ++ after) = .ok (header.message (qs.map question)) := by
  have hat := questionsAt_writtenOut qs (header.encode qs.length) after
  have hhops : ∀ q ∈ qs.map QuestionForm.writtenOut, q.name.hops ≤ 8 := by
    intro q hq
    obtain ⟨q', -, rfl⟩ := mem_map.mp hq
    rw [QuestionForm.writtenOut, hops_writtenOut]
    omega
  have hheader : header.encode (qs.map QuestionForm.writtenOut).length <+:
      encodeUncompressed header qs ++ after := by
    rw [length_map, encodeUncompressed]
    exact prefix_append _ _
  rw [parseDNSMessage_forms (by rwa [length_map]) hheader hat hhops, map_map]
  congr 3
  exact funext parsed_writtenOut

end

/-- A message with pointers in the names of its questions is parsed as the message with the names
written out, exactly if no pointer leads to the root of a name that has labels; and no bytes make
the parser access its packet out of bounds. -/
theorem parseDNSMessage_compressed_iff (header : DNSHeader) (qs : List QuestionForm)
    (packet after : Bytes) (hcount : qs.length < 2 ^ 16)
    (hheader : header.encode qs.length <+: packet) (hat : QuestionsAt packet qs dnsHeaderLen)
    (hhops : ∀ q ∈ qs, q.name.hops ≤ 8) :
    (parseDNSMessage (encodeUncompressed header qs ++ after) =
        .ok (header.message (qs.map QuestionForm.question))) ∧
      (parseDNSMessage packet = parseDNSMessage (encodeUncompressed header qs ++ after) ↔
        ∀ q ∈ qs, q.name.rootByPointer → q.name.labels = []) ∧ ∀ bytes, parseDNSMessage bytes ≠ .error .panic := by
  have hplain := parseDNSMessage_uncompressed header hcount after
  refine ⟨hplain, ?_, safe_parseDNSMessage⟩
  rw [hplain, parseDNSMessage_forms hcount hheader hat hhops]
  constructor
  · intro h q hq
    have hquestions := (DNSMessage.mk.inj (Except.ok.inj h)).2.2.2.2.2.1
    exact q.parsed_eq_question_iff.mp (map_inj_left.mp hquestions q hq)
  · intro h
    rw [map_congr_left fun q hq => q.parsed_eq_question_iff.mpr (h q hq)]

def www : Label := ⟨[119, 119, 119], by decide, by decide⟩

def queryHeader : DNSHeader := ⟨1, 0x100, 0, 0, 0⟩

/-- The root, and `www` that is written with a pointer to it. -/
def rootQuestions : List QuestionForm :=
  [⟨.root, 2, 1⟩, ⟨.label www (.pointer .root), 1, 1⟩]

def rootPacket : Bytes :=
  queryHeader.encode 2 ++ [0, 0, 2, 0, 1, 3, 119, 119, 119, 0xc0, 12, 0, 1, 0, 1]

def wwwQuestions : List QuestionForm :=
  [⟨.label www .root, 1, 1⟩, ⟨.pointer (.label www .root), 28, 1⟩]

def wwwPacket : Bytes :=
  queryHeader.encode 2 ++ [3, 119, 119, 119, 0, 0, 1, 0, 1, 0xc0, 12, 0, 28, 0, 1]

theorem parseDNSMessage_compressed_iff_www :
    wwwQuestions.length < 2 ^ 16 ∧ queryHeader.encode 2 <+: wwwPacket ∧
      QuestionsAt wwwPacket wwwQuestions dnsHeaderLen ∧
      (∀ q ∈ wwwQuestions, q.name.hops ≤ 8) ∧
      parseDNSMessage wwwPacket = .ok (queryHeader.message
        [⟨[119, 119, 119], "A", "IN"⟩, ⟨[119, 119, 119], "AAAA", "IN"⟩]) := by
  have hat : QuestionsAt wwwPacket wwwQuestions dnsHeaderLen := by decide
  have hhops : ∀ q ∈ wwwQuestions, q.name.hops ≤ 8 := by decide
  have hprefix : queryHeader.encode 2 <+: wwwPacket := prefix_append _ _
  obtain ⟨hplain, hiff, -⟩ := parseDNSMessage_compressed_iff queryHeader wwwQuestions wwwPacket []
    (by decide) hprefix hat hhops
  rw [hiff.mpr (by decide), hplain]
  decide

/-- The name `www` is returned with two dots after it. -/
theorem parseDNSMessage_pointer_to_root :
    QuestionsAt rootPacket rootQuestions dnsHeaderLen ∧
      parseDNSMessage rootPacket = .ok (queryHeader.message
        [⟨[dot], "NS", "IN"⟩, ⟨[119, 119, 119, dot, dot], "A", "IN"⟩]) ∧
      parseDNSMessage (encodeUncompressed queryHeader rootQuestions) = .ok (queryHeader.message
        [⟨[dot], "NS", "IN"⟩, ⟨[119, 119, 119], "A", "IN"⟩]) := by
  have hat : QuestionsAt rootPacket rootQuestions dnsHeaderLen := by decide
  have hprefix : queryHeader.encode rootQuestions.length <+: rootPacket := prefix_append _ _
  have hparsed : parseDNSMessage rootPacket =
      .ok (queryHeader.message (rootQuestions.map parsed)) :=
    parseDNSMessage_forms (by decide) hprefix hat (by decide)
  have hplain := parseDNSMessage_uncompressed queryHeader (by decide : rootQuestions.length < 2 ^ 16) []
  rw [append_nil] at hplain
  refine ⟨hat, ?_, ?_⟩
  · rw [hparsed]
    decide
  · rw [hplain]
    decide

end Spectra.Netproto
