import Spectra.Netproto.HeaderBlock
import Mathlib.Data.List.Forall2

/-! Streams that differ in the values of sensitive headers. -/
namespace Spectra.Netproto
open List Library GoBytes Stream

variable {data : Bytes}

def endsCR (line : Bytes) : Bool := decide (line.getLast? = some cr)

/-- Whether a blank line ends a block among the lines of a stream: it has a line before it and a
line feed after it, and it is empty or both lines end in CRLF. -/
def endsBlock : List Bytes → Bool
  | line :: blank :: next :: rest =>
    decide (blank = []) || (endsCR line && decide (blank = [cr])) ||
      endsBlock (blank :: next :: rest)
  | _ => false

theorem endsBlock_cons_cons (line blank : Bytes) (rest : List Bytes) :
    endsBlock (line :: blank :: rest) =
      (!rest.isEmpty && (decide (blank = []) || (endsCR line && decide (blank = [cr]))) ||
        endsBlock (blank :: rest)) := by
  cases rest with
  | nil | cons next rest => rfl

private theorem endsBlock_congr_head {line line' : Bytes} (h : endsCR line = endsCR line')
    (rest : List Bytes) : endsBlock (line :: rest) = endsBlock (line' :: rest) := by
  cases rest with
  | nil => rfl
  | cons blank rest => rw [endsBlock_cons_cons, endsBlock_cons_cons, h]

private theorem endsBlock_cons_of_endsBlock {lines : List Bytes} (first : Bytes)
    (h : endsBlock lines = true) : endsBlock (first :: lines) = true := by
  cases lines with
  | nil => exact nomatch h
  | cons line lines => rw [endsBlock_cons_cons, h, Bool.or_true]

theorem endsBlock_append {line blank : Bytes} {rest : List Bytes} (hrest : rest ≠ [])
    (hblank : blank = [] ∨ (endsCR line = true ∧ blank = [cr])) (before : List Bytes) :
    endsBlock (before ++ line :: blank :: rest) = true := by
  induction before with
  | nil =>
    obtain ⟨next, rest, rfl⟩ := exists_cons_of_ne_nil hrest
    cases hblank with
    | inl hempty => simp [endsBlock, hempty]
    | inr hcr => simp [endsBlock, hcr.1, hcr.2]
  | cons first before ih => exact endsBlock_cons_of_endsBlock first ih

private theorem exists_last_segment (s : Bytes) {c : UInt8} (h : c ≠ lf) :
    ∃ segments last, (s ++ [c]).splitOn lf = segments ++ [last ++ [c]] := by
  induction s with
  | nil => exact ⟨[], [], splitOn_eq_singleton (by simpa using h.symm)⟩
  | cons d s ih =>
    obtain ⟨segments, last, ih⟩ := ih
    rw [cons_append, splitOn_cons_eq_if_modifyHead, ih]
    split
    · exact ⟨[] :: segments, last, rfl⟩
    · cases segments with
      | nil => exact ⟨[], d :: last, rfl⟩
      | cons first segments => exact ⟨(d :: first) :: segments, last, rfl⟩

private theorem infix_of_endsBlock (segments : List Bytes) (h : endsBlock segments = true) :
    Terminated ([lf].intercalate segments) := by
  fun_induction endsBlock segments with
  | case1 line blank next rest ih =>
    rw [Bool.or_eq_true, Bool.or_eq_true] at h
    obtain (hempty | hcr) | htail := h
    · right
      rw [of_decide_eq_true hempty]
      exact ⟨line, [lf].intercalate (next :: rest), by simp [ascii]⟩
    · left
      rw [Bool.and_eq_true] at hcr
      obtain ⟨line', rfl⟩ := getLast?_eq_some_iff.mp (of_decide_eq_true hcr.1)
      rw [of_decide_eq_true hcr.2]
      exact ⟨line', [lf].intercalate (next :: rest), by simp [ascii]⟩
    · rw [intercalate_cons_cons]
      have hsuffix := (suffix_append (line ++ [lf]) ([lf].intercalate (blank :: next :: rest))).isInfix
      exact (ih htail).imp (·.trans hsuffix) (·.trans hsuffix)
  | case2 => exact absurd h Bool.false_ne_true

/-- A stream has the end of a header block exactly if its lines show one. -/
theorem terminated_iff_endsBlock : Terminated data ↔ endsBlock (data.splitOn lf) = true := by
  constructor
  · rintro (⟨before, after, rfl⟩ | ⟨before, after, rfl⟩)
    · have hbytes : before ++ ascii "\r\n\r\n" ++ after =
          (before ++ [cr]) ++ lf :: ([cr] ++ lf :: after) := by simp [ascii]
      obtain ⟨segments, last, hlast⟩ := exists_last_segment before (show cr ≠ lf by decide)
      rw [hbytes, splitOn_block (by decide), hlast, append_assoc]
      exact endsBlock_append (splitOn_ne_nil lf after) (.inr ⟨by simp [endsCR], rfl⟩) segments
    · have hbytes : before ++ ascii "\n\n" ++ after = before ++ lf :: ([] ++ lf :: after) := by
        simp [ascii]
      obtain ⟨segments, last, hlast⟩ :=
        eq_nil_or_concat' (before.splitOn lf) |>.resolve_left (splitOn_ne_nil lf before)
      rw [hbytes, splitOn_block (by decide), hlast, append_assoc]
      exact endsBlock_append (splitOn_ne_nil lf after) (.inl rfl) segments
  · intro h
    have hterminated := infix_of_endsBlock _ h
    rwa [intercalate_splitOn] at hterminated

def SensitiveName (name : Bytes) : Prop := name.map lowerASCII ∈ sensitiveHTTPHeaders

instance (name : Bytes) : Decidable (SensitiveName name) :=
  inferInstanceAs (Decidable (_ ∈ _))

/-- A sensitive header of a stream: its name, the rest of its line, and its continuation lines,
which start with a space or a tab. A final carriage return of the last line belongs to the line
end, not to the value. -/
structure SecretField where
  name : Bytes
  first : Bytes
  folds : List Bytes
  sensitive : SensitiveName name
  first_lf : lf ∉ first
  folds_lf : ∀ l ∈ folds, lf ∉ l
  folded : ∀ l ∈ folds, l.head? = some 32 ∨ l.head? = some 9

/-- A header line of a stream, as it is or as a sensitive header. -/
inductive HeaderLine
  | plain (line : Bytes) (hlf : lf ∉ line) (hblank : dropCR line ≠ [])
  | secret (field : SecretField)

/-- A stream by its lines: the start line, the header section, and the lines after it, of which
there are none if the stream breaks off in its last header. -/
structure Stream where
  start : Bytes
  headers : List HeaderLine
  rest : List Bytes
  start_lf : lf ∉ start
  rest_lf : ∀ l ∈ rest, lf ∉ l

def HeaderLine.lines : HeaderLine → List Bytes
  | .plain line _ _ => [line]
  | .secret f => (f.name ++ ascii ":" ++ f.first) :: f.folds

def Stream.lines (s : Stream) : List Bytes :=
  s.start :: (s.headers.flatMap HeaderLine.lines ++ s.rest)

def Stream.bytes (s : Stream) : Bytes := [lf].intercalate s.lines

def SecretField.endsCR (f : SecretField) : Bool := Netproto.endsCR (f.folds.getLastD f.first)

/-- Header lines that are the same, or the same sensitive header with any two values. -/
inductive HeaderLine.Alike : HeaderLine → HeaderLine → Prop
  | plain (line : Bytes) (hlf : lf ∉ line) (hblank : dropCR line ≠ []) :
    HeaderLine.Alike (.plain line hlf hblank) (.plain line hlf hblank)
  | secret {f f' : SecretField} (hname : f.name = f'.name) (hend : f.endsCR = f'.endsCR) :
    HeaderLine.Alike (.secret f) (.secret f')

/-- Streams that are identical except for the values of sensitive headers. -/
structure Stream.Alike (s s' : Stream) : Prop where
  start : s.start = s'.start
  headers : List.Forall₂ HeaderLine.Alike s.headers s'.headers
  rest : s.rest = s'.rest

/-- A line that has no colon, or only white space before its first one. -/
def Silent (line : Bytes) : Prop :=
  ∀ before after, line = before ++ 58 :: after → (58 : UInt8) ∉ before → trimSpace before = []

/-- No continuation line of a sensitive header looks like a header. -/
def Stream.Silent (s : Stream) : Prop :=
  ∀ f, .secret f ∈ s.headers → ∀ l ∈ f.folds, Netproto.Silent l

def SecretField.emptied (f : SecretField) : SecretField where
  name := f.name
  first := if f.endsCR then [cr] else []
  folds := []
  sensitive := f.sensitive
  first_lf := by split <;> decide
  folds_lf := nofun
  folded := nofun

def HeaderLine.emptied : HeaderLine → HeaderLine
  | .plain line hlf hblank => .plain line hlf hblank
  | .secret f => .secret f.emptied

def Stream.emptied (s : Stream) : Stream := { s with headers := s.headers.map HeaderLine.emptied }

section
variable {name : Bytes} (h : SensitiveName name)
include h

theorem SensitiveName.ne_nil : name ≠ [] := by
  rintro rfl
  exact absurd h (by decide)

theorem SensitiveName.graphic : ∀ b ∈ name, 32 < b ∧ b < 128 ∧ b ≠ 58 := by
  have hletters : (sensitiveHTTPHeaders.all fun w =>
      w.all fun c => decide (c = 45 ∨ 97 ≤ c ∧ c ≤ 122)) = true := by decide
  intro b hb
  have hletter := all_eq_true.mp (all_eq_true.mp hletters _ h) (lowerASCII b)
    (mem_map_of_mem hb)
  rw [lowerASCII] at hletter
  split at hletter <;> grind

private theorem parseHTTPHeader_sensitive (value : Bytes) :
    parseHTTPHeader (name ++ ascii ":" ++ value) = some ⟨name, redactedHeaderValue, true⟩ := by
  have hgraphic := h.graphic
  have hcut : cut (name ++ ascii ":" ++ value) (ascii ":") = some (name, value) := by
    rw [append_assoc]
    exact cut_singleton_append fun hmem => (hgraphic 58 hmem).2.2 rfl
  have htrim : trimSpace name = name :=
    trimSpace_eq_self h.ne_nil fun b hb => ⟨(hgraphic b hb).1, (hgraphic b hb).2.1⟩
  have hlower : toLower name ∈ sensitiveHTTPHeaders := by
    rw [toLower_of_ascii fun b hb => (hgraphic b hb).2.1]
    exact h
  rw [parseHTTPHeader, hcut]
  simp [htrim, hlower, h.ne_nil]

end

theorem silent_append_iff {before after : Bytes} (h : (58 : UInt8) ∉ before) :
    Silent (before ++ 58 :: after) ↔ trimSpace before = [] := by
  refine ⟨fun hsilent => hsilent before after rfl h, fun htrim before' after' heq h' => ?_⟩
  have hcut := cut_singleton_append (b := after) h
  rw [heq, cut_singleton_append h'] at hcut
  cases hcut
  exact htrim

variable {line : Bytes}

theorem silent_of_notMem (h : (58 : UInt8) ∉ line) : Silent line := by
  rintro before after rfl
  exact absurd (mem_append_right before (.head _)) h

private theorem parseHTTPHeader_eq_none_iff : parseHTTPHeader line = none ↔ Silent line := by
  by_cases hcolon : (58 : UInt8) ∈ line
  · obtain ⟨before, after, rfl, hbefore⟩ := eq_append_cons_of_mem hcolon
    have hcut : cut (before ++ 58 :: after) (ascii ":") = some (before, after) :=
      cut_singleton_append hbefore
    rw [silent_append_iff hbefore, parseHTTPHeader, hcut]
    simp
  · have hcut : cut line (ascii ":") = none := cut_singleton_eq_none_iff.mpr hcolon
    rw [parseHTTPHeader, hcut]
    simp [silent_of_notMem hcolon]

private theorem silent_dropCR_iff : Silent (dropCR line) ↔ Silent line := by
  by_cases hcolon : (58 : UInt8) ∈ line
  · obtain ⟨before, after, rfl, hbefore⟩ := eq_append_cons_of_mem hcolon
    rw [dropCR_append_cons (by decide), silent_append_iff hbefore, silent_append_iff hbefore]
  · have hdrop : (58 : UInt8) ∉ dropCR line := by
      intro hmem
      rw [dropCR] at hmem
      split at hmem
      · exact hcolon (mem_of_mem_dropLast hmem)
      · exact hcolon hmem
    exact iff_of_true (silent_of_notMem hdrop) (silent_of_notMem hcolon)

theorem entries_cons (h : dropCR line ≠ []) (rest : List Bytes) :
    entries (line :: rest) = (parseHTTPHeader (dropCR line)).toList ++ entries rest := by
  cases hheader : parseHTTPHeader (dropCR line) with
  | none | some header => simp [entries, headerSection, h, hheader]

variable (f : SecretField)

theorem SecretField.fold_ne {l : Bytes} (hl : l ∈ f.folds) : dropCR l ≠ [] ∧ l ≠ [] ∧ l ≠ [cr] := by
  obtain ⟨c, t, hc, rfl⟩ : ∃ c t, c ≠ cr ∧ l = c :: t := by
    cases f.folded l hl with
    | inl hspace =>
      obtain ⟨t, rfl⟩ := head?_eq_some_iff.mp hspace
      exact ⟨32, t, by decide, rfl⟩
    | inr htab =>
      obtain ⟨t, rfl⟩ := head?_eq_some_iff.mp htab
      exact ⟨9, t, by decide, rfl⟩
  refine ⟨?_, cons_ne_nil c t, fun heq => hc (head_eq_of_cons_eq heq)⟩
  rw [← nil_append (c :: t), dropCR_append_cons hc]
  exact cons_ne_nil c _

/-- The headers that the continuation lines of a field give. -/
def SecretField.leaks (f : SecretField) : List HTTPHeader :=
  f.folds.filterMap fun l => parseHTTPHeader (dropCR l)

theorem SecretField.leaks_eq_nil_iff : f.leaks = [] ↔ ∀ l ∈ f.folds, Netproto.Silent l := by
  rw [leaks, filterMap_eq_nil_iff]
  exact forall₂_congr fun l _ => parseHTTPHeader_eq_none_iff.trans silent_dropCR_iff

def HeaderLine.headers : HeaderLine → List HTTPHeader
  | .plain line _ _ => (parseHTTPHeader (dropCR line)).toList
  | .secret f => ⟨f.name, redactedHeaderValue, true⟩ :: f.leaks

def HeaderLine.leaks : HeaderLine → List HTTPHeader
  | .plain _ _ _ => []
  | .secret f => f.leaks

private theorem entries_folds {folds : List Bytes} (h : ∀ l ∈ folds, dropCR l ≠ []) (rest : List Bytes) :
    entries (folds ++ rest) = folds.filterMap (fun l => parseHTTPHeader (dropCR l)) ++ entries rest := by
  induction folds with
  | nil => rfl
  | cons l folds ih =>
    obtain ⟨hl, hfolds⟩ := forall_mem_cons.mp h
    rw [cons_append, entries_cons hl, ih hfolds, filterMap_cons]
    cases parseHTTPHeader (dropCR l) <;> rfl

variable (h : HeaderLine)

private theorem entries_append (rest : List Bytes) : entries (h.lines ++ rest) = h.headers ++ entries rest := by
  cases h with
  | plain line hlf hblank => exact entries_cons hblank rest
  | secret f =>
    have hline : dropCR (f.name ++ ascii ":" ++ f.first) = f.name ++ ascii ":" ++ dropCR f.first := by
      rw [append_assoc, append_assoc]
      exact dropCR_append_cons (by decide) f.name f.first
    have hne : dropCR (f.name ++ ascii ":" ++ f.first) ≠ [] := by
      rw [hline, append_assoc]
      exact append_ne_nil_of_left_ne_nil f.sensitive.ne_nil _
    rw [HeaderLine.lines, cons_append, entries_cons hne, hline,
      parseHTTPHeader_sensitive f.sensitive, entries_folds fun l hl => (f.fold_ne hl).1]
    rfl

private theorem entries_headers (headers : List HeaderLine) (rest : List Bytes) :
    entries (headers.flatMap HeaderLine.lines ++ rest) = headers.flatMap HeaderLine.headers ++ entries rest := by
  induction headers with
  | nil => rfl
  | cons h headers ih =>
    rw [flatMap_cons, append_assoc, entries_append, ih, flatMap_cons, append_assoc]

theorem endsBlock_skip {lines : List Bytes} (h : ∀ l ∈ lines, l ≠ [] ∧ l ≠ [cr])
    (line : Bytes) (rest : List Bytes) :
    endsBlock (line :: (lines ++ rest)) = endsBlock (lines.getLastD line :: rest) := by
  induction lines generalizing line with
  | nil => rfl
  | cons l lines ih =>
    obtain ⟨hl, hlines⟩ := forall_mem_cons.mp h
    rw [cons_append, endsBlock_cons_cons, ih hlines, getLastD_cons]
    simp [hl.1, hl.2]

theorem SecretField.endsCR_getLastD :
    Netproto.endsCR (f.folds.getLastD (f.name ++ ascii ":" ++ f.first)) = f.endsCR := by
  rw [SecretField.endsCR]
  cases f.folds with
  | cons l folds => rfl
  | nil =>
    rw [getLastD_nil, getLastD_nil, Netproto.endsCR, Netproto.endsCR, getLast?_append]
    cases h : f.first.getLast? with
    | none => simp [ascii, cr]
    | some c => simp

theorem SecretField.lines_ne : ∀ l ∈ (HeaderLine.secret f).lines, l ≠ [] ∧ l ≠ [cr] := by
  refine forall_mem_cons.mpr ⟨?_, fun l hl => (f.fold_ne hl).2⟩
  have hcolon : (58 : UInt8) ∈ f.name ++ ascii ":" ++ f.first := by simp [ascii]
  refine ⟨ne_nil_of_mem hcolon, fun heq => ?_⟩
  rw [heq] at hcolon
  exact absurd hcolon (by decide)

variable {headers headers' : List HeaderLine}

private theorem isEmpty_lines (h : List.Forall₂ HeaderLine.Alike headers headers') (rest : List Bytes) :
    (headers.flatMap HeaderLine.lines ++ rest).isEmpty = (headers'.flatMap HeaderLine.lines ++ rest).isEmpty := by
  cases h with
  | nil => rfl
  | cons halike _ => cases halike <;> rfl

/-- The values of sensitive headers do not decide where a block ends. -/
theorem endsBlock_alike (h : List.Forall₂ HeaderLine.Alike headers headers')
    (rest : List Bytes) {line' : Bytes} (hline : endsCR line = endsCR line') :
    endsBlock (line :: (headers.flatMap HeaderLine.lines ++ rest)) =
      endsBlock (line' :: (headers'.flatMap HeaderLine.lines ++ rest)) := by
  induction h generalizing line line' with
  | nil => exact endsBlock_congr_head hline rest
  | @cons h h' headers headers' halike htail ih =>
    rw [flatMap_cons, flatMap_cons, append_assoc, append_assoc]
    cases halike with
    | plain l hlf hblank =>
      simp only [HeaderLine.lines, singleton_append]
      rw [endsBlock_cons_cons, endsBlock_cons_cons, hline, isEmpty_lines htail, ih rfl]
    | @secret f f' hname hend =>
      rw [endsBlock_skip f.lines_ne, endsBlock_skip f'.lines_ne]
      apply ih
      rw [HeaderLine.lines, HeaderLine.lines, getLastD_cons, getLastD_cons, f.endsCR_getLastD, f'.endsCR_getLastD, hend]

theorem HeaderLine.lines_lf : ∀ l ∈ h.lines, lf ∉ l := by
  cases h with
  | plain line hlf hblank => exact fun l hl => mem_singleton.mp hl ▸ hlf
  | secret f =>
    refine forall_mem_cons.mpr ⟨?_, f.folds_lf⟩
    rw [mem_append, mem_append, not_or, not_or]
    exact ⟨⟨fun hmem => absurd (f.sensitive.graphic lf hmem).1 (by decide), by decide⟩, f.first_lf⟩

variable (s : Stream)

theorem Stream.splitOn_bytes : s.bytes.splitOn lf = s.lines := by
  refine splitOn_intercalate lf (forall_mem_cons.mpr ⟨s.start_lf, fun l hl => ?_⟩)
    nofun
  cases mem_append.mp hl with
  | inl hheader =>
    obtain ⟨h, -, hl⟩ := mem_flatMap.mp hheader
    exact h.lines_lf l hl
  | inr hrest => exact s.rest_lf l hrest

/-- The parser on a stream that has headers. -/
theorem Stream.parse_eq (hheaders : s.headers ≠ []) (hlen : s.bytes.length ≤ 128 * 1024) :
    parseHTTP1Headers s.bytes =
      (parseHTTPStartLine (dropCR s.start)).map fun msg =>
        msg.withHeaders (!endsBlock s.lines) (s.headers.flatMap HeaderLine.headers ++ entries s.rest) := by
  have hne : s.bytes ≠ [] := by
    obtain ⟨h, headers, heq⟩ := exists_cons_of_ne_nil hheaders
    have hlf : lf ∈ s.bytes := by
      cases h <;>
        simp [bytes, lines, heq, HeaderLine.lines]
    exact ne_nil_of_mem hlf
  have hmax : s.bytes.length < maxTokenSize := lt_of_le_of_lt hlen (by decide)
  have htruncated : (splitHTTPHeaderBlock s.bytes).2 = !endsBlock s.lines := by
    rw [Bool.eq_iff_iff, splitHTTPHeaderBlock_snd, terminated_iff_endsBlock, s.splitOn_bytes,
      Bool.not_eq_true, Bool.not_eq_true']
  rw [parseHTTP1Headers_eq hne fun l hl => length_lt_of_mem_headerBlock hl hmax.le (.inl hmax),
    htruncated, s.splitOn_bytes, lines, parseSegments, entries_headers]
  cases parseHTTPStartLine (dropCR s.start) <;> rfl

private theorem headers_eq_of_alike (h : List.Forall₂ HeaderLine.Alike headers headers')
    (hs : ∀ f, .secret f ∈ headers → f.leaks = []) (hs' : ∀ f, .secret f ∈ headers' → f.leaks = []) :
    headers.flatMap HeaderLine.headers = headers'.flatMap HeaderLine.headers := by
  induction h with
  | nil => rfl
  | @cons h h' headers headers' halike htail ih =>
    rw [flatMap_cons, flatMap_cons, ih (fun f hf => hs f (mem_cons_of_mem h hf))
      fun f hf => hs' f (mem_cons_of_mem h' hf)]
    cases halike with
    | plain => rfl
    | @secret f f' hname hend =>
      rw [HeaderLine.headers, HeaderLine.headers, hname, hs f mem_cons_self, hs' f' mem_cons_self]

theorem Stream.silent_iff : s.Silent ↔ ∀ f, .secret f ∈ s.headers → f.leaks = [] :=
  forall₂_congr fun f _ => f.leaks_eq_nil_iff.symm

theorem HeaderLine.alike_emptied : h.Alike h.emptied := by
  cases h with
  | plain line hlf hblank => exact .plain line hlf hblank
  | secret f =>
    refine .secret rfl ?_
    have hfirst : f.emptied.endsCR = Netproto.endsCR (if f.endsCR then [cr] else []) := rfl
    rw [hfirst]
    cases f.endsCR <;> rfl

theorem Stream.alike_emptied : s.Alike s.emptied where
  start := rfl
  headers := forall₂_map_right_iff.mpr (forall₂_same.mpr fun h _ => h.alike_emptied)
  rest := rfl

theorem Stream.silent_emptied : s.emptied.Silent := by
  intro f hf l hl
  obtain ⟨h, -, heq⟩ := mem_map.mp hf
  cases h with
  | plain => exact nomatch heq
  | secret g =>
    cases heq
    exact nomatch hl

theorem HeaderLine.length_emptied :
    (h.emptied.lines.flatMap (· ++ [lf])).length ≤ (h.lines.flatMap (· ++ [lf])).length := by
  cases h with
  | plain line hlf hblank => exact le_rfl
  | secret f =>
    simp only [HeaderLine.emptied, HeaderLine.lines, SecretField.emptied, flatMap_cons,
      flatMap_nil, length_append, append_nil]
    split
    · rename_i hend
      cases hfolds : f.folds with
      | nil =>
        have hfirst : f.first ≠ [] := by
          rintro heq
          simp [SecretField.endsCR, hfolds, heq, Netproto.endsCR] at hend
        have := length_pos_iff.mpr hfirst
        simp only [length_singleton]
        omega
      | cons l folds =>
        simp only [flatMap_cons, length_append, length_singleton]
        omega
    · simp only [length_nil]
      omega

theorem Stream.length_emptied : s.emptied.bytes.length ≤ s.bytes.length := by
  have hlines (s : Stream) : s.bytes ++ [lf] = s.lines.flatMap (· ++ [lf]) :=
    intercalate_append_sep nofun
  have hheaders (headers : List HeaderLine) :
      (((headers.map HeaderLine.emptied).flatMap HeaderLine.lines).flatMap (· ++ [lf])).length ≤
        ((headers.flatMap HeaderLine.lines).flatMap (· ++ [lf])).length := by
    induction headers with
    | nil => exact le_rfl
    | cons h headers ih =>
      have hhead := h.length_emptied
      simp only [map_cons, flatMap_cons, flatMap_append, length_append] at *
      omega
  have hbytes := congrArg length (hlines s)
  have hemptied := congrArg length (hlines s.emptied)
  have hmiddle := hheaders s.headers
  simp only [lines, emptied, flatMap_cons, flatMap_append, length_append] at *
  omega

private theorem length_headers_emptied (headers : List HeaderLine) :
    ((headers.map HeaderLine.emptied).flatMap HeaderLine.headers).length +
      (headers.flatMap HeaderLine.leaks).length = (headers.flatMap HeaderLine.headers).length := by
  induction headers with
  | nil => rfl
  | cons h headers ih =>
    have hhead : h.emptied.headers.length + h.leaks.length = h.headers.length := by
      cases h with
      | plain => rfl
      | secret f => exact Nat.add_comm 1 _
    simp only [map_cons, flatMap_cons, length_append]
    omega

private theorem leaks_eq_nil_of_emptied (h : headers.flatMap HeaderLine.headers =
      (headers.map HeaderLine.emptied).flatMap HeaderLine.headers) : ∀ f, .secret f ∈ headers → f.leaks = [] := by
  have hlen := length_headers_emptied headers
  rw [h] at hlen
  have hleaks : headers.flatMap HeaderLine.leaks = [] := length_eq_zero_iff.mp (by omega)
  exact fun f hf => flatMap_eq_nil_iff.mp hleaks (.secret f) hf

section
variable {s : Stream} (hlen : s.bytes.length ≤ 128 * 1024)
include hlen

/-- The parser on two streams that differ in the values of sensitive headers, with continuation
lines that do not look like headers. -/
theorem Stream.parse_eq_of_alike {s' : Stream} (hlen' : s'.bytes.length ≤ 128 * 1024)
    (h : s.Alike s') (hs : s.Silent) (hs' : s'.Silent) : parseHTTP1Headers s.bytes = parseHTTP1Headers s'.bytes := by
  by_cases hheaders : s.headers = []
  · have hheaders' : s'.headers = [] := forall₂_nil_left_iff.mp (hheaders ▸ h.headers)
    have hlines : s.lines = s'.lines := by
      rw [lines, lines, h.start, h.rest, hheaders, hheaders']
    rw [bytes, bytes, hlines]
  · have hheaders' : s'.headers ≠ [] := by
      intro heq
      exact hheaders (forall₂_nil_right_iff.mp (heq ▸ h.headers))
    have hblock : endsBlock s.lines = endsBlock s'.lines := by
      rw [lines, h.rest]
      exact endsBlock_alike h.headers s'.rest (congrArg endsCR h.start)
    rw [s.parse_eq hheaders hlen, s'.parse_eq hheaders' hlen', h.start, h.rest, hblock,
      headers_eq_of_alike h.headers (s.silent_iff.mp hs) (s'.silent_iff.mp hs')]

theorem Stream.silent_of_parse_eq {msg : HTTPMessage} (hstart : parseHTTPStartLine (dropCR s.start) = .ok msg)
    (h : parseHTTP1Headers s.bytes = parseHTTP1Headers s.emptied.bytes) : s.Silent := by
  by_cases hheaders : s.headers = []
  · intro f hf
    exact absurd hf (hheaders ▸ not_mem_nil)
  · have hstart' : parseHTTPStartLine (dropCR s.emptied.start) = .ok msg := hstart
    rw [s.parse_eq hheaders hlen, s.emptied.parse_eq (by simpa [emptied] using hheaders)
      (s.length_emptied.trans hlen), hstart, hstart'] at h
    have hentries := congrArg HTTPMessage.headers (Except.ok.inj h)
    exact s.silent_iff.mpr (leaks_eq_nil_of_emptied (append_cancel_right hentries))

theorem Stream.parse_eq_of_malformed (hstart : ∀ msg, parseHTTPStartLine (dropCR s.start) ≠ .ok msg) :
    parseHTTP1Headers s.bytes = parseHTTP1Headers s.emptied.bytes := by
  by_cases hheaders : s.headers = []
  · rw [bytes, bytes, lines, lines, emptied, hheaders, map_nil]
  · have hsame : s.emptied.start = s.start := rfl
    rw [s.parse_eq hheaders hlen, s.emptied.parse_eq (by simpa [emptied] using hheaders)
      (s.length_emptied.trans hlen), hsame]
    cases herror : parseHTTPStartLine (dropCR s.start) with
    | error e => rfl
    | ok msg => exact absurd herror (hstart msg)

end

/-- The parser hides the values of sensitive headers in streams of at most 128 KiB whose
continuation lines of such headers have no colon, or only white space before the first one. Every
other stream with a start line is told from the same stream without the values. -/
theorem parseHTTP1Headers_hides_values (s : Stream) (hlen : s.bytes.length ≤ 128 * 1024) :
    (∀ s' : Stream, s'.bytes.length ≤ 128 * 1024 → s.Alike s' → s.Silent → s'.Silent →
      parseHTTP1Headers s.bytes = parseHTTP1Headers s'.bytes) ∧
    s.Alike s.emptied ∧ s.emptied.bytes.length ≤ 128 * 1024 ∧
    (parseHTTP1Headers s.bytes = parseHTTP1Headers s.emptied.bytes ↔
      s.Silent ∨ ∀ msg, parseHTTPStartLine (dropCR s.start) ≠ .ok msg) := by
  have hemptied := s.length_emptied.trans hlen
  refine ⟨fun s' hlen' halike hs hs' => Stream.parse_eq_of_alike hlen hlen' halike hs hs',
    s.alike_emptied, hemptied, fun h => ?_, fun h => ?_⟩
  · by_cases hstart : ∃ msg, parseHTTPStartLine (dropCR s.start) = .ok msg
    · obtain ⟨msg, hstart⟩ := hstart
      exact .inl (Stream.silent_of_parse_eq hlen hstart h)
    · exact .inr (not_exists.mp hstart)
  · cases h with
    | inl hsilent =>
      exact Stream.parse_eq_of_alike hlen hemptied s.alike_emptied hsilent s.silent_emptied
    | inr hstart => exact Stream.parse_eq_of_malformed hlen hstart

def request (f : SecretField) : Stream :=
  ⟨ascii "GET / HTTP/1.1\r", [.secret f], [ascii "\r", []], by decide, by decide⟩

/-- Two requests with cookies of different lengths, one of them folded. -/
theorem parseHTTP1Headers_hides_values_cookie :
    ∃ s s' : Stream, s.Alike s' ∧ s.bytes ≠ s'.bytes ∧ parseHTTP1Headers s.bytes = parseHTTP1Headers s'.bytes := by
  let field : SecretField :=
    ⟨ascii "Cookie", ascii " sid=1\r", [], by decide, by decide, by decide, by decide⟩
  let field' : SecretField :=
    ⟨ascii "Cookie", ascii " sid=23\r", [ascii " theme=dark\r"], by decide, by decide, by decide, by decide⟩
  have hsilent (f : SecretField) (h : ∀ l ∈ f.folds, (58 : UInt8) ∉ l) : (request f).Silent := by
    intro g hg l hl
    cases mem_singleton.mp hg
    exact silent_of_notMem (h l hl)
  have halike : (request field).Alike (request field') :=
    ⟨rfl, .cons (.secret rfl (by decide)) .nil, rfl⟩
  refine ⟨request field, request field', halike, by decide +kernel, ?_⟩
  exact (parseHTTP1Headers_hides_values (request field) (by decide +kernel)).1 (request field')
    (by decide +kernel) halike (hsilent field (by decide)) (hsilent field' (by decide))

/-- A continuation line of a cookie with a colon is kept as a header with its value. -/
theorem folded_cookie_is_kept :
    ∃ s s' : Stream, s.bytes.length ≤ 128 * 1024 ∧ s'.bytes.length ≤ 128 * 1024 ∧ s.Alike s' ∧
      parseHTTP1Headers s.bytes ≠ parseHTTP1Headers s'.bytes := by
  let field : SecretField :=
    ⟨ascii "Cookie", ascii " sid=1;\r", [ascii " token:red\r"], by decide, by decide, by decide, by decide⟩
  let field' : SecretField :=
    ⟨ascii "Cookie", ascii " sid=1;\r", [ascii " token:blue\r"], by decide, by decide, by decide, by decide⟩
  exact ⟨request field, request field', by decide +kernel, by decide +kernel,
    ⟨rfl, .cons (.secret rfl (by decide)) .nil, rfl⟩, by decide +kernel⟩

end Spectra.Netproto
