import Spectra.Netproto.Http

/-! What the header parser reads of a stream. -/
namespace Spectra.Netproto
open List Library GoBytes

variable {data : Bytes}

def Terminated (data : Bytes) : Prop :=
  ascii "\r\n\r\n" <:+: data ∨ ascii "\n\n" <:+: data

/-- The lines of a header section: those before the first blank line. -/
def headerSection (segments : List Bytes) : List Bytes :=
  (segments.map dropCR).takeWhile (· ≠ [])

def entries (segments : List Bytes) : List HTTPHeader :=
  (headerSection segments).filterMap parseHTTPHeader

def parseSegments (truncated : Bool) : List Bytes → Except HTTPError HTTPMessage
  | [] => .error .empty
  | start :: rest => do
    let msg ← parseHTTPStartLine (dropCR start)
    return msg.withHeaders truncated (entries rest)

private theorem eq_of_index_crlf {idx : ℕ} (h : index (ascii "\r\n\r\n") data = some idx) :
    data = (data.take idx ++ [cr]) ++ lf :: ([cr] ++ lf :: data.drop (idx + 4)) ∧
      data.take (idx + 2) = (data.take idx ++ [cr]) ++ [lf] := by
  obtain ⟨hle, heq⟩ := eq_of_index h
  have hdata : data = (data.take idx ++ [cr]) ++ lf :: ([cr] ++ lf :: data.drop (idx + 4)) := by
    simpa [ascii] using heq
  refine ⟨hdata, ?_⟩
  have hlen := length_take_of_le hle
  conv_lhs => rw [hdata]
  rw [append_cons, take_left' (by simp [hlen])]

private theorem eq_of_index_lf {idx : ℕ} (h : index (ascii "\n\n") data = some idx) :
    data = data.take idx ++ lf :: ([] ++ lf :: data.drop (idx + 2)) ∧ data.take (idx + 1) = data.take idx ++ [lf] := by
  obtain ⟨hle, heq⟩ := eq_of_index h
  have hdata : data = data.take idx ++ lf :: ([] ++ lf :: data.drop (idx + 2)) := by
    simpa [ascii] using heq
  refine ⟨hdata, ?_⟩
  have hlen := length_take_of_le hle
  conv_lhs => rw [hdata]
  rw [append_cons, take_left' (by simp [hlen])]

/-- A header block ends before a blank line, or the stream does not end one. -/
theorem splitHTTPHeaderBlock_cases (data : Bytes) :
    (∃ head blank after, lf ∉ blank ∧ dropCR blank = [] ∧
      data = head ++ lf :: (blank ++ lf :: after) ∧
      splitHTTPHeaderBlock data = (head ++ [lf], false)) ∨
    (¬ Terminated data ∧ splitHTTPHeaderBlock data = (data, true)) := by
  rw [splitHTTPHeaderBlock]
  cases hcrlf : index (ascii "\r\n\r\n") data with
  | some idx =>
    obtain ⟨hdata, hblock⟩ := eq_of_index_crlf hcrlf
    exact .inl ⟨_, [cr], _, by decide, by decide, hdata, congrArg (·, false) hblock⟩
  | none =>
    cases hlf : index (ascii "\n\n") data with
    | some idx =>
      obtain ⟨hdata, hblock⟩ := eq_of_index_lf hlf
      exact .inl ⟨_, [], _, by decide, by decide, hdata, congrArg (·, false) hblock⟩
    | none =>
      refine .inr ⟨?_, rfl⟩
      exact not_or.mpr ⟨index_eq_none_iff.mp hcrlf, index_eq_none_iff.mp hlf⟩

theorem splitOn_block {head blank after : Bytes} (h : lf ∉ blank) :
    (head ++ lf :: (blank ++ lf :: after)).splitOn lf = head.splitOn lf ++ blank :: after.splitOn lf := by
  rw [splitOn_append_cons_self, splitOn_append_cons_self, splitOn_eq_singleton h, singleton_append]

theorem lines_append_lf (s : Bytes) : lines (s ++ [lf]) = s.splitOn lf := by
  simp [lines, splitOn_append_cons_self]

theorem lines_append_nil (s : Bytes) : lines s = s.splitOn lf ∨ lines s ++ [[]] = s.splitOn lf := by
  rw [lines]
  split
  · rename_i hlast
    exact .inr (dropLast_append_getLast? _ hlast)
  · exact .inl rfl

private theorem exists_lines_headerBlock (data : Bytes) :
    ∃ rest, data.splitOn lf = lines (splitHTTPHeaderBlock data).1 ++ rest ∧ ∀ line ∈ rest.head?, dropCR line = [] := by
  obtain ⟨head, blank, after, hlf, hblank, hdata, hblock⟩ | ⟨-, hblock⟩ :=
    splitHTTPHeaderBlock_cases data
  · refine ⟨blank :: after.splitOn lf, ?_, ?_⟩
    · rw [hblock, lines_append_lf]
      conv_lhs => rw [hdata]
      exact splitOn_block hlf
    · simpa using hblank
  · rw [hblock]
    cases lines_append_nil data with
    | inl heq => exact ⟨[], by rw [append_nil, heq], nofun⟩
    | inr heq => exact ⟨[[]], heq.symm, by decide⟩

theorem headerSection_append {segments rest : List Bytes} (h : ∀ line ∈ rest.head?, dropCR line = []) :
    headerSection (segments ++ rest) = headerSection segments := by
  induction segments with
  | nil =>
    cases rest with
    | nil => rfl
    | cons line rest => simp [headerSection, h line rfl]
  | cons line segments ih =>
    simp only [headerSection, cons_append, map_cons, takeWhile_cons]
    split
    · exact congrArg (_ :: ·) ih
    · rfl

private theorem scanHeaders_eq {segments : List Bytes} (h : ∀ l ∈ segments, l.length < maxTokenSize) :
    scanHeaders segments = .ok (entries segments) := by
  induction segments with
  | nil => rfl
  | cons line segments ih =>
    obtain ⟨hline, hrest⟩ := forall_mem_cons.mp h
    rw [scanHeaders, if_neg (Nat.not_le.mpr hline), ih hrest]
    by_cases hblank : dropCR line = []
    · simp [hblank, entries, headerSection]
    · cases hheader : parseHTTPHeader (dropCR line) with
      | none => simp [hblank, hheader, entries, headerSection]
      | some header => simp [hblank, hheader, entries, headerSection, Except.map]

theorem splitHTTPHeaderBlock_snd : (splitHTTPHeaderBlock data).2 = true ↔ ¬ Terminated data := by
  rw [Terminated, not_or, ← index_eq_none_iff, ← index_eq_none_iff, splitHTTPHeaderBlock]
  cases index (ascii "\r\n\r\n") data with
  | some idx => simp
  | none => cases index (ascii "\n\n") data <;> simp

private theorem lines_ne_nil {s : Bytes} (h : s ≠ []) : lines s ≠ [] := by
  intro hlines
  cases lines_append_nil s with
  | inl heq => exact splitOn_ne_nil lf s (heq.symm.trans hlines)
  | inr heq =>
    rw [hlines] at heq
    have hs := @List.intercalate_splitOn _ s _ _ lf
    rw [← heq] at hs
    exact h hs.symm

private theorem splitHTTPHeaderBlock_fst_ne_nil (h : data ≠ []) : (splitHTTPHeaderBlock data).1 ≠ [] := by
  obtain ⟨head, blank, after, -, -, -, hblock⟩ | ⟨-, hblock⟩ := splitHTTPHeaderBlock_cases data
  · rw [hblock]
    exact append_ne_nil_of_right_ne_nil head (cons_ne_nil lf [])
  · rwa [hblock]

/-- The parser reads the lines of the whole stream, if the scanner's buffer has room for those of
the header block. -/
theorem parseHTTP1Headers_eq (hne : data ≠ [])
    (hfit : ∀ l ∈ lines (splitHTTPHeaderBlock data).1, l.length < maxTokenSize) :
    parseHTTP1Headers data = parseSegments (splitHTTPHeaderBlock data).2 (data.splitOn lf) := by
  obtain ⟨rest, hsplit, hrest⟩ := exists_lines_headerBlock data
  obtain ⟨start, segments, hlines⟩ :=
    exists_cons_of_ne_nil (lines_ne_nil (splitHTTPHeaderBlock_fst_ne_nil hne))
  rw [hlines] at hfit hsplit
  obtain ⟨hstart, hsegments⟩ := forall_mem_cons.mp hfit
  have hscan : scan maxTokenSize (start :: segments) = .token (dropCR start) segments :=
    if_neg (Nat.not_le.mpr hstart)
  have hentries : entries (segments ++ rest) = entries segments :=
    congrArg (filterMap parseHTTPHeader) (headerSection_append hrest)
  rw [parseHTTP1Headers, hsplit, cons_append]
  simp only [hlines, hscan, scanHeaders_eq hsegments, parseSegments, hentries]
  rfl

/-- The lines of a header block fit if the stream does, or if the stream just fills the buffer and
has the end of the block. -/
theorem length_lt_of_mem_headerBlock {l : Bytes}
    (hl : l ∈ lines (splitHTTPHeaderBlock data).1) (hlen : data.length ≤ maxTokenSize)
    (hend : data.length < maxTokenSize ∨ Terminated data) : l.length < maxTokenSize := by
  obtain ⟨head, blank, after, -, -, hdata, hblock⟩ | ⟨hopen, hblock⟩ :=
    splitHTTPHeaderBlock_cases data
  · rw [hblock, lines_append_lf] at hl
    have hhead := (infix_of_mem_splitOn hl).length_le
    have htotal := congrArg length hdata
    simp only [length_append, length_cons] at htotal
    omega
  · rw [hblock] at hl
    have hmem : l ∈ data.splitOn lf := by
      cases lines_append_nil data with
      | inl heq => exact heq ▸ hl
      | inr heq => exact heq ▸ mem_append_left _ hl
    exact lt_of_le_of_lt (infix_of_mem_splitOn hmem).length_le (hend.resolve_right hopen)

end Spectra.Netproto
