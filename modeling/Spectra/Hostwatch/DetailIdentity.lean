import Spectra.Hostwatch.Detail
import Spectra.Hostwatch.Restart

/-! What a restart reads back from the key and the detail of a sustained alert is the process that
the alert was about. -/
namespace Spectra.Hostwatch
open List Library Pattern GoTime GoText

section

private theorem nonSpace_of_plain {x : Char} (h : isPlain x = true) : nonSpace x = true := by
  rw [nonSpace, decide_eq_true_eq]
  intro hmem
  simp only [mem_cons, not_mem_nil, or_false] at hmem
  rcases hmem with rfl | rfl | rfl | rfl | rfl <;> exact absurd h (by decide)

theorem nonSpace_stamp {s : Text} (h : Stamp s) : ∀ x ∈ s, nonSpace x = true :=
  fun x hx => nonSpace_of_plain (h.plain x hx)

end

section

variable (f : SustainedFinding) (rest : Text)

theorem sinceField_of_ne {x : Char} (h : x ≠ ' ') (s : Text) : sinceField (x :: s) = none :=
  lit_cons_of_ne h

private theorem sinceField_suffix {s t : Text} (hs : Stamp s) (ht : t <:+ s) :
    sinceField (t ++ ';' :: rest) = none := by
  cases t with
  | nil => exact sinceField_of_ne (by decide) rest
  | cons x t =>
    refine sinceField_of_ne (fun heq => ?_) _
    exact hs.not_mem (by decide) (heq ▸ ht.mem (.head _) : ' ' ∈ s)

private theorem sinceField_stamp {s : Text} (hs : Stamp s) : sinceField (' ' :: s ++ ';' :: rest) = none := by
  change lit "since ".toList (capture nonSpace ';') (s ++ ';' :: rest) = none
  cases s with
  | nil => exact lit_cons_of_ne (by decide)
  | cons x s =>
    refine lit_cons_of_ne fun heq => ?_
    exact hs.not_mem (by decide) (heq ▸ (.head _) : 's' ∈ x :: s)

private theorem many_since :
    many (· ≠ ';') sinceField (sinceText ++ (formatRFC3339 f.since ++ ';' :: rest)) = some (formatRFC3339 f.since) := by
  have hstamp := stamp_formatRFC3339 f.since
  have hfield : sinceField (sinceText ++ (formatRFC3339 f.since ++ ';' :: rest)) =
      some (formatRFC3339 f.since) := by
    exact capture_append (formatRFC3339_ne_nil _) (nonSpace_stamp hstamp)
      (hstamp.not_mem (by decide)) rest
  have hafter : many (· ≠ ';') sinceField
      ('s' :: 'i' :: 'n' :: 'c' :: 'e' :: ' ' :: formatRFC3339 f.since ++ ';' :: rest) = none := by
    refine many_append_cons (fun t ht => ?_) (by decide)
    simp only [suffix_cons_iff] at ht
    rcases ht with rfl | rfl | rfl | rfl | rfl | rfl | ht
    iterate 5 · exact sinceField_of_ne (by decide) _
    · exact sinceField_stamp rest hstamp
    · exact sinceField_suffix rest hstamp ht
  change (if (' ' ≠ ';' : Bool) then Option.or (many (· ≠ ';') sinceField
    ('s' :: 'i' :: 'n' :: 'c' :: 'e' :: ' ' :: formatRFC3339 f.since ++ ';' :: rest)) _ else _) = _
  rw [if_pos (by decide), hafter]
  exact hfield

theorem noSemi {u : Text} (h : ';' ∉ u) : ∀ x ∈ u, (x ≠ ';' : Bool) = true := by
  intro x hx
  rw [decide_eq_true_eq]
  exact fun heq => h (heq ▸ hx)

/-- What stands between the average and the time. -/
def loadMiddle : Text :=
  formatRounded f.avgCPU ++ (cpuText ++ formatDuration (roundTo f.duration minute))

private theorem semi_not_mem_loadMiddle : ';' ∉ loadMiddle f := by
  have hpct := (stamp_formatRounded f.avgCPU).not_mem (show isStamp ';' = false by decide)
  have hduration := (plain_formatDuration (roundTo f.duration minute)).not_mem
    (show isPlain ';' = false by decide)
  have hcpu : ';' ∉ cpuText := by decide
  exact not_mem_append hpct (not_mem_append hcpu hduration)

/-- The text from the average to the semicolon, and what follows. -/
def afterAverage : Text :=
  loadMiddle f ++ (sinceText ++ (formatRFC3339 f.since ++ ';' :: rest))

theorem many_afterAverage {lead : Text} (h : ';' ∉ lead) :
    many (· ≠ ';') sinceField (lead ++ afterAverage f rest) = some (formatRFC3339 f.since) :=
  many_append_of_all (noSemi h)
    (many_append_of_all (noSemi (semi_not_mem_loadMiddle f)) (many_since f rest))

theorem loadText_append :
    loadText f ++ ';' :: rest = (pidText ++ (itoa f.pid).toList) ++ (averagedText ++ afterAverage f rest) := by
  rw [loadText, afterAverage, loadMiddle]
  simp

private theorem semi_not_mem_lead {lead : Text} (h : ';' ∉ lead) :
    ';' ∉ lead ++ ((itoa f.pid).toList ++ averagedText) :=
  not_mem_append h
    (not_mem_append ((stamp_itoa f.pid).not_mem (by decide)) (by decide))

private theorem closed_sinceField (v : Text) : Closed (pidText ++ v) sinceField := by
  refine closed_lit (closed_capture rfl rfl) fun w' hw' hne => ?_
  change w' <:+ [' ', 's', 'i', 'n', 'c', 'e', ' '] at hw'
  simp only [suffix_cons_iff, suffix_nil] at hw'
  rcases hw' with rfl | rfl | rfl | rfl | rfl | rfl | rfl | rfl
  all_goals rfl

private theorem completed_since :
    Completed (· ≠ ';') (loadText f ++ ';' :: rest) (formatRFC3339 f.since) detailSinceRe := by
  have hload : ∀ lead : Text, ';' ∉ lead → many (· ≠ ';') sinceField
      (lead ++ ((itoa f.pid).toList ++ (averagedText ++ afterAverage f rest))) =
      some (formatRFC3339 f.since) := by
    intro lead h
    have hmany := many_afterAverage f rest (semi_not_mem_lead f h)
    rw [append_assoc, append_assoc] at hmany
    exact hmany
  rw [loadText_append]
  have hsemi : ';' ∉ averagedText := by decide
  refine completed_lit (completed_many (closed_sinceField _) (hload pidText (by decide)))
    (fun _ hc => decide_eq_true (ne_of_mem_of_not_mem hc hsemi)) fun w' hw' hne => ?_
  change w' <:+ [')', ' ', 'a', 'v', 'e', 'r', 'a', 'g', 'e', 'd', ' '] at hw'
  simp only [suffix_cons_iff, suffix_nil] at hw'
  rcases hw' with rfl | rfl | rfl | rfl | rfl | rfl | rfl | rfl | rfl | rfl | rfl | rfl
  any_goals exact .inl rfl
  · exact .inr (hload ['(', 'p', 'i', 'd', ' '] (by decide))
  · exact absurd rfl hne

private theorem detailSinceRe_eq_none {u : Text} (h : ∀ x ∈ u, (x ≠ ';' : Bool) = true) : detailSinceRe u = none := by
  refine lit_eq_none fun t ht => many_eq_none fun t' ht' => ?_
  refine lit_eq_none fun u hu => capture_eq_none fun hmem => ?_
  exact absurd (h ';' (ht.mem (ht'.mem (hu.mem hmem)))) (by decide)

private theorem find_since_loadText :
    find detailSinceRe (loadText f ++ ';' :: rest) = some (formatRFC3339 f.since) := by
  have hlead : ')' ∉ pidText ++ (itoa f.pid).toList :=
    not_mem_append (by decide) ((stamp_itoa f.pid).not_mem (by decide))
  have hhere : detailSinceRe (averagedText ++ afterAverage f rest) =
      some (formatRFC3339 f.since) := by
    exact many_afterAverage f rest not_mem_nil
  have hfind := find_of_match hhere
  rw [loadText_append]
  exact (find_lit_skip hlead _).trans hfind

end

section

theorem find_started_skip {u : Text} (h : '(' ∉ u) (v : Text) :
    find detailStartedRe (u ++ v) = find detailStartedRe v :=
  find_lit_skip h v

theorem find_started_eq_none {u : Text} (h : '(' ∉ u) : find detailStartedRe u = none :=
  find_lit_eq_none h

variable (f : SustainedFinding)

private theorem closed_pidText (v : Text) : Closed (pidText ++ v) detailStartedRe := by
  refine closed_lit (closed_capture rfl rfl) fun w' hw' hne => ?_
  change w' <:+ ['(', 's', 't', 'a', 'r', 't', 'e', 'd', ' '] at hw'
  simp only [suffix_cons_iff, suffix_nil] at hw'
  rcases hw' with rfl | rfl | rfl | rfl | rfl | rfl | rfl | rfl | rfl | rfl
  all_goals rfl

private theorem find_started_loadText : find detailStartedRe (loadText f) = none := by
  have hrest : '(' ∉ (itoa f.pid).toList ++ (averagedText ++ (formatRounded f.avgCPU ++
      (cpuText ++ (formatDuration (roundTo f.duration minute) ++
        (sinceText ++ formatRFC3339 f.since))))) := by
    refine not_mem_append ((stamp_itoa _).not_mem (by decide)) ?_
    refine not_mem_append (by decide) ?_
    refine not_mem_append ((stamp_formatRounded _).not_mem (by decide)) ?_
    refine not_mem_append (by decide) ?_
    refine not_mem_append ((plain_formatDuration _).not_mem (by decide)) ?_
    exact not_mem_append (by decide) ((stamp_formatRFC3339 _).not_mem (by decide))
  have hpid : ∀ v, find detailStartedRe v = none → find detailStartedRe (pidText ++ v) = none := by
    intro v hv
    refine (find_skip fun t ht hne => ?_).trans hv
    change t <:+ [' ', '(', 'p', 'i', 'd', ' '] at ht
    simp only [suffix_cons_iff, suffix_nil] at ht
    rcases ht with rfl | rfl | rfl | rfl | rfl | rfl | rfl
    any_goals rfl
    exact absurd rfl hne
  exact hpid _ (find_started_eq_none hrest)

private theorem find_started_first (name : Text) :
    find detailStartedRe (name ++ loadText f) = find detailStartedRe name := by
  have hclosed : Closed (loadText f) detailStartedRe := closed_pidText _
  rw [find_append_of_closed rfl hclosed, find_started_loadText, Option.or_none]

private theorem find_started_up (now : ℤ) :
    find detailStartedRe (upDescription f now) = f.started.map formatRFC3339 := by
  have hup : '(' ∉ upText ++ formatDuration (roundTo (sub now (timeOf f.started)) minute) :=
    not_mem_append (by decide) ((plain_formatDuration _).not_mem (by decide))
  rw [upDescription]
  cases hstarted : f.started with
  | none =>
    rw [hstarted] at hup
    exact find_started_eq_none hup
  | some started =>
    rw [hstarted] at hup
    have hstamp := stamp_formatRFC3339 started
    have hhere : detailStartedRe (startedText ++ (formatRFC3339 started ++ [')'])) =
        some (formatRFC3339 started) := by
      rw [detailStartedRe, lit_append]
      exact capture_append (formatRFC3339_ne_nil _) (nonSpace_stamp hstamp)
        (hstamp.not_mem (by decide)) []
    rw [find_started_skip hup, ← singleton_append, find_started_skip (by decide)]
    exact find_of_match hhere

private theorem find_started_hint (name : String) :
    find detailStartedRe (hintText ++ (offenderHint name).toList) = none := by
  rw [offenderHint]
  split
  · rw [unifiedLogHint, String.toList_ofList]
    decide +kernel
  · split
    · rw [spotlightHint, String.toList_ofList]
      decide +kernel
    · rfl

private theorem find_started_next (os : Os) (note : Text) (h : '(' ∉ note) :
    find detailStartedRe (nextText ++ suggestNextCommand os f.pid ++ note) = none := by
  have hpid : '(' ∉ (itoa f.pid).toList := (stamp_itoa _).not_mem (by decide)
  refine find_started_eq_none (not_mem_append (not_mem_append (by decide) ?_) h)
  rw [suggestNextCommand]
  split
  · exact not_mem_append (not_mem_append (by decide) hpid) (by decide)
  · exact not_mem_append (by decide) hpid

theorem intercalate_append (sep : Text) (parts : List Text) (last note : Text) :
    sep.intercalate (parts ++ [last]) ++ note = sep.intercalate (parts ++ [last ++ note]) := by
  induction parts with
  | nil => simp
  | cons part parts ih =>
    have hne : ∀ x : Text, parts ++ [x] ≠ [] := fun x => by simp
    rw [cons_append, cons_append, intercalate_cons_of_ne_nil (hne _),
      intercalate_cons_of_ne_nil (hne _), append_assoc (part ++ sep), ih]

variable (now : ℤ) (chain : List ChainLink) (os : Os) (summary note : String)

theorem sustainedDetail_append :
    (sustainedDetail f now chain os summary ++ note).toList =
      partSep.intercalate (frontParts f now chain summary ++
        [nextText ++ suggestNextCommand os f.pid ++ note.toList]) := by
  rw [String.toList_append, sustainedDetail, String.toList_ofList, ← intercalate_append]
  rfl

/-- The first text after `(started ` in a detail. -/
theorem find_started (h : '(' ∉ note.toList) :
    find detailStartedRe (sustainedDetail f now chain os summary ++ note).toList =
      (find detailStartedRe f.name.toList).or ((f.started.map formatRFC3339).or
        ((find detailStartedRe (formatChain chain)).or (find detailStartedRe summary.toList))) := by
  have hchain : (if chain = [] then [] else [ownerChainText ++ formatChain chain]).findSome?
      (find detailStartedRe) = find detailStartedRe (formatChain chain) := by
    split
    · rename_i hnil
      rw [hnil]
      rfl
    · rw [findSome?_singleton, find_started_skip (by decide)]
  have hhint : (if offenderHint f.name = "" then [] else
      [hintText ++ (offenderHint f.name).toList]).findSome? (find detailStartedRe) = none := by
    split
    · rfl
    · rw [findSome?_singleton, find_started_hint]
  have hsummary : (if summary = "" then [] else [summary.toList]).findSome?
      (find detailStartedRe) = find detailStartedRe summary.toList := by
    split
    · rename_i hnil
      rw [hnil]
      rfl
    · rw [findSome?_singleton]
  rw [sustainedDetail_append, find_intercalate rfl (fun _ => closed_lit_cons (closed_capture rfl rfl) (by decide))
    (find_started_skip (by decide)), frontParts, findSome?_append,
    findSome?_singleton, find_started_next f os _ h, Option.or_none,
    findSome?_cons_or, findSome?_cons_or, findSome?_append, findSome?_append, hchain, hhint, hsummary,
    find_started_first, find_started_up, Option.or_none]

end

variable (other : Text → Option ℤ) (f : SustainedFinding) (now : ℤ) (chain : List ChainLink)
  (os : Os) (summary : String)

/-- The detail of an alert, with or without the note on a failing probe. -/
def writtenDetail (noted : Bool) : String :=
  sustainedDetail f now chain os summary ++ (if noted then probeUnavailableNote else "")

/-- The first text in the form of a start time that is not the process's own: one in its name, and
where it has no start time one in its owner chain or its sample. -/
def startedMention : Option Text :=
  (find detailStartedRe f.name.toList).or (if f.started = none then
    (find detailStartedRe (formatChain chain)).or (find detailStartedRe summary.toList) else none)

private theorem timeOf_restoredTime (s : Text) : timeOf (restoredTime other s) = timeOf (parseTime other s) := by
  rw [restoredTime]
  cases parseTime other s with
  | none => rfl
  | some t =>
    by_cases h : t = zeroTime
    · rw [h]
      rfl
    · rw [Option.filter_some, if_pos (decide_eq_true h)]

theorem timeOf_restored_format {t : ℤ} (h : Representable t) :
    timeOf (restoredTime other (formatRFC3339 t)) = truncSecond t := by
  rw [timeOf_restoredTime, parseTime, parse_format h]
  rfl

variable (noted : Bool)

private theorem note_no_paren : '(' ∉ (if noted then probeUnavailableNote else "").toList := by
  cases noted with
  | false => decide
  | true =>
    rw [if_pos rfl, probeUnavailableNote, String.toList_ofList]
    decide +kernel

theorem restored_since :
    (parseRestoredIdent other (writtenDetail f now chain os summary noted)).since =
      restoredTime other ((find detailSinceRe f.name.toList).getD (formatRFC3339 f.since)) := by
  have hfirst : ∃ rest, (writtenDetail f now chain os summary noted).toList =
      f.name.toList ++ (loadText f ++ ';' :: rest) := by
    rw [writtenDetail, sustainedDetail_append, frontParts]
    rw [cons_append, cons_append, intercalate_cons_cons, append_assoc, append_assoc]
    exact ⟨_, rfl⟩
  obtain ⟨rest, hrest⟩ := hfirst
  rw [parseRestoredIdent, hrest, find_completed (fun _ => detailSinceRe_eq_none) (completed_since f rest)
    (find_since_loadText f rest)]
  rfl

private theorem restored_since_iff (h : Representable f.since) :
    timeOf (parseRestoredIdent other (writtenDetail f now chain os summary noted)).since =
        truncSecond f.since ↔
      ∀ x ∈ find detailSinceRe f.name.toList, timeOf (restoredTime other x) = truncSecond f.since := by
  rw [restored_since]
  cases find detailSinceRe f.name.toList with
  | none => simpa using timeOf_restored_format other h
  | some x => simp

private theorem restored_started_iff (h : ∀ s ∈ f.started, Representable s) :
    timeOf (parseRestoredIdent other (writtenDetail f now chain os summary noted)).started =
        truncSecond (timeOf f.started) ↔
      ∀ x ∈ startedMention f chain summary, timeOf (restoredTime other x) = truncSecond (timeOf f.started) := by
  rw [parseRestoredIdent, writtenDetail, find_started f now chain os summary _ (note_no_paren noted), startedMention]
  cases find detailStartedRe f.name.toList with
  | some x => simp
  | none =>
    cases hstarted : f.started with
    | none =>
      cases (find detailStartedRe (formatChain chain)).or (find detailStartedRe summary.toList) with
      | none =>
        have hzero : truncSecond zeroTime = zeroTime := rfl
        simp [timeOf, hzero]
      | some x => simp
    | some s =>
      have hparse : timeOf (restoredTime other (formatRFC3339 s)) = truncSecond (timeOf (some s)) :=
        timeOf_restored_format other (h s hstarted)
      simpa using hparse

/-- What a restart reads from the key and the detail of a sustained alert is its process, exactly
if no text that was put into the detail passes for another time. -/
theorem sustained_identity_iff (noted : Bool) (hmin : -2 ^ 63 ≤ f.pid) (hmax : f.pid < 2 ^ 63)
    (hsince : Representable f.since) (hstarted : ∀ s ∈ f.started, Representable s) :
    (SustainedState.keyIdent (sustainedKey f) = some (GoPath.base f.name, f.pid) ∧
      timeOf (parseRestoredIdent other (writtenDetail f now chain os summary noted)).since =
        truncSecond f.since ∧
      timeOf (parseRestoredIdent other (writtenDetail f now chain os summary noted)).started =
        truncSecond (timeOf f.started)) ↔
    (∀ x ∈ find detailSinceRe f.name.toList, timeOf (restoredTime other x) = truncSecond f.since) ∧
      ∀ x ∈ startedMention f chain summary, timeOf (restoredTime other x) = truncSecond (timeOf f.started) := by
  rw [restored_since_iff other f now chain os summary noted hsince,
    restored_started_iff other f now chain os summary noted hstarted]
  exact and_iff_right (SustainedState.keyIdent_sustainedKey hmin hmax)

/-- A finding on a process of some name, since 14 November 2023. -/
def busyProcess (name : String) : SustainedFinding where
  pid := 412
  name := name
  started := some (1699990000 * second)
  since := 1700000000 * second
  duration := 1200 * second
  avgCPU := 90
  fraction := 1

theorem sustained_identity_iff_logd :
    find detailSinceRe "/usr/libexec/logd".toList = none ∧
      SustainedState.keyIdent (sustainedKey (busyProcess "/usr/libexec/logd")) =
        some ("logd", 412) ∧
      timeOf (parseRestoredIdent (fun _ => none) (writtenDetail (busyProcess "/usr/libexec/logd")
        (1700001200 * second) [⟨1, "launchd"⟩] .darwin "" true)).since = 1700000000 * second := by
  have hident := (sustained_identity_iff (fun _ => none) (busyProcess "/usr/libexec/logd")
    (1700001200 * second) [⟨1, "launchd"⟩] .darwin "" true (by decide) (by decide)
    (by decide +kernel) (by decide +kernel)).mpr ⟨by decide +kernel, by decide +kernel⟩
  exact ⟨by decide +kernel, hident.1.trans (by decide +kernel), hident.2.1.trans (by decide)⟩

/-- A name with the text of another time in it: the alert is read back with that time. -/
theorem sustained_identity_lost :
    timeOf (parseRestoredIdent (fun _ => none)
        (writtenDetail (busyProcess "x) averaged 9% CPU since 2001-01-01T00:00:00Z; y")
          (1700001200 * second) [] .darwin "" false)).since = 978307200 * second ∧
      truncSecond (busyProcess "x) averaged 9% CPU since 2001-01-01T00:00:00Z; y").since = 1700000000 * second := by
  rw [restored_since, busyProcess, String.toList_ofList]
  decide +kernel

end Spectra.Hostwatch
