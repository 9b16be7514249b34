import Spectra.Hostwatch.SustainedRuns

/-! When the tracker reports a process it had not reported before, and on which readings. -/
namespace Spectra.Hostwatch
open Library List
namespace SustainedTracker
variable {cfg : SustainedConfig} {ops : List TrackerOp} {log : TrackerLog} {now : ℤ} {pid : ℤ}

/-- Readings that show sustained load of the reported process over the whole window. -/
structure Evidence (cfg : SustainedConfig) (ops : List TrackerOp) (now : ℤ) (f : SustainedFinding)
    (points : List CpuPoint) : Prop where
  real : ∀ q ∈ points, Reading cfg ops f.pid f.started q
  covers : ∃ q rest, points = q :: rest ∧ q.time ≤ now - cfg.window ∧ ∀ r ∈ rest, q.time ≤ r.time
  close : points.IsChain fun a b => a.time ≤ b.time ∧ b.time - a.time ≤ 8 * cfg.interval
  fresh : ∀ q, points.getLast? = some q → q.time ≤ now ∧ now - q.time ≤ 8 * cfg.interval
  share : cfg.minFraction ≤ (busyReadings cfg (windowReadings cfg now points) : ℚ) /
    (windowReadings cfg now points).length
  enough : max 3 ((cfg.window.tdiv (4 * cfg.interval)).tdiv 2) ≤
    busyReadings cfg (windowReadings cfg now points)

/-- An entry that is not sustained yet has a reading that is not stale. -/
def FreshEntry (cfg : SustainedConfig) (now : ℤ) (e : SustainedEntry) : Prop :=
  e.since = none → ∀ q, e.points.getLast? = some q → now - q.time ≤ 8 * cfg.interval

/-- A process listed without a reading is already reported, or has a recent one. -/
def SkipFresh (now : ℤ) (procs : List ProcObs) (t : SustainedTracker) : Prop :=
  ∀ p ∈ procs, p.skip = true → ForEntry (FreshEntry t.cfg now) t.entries[p.pid]?

theorem trimPoints_snoc_getLast? (cutoff : ℤ) (points : List CpuPoint) (q : CpuPoint) :
    (trimPoints cutoff (points ++ [q])).getLast? = some q := by
  rw [trimPoints_getLast?, getLast?_concat]

variable {p : ProcObs}

theorem freshEntry_recordInto (hI : 0 < cfg.interval) {e : SustainedEntry} :
    ForEntry (FreshEntry cfg now) (recordInto cfg now p e) := by
  intro e' he _ q hq
  rw [recordInto_some he] at hq
  simp only [appended, trimPoints_snoc_getLast?, Option.some.injEq] at hq
  rw [← hq]
  dsimp only
  omega

theorem freshEntry_record (hI : 0 < cfg.interval) (o : Option SustainedEntry) :
    ForEntry (FreshEntry cfg now) (record cfg now p o) := by
  cases o with
  | some e => exact freshEntry_recordInto hI
  | none =>
    unfold record
    dsimp only
    split
    · exact freshEntry_recordInto hI
    · intro e he
      cases he

variable {o : Option SustainedEntry}

theorem dropIfReused_keeps {e' : SustainedEntry} (h : dropIfReused p o = some e') :
    ∃ e, o = some e ∧ e'.points = e.points ∧ e'.since = e.since ∧ e'.lastGood = e.lastGood ∧ e'.name = e.name := by
  obtain ⟨e, rfl, ⟨-, rfl⟩ | ⟨-, -, rfl⟩⟩ := dropIfReused_some h
  · exact ⟨e, rfl, rfl, rfl, rfl, rfl⟩
  · exact ⟨e', rfl, rfl, rfl, rfl, rfl⟩

theorem freshEntry_observeEntry (hI : 0 < cfg.interval) (h : p.skip = false ∨ ForEntry (FreshEntry cfg now) o) :
    ForEntry (FreshEntry cfg now) (observeEntry cfg now o p) := by
  rw [observeEntry]
  cases hs : p.skip with
  | false => exact freshEntry_record hI _
  | true =>
    intro e' he
    obtain ⟨e, rfl, hp, hsince, -⟩ := dropIfReused_keeps he
    have hfresh := (h.resolve_left (by simp [hs])) e rfl
    intro hnone q hq
    exact hfresh (hsince ▸ hnone) q (hp ▸ hq)

theorem freshEntry_foldl (hI : 0 < cfg.interval) {ps : List ProcObs}
    (h : (∃ p ∈ ps, p.skip = false) ∨ ForEntry (FreshEntry cfg now) o) :
    ForEntry (FreshEntry cfg now) (ps.foldl (observeEntry cfg now) o) := by
  induction ps generalizing o with
  | nil => exact h.resolve_left (by simp)
  | cons p ps ih =>
    apply ih
    rcases h with ⟨p', hp', hskip⟩ | h
    · rcases mem_cons.mp hp' with rfl | hp'
      · exact .inr (freshEntry_observeEntry hI (.inl hskip))
      · exact .inl ⟨p', hp', hskip⟩
    · exact .inr (freshEntry_observeEntry hI (.inr h))

/-- Before `evaluate`, what is not sustained yet has a recent reading. -/
theorem freshEntry_recorded {t : SustainedTracker} {procs : List ProcObs}
    (hI : 0 < t.cfg.interval) (hskip : SkipFresh now procs t) (pid : ℤ) :
    ForEntry (FreshEntry t.cfg now) (recorded t.cfg (isGap now t) now (listings t.cfg procs pid) t.entries[pid]?) := by
  rw [recorded]
  split
  · intro e he
    cases he
  · rename_i hne
    apply freshEntry_foldl hI
    obtain ⟨p, hp⟩ := exists_mem_of_ne_nil _ hne
    cases hs : p.skip with
    | false => exact .inl ⟨p, hp, hs⟩
    | true =>
      obtain ⟨hmem, -, hpid⟩ := mem_listings.mp hp
      have hentry := hskip p hmem hs
      rw [hpid] at hentry
      right
      split
      · intro e he hnone
        obtain ⟨d, -, hd⟩ := Option.bind_eq_some_iff.mp he
        obtain ⟨rfl, hsome⟩ := resetEntry_some hd
        exact absurd hnone hsome
      · exact hentry

section
variable {e : SustainedEntry} (h : EntryInv cfg ops log (some now) pid e)
include h

theorem evidence_of_since (hI : 0 < cfg.interval) {f : SustainedFinding}
    (hf : (evaluateEntry cfg now pid e).2 = some f) (hsince : e.since = none)
    (hfresh : FreshEntry cfg now e) : Evidence cfg ops now f (evaluated cfg now e) := by
  obtain ⟨hpid, -, hstarted, hup, -⟩ := evaluateEntry_finding hf
  rw [hsince] at hup
  simp only [updateSince] at hup
  split at hup
  case isFalse => cases hup
  case isTrue hc =>
    obtain ⟨hcov, hshare, hcount⟩ := hc
    have htrim := h.trimPoints (now - cfg.window)
    constructor
    · rw [hpid, hstarted]
      exact htrim.real
    · cases hev : evaluated cfg now e with
      | nil => simp [hev] at hcov
      | cons q rest =>
        have hs : (q :: rest).Pairwise fun a b => a.time ≤ b.time := hev ▸ htrim.sorted
        refine ⟨q, rest, rfl, ?_, (pairwise_cons.mp hs).1⟩
        simp only [hev, head?_cons, Option.any_some, decide_eq_true_eq] at hcov
        omega
    · have hs := htrim.sorted.isChain
      exact isChain_iff_forall_rel_of_append_cons_cons.mpr fun a b l₁ l₂ hl =>
        ⟨isChain_iff_forall_rel_of_append_cons_cons.mp hs hl,
          isChain_iff_forall_rel_of_append_cons_cons.mp (htrim.close hI) hl⟩
    · intro q hq
      rw [evaluated, trimPoints_getLast?] at hq
      exact ⟨h.upto_now (mem_of_getLast? hq), hfresh hsince q hq⟩
    · rw [windowReadings_evaluated h, ← inside_eq h, busyReadings_inside h]
      exact hshare
    · rw [windowReadings_evaluated h, ← inside_eq h, busyReadings_inside h]
      refine le_trans ?_ hcount
      simp only [SustainedConfig.minAbovePoints, SustainedConfig.capacity]
      split <;> omega

end

/-- A process that is reported for the first time is reported on evidence of load over the
whole window, if every process listed without a reading has a recent one. -/
theorem observe_firing_sound (hI : 0 < cfg.interval) (ops : List TrackerOp) (now : ℤ)
    (procs : List ProcObs) (hskip : SkipFresh now procs (run ops (new cfg)).1)
    (f : SustainedFinding) (hf : f ∈ (observe now procs (run ops (new cfg)).1).2)
    (hnew : ¬ Known (run ops (new cfg)).2 f.pid f.name f.started f.since) :
    ∃ e, (observe now procs (run ops (new cfg)).1).1.entries[f.pid]? = some e ∧
      Evidence cfg (ops ++ [.observe now procs]) now f e.points := by
  have hinv := trackerInv_new cfg ops
  have hops := run_ops ops (new cfg)
  generalize (run ops (new cfg)).1 = t at *
  obtain ⟨e, hr, hev⟩ := mem_observe.mp hf
  have hfresh := freshEntry_recorded (hinv.1 ▸ hI) hskip f.pid e hr
  have hentry := observe_of_recorded hr
  have he := entryInv_recorded hinv now procs f.pid
  obtain ⟨rfl, -⟩ := hinv
  have he := he e hr
  rw [hops] at he
  obtain ⟨-, hname, hstarted, hup, hpost⟩ := evaluateEntry_finding hev
  refine ⟨_, hentry.trans hpost, evidence_of_since he hI hev ?_ hfresh⟩
  cases hs : e.since with
  | none => rfl
  | some s =>
    rw [hs] at hup
    refine absurd (he.known s hs) ?_
    rwa [← hname, ← hstarted, ← updateSince_some hup]

/-- The default configuration of a service that samples every fifteen seconds. -/
def defaultWatch : SustainedConfig :=
  { defaultSustainedConfig with interval := 15 * second, maxGap := 180 * second }

/-- The snapshot of one busy process, with or without a reading. -/
def busyProc (skip : Bool) : List ProcObs := [⟨42, 1, "yes", 100, 0, skip⟩]

def busyMinutes (skip : Bool) (first count : ℕ) : List TrackerOp :=
  (List.range' first count).map fun i => .observe (60 * i * second) (busyProc skip)

def busyFinding (duration : ℤ) : SustainedFinding :=
  ⟨42, "yes", some 0, 0, duration * second, 100, 1⟩

theorem observe_firing_sound_busy :
    ∃ e, (observe (900 * second) (busyProc false)
        (run (busyMinutes false 0 15) (new defaultWatch)).1).1.entries[(42 : ℤ)]? = some e ∧
      Evidence defaultWatch (busyMinutes false 0 15 ++ [.observe (900 * second) (busyProc false)])
        (900 * second) (busyFinding 900) e.points := by
  refine observe_firing_sound (by decide) _ _ _ ?_ (busyFinding 900) (by decide +kernel) ?_
  · simp [SkipFresh, busyProc]
  · exact not_known (by decide +kernel) (by simp [busyMinutes])

/-- Readings for twelve minutes and then three ticks without one: the process is reported
although its newest reading is three minutes old. -/
theorem observe_firing_stale :
    ¬ ∀ (cfg : SustainedConfig) (ops : List TrackerOp) (now : ℤ) (procs : List ProcObs)
      (f : SustainedFinding), 0 < cfg.interval →
      f ∈ (observe now procs (run ops (new cfg)).1).2 →
      ¬ Known (run ops (new cfg)).2 f.pid f.name f.started f.since →
      ∃ e, (observe now procs (run ops (new cfg)).1).1.entries[f.pid]? = some e ∧
        Evidence cfg (ops ++ [.observe now procs]) now f e.points := by
  intro h
  obtain ⟨e, he, hev⟩ := h defaultWatch (busyMinutes false 0 13 ++ busyMinutes true 13 2)
    (900 * second) (busyProc true) (busyFinding 900) (by decide) (by decide +kernel)
    (not_known (by decide +kernel) (by simp [busyMinutes]))
  have hnewest : ((observe (900 * second) (busyProc true)
      (run (busyMinutes false 0 13 ++ busyMinutes true 13 2) (new defaultWatch)).1).1.entries[
        (busyFinding 900).pid]?.bind fun e => e.points.getLast?) =
      some ⟨720 * second, true, 100⟩ := by
    decide +kernel
  rw [he] at hnewest
  have hage := (hev.fresh _ hnewest).2
  revert hage
  decide

end SustainedTracker
end Spectra.Hostwatch
