import Spectra.Hostwatch.SustainedFiring

/-! A process once reported or registered stays reported. -/
namespace Spectra.Hostwatch
open Library List
namespace SustainedTracker

/-- The observation is one of the process the entry describes. -/
def SameProcess (e : SustainedEntry) (p : ProcObs) : Prop :=
  sameStart e.started p.started = true ∧
    (e.adopt = true → GoPath.base p.name = GoPath.base e.name)

/-- The readings since the last gap, `Seed` or stale run, with the one of this observation. -/
def freshReadings (now : ℤ) (e : SustainedEntry) (p : ProcObs) (t : SustainedTracker) :
    List CpuPoint :=
  let e := if isGap now t then { e with points := [] } else e
  if p.skip then e.points else appended t.cfg now p e

def Aged (cfg : SustainedConfig) (now : ℤ) (e : SustainedEntry) (p : ProcObs) : Prop :=
  cfg.window ≤ now - if p.skip then e.lastGood else now

/-- Enough readings inside the window, fewer than half of them busy, the last two not. -/
def Disproved (cfg : SustainedConfig) (now : ℤ) (points : List CpuPoint) : Prop :=
  let readings := windowReadings cfg now points
  cfg.minClearPoints ≤ readings.length ∧ 2 * busyReadings cfg readings < readings.length ∧
    ∀ q ∈ readings.drop (readings.length - 2), q.cpu < cfg.cpuPct

instance (e : SustainedEntry) (p : ProcObs) : Decidable (SameProcess e p) :=
  inferInstanceAs (Decidable (_ ∧ _))

instance (cfg : SustainedConfig) (now : ℤ) (e : SustainedEntry) (p : ProcObs) :
    Decidable (Aged cfg now e p) :=
  inferInstanceAs (Decidable (_ ≤ _))

instance (cfg : SustainedConfig) (now : ℤ) (points : List CpuPoint) :
    Decidable (Disproved cfg now points) :=
  inferInstanceAs (Decidable (_ ∧ _ ∧ _))

/-- The call neither ends the finding of the PID nor replaces it. -/
def Continues (pid : ℤ) (op : TrackerOp) (t : SustainedTracker) : Prop :=
  match op with
  | .observe now procs =>
    ∃ p, listings t.cfg procs pid = [p] ∧ ∀ e, t.entries[pid]? = some e →
      SameProcess e p ∧ ¬ Aged t.cfg now e p ∧ ¬ Disproved t.cfg now (freshReadings now e p t)
  | .seed _ pid' _ _ _ => pid' ≠ pid

def ContinuesAll (pid : ℤ) : List TrackerOp → SustainedTracker → Prop
  | [], _ => True
  | op :: ops, t => Continues pid op t ∧ ContinuesAll pid ops (step op t).1

/-- The call reports the PID as sustained since this time, or registers it so. -/
def Registers (pid since : ℤ) (op : TrackerOp) (t : SustainedTracker) : Prop :=
  match op with
  | .observe now procs => ∃ f ∈ (observe now procs t).2, f.pid = pid ∧ f.since = since
  | .seed _ pid' _ since' _ => pid' = pid ∧ since' = some since

/-- The observation reads the process, or an earlier one did since the last gap or `Seed`. -/
def HasReading (now : ℤ) (procs : List ProcObs) (pid : ℤ) (t : SustainedTracker) : Prop :=
  (∃ p ∈ listings t.cfg procs pid, p.skip = false) ∨
    isGap now t = false ∧ ∃ e, t.entries[pid]? = some e ∧ e.points ≠ []

variable {cfg : SustainedConfig} {ops : List TrackerOp} {log : TrackerLog} {now : ℤ} {pid : ℤ}
  {e : SustainedEntry} {p : ProcObs} {s : ℤ}

/-- The entry after an observation of its process, which it now knows by its start. -/
structure Follows (e : SustainedEntry) (p : ProcObs) (e' : SustainedEntry) : Prop where
  name : e'.name = e.name
  adopt : e'.adopt = false
  started : e'.started = if e.adopt then some p.started else e.started

theorem dropIfReused_same (h : SameProcess e p) :
    ∃ e', dropIfReused p (some e) = some e' ∧ e'.points = e.points ∧ e'.since = e.since ∧
      e'.lastGood = e.lastGood ∧ Follows e p e' := by
  obtain ⟨hstart, hname⟩ := h
  unfold dropIfReused
  dsimp only
  cases ha : e.adopt with
  | true =>
    rw [if_pos ⟨rfl, hname ha, .inr hstart⟩]
    exact ⟨_, rfl, rfl, rfl, rfl, rfl, rfl, by simp [ha]⟩
  | false =>
    rw [if_neg (by simp), if_neg (by simp [hstart])]
    exact ⟨_, rfl, rfl, rfl, rfl, rfl, ha, by simp [ha]⟩

theorem two_le_minClearPoints (cfg : SustainedConfig) : 2 ≤ cfg.minClearPoints := by
  unfold SustainedConfig.minClearPoints
  dsimp only
  split <;> omega

section
variable (h : EntryInv cfg ops log (some now) pid e)
include h

theorem above_iff {q : CpuPoint} (hq : q ∈ windowReadings cfg now e.points) : q.above = true ↔ cfg.cpuPct ≤ q.cpu := by
  obtain ⟨procs, -, p, -, -, -, -, hcpu, habove⟩ := h.real q (mem_of_mem_filter hq)
  rw [hcpu, habove, decide_eq_true_eq]

theorem disproved_of_deleted (hnone : anyAbove (windowReadings cfg now e.points) = false)
    (hlen : cfg.minClearPoints ≤ (windowReadings cfg now e.points).length) : Disproved cfg now e.points := by
  have hbelow : ∀ q ∈ windowReadings cfg now e.points, q.cpu < cfg.cpuPct := by
    intro q hq
    have hq' : q.above ≠ true := any_eq_false.mp hnone q hq
    rw [ne_eq, above_iff h hq, not_le] at hq'
    exact hq'
  have hzero : busyReadings cfg (windowReadings cfg now e.points) = 0 :=
    countP_eq_zero.mpr fun q hq => by simpa using hbelow q hq
  refine ⟨hlen, ?_, fun q hq => hbelow q (mem_of_mem_drop hq)⟩
  have := two_le_minClearPoints cfg
  omega

theorem updateSince_of_not_disproved (hd : ¬ Disproved cfg now e.points) :
    updateSince cfg now (evaluated cfg now e) (inside cfg now e) (some s) = some s := by
  refine if_neg fun hc => hd ?_
  obtain ⟨hfrac, hlen, hlast⟩ := hc
  have hbusy := busyReadings_inside h
  rw [inside_eq h] at *
  refine ⟨hlen, ?_, ?_⟩
  · have hpos : (0 : ℚ) < (windowReadings cfg now e.points).length := by
      have := two_le_minClearPoints cfg
      exact_mod_cast (by omega : (0 : ℤ) < (windowReadings cfg now e.points).length)
    simp only [summarize, sustainedClearFraction] at hfrac
    rw [div_lt_iff₀ hpos] at hfrac
    rw [hbusy]
    have : (2 * countAbove (windowReadings cfg now e.points) : ℚ) <
        (windowReadings cfg now e.points).length := by linarith
    exact_mod_cast this
  · intro q hq
    simp only [lastBelow, Bool.and_eq_true, Bool.not_eq_true'] at hlast
    have hq' : q.above ≠ true := any_eq_false.mp hlast.2 q hq
    rw [ne_eq, above_iff h (mem_of_mem_drop hq), not_le] at hq'
    exact hq'

end

theorem inside_ne_nil_iff (h : EntryInv cfg ops log (some now) pid e)
    (hage : now - e.lastGood < cfg.window) : inside cfg now e ≠ [] ↔ e.points ≠ [] := by
  rw [inside_eq h]
  constructor
  · intro hne hnil
    exact hne (by simp [hnil, windowReadings])
  · intro hne
    have hlast := getLast?_eq_some_getLast hne
    refine ne_nil_of_mem (a := e.points.getLast hne) (mem_filter.mpr ?_)
    have hgood := h.good _ hlast
    have hnow := h.upto_now (getLast_mem hne)
    refine ⟨getLast_mem hne, ?_⟩
    simp only [decide_eq_true_eq]
    omega

/-- The entry the observation of a sustained process starts from. -/
def restarted (now : ℤ) (e : SustainedEntry) (t : SustainedTracker) : SustainedEntry :=
  if isGap now t then { e with points := [] } else e

variable {t : SustainedTracker}

theorem restarted_eq (now : ℤ) (e : SustainedEntry) (t : SustainedTracker) :
    restarted now e t = { e with points := if isGap now t then [] else e.points } := by
  rw [restarted]
  split <;> rfl

theorem carried_eq (now : ℤ) (he : t.entries[pid]? = some e) (hs : e.since = some s) :
    carried now t pid = some (restarted now e t) := by
  rw [carried, restarted, he]
  split
  · simp [resetEntry, hs]
  · rfl

theorem Disproved.congr {points points' : List CpuPoint} (h : Disproved cfg now points')
    (heq : windowReadings cfg now points' = windowReadings cfg now points) : Disproved cfg now points := by
  unfold Disproved at *
  rwa [heq] at h

theorem recordInto_of_not_disproved (h : EntryInv cfg ops log (some now) pid
      { e with points := appended cfg now p e, lastGood := now }) (hs : e.since = some s)
    (hd : ¬ Disproved cfg now (appended cfg now p e)) :
    recordInto cfg now p e =
      some { e with points := trimPoints (now - cfg.window) (appended cfg now p e),
                    lastGood := now } := by
  have hinside : inWindow (now - cfg.window) (trimPoints (now - cfg.window) (appended cfg now p e)) =
      windowReadings cfg now (appended cfg now p e) := inside_eq h
  refine if_neg fun hc => hd ?_
  rw [hinside] at hc
  simp only [hs, Option.isSome_some, Bool.true_and, Bool.and_eq_true, Bool.not_eq_true',
    decide_eq_false_iff_not, not_lt] at hc
  exact disproved_of_deleted h hc.1 hc.2

variable {procs : List ProcObs}

/-- One observation of a sustained process up to `evaluate`. -/
theorem recorded_continues (h : TrackerInv t.cfg log t) (he : t.entries[pid]? = some e)
    (hs : e.since = some s) (hl : listings t.cfg procs pid = [p]) (hsame : SameProcess e p)
    (hd : ¬ Disproved t.cfg now (freshReadings now e p t)) :
    ∃ e', recorded t.cfg (isGap now t) now (listings t.cfg procs pid) t.entries[pid]? = some e' ∧
      e'.since = some s ∧ e'.lastGood = (if p.skip then e.lastGood else now) ∧ Follows e p e' ∧
      ¬ Disproved t.cfg now e'.points ∧ (e'.points ≠ [] ↔ HasReading now procs pid t) := by
  have hcarried := carried_eq now he hs
  change ¬ Disproved t.cfg now (if p.skip then (restarted now e t).points
    else appended t.cfg now p (restarted now e t)) at hd
  rw [restarted_eq] at hcarried hd
  have hinv := entryInv_carried h now procs pid _ hcarried
  obtain ⟨hmem, -, hpid⟩ := mem_listings.mp (hl ▸ mem_singleton_self p)
  obtain ⟨d, hdrop, hpoints, hsince, hgood, ⟨hname, hadopt', hstarted⟩⟩ :=
    dropIfReused_same (e := { e with points := if isGap now t then [] else e.points }) hsame
  have hfollows : Follows e p d := ⟨hname, hadopt', hstarted⟩
  obtain ⟨hdinv, hadopt, hstart⟩ := hinv.dropIfReused hdrop
  replace hsince : d.since = some s := hsince.trans hs
  have hrec : recorded t.cfg (isGap now t) now (listings t.cfg procs pid) t.entries[pid]? =
      if p.skip then some d else recordInto t.cfg now p d := by
    rw [recorded, hl, foldl_cons]
    change observeEntry t.cfg now (carried now t pid) p = _
    rw [hcarried, observeEntry, hdrop]
    rfl
  have hread : HasReading now procs pid t ↔ p.skip = false ∨ d.points ≠ [] := by
    rw [HasReading, hl, hpoints, he]
    cases isGap now t <;> simp
  cases hskip : p.skip with
  | true =>
    rw [hrec, hskip]
    refine ⟨d, rfl, hsince, hgood, hfollows, ?_, ?_⟩
    · rw [hpoints]
      simpa [hskip] using hd
    · rw [hread, hskip]
      simp
  | false =>
    have happ := hdinv.appended hadopt (mem_append_right _ (by simp)) hmem hpid hskip hstart
    have hfresh : ¬ Disproved t.cfg now (appended t.cfg now p d) := by
      rw [appended, staleHistory, hpoints, ← staleHistory, ← appended]
      simpa [hskip] using hd
    rw [hrec, hskip]
    refine ⟨_, recordInto_of_not_disproved happ hsince hfresh, hsince, rfl,
      ⟨hfollows.name, hfollows.adopt, hfollows.started⟩, fun hdis => hfresh ?_, ?_⟩
    · exact hdis.congr (windowReadings_evaluated happ)
    · rw [hread, hskip]
      refine iff_of_true ?_ (.inl rfl)
      exact getLast?_isSome.mp (by simp [appended, trimPoints_snoc_getLast?])

theorem evaluateEntry_sustained (pid : ℤ) (hyoung : now - e.lastGood < cfg.window) (hs : e.since = some s)
    (hkeep : updateSince cfg now (evaluated cfg now e) (inside cfg now e) (some s) = some s) :
    (∃ points, (evaluateEntry cfg now pid e).1 = some { e with points := points }) ∧
      ((∃ f, (evaluateEntry cfg now pid e).2 = some f) ↔ inside cfg now e ≠ []) := by
  rcases evaluateEntry_cases cfg now pid e with ⟨hage, -⟩ | ⟨-, hin, hev⟩ | ⟨-, hin, hev⟩
  · omega
  · rw [hev, hin]
    exact ⟨⟨_, rfl⟩, by simp⟩
  · rw [hs, hkeep, ← hs] at hev
    rw [hev]
    exact ⟨⟨_, rfl⟩, iff_of_true (by simp [hs]) hin⟩

/-- One observation of a sustained process: the entry stays, and is reported with its
since-time exactly if it has a reading. -/
theorem observe_continues (h : TrackerInv t.cfg log t) (he : t.entries[pid]? = some e)
    (hs : e.since = some s) (hc : Continues pid (.observe now procs) t) :
    (∃ e', (observe now procs t).1.entries[pid]? = some e' ∧ e'.since = some s ∧
        ∀ p ∈ listings t.cfg procs pid, Follows e p e') ∧
      (∀ f ∈ (observe now procs t).2, f.pid = pid → f.since = s ∧ f.name = e.name) ∧
      ((∃ f ∈ (observe now procs t).2, f.pid = pid) ↔ HasReading now procs pid t) := by
  obtain ⟨p, hl, hc⟩ := hc
  obtain ⟨hsame, hage, hd⟩ := hc e he
  obtain ⟨e', hrec, hsince, hgood, hfollows, hdis, hread⟩ := recorded_continues h he hs hl hsame hd
  have hinv := entryInv_recorded h now procs pid e' hrec
  have hyoung : now - e'.lastGood < t.cfg.window := by
    rw [hgood]
    exact not_le.mp hage
  obtain ⟨⟨points, hpost⟩, hreport⟩ := evaluateEntry_sustained pid hyoung hsince
    (updateSince_of_not_disproved hinv hdis)
  have hentry := (observe_of_recorded hrec).trans hpost
  refine ⟨⟨_, hentry, hsince, fun q hq => ?_⟩, ?_, ?_⟩
  · obtain rfl : q = p := by simpa [hl] using hq
    exact ⟨hfollows.name, hfollows.adopt, hfollows.started⟩
  · intro f hf hpid
    obtain ⟨-, hname, -, hup, -⟩ :=
      evaluateEntry_finding ((mem_observe_of_recorded hrec).mp ⟨hf, hpid⟩)
    rw [hsince] at hup
    exact ⟨updateSince_some hup, hname.trans hfollows.name⟩
  · simp only [mem_observe_of_recorded hrec]
    rw [← hread, ← inside_ne_nil_iff hinv hyoung]
    exact hreport

def Carries (pid since : ℤ) (t : SustainedTracker) : Prop :=
  ∃ e, t.entries[pid]? = some e ∧ e.since = some since

theorem carries_of_registers {op : TrackerOp} (h : Registers pid s op t) : Carries pid s (step op t).1 := by
  cases op with
  | observe now procs =>
    obtain ⟨f, hf, rfl, rfl⟩ := h
    obtain ⟨e, hrec, hev⟩ := mem_observe.mp hf
    obtain ⟨-, -, -, -, hpost⟩ := evaluateEntry_finding hev
    exact ⟨_, (observe_of_recorded hrec).trans hpost, rfl⟩
  | seed now pid' name since started =>
    obtain ⟨rfl, rfl⟩ := h
    exact ⟨_, Std.ExtTreeMap.getElem?_insert_self, rfl⟩

theorem carries_step {op : TrackerOp} (h : TrackerInv t.cfg log t) (hcarry : Carries pid s t)
    (hc : Continues pid op t) : Carries pid s (step op t).1 := by
  obtain ⟨e, he, hs⟩ := hcarry
  cases op with
  | observe now procs =>
    obtain ⟨⟨e', he', hs', -⟩, -⟩ := observe_continues h he hs hc
    exact ⟨e', he', hs'⟩
  | seed now pid' name since started =>
    refine ⟨e, ?_, hs⟩
    change (t.entries.insert pid' _)[pid]? = some e
    rwa [getElem?_insert_eq, if_neg hc]

theorem carries_run (h : TrackerInv cfg log t) (hcarry : Carries pid s t)
    (hc : ContinuesAll pid ops t) : Carries pid s (run ops t).1 := by
  induction ops generalizing t log with
  | nil => exact hcarry
  | cons op ops ih =>
    obtain ⟨hop, hops⟩ := hc
    exact ih (trackerInv_step h op) (carries_step h.self hcarry hop) hops

/-- Once a process is reported or registered, an observation of a run that neither disproves
nor loses it reports it with the same since-time, exactly if it has a reading of it. -/
theorem run_keeps_reporting (cfg : SustainedConfig) (before : List TrackerOp) (op : TrackerOp)
    (pid since : ℤ) (hreg : Registers pid since op (run before (new cfg)).1) (after : List TrackerOp)
    (hafter : ContinuesAll pid after (step op (run before (new cfg)).1).1) (now : ℤ) (procs : List ProcObs)
    (hnow : Continues pid (.observe now procs) (run after (step op (run before (new cfg)).1).1).1) :
    let t := (run after (step op (run before (new cfg)).1).1).1
    (∀ f ∈ (observe now procs t).2, f.pid = pid → f.since = since) ∧
      ((∃ f ∈ (observe now procs t).2, f.pid = pid) ↔ HasReading now procs pid t) := by
  have hinv := trackerInv_step (trackerInv_new cfg before) op
  obtain ⟨e, he, hs⟩ := carries_run hinv (carries_of_registers hreg) hafter
  obtain ⟨-, hsame, hread⟩ := observe_continues (trackerInv_run hinv after).self he hs hnow
  exact ⟨fun f hf hpid => (hsame f hf hpid).1, hread⟩

theorem continues_of_all (hl : listings t.cfg procs pid = [p])
    (h : t.entries[pid]?.all (fun e => SameProcess e p ∧ ¬ Aged t.cfg now e p ∧
      ¬ Disproved t.cfg now (freshReadings now e p t)) = true) : Continues pid (.observe now procs) t := by
  refine ⟨p, hl, fun e he => ?_⟩
  rw [he] at h
  simpa using h

theorem run_keeps_reporting_busy :
    let t := (run (busyMinutes false 0 16) (new defaultWatch)).1
    (∀ f ∈ (observe (960 * second) (busyProc true) t).2, f.pid = 42 → f.since = 0) ∧
      ((∃ f ∈ (observe (960 * second) (busyProc true) t).2, f.pid = 42) ↔
        HasReading (960 * second) (busyProc true) 42 t) := by
  exact run_keeps_reporting defaultWatch (busyMinutes false 0 15)
    (.observe (900 * second) (busyProc false)) 42 0
    ⟨busyFinding 900, by decide +kernel, rfl, rfl⟩ [] trivial (960 * second) (busyProc true)
    (continues_of_all (p := ⟨42, 1, "yes", 100, 0, true⟩) (by decide +kernel) (by decide +kernel))

/-- The process is reported, the host sleeps for more than the gap limit, and the first
observation after it has no reading: the process is not reported. -/
theorem run_mutes_after_gap :
    ¬ ∀ (cfg : SustainedConfig) (before : List TrackerOp) (op : TrackerOp) (pid since : ℤ),
      Registers pid since op (run before (new cfg)).1 → ∀ after : List TrackerOp,
      ContinuesAll pid after (step op (run before (new cfg)).1).1 →
      ∀ (now : ℤ) (procs : List ProcObs),
      Continues pid (.observe now procs) (run after (step op (run before (new cfg)).1).1).1 →
      ∃ f ∈ (observe now procs (run after (step op (run before (new cfg)).1).1).1).2,
        f.pid = pid ∧ f.since = since := by
  intro h
  obtain ⟨f, hf, -⟩ := h defaultWatch (busyMinutes false 0 15)
    (.observe (900 * second) (busyProc false)) 42 0
    ⟨busyFinding 900, by decide +kernel, rfl, rfl⟩ [] trivial (1300 * second) (busyProc true)
    (continues_of_all (p := ⟨42, 1, "yes", 100, 0, true⟩) (by decide +kernel) (by decide +kernel))
  have hmute : (observe (1300 * second) (busyProc true)
      (run (busyMinutes false 0 16) (new defaultWatch)).1).2 = [] := by decide +kernel
  exact ne_nil_of_mem hf hmute

end SustainedTracker
end Spectra.Hostwatch
