import Spectra.Hostwatch.SustainedFiring

/-! Completeness of the sustained-CPU tracker. -/
namespace Spectra.Hostwatch
open Library List SustainedConfig

section

private theorem trimPoints_cases (cutoff : ℤ) (points : List CpuPoint) :
    trimPoints cutoff points = points ∨ ∃ q rest, trimPoints cutoff points = q :: rest ∧ q.time < cutoff := by
  fun_induction trimPoints cutoff points with
  | case1 a b rest hb ih => exact .inr (ih.elim (fun h => ⟨b, rest, h, hb⟩) id)
  | case2 | case3 => exact .inl rfl

private theorem span_le {s : ℤ} {q l : CpuPoint} {rest : List CpuPoint}
    (h : (q :: rest).IsChain fun a b => a.time < b.time ∧ b.time - a.time ≤ s)
    (hl : (q :: rest).getLast? = some l) : l.time - q.time ≤ s * rest.length := by
  induction rest generalizing q with
  | nil =>
    obtain rfl : q = l := by simpa using hl
    simp
  | cons b rest ih =>
    obtain ⟨⟨_, hstep⟩, hrest⟩ := isChain_cons_cons.mp h
    have := ih hrest (by rwa [getLast?_cons_cons] at hl)
    rw [length_cons]
    push_cast
    linarith

end

namespace SustainedTracker
variable {cfg : SustainedConfig} {first now : ℤ}

variable (cfg first now) in
/-- The readings of a process that has been busy since `first`: close together up to `now`, and
back to `first` or to an anchor before the window. -/
structure Loaded (points : List CpuPoint) : Prop where
  above : ∀ q ∈ points, q.above = true
  later : ∀ q ∈ points, first ≤ q.time
  steps : points.IsChain fun a b => a.time < b.time ∧ b.time - a.time ≤ 5 * cfg.interval
  newest : ∃ q, points.getLast? = some q ∧ q.time = now
  oldest : ∀ q rest, points = q :: rest → q.time = first ∨ q.time < now - cfg.window

namespace Loaded
variable {points : List CpuPoint} (h : Loaded cfg first now points)
include h

theorem trim : Loaded cfg first now (trimPoints (now - cfg.window) points) := by
  have hsuffix : trimPoints (now - cfg.window) points <:+ points := trimPoints_suffix points
  refine ⟨fun q hq => h.above q (hsuffix.subset hq), fun q hq => h.later q (hsuffix.subset hq),
    h.steps.suffix hsuffix, ?_, fun q rest hq => ?_⟩
  · rw [trimPoints_getLast?]
    exact h.newest
  · rcases trimPoints_cases (now - cfg.window) points with heq | ⟨a, rest', heq, ha⟩
    · rw [heq] at hq
      exact h.oldest q rest hq
    · obtain ⟨rfl, -⟩ := cons.inj (heq.symm.trans hq)
      exact .inr ha

theorem snoc {q : CpuPoint} (habove : q.above = true) (hlt : now < q.time)
    (hstep : q.time - now ≤ 5 * cfg.interval) : Loaded cfg first q.time (points ++ [q]) := by
  obtain ⟨l, hl, hnow⟩ := h.newest
  have hlater := h.later l (mem_of_getLast? hl)
  refine ⟨fun x hx => ?_, fun x hx => ?_, ?_, ⟨q, by simp, rfl⟩, fun x rest hx => ?_⟩
  · rcases mem_append.mp hx with hx | hx
    · exact h.above x hx
    · rwa [mem_singleton.mp hx]
  · rcases mem_append.mp hx with hx | hx
    · exact h.later x hx
    · rw [mem_singleton.mp hx]
      omega
  · rw [isChain_append]
    refine ⟨h.steps, isChain_singleton _, fun a ha b hb => ?_⟩
    obtain rfl : l = a := Option.mem_unique hl ha
    obtain rfl : q = b := by simpa using hb
    omega
  · cases points with
    | nil => cases hl
    | cons a points =>
      obtain ⟨rfl, -⟩ := cons.inj hx
      rcases h.oldest a points rfl with ha | ha
      · exact .inl ha
      · exact .inr (by omega)

theorem covered :
    (points.head?.any fun q => decide (cfg.window ≤ now - q.time)) = decide (cfg.window ≤ now - first) := by
  cases points with
  | nil =>
    obtain ⟨q, hq, _⟩ := h.newest
    cases hq
  | cons a points =>
    have hlater := h.later a mem_cons_self
    have holdest := h.oldest a points rfl
    rw [head?_cons, Option.any_some, decide_eq_decide]
    omega

/-- The readings in the window: all above the threshold, and closely spaced. -/
theorem window_readings (hI : 0 < cfg.interval) (hW : 0 < cfg.window) :
    inWindow (now - cfg.window) points ≠ [] ∧
    (∀ q ∈ inWindow (now - cfg.window) points, q.above = true) ∧
    (cfg.window ≤ now - first → cfg.window ≤ 5 * cfg.interval * (inWindow (now - cfg.window) points).length) := by
  obtain ⟨l, hl, hnow⟩ := h.newest
  cases points with
  | nil => cases hl
  | cons a points =>
    have hspan := span_le h.steps hl
    have hin : inWindow (now - cfg.window) (a :: points) =
        if a.time < now - cfg.window then points else a :: points := rfl
    rw [hin]
    by_cases ha : a.time < now - cfg.window
    · rw [if_pos ha]
      refine ⟨?_, fun q hq => h.above q (.tail _ hq), fun _ => by omega⟩
      rintro rfl
      simp only [length_nil] at hspan
      omega
    · rw [if_neg ha]
      refine ⟨cons_ne_nil _ _, h.above, fun hc => ?_⟩
      have holdest := h.oldest a points rfl
      rw [length_cons]
      push_cast
      linarith [holdest.resolve_right ha]

end Loaded

/-- As many readings as cover the window at five intervals each are enough to fire. -/
theorem minAbovePoints_le {n : ℕ} (hI : 0 < cfg.interval) (hW : 16 * cfg.interval ≤ cfg.window)
    (hn : cfg.window ≤ 5 * cfg.interval * n) : cfg.minAbovePoints ≤ n := by
  have hcap : cfg.capacity * (4 * cfg.interval) ≤ cfg.window := by
    rw [capacity, if_neg (by omega), Int.tdiv_eq_ediv_of_nonneg (by omega)]
    exact Int.ediv_mul_le _ (by omega)
  have hnonneg : 0 ≤ cfg.capacity := by
    rw [capacity, if_neg (by omega), Int.tdiv_eq_ediv_of_nonneg (by omega)]
    exact Int.ediv_nonneg (by omega) (by omega)
  have hfour : 4 * cfg.capacity ≤ 5 * (n : ℤ) := by
    refine Int.le_of_mul_le_mul_left ?_ hI
    linarith
  have hsixteen : 16 ≤ 5 * (n : ℤ) := by
    refine Int.le_of_mul_le_mul_left ?_ hI
    linarith
  rw [minAbovePoints, Int.tdiv_eq_ediv_of_nonneg hnonneg]
  split <;> omega

theorem summarize_all_above {points : List CpuPoint} (hne : points ≠ []) (h : ∀ q ∈ points, q.above = true) :
    countAbove points = points.length ∧ (summarize points).1 = 1 := by
  have hcount : countAbove points = points.length := countP_eq_length.mpr h
  refine ⟨hcount, ?_⟩
  rw [summarize, hcount]
  exact div_self (Nat.cast_ne_zero.mpr fun h0 => hne (length_eq_zero_iff.mp h0))

/-- A busy process is sustained from when its readings cover the window. -/
theorem Loaded.updateSince {points : List CpuPoint} (h : Loaded cfg first now points)
    (hI : 0 < cfg.interval) (hW : 16 * cfg.interval ≤ cfg.window) (hF : cfg.minFraction ≤ 1)
    {since : Option ℤ} (hs : since.isSome = true → cfg.window ≤ now - first) :
    (updateSince cfg now points (inWindow (now - cfg.window) points) since).isSome =
      decide (cfg.window ≤ now - first) := by
  obtain ⟨hne, habove, hlen⟩ := h.window_readings hI (by omega)
  obtain ⟨hcount, hfrac⟩ := summarize_all_above hne habove
  unfold SustainedTracker.updateSince
  rw [hfrac, hcount]
  cases since with
  | none =>
    dsimp only
    rw [h.covered]
    by_cases hc : cfg.window ≤ now - first
    · have hfire := minAbovePoints_le hI hW (hlen hc)
      rw [if_pos ⟨decide_eq_true hc, hF, hfire⟩, decide_eq_true hc]
      cases hin : inWindow (now - cfg.window) points with
      | nil => exact absurd hin hne
      | cons a rest => rfl
    · rw [decide_eq_false hc]
      rfl
  | some s =>
    dsimp only
    rw [if_neg, decide_eq_true (hs rfl)]
    · rfl
    · rintro ⟨hlow, -⟩
      exact absurd hlow (by unfold sustainedClearFraction; norm_num)

/-- What the tracker holds of a process that has been busy since `first`. -/
structure BusyEntry (cfg : SustainedConfig) (p₀ : ProcObs) (first now : ℤ) (e : SustainedEntry) :
    Prop where
  name : e.name = p₀.name
  started : e.started = some p₀.started
  adopted : e.adopt = false
  fresh : e.lastGood = now
  loaded : Loaded cfg first now e.points
  since : e.since.isSome = true → cfg.window ≤ now - first

/-- A snapshot that lists the process once, with a reading at or above the threshold. -/
def Busy (cfg : SustainedConfig) (p₀ : ProcObs) (procs : List ProcObs) : Prop :=
  ∃ p, procs.filter (fun p => p.pid = p₀.pid) = [p] ∧ p.skip = false ∧
    cfg.Allowed p.name = false ∧ cfg.cpuPct ≤ p.cpuPct ∧ |p₀.started - p.started| ≤ startTolerance

variable {p₀ p : ProcObs} {e : SustainedEntry} {prev : ℤ}

section
variable (hI : 0 < cfg.interval) (hW : 16 * cfg.interval ≤ cfg.window)
include hI hW

theorem busyEntry_recordInto (hname : e.name = p₀.name) (hstarted : e.started = some p₀.started)
    (hadopt : e.adopt = false) (hload : Loaded cfg first now (appended cfg now p e))
    (hsince : e.since.isSome = true → cfg.window ≤ now - first) :
    ∃ e', recordInto cfg now p e = some e' ∧ BusyEntry cfg p₀ first now e' := by
  obtain ⟨hne, habove, -⟩ := hload.trim.window_readings hI (by omega)
  refine ⟨_, if_neg ?_, hname, hstarted, hadopt, rfl, hload.trim, hsince⟩
  obtain ⟨q, hq⟩ := exists_mem_of_ne_nil _ hne
  have hany : anyAbove (inWindow (now - cfg.window) (trimPoints (now - cfg.window) (appended cfg now p e))) = true :=
    any_eq_true.mpr ⟨q, hq, habove q hq⟩
  simp [hany]

variable (now) in
theorem busyEntry_first (hcpu : cfg.cpuPct ≤ p₀.cpuPct) :
    ∃ e, record cfg now p₀ none = some e ∧ BusyEntry cfg p₀ now now e := by
  rw [record, if_pos hcpu]
  refine busyEntry_recordInto hI hW rfl rfl rfl ?_ (fun h => by cases h)
  have happ : appended cfg now p₀ ⟨p₀.name, some p₀.started, [], none, now, false⟩ =
      [⟨now, cfg.cpuPct ≤ p₀.cpuPct, p₀.cpuPct⟩] := by
    simp [appended]
  rw [happ]
  refine ⟨by simpa using hcpu, by simp, isChain_singleton _, ⟨_, rfl, rfl⟩, ?_⟩
  intro q rest hq
  obtain ⟨rfl, -⟩ := cons.inj hq
  exact .inl rfl

/-- A later reading of the same process continues it. -/
theorem BusyEntry.next (h : BusyEntry cfg p₀ first prev e) (hskip : p.skip = false)
    (hcpu : cfg.cpuPct ≤ p.cpuPct) (hstart : |p₀.started - p.started| ≤ startTolerance)
    (hlt : prev < now) (hstep : now - prev ≤ 5 * cfg.interval) :
    ∃ e', observeEntry cfg now (some e) p = some e' ∧ BusyEntry cfg p₀ first now e' := by
  have hsame : sameStart e.started p.started = true := by
    rw [h.started, sameStart_iff]
    rintro s ⟨⟩
    exact hstart
  have hkept : dropIfReused p (some e) = some e := by
    simp [dropIfReused, h.adopted, hsame]
  obtain ⟨l, hl, hprev⟩ := h.loaded.newest
  have hstale : staleHistory cfg e now = false := by
    simp only [staleHistory, hl, Bool.and_eq_false_iff, decide_eq_false_iff_not]
    omega
  have happ : appended cfg now p e = e.points ++ [⟨now, cfg.cpuPct ≤ p.cpuPct, p.cpuPct⟩] := by
    simp [appended, hstale]
  rw [observeEntry, hkept, hskip]
  refine busyEntry_recordInto hI hW h.name h.started h.adopted ?_ fun hs => ?_
  · rw [happ]
    exact h.loaded.snoc (q := ⟨now, _, _⟩) (decide_eq_true hcpu) hlt hstep
  · have := h.since hs
    omega

/-- `evaluate` keeps a busy process, and reports it when the window is covered. -/
theorem BusyEntry.evaluateEntry (h : BusyEntry cfg p₀ first now e) (hF : cfg.minFraction ≤ 1) (pid : ℤ) :
    (∃ e', (evaluateEntry cfg now pid e).1 = some e' ∧ BusyEntry cfg p₀ first now e') ∧
      ((evaluateEntry cfg now pid e).2.isSome = true ↔ cfg.window ≤ now - first) := by
  have htrim := h.loaded.trim
  obtain ⟨hne, -, -⟩ := htrim.window_readings hI (by omega)
  have hsince := htrim.updateSince hI hW hF h.since
  have hfresh := h.fresh
  rcases evaluateEntry_cases cfg now pid e with ⟨haged, -⟩ | ⟨-, hnil, -⟩ | ⟨-, -, hr⟩
  · omega
  · exact absurd hnil hne
  · rw [hr]
    refine ⟨⟨_, rfl, h.name, h.started, h.adopted, h.fresh, htrim, fun hs => ?_⟩, ?_⟩
    · exact of_decide_eq_true (hsince.symm.trans hs)
    · rw [Option.isSome_map]
      exact ⟨fun hs => of_decide_eq_true (hsince.symm.trans hs), fun hc => hsince.trans (decide_eq_true hc)⟩

end

/-- The tracker has followed the process since `first`. -/
structure Watches (cfg : SustainedConfig) (p₀ : ProcObs) (first now : ℤ) (t : SustainedTracker) :
    Prop where
  config : t.cfg = cfg
  last : t.last = some now
  entry : ∃ e, t.entries[p₀.pid]? = some e ∧ BusyEntry cfg p₀ first now e

/-- The findings report the process exactly when it has been busy for the whole window. -/
def ReportedWhenDue (cfg : SustainedConfig) (p₀ : ProcObs) (first now : ℤ)
    (out : List SustainedFinding) : Prop :=
  ((∃ f ∈ out, f.pid = p₀.pid) ↔ cfg.window ≤ now - first) ∧
    ∀ f ∈ out, f.pid = p₀.pid → f.name = p₀.name ∧ f.started = some p₀.started

/-- Snapshots in order, no two of them further apart than five intervals or the gap limit. -/
def Regular (cfg : SustainedConfig) (obs : List (ℤ × List ProcObs)) : Prop :=
  obs.IsChain fun a b =>
    a.1 < b.1 ∧ b.1 - a.1 ≤ 5 * cfg.interval ∧ b.1 - a.1 ≤ cfg.gapLimit

section
variable {t : SustainedTracker} {procs : List ProcObs} (hI : 0 < cfg.interval)
  (hW : 16 * cfg.interval ≤ cfg.window) (hF : cfg.minFraction ≤ 1)

theorem Busy.listings (h : Busy cfg p₀ procs) (hpid : 0 < p₀.pid) :
    ∃ p, listings cfg procs p₀.pid = [p] ∧ p.skip = false ∧ cfg.cpuPct ≤ p.cpuPct ∧
      |p₀.started - p.started| ≤ startTolerance := by
  obtain ⟨p, hp, hskip, hallowed, hcpu, hstart⟩ := h
  have hmem : p.pid = p₀.pid := by
    have : p ∈ procs.filter fun p => p.pid = p₀.pid := hp ▸ mem_singleton_self p
    simpa using of_mem_filter this
  refine ⟨p, ?_, hskip, hcpu, hstart⟩
  rw [listings_eq_filter, hp]
  simp [Tracked, hmem, hpid, hallowed]

include hI hW hF

theorem watches_of_recorded (hcfg : t.cfg = cfg) (h : BusyEntry cfg p₀ first now e)
    (hr : recorded cfg (isGap now t) now (listings cfg procs p₀.pid) t.entries[p₀.pid]? = some e) :
    Watches cfg p₀ first now (observe now procs t).1 ∧ ReportedWhenDue cfg p₀ first now (observe now procs t).2 := by
  subst hcfg
  obtain ⟨⟨e', he', hbusy⟩, hreport⟩ := h.evaluateEntry hI hW hF p₀.pid
  refine ⟨⟨rfl, rfl, e', (observe_of_recorded hr).trans he', hbusy⟩, ?_, fun f hf hpid => ?_⟩
  · rw [← hreport, Option.isSome_iff_exists]
    exact exists_congr fun f => mem_observe_of_recorded hr
  · obtain ⟨-, hname, hstarted, -⟩ :=
      evaluateEntry_finding ((mem_observe_of_recorded hr).mp ⟨hf, hpid⟩)
    rw [hname, hstarted]
    exact ⟨h.name, h.started⟩

variable (now) in
theorem watches_first (hcfg : t.cfg = cfg) (hpid : 0 < p₀.pid)
    (hfirst : procs.filter (fun p => p.pid = p₀.pid) = [p₀]) (hbusy : Busy cfg p₀ procs)
    (hnew : t.entries[p₀.pid]? = none) :
    Watches cfg p₀ now now (observe now procs t).1 ∧ ReportedWhenDue cfg p₀ now now (observe now procs t).2 := by
  obtain ⟨p, hp, hskip, hcpu, -⟩ := hbusy.listings hpid
  obtain rfl : p = p₀ := by
    have hmem : p ∈ procs.filter fun q => q.pid = p₀.pid := by
      have := mem_listings.mp (hp ▸ mem_singleton_self p)
      simpa using ⟨this.1, this.2.2⟩
    rw [hfirst] at hmem
    exact mem_singleton.mp hmem
  obtain ⟨e, he, hentry⟩ := busyEntry_first now hI hW hcpu
  refine watches_of_recorded hI hW hF hcfg hentry ?_
  rw [hp, hnew, recorded]
  simpa [observeEntry, dropIfReused, hskip] using he

variable (h : Watches cfg p₀ first prev t) (hpid : 0 < p₀.pid)
include h hpid

theorem Watches.observe (hbusy : Busy cfg p₀ procs) (hlt : prev < now) (hstep : now - prev ≤ 5 * cfg.interval)
    (hgap : now - prev ≤ cfg.gapLimit) :
    Watches cfg p₀ first now (observe now procs t).1 ∧ ReportedWhenDue cfg p₀ first now (observe now procs t).2 := by
  obtain ⟨p, hp, hskip, hcpu, hstart⟩ := hbusy.listings hpid
  obtain ⟨e, he, hentry⟩ := h.entry
  obtain ⟨e', he', hentry'⟩ := hentry.next hI hW hskip hcpu hstart hlt hstep
  refine watches_of_recorded hI hW hF h.config hentry' ?_
  have hno : isGap now t = false := by
    simp only [isGap, h.last, h.config, Bool.or_eq_false_iff, decide_eq_false_iff_not, not_lt]
    exact ⟨hgap, hlt.le⟩
  rw [hp, he, hno]
  exact he'

theorem Watches.run {obs : List (ℤ × List ProcObs)} (hbusy : ∀ o ∈ obs, Busy cfg p₀ o.2)
    (hsteps : Regular cfg ((prev, procs) :: obs)) :
    ∀ now procs out, (.observe now procs, out) ∈ (run (observations obs) t).2 →
      ReportedWhenDue cfg p₀ first now out := by
  induction obs generalizing t prev procs with
  | nil =>
    intro now procs out hx
    cases hx
  | cons o obs ih =>
    obtain ⟨⟨hlt, hstep, hgap⟩, hrest⟩ := isChain_cons_cons.mp hsteps
    obtain ⟨hnext, hdue⟩ :=
      h.observe hI hW hF hpid (hbusy o (.head _)) hlt hstep hgap
    intro now procs out hx
    rcases mem_cons.mp hx with hx | hx
    · cases hx
      exact hdue
    · exact ih hnext (fun o ho => hbusy o (.tail _ ho)) hrest now procs out hx

end

/-- A process that the tracker does not know and that is busy at every snapshot is reported at
exactly the snapshots taken a window or more after the first. -/
theorem run_busy_reported (t : SustainedTracker) (hI : 0 < t.cfg.interval)
    (hW : 16 * t.cfg.interval ≤ t.cfg.window) (hF : t.cfg.minFraction ≤ 1) (p₀ : ProcObs)
    (hpid : 0 < p₀.pid) (hnew : t.entries[p₀.pid]? = none) (first : ℤ) (procs : List ProcObs)
    (hfirst : procs.filter (fun p => p.pid = p₀.pid) = [p₀]) (rest : List (ℤ × List ProcObs))
    (hsteps : Regular t.cfg ((first, procs) :: rest)) (hbusy : ∀ o ∈ (first, procs) :: rest, Busy t.cfg p₀ o.2) :
    ∀ now ps out, (.observe now ps, out) ∈ (run (observations ((first, procs) :: rest)) t).2 →
      ReportedWhenDue t.cfg p₀ first now out := by
  obtain ⟨hwatch, hdue⟩ := watches_first first hI hW hF rfl hpid hfirst
    (hbusy _ (.head _)) hnew
  intro now ps out hx
  rcases mem_cons.mp hx with hx | hx
  · cases hx
    exact hdue
  · exact hwatch.run hI hW hF hpid (fun o ho => hbusy o (.tail _ ho)) hsteps
      now ps out hx

/-- Further snapshots of the busy process, evenly spaced. -/
def busyEvery (step : ℤ) (count : ℕ) : List (ℤ × List ProcObs) :=
  (List.range' 1 count).map fun i => (i * step, busyProc false)

theorem busy_busyEvery (hallowed : cfg.Allowed "yes" = false) (hcpu : cfg.cpuPct ≤ 100) (step : ℤ) (count : ℕ) :
    ∀ o ∈ (0, busyProc false) :: busyEvery step count, Busy cfg ⟨42, 1, "yes", 100, 0, false⟩ o.2 := by
  have hbusy : Busy cfg ⟨42, 1, "yes", 100, 0, false⟩ (busyProc false) :=
    ⟨_, rfl, rfl, hallowed, hcpu, by decide⟩
  intro o ho
  rcases mem_cons.mp ho with rfl | ho
  · exact hbusy
  · obtain ⟨i, -, rfl⟩ := mem_map.mp ho
    exact hbusy

theorem run_busy_reported_minutes :
    Regular defaultWatch ((0, busyProc false) :: busyEvery (60 * second) 16) ∧
    ∀ now ps out, (.observe now ps, out) ∈
        (run (observations ((0, busyProc false) :: busyEvery (60 * second) 16))
          (new defaultWatch)).2 → ReportedWhenDue defaultWatch ⟨42, 1, "yes", 100, 0, false⟩ 0 now out := by
  have hsteps : Regular defaultWatch ((0, busyProc false) :: busyEvery (60 * second) 16) := by
    rw [Regular]
    decide +kernel
  exact ⟨hsteps, run_busy_reported (new defaultWatch) (by decide) (by decide) (by decide +kernel) _
    (by decide) (by simp [new]) 0 (busyProc false) rfl _ hsteps
    (busy_busyEvery (by decide +kernel) (by decide +kernel) _ _)⟩

/-- Without a gap limit of its own, a tracker sampled every ten minutes takes each step for a
suspend, although five sampling intervals are as long. -/
def slowWatch : SustainedConfig := ⟨50, 1920 * second, 1, [], 120 * second, 0, Char.toLower⟩

/-- Forty minutes of load, never reported. -/
theorem run_busy_suspended :
    ¬ ∀ (cfg : SustainedConfig) (p₀ : ProcObs) (first : ℤ) (procs : List ProcObs)
      (rest : List (ℤ × List ProcObs)), 0 < cfg.interval → 16 * cfg.interval ≤ cfg.window →
      cfg.minFraction ≤ 1 → 0 < p₀.pid → procs.filter (fun p => p.pid = p₀.pid) = [p₀] →
      ((first, procs) :: rest).IsChain (fun a b => a.1 < b.1 ∧ b.1 - a.1 ≤ 5 * cfg.interval) →
      (∀ o ∈ (first, procs) :: rest, Busy cfg p₀ o.2) →
      ∀ now ps out,
        (.observe now ps, out) ∈ (run (observations ((first, procs) :: rest)) (new cfg)).2 →
          ReportedWhenDue cfg p₀ first now out := by
  intro h
  have hdue := h slowWatch ⟨42, 1, "yes", 100, 0, false⟩ 0 (busyProc false)
    (busyEvery (600 * second) 4) (by decide) (by decide) (by decide +kernel) (by decide) rfl
    (by decide +kernel) (busy_busyEvery (by decide +kernel) (by decide +kernel) _ _)
    (2400 * second) (busyProc false) [] (by decide +kernel)
  obtain ⟨f, hf, -⟩ := hdue.1.mpr (by decide)
  cases hf

end SustainedTracker
end Spectra.Hostwatch
