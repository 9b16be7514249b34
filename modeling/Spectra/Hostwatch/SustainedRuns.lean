import Spectra.Hostwatch.SustainedPid
import Mathlib.Tactic.Linarith

/-! Runs of the sustained-CPU tracker, and what every entry of a reachable tracker holds. -/
namespace Spectra.Hostwatch
open Library List Option Prod

variable {points : List CpuPoint}

section
variable {cutoff : ℤ}

theorem trimPoints_suffix (points : List CpuPoint) : trimPoints cutoff points <:+ points := by
  fun_induction trimPoints cutoff points with
  | case1 a b rest hb ih => exact ih.trans (suffix_cons _ _)
  | case2 | case3 => exact suffix_refl _

theorem trimPoints_getLast? (points : List CpuPoint) : (trimPoints cutoff points).getLast? = points.getLast? := by
  fun_induction trimPoints cutoff points with
  | case1 a b rest hb ih => rw [ih, getLast?_cons_cons]
  | case2 | case3 => rfl

variable (hs : points.Pairwise fun a b => a.time ≤ b.time)
include hs

theorem filter_trimPoints :
    (trimPoints cutoff points).filter (fun q => cutoff ≤ q.time) = points.filter fun q => cutoff ≤ q.time := by
  fun_induction trimPoints cutoff points with
  | case1 a b rest hb ih =>
    obtain ⟨ha, hs⟩ := pairwise_cons.mp hs
    have hab := ha b mem_cons_self
    rw [ih hs, filter_cons_of_neg (a := a) (by simp; omega)]
  | case2 | case3 => rfl

/-- The window of trimmed readings in order: all that are not too old. -/
theorem inWindow_trimPoints :
    inWindow cutoff (trimPoints cutoff points) = points.filter fun q => cutoff ≤ q.time := by
  rw [← filter_trimPoints hs]
  fun_induction trimPoints cutoff points with
  | case1 a b rest hb ih => exact ih (pairwise_cons.mp hs).2
  | case2 a b rest hb =>
    have hall : ∀ q ∈ b :: rest, cutoff ≤ q.time := by
      refine forall_mem_cons.mpr ⟨not_lt.mp hb, fun q hq => (not_lt.mp hb).trans ?_⟩
      exact (pairwise_cons.mp (pairwise_cons.mp hs).2).1 q hq
    rw [inWindow, filter_cons, filter_eq_self.mpr fun q hq => decide_eq_true (hall q hq)]
    by_cases h : a.time < cutoff <;> simp [h]
  | case3 points hshort =>
    rcases points with _ | ⟨a, _ | ⟨b, rest⟩⟩
    · rfl
    · rcases lt_or_ge a.time cutoff with h | h <;> simp [inWindow, h]
    · exact absurd rfl (hshort a b rest)

end

inductive TrackerOp where
  | observe (now : ℤ) (procs : List ProcObs)
  | seed (now : ℤ) (pid : ℤ) (name : String) (since started : Option ℤ)
  deriving DecidableEq

/-- The calls of a run with the findings each returned. -/
abbrev TrackerLog := List (TrackerOp × List SustainedFinding)

namespace SustainedTracker

def step (op : TrackerOp) (t : SustainedTracker) : SustainedTracker × List SustainedFinding :=
  match op with
  | .observe now procs => observe now procs t
  | .seed now pid name since started => (seed now pid name since started t, [])

def run : List TrackerOp → SustainedTracker → SustainedTracker × TrackerLog
  | [], t => (t, [])
  | op :: ops, t =>
    let (t, out) := step op t
    let (t, log) := run ops t
    (t, (op, out) :: log)

def observations (obs : List (ℤ × List ProcObs)) : List TrackerOp :=
  obs.map fun o => .observe o.1 o.2

/-- The run observed this reading of the process: same PID, same start, not skipped. -/
def Reading (cfg : SustainedConfig) (ops : List TrackerOp) (pid : ℤ) (started : Option ℤ)
    (q : CpuPoint) : Prop :=
  ∃ procs, TrackerOp.observe q.time procs ∈ ops ∧ ∃ p ∈ procs, p.pid = pid ∧ p.skip = false ∧
    (∃ s ∈ started, |s - p.started| ≤ startTolerance) ∧ q.cpu = p.cpuPct ∧
    q.above = decide (cfg.cpuPct ≤ p.cpuPct)

def Seeded (log : TrackerLog) (pid : ℤ) (name : String) (since : ℤ) : Prop :=
  ∃ now started out, (TrackerOp.seed now pid name (some since) started, out) ∈ log

/-- The run reported the process as sustained since this time, or registered it so. -/
def Known (log : TrackerLog) (pid : ℤ) (name : String) (started : Option ℤ) (since : ℤ) : Prop :=
  Seeded log pid name since ∨ ∃ x ∈ log, ∃ f ∈ x.2, f.pid = pid ∧ f.name = name ∧
    f.started = started ∧ f.since = since

/-- What holds of the entry of a PID: its readings are real, in order and close together,
and it is sustained only if that was reported or registered. -/
structure EntryInv (cfg : SustainedConfig) (ops : List TrackerOp) (log : TrackerLog)
    (last : Option ℤ) (pid : ℤ) (e : SustainedEntry) : Prop where
  sorted : e.points.Pairwise fun a b => a.time ≤ b.time
  upto : ∀ q ∈ e.points, ∃ l, last = some l ∧ q.time ≤ l
  close : 0 < cfg.interval → e.points.IsChain fun a b => b.time - a.time ≤ 8 * cfg.interval
  real : ∀ q ∈ e.points, Reading cfg ops pid e.started q
  good : ∀ q, e.points.getLast? = some q → q.time = e.lastGood
  adopt : e.adopt = true → e.points = [] ∧ ∀ s, e.since = some s → Seeded log pid e.name s
  start : e.adopt = false → e.started.isSome = true
  known : ∀ s, e.since = some s → Known log pid e.name e.started s

variable {cfg : SustainedConfig} {ops : List TrackerOp} {log : TrackerLog} {last : Option ℤ}
  {now : ℤ} {pid : ℤ} {e : SustainedEntry} {p : ProcObs}
  {o : Option SustainedEntry} {e' : SustainedEntry}

theorem dropIfReused_some (h : dropIfReused p o = some e') :
    ∃ e, o = some e ∧ (e.adopt = true ∧ e' = { e with started := some p.started, adopt := false } ∨
      e.adopt = false ∧ sameStart e.started p.started = true ∧ e' = e) := by
  cases o with
  | none => cases h
  | some e =>
    rw [dropIfReused] at h
    split at h
    · rename_i hc
      exact ⟨e, rfl, .inl ⟨hc.1, (some.inj h).symm⟩⟩
    · split at h
      · cases h
      · rename_i hc
        rw [not_or, Bool.not_eq_true, Bool.not_eq_false] at hc
        exact ⟨e, rfl, .inr ⟨hc.1, hc.2, (some.inj h).symm⟩⟩

theorem recordInto_some (h : recordInto cfg now p e = some e') :
    e' = { e with points := trimPoints (now - cfg.window) (appended cfg now p e), lastGood := now }
    := by
  unfold recordInto at h
  dsimp only at h
  split at h
  · cases h
  · exact (some.inj h).symm

variable {started : Option ℤ}

theorem Reading.mono {ops' : List TrackerOp} {q : CpuPoint} (h : Reading cfg ops pid started q)
    (hsub : ops ⊆ ops') : Reading cfg ops' pid started q := by
  obtain ⟨procs, hmem, h⟩ := h
  exact ⟨procs, hsub hmem, h⟩

variable {name : String} {s : ℤ} {log' : TrackerLog}

theorem Seeded.mono (h : Seeded log pid name s) (hsub : log ⊆ log') : Seeded log' pid name s := by
  obtain ⟨now, started, out, hmem⟩ := h
  exact ⟨now, started, out, hsub hmem⟩

theorem Known.mono (h : Known log pid name started s) (hsub : log ⊆ log') : Known log' pid name started s := by
  rcases h with h | ⟨x, hx, h⟩
  · exact .inl (h.mono hsub)
  · exact .inr ⟨x, hsub hx, h⟩

namespace EntryInv

theorem mono {ops' : List TrackerOp} {last' : Option ℤ}
    (h : EntryInv cfg ops log last pid e) (hops : ops ⊆ ops') (hlog : log ⊆ log')
    (hlast : ∀ l, last = some l → e.points ≠ [] → ∃ l', last' = some l' ∧ l ≤ l') :
    EntryInv cfg ops' log' last' pid e :=
  { h with
    upto q hq := by
      obtain ⟨l, hl, hle⟩ := h.upto q hq
      obtain ⟨l', hl', hle'⟩ := hlast l hl (ne_nil_of_mem hq)
      exact ⟨l', hl', hle.trans hle'⟩
    real q hq := (h.real q hq).mono hops
    adopt ha := ⟨(h.adopt ha).1, fun s hs => ((h.adopt ha).2 s hs).mono hlog⟩
    known s hs := (h.known s hs).mono hlog }

theorem trimPoints (h : EntryInv cfg ops log last pid e) (cutoff : ℤ) :
    EntryInv cfg ops log last pid { e with points := trimPoints cutoff e.points } where
  sorted := h.sorted.sublist (trimPoints_suffix _).sublist
  upto q hq := h.upto q ((trimPoints_suffix _).subset hq)
  close hi := (h.close hi).suffix (trimPoints_suffix _)
  real q hq := h.real q ((trimPoints_suffix _).subset hq)
  good q hq := h.good q ((trimPoints_getLast? _).symm.trans hq)
  adopt ha := by
    refine ⟨?_, (h.adopt ha).2⟩
    rw [(h.adopt ha).1, Hostwatch.trimPoints]
    simp
  start := h.start
  known := h.known

/-- One more reading of the process. -/
theorem snoc {q : CpuPoint} (h : EntryInv cfg ops log (some q.time) pid e) (ha : e.adopt = false)
    (hq : Reading cfg ops pid e.started q)
    (hclose : ∀ l, e.points.getLast? = some l → 0 < cfg.interval →
      q.time - l.time ≤ 8 * cfg.interval) :
    EntryInv cfg ops log (some q.time) pid { e with points := e.points ++ [q], lastGood := q.time } where
  sorted := by
    rw [pairwise_append]
    refine ⟨h.sorted, by simp, fun a ha' b hb => ?_⟩
    obtain ⟨l, hl, hle⟩ := h.upto a ha'
    rw [mem_singleton.mp hb]
    exact hle.trans (some.inj hl).ge
  upto r hr := by
    rcases mem_append.mp hr with hr | hr
    · exact h.upto r hr
    · exact ⟨q.time, rfl, by rw [mem_singleton.mp hr]⟩
  close hi := by
    rw [isChain_append]
    refine ⟨h.close hi, by simp, fun a ha' b hb => ?_⟩
    obtain rfl : q = b := by simpa using hb
    exact hclose a ha' hi
  real r hr := by
    rcases mem_append.mp hr with hr | hr
    · exact h.real r hr
    · rw [mem_singleton.mp hr]
      exact hq
  good r hr := by
    rw [getLast?_concat] at hr
    rw [some.inj hr]
  adopt ha' := absurd ha' (by simp [ha])
  start := h.start
  known := h.known

theorem nil_points (h : EntryInv cfg ops log last pid e) (last' : Option ℤ) :
    EntryInv cfg ops log last' pid { e with points := [] } where
  sorted := by simp
  upto := by simp
  close _ := by simp
  real := by simp
  good := by simp
  adopt ha := ⟨rfl, (h.adopt ha).2⟩
  start := h.start
  known := h.known

theorem dropIfReused (h : EntryInv cfg ops log last pid e) {p : ProcObs} {e' : SustainedEntry}
    (he : dropIfReused p (some e) = some e') :
    EntryInv cfg ops log last pid e' ∧ e'.adopt = false ∧ sameStart e'.started p.started = true := by
  obtain ⟨d, hd, ⟨ha, rfl⟩ | ⟨ha, hstart, rfl⟩⟩ := dropIfReused_some he <;> cases hd
  · obtain ⟨hpoints, hseed⟩ := h.adopt ha
    refine ⟨⟨h.sorted, h.upto, h.close, by simp [hpoints], h.good, by simp, by simp,
      fun s hs => .inl (hseed s hs)⟩, rfl, ?_⟩
    simp [sameStart, startTolerance, second]
  · exact ⟨h, ha, hstart⟩

theorem appended {p : ProcObs} {procs : List ProcObs} (h : EntryInv cfg ops log (some now) pid e)
    (ha : e.adopt = false) (hop : .observe now procs ∈ ops) (hp : p ∈ procs) (hpid : p.pid = pid)
    (hskip : p.skip = false) (hstart : sameStart e.started p.started = true) :
    EntryInv cfg ops log (some now) pid { e with points := appended cfg now p e, lastGood := now } := by
  obtain ⟨s, hs⟩ := isSome_iff_exists.mp (h.start ha)
  have hclose : |s - p.started| ≤ startTolerance := by simpa [sameStart, hs] using hstart
  have hq : Reading cfg ops pid e.started ⟨now, cfg.cpuPct ≤ p.cpuPct, p.cpuPct⟩ :=
    ⟨procs, hop, p, hp, hpid, hskip, ⟨s, hs, hclose⟩, rfl, rfl⟩
  rw [SustainedTracker.appended]
  split
  · exact (h.nil_points (some now)).snoc (q := ⟨now, _, _⟩) ha hq (by simp)
  · rename_i hst
    refine h.snoc (q := ⟨now, _, _⟩) ha hq fun l hl hi => ?_
    simp only [staleHistory, hl, Bool.and_eq_true, decide_eq_true_eq, not_and, not_lt] at hst
    exact hst hi

end EntryInv

def ForEntry (P : SustainedEntry → Prop) (o : Option SustainedEntry) : Prop := ∀ e, o = some e → P e

variable {procs : List ProcObs}

section
variable (h : ForEntry (EntryInv cfg ops log (some now) pid) o) (hop : .observe now procs ∈ ops)
include h hop

theorem entryInv_observeEntry (hp : p ∈ procs) (hpid : p.pid = pid) :
    ForEntry (EntryInv cfg ops log (some now) pid) (observeEntry cfg now o p) := by
  rw [observeEntry]
  cases hd : dropIfReused p o with
  | none =>
    split
    · exact nofun
    · rename_i hskip
      intro e he
      unfold record at he
      dsimp only at he
      split at he
      · have hnew : EntryInv cfg ops log (some now) pid
            ⟨p.name, some p.started, [], none, now, false⟩ :=
          ⟨by simp, by simp, fun _ => by simp, by simp, by simp, by simp, by simp, by simp⟩
        rw [recordInto_some he]
        exact (hnew.appended rfl hop hp hpid (by simpa using hskip) (by simp [sameStart, startTolerance,
          second])).trimPoints _
      · cases he
  | some d =>
    cases o with
    | none => cases hd
    | some e =>
      obtain ⟨hinv, hadopt, hstart⟩ := (h e rfl).dropIfReused hd
      intro e' he
      split at he
      · cases he
        exact hinv
      · rename_i hskip
        rw [recordInto_some he]
        exact (hinv.appended hadopt hop hp hpid (by simpa using hskip) hstart).trimPoints _

theorem entryInv_foldl {ps : List ProcObs} (hps : ∀ p ∈ ps, p ∈ procs ∧ p.pid = pid) :
    ForEntry (EntryInv cfg ops log (some now) pid) (ps.foldl (observeEntry cfg now) o) := by
  induction ps generalizing o with
  | nil => exact h
  | cons p ps ih =>
    obtain ⟨hp, hpid⟩ := hps p (by simp)
    exact ih (entryInv_observeEntry h hop hp hpid) fun p hp => hps p (.tail _ hp)

end

def TrackerInv (cfg : SustainedConfig) (log : TrackerLog) (t : SustainedTracker) : Prop :=
  t.cfg = cfg ∧ ∀ pid, ForEntry (EntryInv cfg (log.map Prod.fst) log t.last pid) t.entries[pid]?

variable {t : SustainedTracker}

theorem TrackerInv.self (h : TrackerInv cfg log t) : TrackerInv t.cfg log t := by
  obtain ⟨rfl, hinv⟩ := h
  exact ⟨rfl, hinv⟩

theorem mem_listings : p ∈ listings cfg procs pid ↔ p ∈ procs ∧ Tracked cfg p = true ∧ p.pid = pid := by
  simp [listings]

/-- The entry an observation starts from: without its readings after a gap. -/
def carried (now : ℤ) (t : SustainedTracker) (pid : ℤ) : Option SustainedEntry :=
  if isGap now t then t.entries[pid]?.bind resetEntry else t.entries[pid]?

theorem resetEntry_some (h : resetEntry e = some e') : e' = { e with points := [] } ∧ e.since ≠ none := by
  rw [resetEntry] at h
  split at h
  · cases h
  · rename_i hs
    exact ⟨(some.inj h).symm, by simp [hs]⟩

section
variable (h : TrackerInv cfg log t) (now : ℤ) (procs : List ProcObs) (pid : ℤ)
include h

theorem entryInv_carried :
    ForEntry (EntryInv cfg (log.map fst ++ [.observe now procs]) log (some now) pid) (carried now t pid) := by
  obtain ⟨hcfg, hinv⟩ := h
  intro e he
  rw [carried] at he
  cases hgap : isGap now t with
  | true =>
    rw [if_pos hgap, bind_eq_some_iff] at he
    obtain ⟨d, hd, he⟩ := he
    rw [(resetEntry_some he).1]
    refine ((hinv pid d hd).nil_points (some now)).mono ?_ ?_ ?_
    · exact subset_append_left _ _
    · exact fun _ h => h
    · exact fun l _ h => absurd rfl h
  | false =>
    rw [hgap] at he
    refine (hinv pid e he).mono (subset_append_left _ _) (fun _ h => h) ?_
    intro l hl _
    simp only [isGap, hl, Bool.or_eq_false_iff, decide_eq_false_iff_not, not_lt] at hgap
    exact ⟨now, rfl, hgap.2⟩

theorem entryInv_recorded :
    ForEntry (EntryInv cfg (log.map fst ++ [.observe now procs]) log (some now) pid)
      (recorded cfg (isGap now t) now (listings cfg procs pid) t.entries[pid]?) := by
  rw [recorded]
  split
  · intro e he
    cases he
  · exact entryInv_foldl (entryInv_carried h now procs pid) (mem_append_right _ (by simp))
      fun p hp => ⟨(mem_listings.mp hp).1, (mem_listings.mp hp).2.2⟩

end

theorem updateSince_some {inside : List CpuPoint} {s' : ℤ}
    (h : updateSince cfg now points inside (some s) = some s') : s' = s := by
  simp only [updateSince] at h
  split at h
  · cases h
  · exact (some.inj h).symm

section
variable (h : TrackerInv cfg log t)
include h

theorem trackerInv_observe (now : ℤ) (procs : List ProcObs) :
    TrackerInv cfg (log ++ [(TrackerOp.observe now procs, (observe now procs t).2)]) (observe now procs t).1 := by
  have hrec := fun pid => entryInv_recorded h now procs pid
  obtain ⟨rfl, -⟩ := h
  generalize hlog' : log ++ [(.observe now procs, (observe now procs t).2)] = log'
  have hlog : log ⊆ log' := by
    rw [← hlog']
    exact subset_append_left _ _
  refine ⟨rfl, fun pid e' he => ?_⟩
  rw [observe_entry, bind_eq_some_iff] at he
  obtain ⟨e, hr, he⟩ := he
  have hinv := hrec pid e hr
  have htrim : EntryInv t.cfg (log'.map fst) log' (some now) pid
      { e with points := evaluated t.cfg now e } :=
    (hinv.trimPoints _).mono (by simp [← hlog']) hlog
      fun l hl _ => ⟨l, hl, le_rfl⟩
  rcases evaluateEntry_cases t.cfg now pid e with ⟨-, hev⟩ | ⟨-, -, hev⟩ | ⟨-, hin, hev⟩
  · rw [hev] at he
    cases he
  · rw [hev] at he
    cases he
    exact htrim
  · have hknown (s : ℤ) (hs : updateSince t.cfg now (evaluated t.cfg now e) (inside t.cfg now e)
        e.since = some s) : Known log' pid e.name e.started s := by
      cases hsince : e.since with
      | none =>
        refine .inr ⟨(.observe now procs, (observe now procs t).2), by simp [← hlog'],
          ⟨pid, e.name, e.started, s, now - s, (summarize (inside t.cfg now e)).2,
            (summarize (inside t.cfg now e)).1⟩, mem_observe.mpr ⟨e, hr, ?_⟩, rfl, rfl, rfl, rfl⟩
        rw [hev, hs]
        rfl
      | some s' =>
        rw [hsince] at hs
        rw [updateSince_some hs]
        exact (hinv.known s' hsince).mono hlog
    rw [hev] at he
    cases he
    refine ⟨htrim.sorted, htrim.upto, htrim.close, htrim.real, htrim.good, fun ha => ?_, htrim.start, hknown⟩
    exact absurd (by simp [inside, evaluated, (hinv.adopt ha).1, trimPoints, inWindow]) hin

theorem trackerInv_seed (now pid : ℤ) (name : String) (since started : Option ℤ) :
    TrackerInv cfg (log ++ [(TrackerOp.seed now pid name since started, [])]) (seed now pid name since started t) := by
  refine ⟨h.1, fun pid' e' he => ?_⟩
  change (t.entries.insert pid _)[pid']? = some e' at he
  rw [getElem?_insert_eq] at he
  split at he
  · rename_i hpid
    subst hpid
    cases he
    have hseed (s : ℤ) (hs : since = some s) :
        Seeded (log ++ [(.seed now pid name since started, [])]) pid name s :=
      ⟨now, started, [], by simp [hs]⟩
    exact ⟨by simp, by simp, by simp, by simp, by simp, fun _ => ⟨rfl, hseed⟩, by simp, fun s hs => .inl (hseed s hs)⟩
  · refine (h.2 pid' e' he).mono ?_ (subset_append_left _ _) fun l hl _ => ⟨l, hl, le_rfl⟩
    rw [map_append]
    exact subset_append_left _ _

theorem trackerInv_step (op : TrackerOp) : TrackerInv cfg (log ++ [(op, (step op t).2)]) (step op t).1 := by
  cases op with
  | observe now procs => exact trackerInv_observe h now procs
  | seed now pid name since started => exact trackerInv_seed h now pid name since started

theorem trackerInv_run (ops : List TrackerOp) : TrackerInv cfg (log ++ (run ops t).2) (run ops t).1 := by
  induction ops generalizing t log with
  | nil => simpa [run] using h
  | cons op ops ih =>
    have := ih (trackerInv_step h op)
    rwa [append_assoc] at this

end

theorem trackerInv_new (cfg : SustainedConfig) (ops : List TrackerOp) :
    TrackerInv cfg (run ops (new cfg)).2 (run ops (new cfg)).1 := by
  have h : TrackerInv cfg [] (new cfg) := ⟨rfl, fun pid e he => by simp [new] at he⟩
  exact trackerInv_run h ops

theorem run_ops (ops : List TrackerOp) (t : SustainedTracker) : (run ops t).2.map fst = ops := by
  induction ops generalizing t with
  | nil => rfl
  | cons op ops ih =>
    change op :: (run ops (step op t).1).2.map fst = _
    rw [ih]

theorem not_known {ops : List TrackerOp} (hquiet : ∀ x ∈ (run ops t).2, x.2 = [])
    (hseed : ∀ now pid name since started, TrackerOp.seed now pid name since started ∉ ops) :
    ¬ Known (run ops t).2 pid name started s := by
  intro h
  rcases h with ⟨now, started, out, hmem⟩ | ⟨x, hx, f, hf, -⟩
  · have hop := mem_map_of_mem (f := fst) hmem
    rw [run_ops] at hop
    exact hseed _ _ _ _ _ hop
  · rw [hquiet x hx] at hf
    cases hf

def windowReadings (cfg : SustainedConfig) (now : ℤ) (points : List CpuPoint) : List CpuPoint :=
  points.filter fun q => now - cfg.window ≤ q.time ∧ q.time ≤ now

def busyReadings (cfg : SustainedConfig) (points : List CpuPoint) : ℕ :=
  points.countP fun q => cfg.cpuPct ≤ q.cpu

variable (h : EntryInv cfg ops log (some now) pid e)
include h

theorem EntryInv.upto_now {q : CpuPoint} (hq : q ∈ e.points) : q.time ≤ now := by
  obtain ⟨l, hl, hle⟩ := h.upto q hq
  rwa [← some.inj hl] at hle

theorem windowReadings_eq_filter :
    windowReadings cfg now e.points = e.points.filter fun q => now - cfg.window ≤ q.time := by
  apply filter_congr
  intro q hq
  simp [h.upto_now hq]

theorem inside_eq : inside cfg now e = windowReadings cfg now e.points := by
  rw [inside, evaluated, inWindow_trimPoints h.sorted, windowReadings_eq_filter h]

theorem windowReadings_evaluated : windowReadings cfg now (evaluated cfg now e) = windowReadings cfg now e.points := by
  rw [windowReadings_eq_filter h, ← filter_trimPoints h.sorted]
  exact windowReadings_eq_filter (h.trimPoints (now - cfg.window))

theorem busyReadings_inside : busyReadings cfg (inside cfg now e) = countAbove (inside cfg now e) := by
  rw [inside_eq h]
  apply countP_congr
  intro q hq
  obtain ⟨procs, -, p, -, -, -, -, hcpu, habove⟩ := h.real q (mem_of_mem_filter hq)
  rw [hcpu, habove]

end SustainedTracker
end Spectra.Hostwatch
