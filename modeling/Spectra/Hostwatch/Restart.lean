import Spectra.Hostwatch.EngineRuns
import Spectra.Hostwatch.Service
import Spectra.Hostwatch.SustainedCarry

/-! Sustained alerts across a restart of the daemon. -/
namespace Spectra.Hostwatch
open Library SustainedTracker List Condition GoPath GoText KeyView Prod SustainedState Service Option

namespace SustainedState

def keyIdent (key : String) : Option (String × ℤ) :=
  if hasPrefix key sustainedKeyPrefix = false then none
  else
    match GoText.splitLast ':' (key.toList.drop sustainedKeyPrefix.length) with
    | none => none
    | some (name, pid) => (GoText.atoi (String.ofList pid)).map fun pid => (String.ofList name, pid)

variable {a : Alert}

theorem restoredProc_eq (hstate : a.state = .firing) :
    restoredProc a = (keyIdent a.key).filter fun id => decide (0 < id.2) := by
  rw [restoredProc, keyIdent]
  cases hasPrefix a.key sustainedKeyPrefix with
  | false => simp
  | true =>
    simp only [hstate]
    cases splitLast ':' (a.key.toList.drop sustainedKeyPrefix.length) with
    | none => rfl
    | some x =>
      dsimp only
      cases atoi (String.ofList x.2) with
      | none => rfl
      | some pid => simp [Option.filter]

/-- The key of an alert on a process names the process again. -/
theorem keyIdent_sustainedKey {f : SustainedFinding} (hmin : -2 ^ 63 ≤ f.pid)
    (hmax : f.pid < 2 ^ 63) : keyIdent (sustainedKey f) = some (base f.name, f.pid) := by
  have hlist : (sustainedKey f).toList = sustainedKeyPrefix.toList ++
      ((base f.name).toList ++ ':' :: (itoa f.pid).toList) := by
    simp [sustainedKey]
  have hstarts : hasPrefix (sustainedKey f) sustainedKeyPrefix = true := by
    rw [hasPrefix, hlist]
    simp
  have hdrop : (sustainedKey f).toList.drop sustainedKeyPrefix.length =
      (base f.name).toList ++ ':' :: (itoa f.pid).toList := by
    rw [hlist, ← String.length_toList, drop_left]
  have hcolon : ':' ∉ (itoa f.pid).toList := by
    intro h
    rcases mem_itoa h with h | h
    · exact absurd h (by decide)
    · exact absurd h.2 (by decide)
  rw [keyIdent, hstarts, hdrop, splitLast_append _ hcolon]
  dsimp only
  rw [String.ofList_toList, String.ofList_toList, atoi_itoa_of_int64 hmin hmax]
  rfl

theorem restoredProc_sustainedKey {f : SustainedFinding} (hstate : a.state = .firing)
    (hkey : a.key = sustainedKey f) (hpid : 0 < f.pid) (hmax : f.pid < 2 ^ 63) :
    restoredProc a = some (base f.name, f.pid) := by
  rw [restoredProc_eq hstate, hkey, keyIdent_sustainedKey (by omega) hmax]
  exact if_pos (decide_eq_true hpid)

variable {text : DetailText} {now : ℤ} {t : SustainedTracker} {pid : ℤ}

theorem seedAlert_eq {name : String} (h : restoredProc a = some (name, pid)) :
    seedAlert text now t a = t.seed now pid name
      (some (restoredSince (text.parse a.detail) a)) (text.parse a.detail).started := by
  rw [seedAlert, h]

theorem seedAlert_frame (h : ∀ name, restoredProc a ≠ some (name, pid)) :
    (seedAlert text now t a).entries[pid]? = t.entries[pid]? := by
  cases hr : restoredProc a with
  | none =>
    rw [seedAlert, hr]
  | some x =>
    obtain ⟨name, pid'⟩ := x
    have hne : pid' ≠ pid := fun heq => h name (heq ▸ hr)
    rw [seedAlert_eq hr]
    change (t.entries.insert pid' _)[pid]? = _
    rw [getElem?_insert_eq, if_neg hne]

theorem seedAlerts_frame {alerts : List Alert} (h : ∀ a ∈ alerts, ∀ name, restoredProc a ≠ some (name, pid)) :
    (alerts.foldl (seedAlert text now) t).entries[pid]? = t.entries[pid]? := by
  induction alerts generalizing t with
  | nil => rfl
  | cons a alerts ih =>
    rw [foldl_cons, ih fun b hb => h b (.tail _ hb), seedAlert_frame (h a (by simp))]

theorem seedAlerts_entry (text : DetailText) (now : ℤ) (t : SustainedTracker)
    (before : List Alert) {after : List Alert} {name : String} (ha : restoredProc a = some (name, pid))
    (hlast : ∀ b ∈ after, ∀ name, restoredProc b ≠ some (name, pid)) :
    ((before ++ a :: after).foldl (seedAlert text now) t).entries[pid]? =
      some ⟨name, (text.parse a.detail).started, [], some (restoredSince (text.parse a.detail) a), now, true⟩ := by
  rw [foldl_append, foldl_cons, seedAlerts_frame hlast, seedAlert_eq ha]
  exact Std.ExtTreeMap.getElem?_insert_self

theorem trackerInv_seedAlerts {cfg : SustainedConfig} {log : TrackerLog} (text : DetailText)
    (now : ℤ) (alerts : List Alert) (h : TrackerInv cfg log t) :
    ∃ log', TrackerInv cfg log' (alerts.foldl (seedAlert text now) t) := by
  induction alerts generalizing t log with
  | nil => exact ⟨log, h⟩
  | cons a alerts ih =>
    rw [foldl_cons]
    cases hr : restoredProc a with
    | none =>
      rw [seedAlert, hr]
      exact ih h
    | some x =>
      rw [seedAlert_eq hr]
      exact ih (trackerInv_seed h now x.2 x.1 _ _)

end SustainedState

namespace Engine

theorem restore_frame {alerts : List Alert} {k : String}
    (h : ∀ a ∈ alerts, a.state = .firing → a.key ≠ k) (e : Engine) : (e.restore alerts).view k = e.view k := by
  induction alerts generalizing e with
  | nil => rfl
  | cons a alerts ih =>
    rw [restore, ih fun b hb => h b (.tail _ hb)]
    split
    · rename_i hs
      rw [view_setActive, if_neg (h a (by simp) hs)]
    · rfl

theorem restore_append_cons (before : List Alert) {after : List Alert} {a : Alert} (hs : a.state = .firing)
    (h : ∀ b ∈ after, b.state = .firing → b.key ≠ a.key) (e : Engine) :
    ((e.restore (before ++ a :: after)).view a.key).alert = some a := by
  induction before generalizing e with
  | nil =>
    rw [nil_append, restore, if_pos hs, restore_frame h, view_setActive, if_pos rfl]
  | cons b before ih => exact ih _

theorem restore_clears (alerts : List Alert) (e : Engine) : (e.restore alerts).clears = e.clears := by
  induction alerts generalizing e with
  | nil => rfl
  | cons a alerts ih =>
    rw [restore, ih]
    split <;> rfl

end Engine

/-- The calls of `TickSustained` after a restart, with what each finds. -/
structure Tick where
  rt : Runtime
  now : ℤ
  probe : ProbeInput
  outcomes : Stream' Bool

namespace Service
variable {text : DetailText}

def tick (text : DetailText) (x : Tick) (s : Service) : Service × List Event :=
  s.tickSustained text x.rt x.now x.probe x.outcomes

def runTicks (text : DetailText) : List Tick → Service → Service × List (List Event)
  | [], s => (s, [])
  | x :: ticks, s =>
    let (s, out) := s.tick text x
    let (s, outs) := runTicks text ticks s
    (s, out :: outs)

theorem renderConditions_keys (sample : ℤ → String × Bool) (table : PidMap ProcObs) (now : ℤ)
    (os : Os) (fs : List SustainedFinding) (budget : ℕ) (summaries : KeyMap SampleSummary) :
    (renderConditions text sample table now os fs budget summaries).1.map key = fs.map sustainedKey := by
  induction fs generalizing budget summaries with
  | nil => rfl
  | cons f fs ih =>
    rw [map_cons, ← ih]
    rfl

/-- What the tracker is given on one tick. -/
def observed (x : Tick) (procs : List ProcObs) (s : Service) : List ProcObs :=
  ({ s.sustained with failures := 0 }.cpuObservations x.probe.stat procs x.now).2

theorem cpuObservations_fst (stat : ℤ → Option ℤ) (procs : List ProcObs) (now : ℤ) (st : SustainedState) :
    (st.cpuObservations stat procs now).1.tracker = st.tracker ∧ (st.cpuObservations stat procs now).1.os = st.os := by
  rw [cpuObservations]
  split <;> exact ⟨rfl, rfl⟩

variable {procs : List ProcObs}

theorem sustainedConditions_eq {probe : ProbeInput} (hps : probe.ps = some procs) (now : ℤ) (st : SustainedState) :
    st.sustainedConditions text probe now =
      let r := { st with failures := 0 }.cpuObservations probe.stat procs now
      let o := r.1.tracker.observe now r.2
      let c := renderConditions text probe.sample
        (procs.foldl (fun table p => table.insert p.pid p) ∅) now r.1.os o.2 1 r.1.summaries
      ({ r.1 with tracker := o.1,
                  summaries := c.2.filter fun key _ => decide (key ∈ o.2.map sustainedKey) },
        some c.1) := by
  rw [sustainedConditions, hps]

variable (text : DetailText) {x : Tick} (hps : x.probe.ps = some procs) (s : Service)
include hps

theorem sustainedConditions_spec :
    let r := s.sustained.tracker.observe x.now (s.observed x procs)
    ∃ st conds, s.sustained.sustainedConditions text x.probe x.now = (st, some conds) ∧
      conds.map key = r.2.map sustainedKey ∧ st.tracker = r.1 ∧
      st.os = s.sustained.os ∧
      st.prev = ({ s.sustained with failures := 0 }.cpuObservations x.probe.stat procs x.now).1.prev := by
  obtain ⟨htracker, hos⟩ :=
    cpuObservations_fst x.probe.stat procs x.now { s.sustained with failures := 0 }
  rw [sustainedConditions_eq hps, observed]
  refine ⟨_, _, rfl, ?_, ?_, hos, rfl⟩
  · rw [renderConditions_keys, htracker]
  · rw [htracker]

/-- A tick whose `ps` succeeds: the tracker observes, its findings are evaluated, and no
event but an update is added to those of the engine. -/
theorem tick_spec :
    let r := s.sustained.tracker.observe x.now (s.observed x procs)
    ∃ conds, conds.map key = r.2.map sustainedKey ∧
      (s.tick text x).1.engine = (s.engine.step x.rt (.evaluateSustained x.now conds)).1 ∧
      (∀ ev ∈ (s.tick text x).2, ev ∈ (s.engine.step x.rt (.evaluateSustained x.now conds)).2 ∨ ev.type = .updated) ∧
      (∀ ev ∈ (s.engine.step x.rt (.evaluateSustained x.now conds)).2, ev ∈ (s.tick text x).2) ∧
      (s.tick text x).1.sustained.tracker = r.1 ∧
      (s.tick text x).1.sustained.os = s.sustained.os ∧
      (s.tick text x).1.sustained.prev =
        ({ s.sustained with failures := 0 }.cpuObservations x.probe.stat procs x.now).1.prev := by
  obtain ⟨st, conds, hst, hkeys, htracker, hos, hprev⟩ :=
    sustainedConditions_spec text hps s
  unfold tick tickSustained
  rw [hst]
  refine ⟨conds, hkeys, rfl, fun ev hev => ?_, fun ev hev => ?_, htracker, hos, hprev⟩
  · rcases mem_append.mp hev with hev | hev
    · exact .inl hev
    · obtain ⟨a, -, rfl⟩ := mem_map.mp hev
      exact .inr rfl
  · exact mem_append_left _ hev

end Service

section
variable {e : Engine} {k : String} {a : Alert} {conds : List Condition}

theorem KeyView.applyAll_updated {v : KeyView} {now : ℤ} (scope : Scope) (topPID : ℤ) (id : String)
    (cs : List Condition) (h : v.alert.isSome) : ∀ ev ∈ (v.applyAll now scope topPID id cs).2, ev.type = .updated := by
  induction cs generalizing v with
  | nil => simp [applyAll]
  | cons c cs ih =>
    intro ev hev
    rcases mem_append.mp hev with hev | hev
    · obtain ⟨a, ha⟩ := isSome_iff_exists.mp h
      simp only [ha, mem_toList] at hev
      split at hev
      · rw [← some.inj hev]
      · cases hev
    · exact ih apply_alert_isSome ev hev

theorem scopeOf_sustainedKey (f : SustainedFinding) : scopeOf (sustainedKey f) = .sustained := by
  refine (withinScope_iff.mp ?_).symm
  rw [sustainedKey, String.append_assoc, String.append_assoc]
  simp [withinScope, hasPrefix]

theorem Engine.evaluateSustained_cases (rt : Runtime) (now : ℤ) (conds : List Condition)
    (e : Engine) (hk : scopeOf k = .sustained) :
    let r := stepEmit rt (.evaluateSustained now conds) e
    (k ∈ conds.map key ∧ ∃ now topPID i,
      let s := (e.view k).applyAll now .sustained topPID (e.ids.get i) (conds.filter (·.key = k))
      r.1.view k = s.1 ∧ eventsOf k r.2 = s.2) ∨
    (k ∉ conds.map key ∧ ∃ now, r.1.view k = ((e.view k).miss now 2).1 ∧
      eventsOf k r.2 = ((e.view k).miss now 2).2.toList) := by
  rcases stepEmit_key rt (.evaluateSustained now conds) e k with ⟨hop, -⟩ | ⟨cs, hop, hcases⟩
  · exact absurd (by rw [hk]; rfl) (hop conds)
  · rw [hk] at hop hcases
    obtain rfl : conds = cs := by simpa [Op.evaluation] using hop
    exact hcases

variable (rt : Runtime) (now : ℤ) (hk : scopeOf k = .sustained) (ha : e.active[k]? = some a)
include hk ha

/-- An evaluation that holds a condition for an active alert updates it at most. -/
theorem Engine.evaluateSustained_hit (hc : k ∈ conds.map key) :
    (∃ b, (e.step rt (.evaluateSustained now conds)).1.active[k]? = some b ∧ a.Keeps b) ∧
      ∀ ev ∈ (e.step rt (.evaluateSustained now conds)).2, ev.alert.key = k → ev.type = .updated := by
  have hview : (e.view k).alert = some a := ha
  rcases evaluateSustained_cases rt now conds e hk with ⟨-, now', topPID, i, hv, hout⟩ | ⟨hn, -⟩
  · obtain ⟨hb, -⟩ := (hit_applyAll (v := e.view k) now' .sustained topPID (e.ids.get i)
      (filter_ne_nil hc)).keeps a hview
    rw [← hv] at hb
    refine ⟨hb, fun ev hev hkey => ?_⟩
    have hmem : ev ∈ eventsOf k (stepEmit rt (.evaluateSustained now conds) e).2 :=
      mem_filter.mpr ⟨mem_step.mp hev, by simpa using hkey⟩
    rw [hout] at hmem
    exact applyAll_updated _ _ _ _ (by simp [hview]) ev hmem
  · exact absurd hc hn

/-- An evaluation without a condition for an active alert counts a miss, or resolves it on
the second in a row. -/
theorem Engine.evaluateSustained_miss (hc : k ∉ conds.map key) :
    let r := e.step rt (.evaluateSustained now conds)
    (e.clears[k]?.getD 0 < 1 → r.1.active[k]? = some a ∧
      r.1.clears[k]? = some (e.clears[k]?.getD 0 + 1) ∧ ∀ ev ∈ r.2, ev.alert.key ≠ k) ∧
    (1 ≤ e.clears[k]?.getD 0 → ∃ ev ∈ r.2, ev.alert.key = k ∧ ev.type = .resolved) := by
  have hview : (e.view k).alert = some a := ha
  rcases evaluateSustained_cases rt now conds e hk with ⟨hin, -⟩ | ⟨-, now', hv, hout⟩
  · exact absurd hin hc
  · have hmiss := miss_spec now' 2 hview
    have hevents (ev : Event) : ev ∈ (e.step rt (.evaluateSustained now conds)).2 ∧
        ev.alert.key = k ↔ ev ∈ eventsOf k (stepEmit rt (.evaluateSustained now conds) e).2 := by
      rw [mem_step, eventsOf, mem_filter, decide_eq_true_eq]
    change if e.clears[k]?.getD 0 + 1 < 2 then _ else _ at hmiss
    refine ⟨fun hlt => ?_, fun hle => ?_⟩
    · rw [if_pos (by omega)] at hmiss
      rw [hmiss] at hv hout
      refine ⟨congrArg alert hv, congrArg clear hv, fun ev hev hkey => ?_⟩
      have hmem := (hevents ev).mp ⟨hev, hkey⟩
      rw [hout] at hmem
      cases hmem
    · rw [if_neg (by omega)] at hmiss
      rw [hmiss] at hout
      obtain ⟨hev, hkey⟩ := (hevents ⟨.resolved, resolve a now'⟩).mpr (by simp [hout])
      exact ⟨_, hev, hkey, rfl⟩

end

private theorem trackerConfig_window (opts : ServiceOptions) : 0 < opts.trackerConfig.window := by
  unfold ServiceOptions.trackerConfig initSustained validateWatchInterval sustainedWindowIntervals
  generalize hi : (if opts.interval ≤ 0 then 15 * second else opts.interval) = interval
  have hpos : 0 < interval := by
    rw [← hi]
    split
    · decide
    · omega
  generalize (if opts.sustained.window ≤ 0 then _ else _) = cfg
  dsimp only
  split
  · omega
  · dsimp only
    omega

/-- The process of a finding as one tick lists it: with the same name, its start within the
tolerance of the one the alert's detail names, and every `/proc` read succeeding. -/
structure Listed (cfg : SustainedConfig) (f : SustainedFinding) (id : RestoredIdent) (x : Tick)
    (p : ProcObs) : Prop where
  listed : ∃ procs, x.probe.ps = some procs ∧ listings cfg procs f.pid = [p]
  name : GoPath.base p.name = GoPath.base f.name
  read : p.skip = false
  start : ∀ s ∈ id.started, |s - p.started| ≤ startTolerance
  stat : ∀ pid, (x.probe.stat pid).isSome

section
variable {cfg : SustainedConfig} {log : TrackerLog} {t : SustainedTracker} {now : ℤ}
  {e : SustainedEntry} {p : ProcObs}

/-- A reading at the threshold disproves nothing. -/
theorem not_disproved_of_busy (hw : 0 ≤ t.cfg.window) (hread : p.skip = false)
    (hbusy : t.cfg.cpuPct ≤ p.cpuPct) : ¬ Disproved t.cfg now (freshReadings now e p t) := by
  rintro ⟨-, -, hlast⟩
  have hfresh : ∃ l, freshReadings now e p t = l ++ [⟨now, t.cfg.cpuPct ≤ p.cpuPct, p.cpuPct⟩] := by
    unfold freshReadings appended
    rw [hread]
    exact ⟨_, rfl⟩
  obtain ⟨l, hl⟩ := hfresh
  have hsnoc : windowReadings t.cfg now (freshReadings now e p t) =
      windowReadings t.cfg now l ++ [⟨now, t.cfg.cpuPct ≤ p.cpuPct, p.cpuPct⟩] := by
    rw [hl, windowReadings, windowReadings]
    simp [hw]
  rw [hsnoc] at hlast
  have hmem := hlast ⟨now, t.cfg.cpuPct ≤ p.cpuPct, p.cpuPct⟩ (by
    rw [drop_append]
    exact mem_append_right _ (by simp))
  exact absurd hmem (not_lt.mpr hbusy)

private theorem not_aged_of_read (hw : 0 < cfg.window) (hread : p.skip = false) : ¬ Aged cfg now e p := by
  rw [Aged, hread]
  simp only [Bool.false_eq_true, if_false]
  omega

end

/-- The tracker carries the finding of an alert for every listing of its process, and the
alert is active. -/
structure Kept (cfg : SustainedConfig) (f : SustainedFinding) (ps : List ProcObs) (s : Service) :
    Prop where
  inv : ∃ log, TrackerInv cfg log s.sustained.tracker
  entry : ∃ e since, s.sustained.tracker.entries[f.pid]? = some e ∧ e.since = some since ∧
    e.name = GoPath.base f.name ∧ ∀ p ∈ ps, SameProcess e p
  alert : ∃ a, s.engine.active[sustainedKey f]? = some a

variable {text : DetailText} {cfg : SustainedConfig} {f : SustainedFinding}
  {ident : RestoredIdent} {ps : List ProcObs} {s : Service} {x : Tick} {p : ProcObs}

private theorem observed_of_ne_linux (hos : s.sustained.os ≠ .linux) (procs : List ProcObs) :
    s.observed x procs = procs := by
  unfold observed cpuObservations
  rw [if_pos hos]

/-- Where usage comes from `ps`, a tick that lists the busy process keeps its alert. -/
theorem Kept.tick (text : DetailText) (h : Kept cfg f ps s) (hw : 0 < cfg.window) (hos : s.sustained.os ≠ .linux)
    (hx : Listed cfg f ident x p) (hp : p ∈ ps) (hbusy : cfg.cpuPct ≤ p.cpuPct)
    (hstart : ∀ q ∈ ps, |p.started - q.started| ≤ startTolerance) :
    Kept cfg f ps (s.tick text x).1 ∧ ∀ ev ∈ (s.tick text x).2, ev.alert.key = sustainedKey f → ev.type = .updated := by
  obtain ⟨⟨log, hinv⟩, ⟨e, since, he, hs, hname, hsame⟩, ⟨a, ha⟩⟩ := h
  obtain ⟨procs, hps, hl⟩ := hx.listed
  obtain ⟨conds, hkeys, hengine, hevents, -, htracker, -, -⟩ := tick_spec text hps s
  rw [observed_of_ne_linux hos] at hkeys htracker
  obtain ⟨hcfg, -⟩ := id hinv
  have hc : Continues f.pid (.observe x.now procs) s.sustained.tracker := by
    refine ⟨p, hcfg ▸ hl, fun e' he' => ?_⟩
    obtain rfl := mem_unique he he'
    rw [hcfg]
    exact ⟨hsame p hp, not_aged_of_read hw hx.read, hcfg ▸ not_disproved_of_busy (hcfg ▸ hw.le) hx.read (hcfg ▸ hbusy)⟩
  obtain ⟨⟨e', he', hs', hfollows⟩, hfound, hread⟩ := observe_continues hinv.self he hs hc
  have hreads : HasReading x.now procs f.pid s.sustained.tracker :=
    .inl ⟨p, by simp [hcfg, hl], hx.read⟩
  obtain ⟨g, hg, hgpid⟩ := hread.mpr hreads
  have hgkey : sustainedKey g = sustainedKey f := by
    rw [sustainedKey, sustainedKey, (hfound g hg hgpid).2, hname, hgpid, base_base]
  have hmem : sustainedKey f ∈ conds.map key := by
    rw [hkeys, ← hgkey]
    exact mem_map_of_mem hg
  obtain ⟨⟨b, hb, -⟩, hupdated⟩ :=
    Engine.evaluateSustained_hit x.rt x.now (scopeOf_sustainedKey f) ha hmem
  have hf := hfollows p (by simp [hcfg, hl])
  refine ⟨⟨⟨_, htracker ▸ trackerInv_observe hinv x.now procs⟩,
    ⟨e', since, htracker ▸ he', hs', hf.name.trans hname, fun q hq => ?_⟩, ⟨b, hengine ▸ hb⟩⟩, ?_⟩
  · refine ⟨?_, fun hadopt => absurd hadopt (by simp [hf.adopt])⟩
    rw [hf.started]
    split
    · simpa [sameStart] using hstart q hq
    · exact (hsame q hq).1
  · intro ev hev hkey
    rcases hevents ev hev with hev | hev
    · exact hupdated ev hev hkey
    · exact hev

/-- Where usage comes from `ps`, the alert of a busy process is never resolved nor fired
again. -/
theorem Kept.runTicks {ticks : List (Tick × ProcObs)} (h : Kept cfg f ps s) (hw : 0 < cfg.window)
    (hos : s.sustained.os ≠ .linux) (hx : ∀ x ∈ ticks, Listed cfg f ident x.1 x.2 ∧ x.2 ∈ ps ∧ cfg.cpuPct ≤ x.2.cpuPct)
    (hstart : ∀ p ∈ ps, ∀ q ∈ ps, |p.started - q.started| ≤ startTolerance) :
    ∀ out ∈ (runTicks text (ticks.map fst) s).2, ∀ ev ∈ out,
      ev.alert.key = sustainedKey f → ev.type = .updated := by
  induction ticks generalizing s with
  | nil => simp [runTicks]
  | cons x ticks ih =>
    obtain ⟨hlisted, hp, hbusy⟩ := hx x (by simp)
    obtain ⟨hkept, hupdated⟩ := h.tick text hw hos hlisted hp hbusy (hstart x.2 hp)
    obtain ⟨procs, hps, -⟩ := hlisted.listed
    obtain ⟨-, -, -, -, -, -, hos', -⟩ := tick_spec text hps s
    intro out hout
    rcases mem_cons.mp hout with rfl | hout
    · exact hupdated
    · exact ih hkept (hos' ▸ hos) (fun y hy => hx y (.tail _ hy)) out hout

/-- Only readings of this moment, and not sustained. -/
def NewEntry (now : ℤ) (e : SustainedEntry) : Prop := e.since = none ∧ ∀ q ∈ e.points, q.time = now

theorem newEntry_recordInto {now : ℤ} {e : SustainedEntry} (h : NewEntry now e) :
    ForEntry (NewEntry now) (recordInto cfg now p e) := by
  intro e' he
  rw [recordInto_some he]
  refine ⟨h.1, fun q hq => ?_⟩
  have hq := (trimPoints_suffix _).subset hq
  rcases mem_append.mp hq with hq | hq
  · split at hq
    · cases hq
    · exact h.2 q hq
  · rw [mem_singleton.mp hq]

private theorem newEntry_observeEntry {now : ℤ} {o : Option SustainedEntry}
    (h : ForEntry (NewEntry now) o) : ForEntry (NewEntry now) (observeEntry cfg now o p) := by
  have hdrop : ForEntry (NewEntry now) (dropIfReused p o) := by
    intro e' he
    obtain ⟨e, rfl, hp, hs, -⟩ := dropIfReused_keeps he
    exact ⟨hs.trans (h e rfl).1, fun q hq => (h e rfl).2 q (hp ▸ hq)⟩
  rw [observeEntry]
  split
  · exact hdrop
  · cases hd : dropIfReused p o with
    | some d => exact newEntry_recordInto (hdrop d hd)
    | none =>
      rw [record]
      split
      · exact newEntry_recordInto ⟨rfl, by simp⟩
      · intro e he
        cases he

/-- A tracker that tracks nothing reports nothing on its next observation. -/
theorem observe_of_empty {t : SustainedTracker} (hw : 0 < t.cfg.window)
    (h : ∀ pid : ℤ, t.entries[pid]? = none) (now : ℤ) (procs : List ProcObs) : (observe now procs t).2 = [] := by
  rw [eq_nil_iff_forall_not_mem]
  intro g hg
  obtain ⟨e, hrec, hev⟩ := mem_observe.mp hg
  have hnew : NewEntry now e := by
    rw [recorded, h] at hrec
    split at hrec
    · cases hrec
    · refine foldlRecOn (motive := ForEntry (NewEntry now)) _ _ ?_ (fun _ h _ _ => newEntry_observeEntry h) e hrec
      intro e' he
      split at he <;> cases he
  obtain ⟨-, -, -, hup, -⟩ := evaluateEntry_finding hev
  rw [hnew.1] at hup
  simp only [updateSince] at hup
  split at hup
  · rename_i hc
    cases hpts : evaluated t.cfg now e with
    | nil => simp [hpts] at hc
    | cons q rest =>
      have hq : q ∈ e.points := (trimPoints_suffix _).subset (by
        change q ∈ evaluated t.cfg now e
        simp [hpts])
      simp [hpts, hnew.2 q hq, not_le.mpr hw] at hc
  · cases hup

private theorem observe_nil_out (now : ℤ) (t : SustainedTracker) : (observe now [] t).2 = [] := by
  rw [eq_nil_iff_forall_not_mem]
  intro g hg
  obtain ⟨e, hrec, -⟩ := mem_observe.mp hg
  cases hrec

private theorem observed_of_linux (hos : s.sustained.os = .linux) (hprev : s.sustained.prev = ∅)
    (hstat : ∀ pid, (x.probe.stat pid).isSome) (procs : List ProcObs) : s.observed x procs = [] := by
  unfold observed cpuObservations
  rw [if_neg (by simp [hos]), filterMap_eq_nil_iff]
  intro p _
  obtain ⟨cpu, hcpu⟩ := isSome_iff_exists.mp (hstat p.pid)
  simp [cpuObservation, hcpu, hprev]

variable (text : DetailText) {procs : List ProcObs} {a : Alert}

/-- On Linux the first tick after a restart misses the alert and forgets its process. -/
theorem linux_first_tick (hos : s.sustained.os = .linux) (hprev : s.sustained.prev = ∅)
    (ha : s.engine.active[sustainedKey f]? = some a)
    (hclear : s.engine.clears[sustainedKey f]? = none) (hps : x.probe.ps = some procs)
    (hstat : ∀ pid, (x.probe.stat pid).isSome) :
    (∀ ev ∈ (s.tick text x).2, ev.alert.key = sustainedKey f → ev.type = .updated) ∧
      (s.tick text x).1.engine.active[sustainedKey f]? = some a ∧
      (s.tick text x).1.engine.clears[sustainedKey f]? = some 1 ∧
      (s.tick text x).1.sustained.tracker = (observe x.now [] s.sustained.tracker).1 := by
  obtain ⟨conds, hkeys, hengine, hevents, -, htracker, -, -⟩ := tick_spec text hps s
  rw [observed_of_linux hos hprev hstat] at hkeys htracker
  have hmiss : sustainedKey f ∉ conds.map key := by simp [hkeys, observe_nil_out]
  obtain ⟨hquiet, -⟩ :=
    Engine.evaluateSustained_miss x.rt x.now (scopeOf_sustainedKey f) ha hmiss
  obtain ⟨ha', hclear', hnone⟩ := hquiet (by simp [hclear])
  refine ⟨fun ev hev hkey => ?_, hengine ▸ ha', ?_, htracker⟩
  · rcases hevents ev hev with hev | hev
    · exact absurd hkey (hnone ev hev)
    · exact hev
  · rw [hengine, hclear', hclear]
    rfl

/-- The next tick, with nothing tracked yet, resolves it. -/
theorem linux_second_tick (hw : 0 < s.sustained.tracker.cfg.window)
    (hempty : ∀ pid : ℤ, s.sustained.tracker.entries[pid]? = none)
    (ha : s.engine.active[sustainedKey f]? = some a)
    (hclear : s.engine.clears[sustainedKey f]? = some 1) (hps : x.probe.ps = some procs) :
    ∃ ev ∈ (s.tick text x).2, ev.alert.key = sustainedKey f ∧ ev.type = .resolved := by
  obtain ⟨conds, hkeys, -, -, hevents, -⟩ := tick_spec text hps s
  rw [observe_of_empty hw hempty] at hkeys
  have hmiss : sustainedKey f ∉ conds.map key := by simp [hkeys]
  obtain ⟨-, hresolve⟩ :=
    Engine.evaluateSustained_miss x.rt x.now (scopeOf_sustainedKey f) ha hmiss
  obtain ⟨ev, hev, hkey, htype⟩ := hresolve (by simp [hclear])
  exact ⟨ev, hevents ev hev, hkey, htype⟩

/-- The service after a restart, as to one firing alert: no later row claims its process. -/
theorem kept_restore (text : DetailText) (opts : ServiceOptions) (store : AlertTable) (now : ℤ)
    (before : List AlertRow) {after : List AlertRow} {r : AlertRow} (hstate : r.state = .firing)
    (hkey : r.key = sustainedKey f)
    (hpid : 0 < f.pid) (hmax : f.pid < 2 ^ 63)
    (hlast : ∀ r' ∈ after, ∀ name, restoredProc (fromRow r') ≠ some (name, f.pid))
    (hps : ∀ p ∈ ps, base p.name = base f.name ∧
      ∀ s ∈ (text.parse r.detail).started, |s - p.started| ≤ startTolerance) :
    let s := (new opts store).restore text now (before ++ r :: after)
    Kept opts.trackerConfig f ps s ∧ s.engine.clears[sustainedKey f]? = none := by
  have hproc : restoredProc (fromRow r) = some (base f.name, f.pid) :=
    restoredProc_sustainedKey hstate hkey hpid hmax
  have hlast' : ∀ a ∈ after.map fromRow, ∀ name,
      restoredProc a ≠ some (name, f.pid) := forall_mem_map.mpr hlast
  have hkeys : ∀ b ∈ after.map fromRow, b.state = .firing → b.key ≠ sustainedKey f := by
    intro b hb hs hk
    exact hlast' b hb _ (restoredProc_sustainedKey hs hk hpid hmax)
  obtain ⟨log, hinv⟩ := trackerInv_seedAlerts text now
    ((before ++ r :: after).map fromRow) (trackerInv_new opts.trackerConfig [])
  have hentry := seedAlerts_entry text now
    (.new opts.trackerConfig) (before.map fromRow) hproc hlast'
  have halert := Engine.restore_append_cons (before.map fromRow) (a := fromRow r) hstate
    (fun b hb hs hk => hkeys b hb hs (hk.trans hkey)) (.new opts.ids)
  rw [← map_cons, ← map_append] at hentry halert
  refine ⟨⟨⟨log, hinv⟩, ⟨_, _, hentry, rfl, rfl, fun p hp => ⟨?_, fun _ => ?_⟩⟩, fromRow r, ?_⟩, ?_⟩
  · exact sameStart_iff.mpr (hps p hp).2
  · rw [base_base, (hps p hp).1]
  · rw [← hkey]
    exact halert
  · change (Engine.restore _ _).clears[_]? = _
    rw [Engine.restore_clears]
    exact Std.ExtTreeMap.getElem?_empty

/-- A firing alert restored from the store, whose process is still there and busy, is never
resolved and never fires again, exactly if usage does not come from successive readings of
`/proc` (or there is no second tick). -/
theorem restart_keeps_alert (text : DetailText) (opts : ServiceOptions) (store : AlertTable)
    (now : ℤ) (before after : List AlertRow) (r : AlertRow) (f : SustainedFinding)
    (hstate : r.state = .firing) (hkey : r.key = sustainedKey f) (hpid : 0 < f.pid) (hmax : f.pid < 2 ^ 63)
    (hlast : ∀ r' ∈ after, ∀ name, SustainedState.restoredProc (fromRow r') ≠ some (name, f.pid))
    (ticks : List (Tick × ProcObs)) (hticks : ∀ x ∈ ticks, Listed opts.trackerConfig f (text.parse r.detail) x.1 x.2)
    (hstart : ∀ x ∈ ticks, ∀ y ∈ ticks, |x.2.started - y.2.started| ≤ startTolerance)
    (hbusy : opts.os ≠ .linux → ∀ x ∈ ticks, opts.trackerConfig.cpuPct ≤ x.2.cpuPct) :
    (∀ out ∈ (((Service.new opts store).restore text now (before ++ r :: after)).runTicks text
        (ticks.map Prod.fst)).2,
      ∀ ev ∈ out, ev.alert.key = r.key → ev.type = .updated) ↔ opts.os ≠ .linux ∨ ticks.length ≤ 1 := by
  have hw := trackerConfig_window opts
  have hnames : ∀ p ∈ ticks.map snd, base p.name = base f.name ∧
      ∀ s ∈ (text.parse r.detail).started, |s - p.started| ≤ startTolerance :=
    forall_mem_map.mpr fun x hx => ⟨(hticks x hx).name, (hticks x hx).start⟩
  obtain ⟨hkept, hclear⟩ :=
    kept_restore text opts store now before hstate hkey hpid hmax hlast hnames
  rw [hkey]
  generalize hs : (new opts store).restore text now (before ++ r :: after) = s at *
  have hos : s.sustained.os = opts.os := by rw [← hs]; rfl
  have hprev : s.sustained.prev = ∅ := by rw [← hs]; rfl
  obtain ⟨a, ha⟩ := hkept.alert
  obtain ⟨log, hcfg, -⟩ := hkept.inv
  by_cases hlinux : opts.os = .linux
  · cases ticks with
    | nil => simp [runTicks]
    | cons x ticks =>
      obtain ⟨procs, hps, -⟩ := (hticks x (by simp)).listed
      obtain ⟨hquiet, ha', hclear', htracker⟩ := linux_first_tick text (hos.trans hlinux) hprev ha
        hclear hps (hticks x (by simp)).stat
      cases ticks with
      | nil => simpa [runTicks] using hquiet
      | cons y ticks =>
        obtain ⟨procs', hps', -⟩ := (hticks y (by simp)).listed
        obtain ⟨ev, hev, hkey', htype⟩ := linux_second_tick text
          (by rw [htracker]; exact hcfg ▸ hw) (by intro pid; rw [htracker, observe_entry]; rfl)
          ha' hclear' hps'
        refine iff_of_false (fun h => ?_) (by simp [hlinux])
        have hup := h _ (.tail _ (.head _)) ev hev hkey'
        rw [htype] at hup
        cases hup
  · have hlisted : ∀ x ∈ ticks, Listed opts.trackerConfig f (text.parse r.detail) x.1 x.2 ∧
        x.2 ∈ ticks.map snd ∧ opts.trackerConfig.cpuPct ≤ x.2.cpuPct :=
      fun x hx => ⟨hticks x hx, mem_map_of_mem hx, hbusy hlinux x hx⟩
    refine iff_of_true (hkept.runTicks hw (hos ▸ hlinux) hlisted ?_) (.inl hlinux)
    exact forall_mem_map.mpr fun x hx => forall_mem_map.mpr (hstart x hx)

def plainText : DetailText := ⟨fun _ _ _ _ _ => "busy", fun _ => ⟨none, none⟩⟩

def restartOptions (os : Os) : ServiceOptions :=
  ⟨defaultSustainedConfig, 15 * second, os, Stream'.const "new"⟩

def busyRow : AlertRow :=
  ⟨"old", "cpu.sustained:yes:42", "warn", "yes sustained high CPU", "busy", .firing, 0, none, none⟩

/-- A tick every fifteen seconds, between which the process uses fifteen seconds of CPU. -/
def busyTick (i : ℤ) : Tick × ProcObs :=
  (⟨default, 15 * i * second,
    ⟨some (busyProc false), fun _ => some (15 * i * second), fun _ => ("", true)⟩,
    Stream'.const true⟩, ⟨42, 1, "yes", 100, 0, false⟩)

theorem listed_busyTick (os : Os) (i : ℤ) :
    Listed (restartOptions os).trackerConfig (busyFinding 900) (plainText.parse "busy")
      (busyTick i).1 (busyTick i).2 where
  listed := by
    have hlist : listings (restartOptions os).trackerConfig (busyProc false) 42 = busyProc false := by
      cases os <;> decide +kernel
    exact ⟨busyProc false, rfl, hlist⟩
  name := rfl
  read := rfl
  start := by simp [plainText]
  stat := by simp [busyTick]

theorem restart_keeps_alert_darwin :
    busyRow.state = .firing ∧
    ∀ out ∈ (((Service.new (restartOptions .darwin) ∅).restore plainText 0 [busyRow]).runTicks
        plainText [(busyTick 1).1, (busyTick 2).1, (busyTick 3).1]).2,
      ∀ ev ∈ out, ev.alert.key = "cpu.sustained:yes:42" → ev.type = .updated := by
  refine ⟨rfl, (restart_keeps_alert plainText (restartOptions .darwin) ∅ 0 [] [] busyRow (busyFinding 900)
    rfl (by decide +kernel) (by decide) (by decide) (by simp) [busyTick 1, busyTick 2, busyTick 3]
    ?_ ?_ ?_).mpr (.inl (by decide))⟩
  · simp [listed_busyTick, busyRow]
  · simp [busyTick, startTolerance, second]
  · decide +kernel

/-- On Linux the second tick after the restart resolves the alert of a process that has been
busy all along. -/
theorem restart_loses_alert_linux :
    ¬ ∀ (text : DetailText) (opts : ServiceOptions) (store : AlertTable) (now : ℤ)
      (before after : List AlertRow) (r : AlertRow) (f : SustainedFinding),
      r.state = .firing → r.key = sustainedKey f → 0 < f.pid → f.pid < 2 ^ 63 →
      (∀ r' ∈ after, ∀ name, SustainedState.restoredProc (fromRow r') ≠ some (name, f.pid)) →
      ∀ ticks : List (Tick × ProcObs),
      (∀ x ∈ ticks, Listed opts.trackerConfig f (text.parse r.detail) x.1 x.2) →
      (∀ x ∈ ticks, ∀ y ∈ ticks, |x.2.started - y.2.started| ≤ startTolerance) →
      (opts.os ≠ .linux → ∀ x ∈ ticks, opts.trackerConfig.cpuPct ≤ x.2.cpuPct) →
      (opts.os = .linux → ticks.IsChain fun x y =>
        ∀ c ∈ x.1.probe.stat f.pid, ∀ c' ∈ y.1.probe.stat f.pid,
          opts.trackerConfig.cpuPct * ((y.1.now - x.1.now : ℤ) : ℚ) ≤ 100 * ((c' - c : ℤ) : ℚ)) →
      (ticks.IsChain fun x y => x.1.now < y.1.now ∧
        100 * (y.1.now - x.1.now) ≤ 404 * opts.trackerConfig.interval) →
      ∀ out ∈ (((Service.new opts store).restore text now (before ++ r :: after)).runTicks text
        (ticks.map Prod.fst)).2, ∀ ev ∈ out, ev.alert.key = r.key → ev.type = .updated := by
  intro h
  have hall := h plainText (restartOptions .linux) ∅ 0 [] [] busyRow (busyFinding 900)
    rfl (by decide +kernel) (by decide) (by decide) (by simp) [busyTick 1, busyTick 2]
    (by simp [listed_busyTick, busyRow]) (by simp [busyTick, startTolerance, second])
    (by simp [restartOptions]) (by decide +kernel) (by decide +kernel)
  have hresolved : ∃ out ∈ (((new (restartOptions .linux) ∅).restore plainText 0
      [busyRow]).runTicks plainText [(busyTick 1).1, (busyTick 2).1]).2,
      ∃ ev ∈ out, ev.alert.key = "cpu.sustained:yes:42" ∧ ev.type = .resolved := by
    decide +kernel
  obtain ⟨out, hout, ev, hev, hkey, htype⟩ := hresolved
  have hup := hall out hout ev hev hkey
  rw [htype] at hup
  cases hup

end Spectra.Hostwatch
