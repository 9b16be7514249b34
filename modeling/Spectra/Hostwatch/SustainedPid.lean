import Spectra.Hostwatch.Sustained

/-! An observation acts on every PID by itself. -/
namespace Spectra.Hostwatch
open Library List

namespace SustainedTracker
variable (cfg : SustainedConfig)

def listings (procs : List ProcObs) (pid : ℤ) : List ProcObs :=
  procs.filter fun p => Tracked cfg p && decide (p.pid = pid)

def recorded (gap : Bool) (now : ℤ) (ps : List ProcObs) (o : Option SustainedEntry) :
    Option SustainedEntry :=
  if ps = [] then none
  else ps.foldl (observeEntry cfg now) (if gap then o.bind resetEntry else o)

variable {cfg} {now : ℤ} {pid : ℤ} {e : SustainedEntry}

theorem listings_eq_filter (procs : List ProcObs) (pid : ℤ) :
    listings cfg procs pid = (procs.filter fun p => p.pid = pid).filter (Tracked cfg) := by
  rw [filter_filter]
  rfl

theorem foldl_observeProc (procs : List ProcObs) (entries : PidMap SustainedEntry) :
    (procs.foldl (observeProc cfg now) entries)[pid]? =
      (listings cfg procs pid).foldl (observeEntry cfg now) entries[pid]? := by
  induction procs generalizing entries with
  | nil => rfl
  | cons p procs ih =>
    rw [foldl_cons, ih]
    unfold listings observeProc
    cases ht : Tracked cfg p with
    | false => simp [ht]
    | true =>
      by_cases hp : p.pid = pid
      · simp [ht, hp]
      · simp [hp, getElem?_alter_eq]

theorem listings_eq_nil {procs : List ProcObs} :
    listings cfg procs pid = [] ↔ pid ∉ (procs.filter (Tracked cfg)).map ProcObs.pid := by
  rw [listings, filter_eq_nil_iff]
  simp only [Bool.and_eq_true, decide_eq_true_eq, not_and, mem_map, mem_filter, not_exists]
  constructor
  · rintro h p ⟨hp, ht⟩ he
    exact h p hp ht he
  · intro h p hp ht he
    exact h p ⟨hp, ht⟩ he

/-- The entries of an observation before `evaluate`, by PID. -/
theorem recorded_eq (t : SustainedTracker) (procs : List ProcObs) :
    ((procs.foldl (observeProc t.cfg now)
      (if isGap now t then resetAfterGap t.entries else t.entries)).filter fun pid _ =>
        decide (pid ∈ (procs.filter (Tracked t.cfg)).map ProcObs.pid))[pid]? =
      recorded t.cfg (isGap now t) now (listings t.cfg procs pid) t.entries[pid]? := by
  rw [Std.ExtTreeMap.getElem?_filter', foldl_observeProc, recorded]
  by_cases hl : listings t.cfg procs pid = []
  · rw [if_pos hl, Option.filter_eq_none_iff]
    intro e _ h
    exact listings_eq_nil.mp hl (of_decide_eq_true h)
  · have hmem : pid ∈ (procs.filter (Tracked t.cfg)).map ProcObs.pid := by
      by_contra hn
      exact hl (listings_eq_nil.mpr hn)
    rw [if_neg hl]
    have hentry : (if isGap now t then resetAfterGap t.entries else t.entries)[pid]? =
        if isGap now t then t.entries[pid]?.bind resetEntry else t.entries[pid]? := by
      split
      · exact Std.ExtTreeMap.getElem?_filterMap'
      · rfl
    rw [hentry]
    simp only [hmem]
    generalize foldl _ _ _ = o
    cases o <;> rfl

theorem observe_entry (now pid : ℤ) (t : SustainedTracker) (procs : List ProcObs) :
    (observe now procs t).1.entries[pid]? =
      (recorded t.cfg (isGap now t) now (listings t.cfg procs pid) t.entries[pid]?).bind
        fun e => (evaluateEntry t.cfg now pid e).1 := by
  rw [← recorded_eq]
  exact Std.ExtTreeMap.getElem?_filterMap'

/-- The readings `evaluate` leaves in an entry, and those of them inside the window. -/
def evaluated (cfg : SustainedConfig) (now : ℤ) (e : SustainedEntry) : List CpuPoint :=
  trimPoints (now - cfg.window) e.points

def inside (cfg : SustainedConfig) (now : ℤ) (e : SustainedEntry) : List CpuPoint :=
  inWindow (now - cfg.window) (evaluated cfg now e)

theorem evaluateEntry_cases (cfg : SustainedConfig) (now pid : ℤ) (e : SustainedEntry) :
    let since := updateSince cfg now (evaluated cfg now e) (inside cfg now e) e.since
    (cfg.window ≤ now - e.lastGood ∧ evaluateEntry cfg now pid e = (none, none)) ∨
    (now - e.lastGood < cfg.window ∧ inside cfg now e = [] ∧
      evaluateEntry cfg now pid e = (some { e with points := evaluated cfg now e }, none)) ∨
    (now - e.lastGood < cfg.window ∧ inside cfg now e ≠ [] ∧
      evaluateEntry cfg now pid e =
        (some { e with points := evaluated cfg now e, since := since },
          since.map fun s => ⟨pid, e.name, e.started, s, now - s, (summarize (inside cfg now e)).2,
            (summarize (inside cfg now e)).1⟩)) := by
  rw [evaluateEntry]
  by_cases haged : cfg.window ≤ now - e.lastGood
  · exact .inl ⟨haged, if_pos haged⟩
  · rw [if_neg haged]
    refine .inr ?_
    by_cases hin : inside cfg now e = []
    · exact .inl ⟨not_le.mp haged, hin, if_pos hin⟩
    · exact .inr ⟨not_le.mp haged, hin, if_neg hin⟩

variable {f : SustainedFinding}

theorem evaluateEntry_finding (h : (evaluateEntry cfg now pid e).2 = some f) :
    f.pid = pid ∧ f.name = e.name ∧ f.started = e.started ∧
      updateSince cfg now (evaluated cfg now e) (inside cfg now e) e.since = some f.since ∧
      (evaluateEntry cfg now pid e).1 = some { e with points := evaluated cfg now e, since := some f.since } := by
  rcases evaluateEntry_cases cfg now pid e with ⟨-, hr⟩ | ⟨-, -, hr⟩ | ⟨-, -, hr⟩
  · rw [hr] at h
    cases h
  · rw [hr] at h
    cases h
  · rw [hr] at h ⊢
    obtain ⟨s, hs, rfl⟩ := Option.map_eq_some_iff.mp h
    exact ⟨rfl, rfl, rfl, hs, by rw [hs]⟩

theorem mem_observe {t : SustainedTracker} {procs : List ProcObs} :
    f ∈ (observe now procs t).2 ↔
      ∃ e, recorded t.cfg (isGap now t) now (listings t.cfg procs f.pid) t.entries[f.pid]? =
        some e ∧ (evaluateEntry t.cfg now f.pid e).2 = some f := by
  change f ∈ filterMap _ _ ↔ _
  rw [mem_filterMap]
  constructor
  · rintro ⟨⟨k, e⟩, hmem, hf⟩
    obtain rfl := (evaluateEntry_finding hf).1
    rw [Std.ExtTreeMap.mem_toList_iff_getElem?_eq_some, recorded_eq] at hmem
    exact ⟨e, hmem, hf⟩
  · rintro ⟨e, he, hf⟩
    rw [← recorded_eq] at he
    exact ⟨(f.pid, e), Std.ExtTreeMap.mem_toList_iff_getElem?_eq_some.mpr he, hf⟩

section
variable {t : SustainedTracker} {procs : List ProcObs}
  (hr : recorded t.cfg (isGap now t) now (listings t.cfg procs pid) t.entries[pid]? = some e)
include hr

theorem observe_of_recorded : (observe now procs t).1.entries[pid]? = (evaluateEntry t.cfg now pid e).1 := by
  rw [observe_entry, hr, Option.bind_some]

theorem mem_observe_of_recorded :
    f ∈ (observe now procs t).2 ∧ f.pid = pid ↔ (evaluateEntry t.cfg now pid e).2 = some f := by
  rw [mem_observe]
  constructor
  · rintro ⟨⟨d, hd, hev⟩, rfl⟩
    rwa [Option.mem_unique hr hd]
  · intro hev
    obtain rfl := (evaluateEntry_finding hev).1
    exact ⟨⟨e, hr, hev⟩, rfl⟩

end

def findingsOf (pid : ℤ) (out : List SustainedFinding) : List SustainedFinding :=
  out.filter fun f => f.pid = pid

/-- The findings of a PID are those of its entry. -/
theorem findingsOf_observe (now pid : ℤ) (procs : List ProcObs) (t : SustainedTracker) :
    findingsOf pid (observe now procs t).2 =
      ((recorded t.cfg (isGap now t) now (listings t.cfg procs pid) t.entries[pid]?).bind
        fun e => (evaluateEntry t.cfg now pid e).2).toList := by
  rw [← recorded_eq]
  change filter _ (filterMap _ _) = _
  generalize Std.ExtTreeMap.filter _ _ = entries
  have hkey : ∀ x : ℤ × SustainedEntry,
      ((evaluateEntry t.cfg now x.1 x.2).2.filter fun f => f.pid = pid) =
        if x.1 = pid then (evaluateEntry t.cfg now x.1 x.2).2 else none := by
    intro x
    cases hf : (evaluateEntry t.cfg now x.1 x.2).2 with
    | none => simp
    | some f => simp [Option.filter, (evaluateEntry_finding hf).1]
  have hone := congrArg (filterMap fun x => (evaluateEntry t.cfg now x.1 x.2).2)
    (toList_filter_key entries pid)
  rw [filterMap_filter] at hone
  simp only [decide_eq_true_eq] at hone
  rw [filter_filterMap, funext hkey, hone]
  cases entries[pid]? with
  | none => rfl
  | some e => cases hf : (evaluateEntry t.cfg now pid e).2 <;> simp [hf]

end SustainedTracker
end Spectra.Hostwatch
