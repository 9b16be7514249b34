import Spectra.Hostwatch.SustainedFiring

/-! The sustained-CPU tracker keeps processes apart. -/
namespace Spectra.Hostwatch
open Library List

namespace SustainedTracker
variable {t t' : SustainedTracker} {pid : ℤ} {o o' : ℤ × List ProcObs}
  {obs obs' : List (ℤ × List ProcObs)}

/-- Two snapshots taken at the same time that show the PID alike. -/
def ShowAlike (pid : ℤ) (o o' : ℤ × List ProcObs) : Prop :=
  o.1 = o'.1 ∧ o.2.filter (fun p => p.pid = pid) = o'.2.filter fun p => p.pid = pid

/-- The identity tracked for the PID, if any, is that of a process with another start. -/
def Replaces (p : ProcObs) (t : SustainedTracker) : Prop :=
  ∀ e ∈ t.entries[p.pid]?, sameStart e.started p.started = false

def afterObserving (cfg : SustainedConfig) (obs : List (ℤ × List ProcObs)) : SustainedTracker :=
  (run (observations obs) (new cfg)).1

/-- The entry of a PID when an observation reaches `evaluate`. -/
def reaching (pid : ℤ) (o : ℤ × List ProcObs) (t : SustainedTracker) : Option SustainedEntry :=
  recorded t.cfg (isGap o.1 t) o.1 (listings t.cfg o.2 pid) t.entries[pid]?

/-- Two trackers of one configuration whose last observations were at the same time. -/
structure InStep (t t' : SustainedTracker) : Prop where
  config : t.cfg = t'.cfg
  last : t.last = t'.last

namespace InStep
variable (h : InStep t t')
include h

theorem observe (htime : o.1 = o'.1) : InStep (observe o.1 o.2 t).1 (observe o'.1 o'.2 t').1 :=
  ⟨h.config, congrArg some htime⟩

theorem run (htimes : obs.map Prod.fst = obs'.map Prod.fst) :
    InStep (run (observations obs) t).1 (run (observations obs') t').1 := by
  induction obs generalizing obs' t t' with
  | nil =>
    obtain rfl := map_eq_nil_iff.mp htimes.symm
    exact h
  | cons o obs ih =>
    cases obs' with
    | nil => cases htimes
    | cons o' obs' =>
      obtain ⟨htime, hrest⟩ := cons.inj htimes
      have hnext := ih (h.observe htime) hrest
      exact hnext

theorem alike_of_reaching (htime : o.1 = o'.1) (hentry : reaching pid o t = reaching pid o' t') :
    (SustainedTracker.observe o.1 o.2 t).1.entries[pid]? =
        (SustainedTracker.observe o'.1 o'.2 t').1.entries[pid]? ∧
      findingsOf pid (SustainedTracker.observe o.1 o.2 t).2 =
        findingsOf pid (SustainedTracker.observe o'.1 o'.2 t').2 := by
  rw [reaching] at hentry
  rw [observe_entry, observe_entry, findingsOf_observe, findingsOf_observe, hentry, h.config, htime]
  exact ⟨rfl, rfl⟩

theorem reaching_eq (hobs : ShowAlike pid o o')
    (hentry : t.entries[pid]? = t'.entries[pid]?) : reaching pid o t = reaching pid o' t' := by
  obtain ⟨htime, hsame⟩ := hobs
  unfold reaching
  rw [listings_eq_filter, listings_eq_filter, hsame, htime, isGap, isGap, h.last, h.config, hentry]

theorem findings_run (hentry : t.entries[pid]? = t'.entries[pid]?) (hobs : Forall₂ (ShowAlike pid) obs obs') :
    Forall₂ (fun x x' => findingsOf pid x.2 = findingsOf pid x'.2)
      (SustainedTracker.run (observations obs) t).2 (SustainedTracker.run (observations obs') t').2 := by
  induction hobs generalizing t t' with
  | nil => exact .nil
  | cons hfirst hrest ih =>
    obtain ⟨hnext, hout⟩ := h.alike_of_reaching hfirst.1 (h.reaching_eq hfirst hentry)
    exact .cons hout (ih (h.observe hfirst.1) hnext)

end InStep

theorem dropIfReused_replaced {p : ProcObs} {e : Option SustainedEntry}
    (h : ∀ d ∈ e, sameStart d.started p.started = false) : dropIfReused p e = none := by
  cases e with
  | none => rfl
  | some d =>
    have hstart := h d rfl
    have hsome : d.started ≠ none := by
      intro hnone
      rw [hnone] at hstart
      cases hstart
    simp [dropIfReused, hstart, hsome]

/-- Whatever was known of an earlier process, the first observation of its successor makes the
same entry. -/
theorem reaching_replaced {p : ProcObs} (hp : p ∈ o.2) (hone : (o.2.map ProcObs.pid).Nodup) (h : Replaces p t) :
    reaching p.pid o t = if Tracked t.cfg p then observeEntry t.cfg o.1 none p else none := by
  unfold reaching recorded
  rw [listings_eq_filter, filter_key_eq_singleton ProcObs.pid hone hp]
  cases htracked : Tracked t.cfg p with
  | false => simp [htracked]
  | true =>
    have hdrop : dropIfReused p (if isGap o.1 t then t.entries[p.pid]?.bind resetEntry
        else t.entries[p.pid]?) = none := by
      refine dropIfReused_replaced fun d hd => ?_
      split at hd
      · obtain ⟨e, he, hreset⟩ := Option.bind_eq_some_iff.mp hd
        rw [(resetEntry_some hreset).1]
        exact h e he
      · exact h d hd
    have hfresh : dropIfReused p none = none := rfl
    simp [htracked, observeEntry, hdrop, hfresh]

/-- Two runs with the same observation times that show a PID alike from some point on, at which
it is untracked or taken by a new process, report the same of it from then on. -/
theorem findings_apart (cfg : SustainedConfig) (pid : ℤ) (before before' obs obs' : List (ℤ × List ProcObs))
    (htimes : before.map Prod.fst = before'.map Prod.fst) (hone : ∀ o ∈ obs, (o.2.map ProcObs.pid).Nodup)
    (hone' : ∀ o ∈ obs', (o.2.map ProcObs.pid).Nodup) (hobs : List.Forall₂ (ShowAlike pid) obs obs')
    (hnew : ((afterObserving cfg before).entries[pid]? = none ∧
        (afterObserving cfg before').entries[pid]? = none) ∨
      ∃ o ∈ obs.head?, ∃ p ∈ o.2, p.pid = pid ∧ Replaces p (afterObserving cfg before) ∧
        Replaces p (afterObserving cfg before')) :
    List.Forall₂ (fun x x' => findingsOf pid x.2 = findingsOf pid x'.2)
      (run (observations obs) (afterObserving cfg before)).2
      (run (observations obs') (afterObserving cfg before')).2 := by
  have hstep : InStep (afterObserving cfg before) (afterObserving cfg before') :=
    InStep.run ⟨rfl, rfl⟩ htimes
  rcases hnew with ⟨hnone, hnone'⟩ | ⟨o, ho, p, hp, rfl, hrep, hrep'⟩
  · exact hstep.findings_run (hnone.trans hnone'.symm) hobs
  · cases hobs with
    | nil => cases ho
    | @cons o₁ o' obs obs' hfirst hrest =>
      obtain rfl : o₁ = o := Option.some.inj ho
      have hp' : p ∈ o'.2 := by
        have hmem : p ∈ o₁.2.filter fun q => q.pid = p.pid := by simp [hp]
        rw [hfirst.2] at hmem
        exact mem_of_mem_filter hmem
      have hreach : reaching p.pid o₁ (afterObserving cfg before) =
          reaching p.pid o' (afterObserving cfg before') := by
        rw [reaching_replaced hp (hone _ (.head _)) hrep,
          reaching_replaced hp' (hone' _ (.head _)) hrep', hstep.config, hfirst.1]
      obtain ⟨hnext, hout⟩ := hstep.alike_of_reaching hfirst.1 hreach
      exact .cons hout ((hstep.observe hfirst.1).findings_run hnext hrest)

/-- A snapshot a minute of a process that took over PID 42, with other processes beside it. -/
def successor (others : List ProcObs) : List (ℤ × List ProcObs) :=
  (List.range' 1 16).map fun i =>
    (60 * i * second, ⟨42, 1, "yes", 100, 30 * second, false⟩ :: others)

def predecessor (name : String) (started : ℤ) : List (ℤ × List ProcObs) :=
  [(0, [⟨42, 1, name, 90, started, false⟩])]

theorem findings_apart_successor :
    (afterObserving defaultWatch (predecessor "make" (-500 * second))).entries[(42 : ℤ)]?.isSome ∧
    List.Forall₂ (fun x x' => findingsOf 42 x.2 = findingsOf 42 x'.2)
      (run (observations (successor [⟨7, 1, "idle", 99, 0, false⟩]))
        (afterObserving defaultWatch (predecessor "make" (-500 * second)))).2
      (run (observations (successor [])) (afterObserving defaultWatch (predecessor "cc" (-100 * second)))).2 := by
  refine ⟨by decide +kernel, findings_apart defaultWatch 42 _ _ _ _ rfl ?_ ?_ ?_ ?_⟩
  · decide +kernel
  · decide +kernel
  · unfold successor
    rw [forall₂_map_left_iff, forall₂_map_right_iff, forall₂_same]
    exact fun i _ => ⟨rfl, rfl⟩
  · refine .inr ⟨_, rfl, ⟨42, 1, "yes", 100, 30 * second, false⟩, mem_cons_self, rfl, ?_, ?_⟩
    · rw [Replaces]
      decide +kernel
    · rw [Replaces]
      decide +kernel

end SustainedTracker
end Spectra.Hostwatch
