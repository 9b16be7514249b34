import Spectra.Hostwatch.Probe
import Mathlib.Tactic.FieldSimp

/-! The CPU time of one process that the probe accounts for on Linux. -/
namespace Spectra.Hostwatch
open Library List Std.ExtTreeMap Option

/-- What one probe finds when `ps` lists a process once. -/
structure Sighting (pid : ℤ) where
  now : ℤ
  stat : ℤ → Option ℤ
  before : List ProcObs
  proc : ProcObs
  after : List ProcObs
  pid_eq : proc.pid = pid
  fresh : proc.skip = false
  others : ∀ q ∈ before ++ after, q.pid ≠ pid

open Sighting

namespace Sighting

variable {pid : ℤ}

def procs (s : Sighting pid) : List ProcObs := s.before ++ s.proc :: s.after

def counter (s : Sighting pid) : Option ℤ := s.stat pid

theorem stat_proc (s : Sighting pid) : s.stat s.proc.pid = s.counter := by
  rw [s.pid_eq, counter]

def reads (run : List (Sighting pid)) : List (ℤ × ℤ) :=
  run.filterMap fun s => s.counter.map fun cpu => (s.proc.started, cpu)

/-- The counter at the last successful read less the counter at the first. -/
def growth (run : List (Sighting pid)) : ℤ :=
  ((reads run).getLast?.map Prod.snd).getD 0 - ((reads run).head?.map Prod.snd).getD 0

end Sighting

namespace SustainedState

variable {pid : ℤ}

def probe (st : SustainedState) (s : Sighting pid) : SustainedState × List ProcObs :=
  st.cpuObservations s.stat s.procs s.now

def probes (st : SustainedState) (run : List (Sighting pid)) : SustainedState :=
  run.foldl (fun st s => (st.probe s).1) st

def own (st : SustainedState) (s : Sighting pid) : List ProcObs :=
  (st.probe s).2.filter fun p => decide (p.pid = pid)

/-- The CPU time that the observations of one probe stand for; `lastRead` is when the counter of
the process was last read before. -/
def usage (st : SustainedState) (lastRead : Option ℤ) (s : Sighting pid) : ℚ :=
  (((st.own s).filter fun p => !p.skip).map fun p => p.cpuPct / 100 * ((s.now - lastRead.getD s.now : ℤ) : ℚ)).sum

def totalUsage : SustainedState → Option ℤ → List (Sighting pid) → ℚ
  | _, _, [] => 0
  | st, lastRead, s :: run =>
    st.usage lastRead s +
      totalUsage (st.probe s).1 (if s.counter.isSome then some s.now else lastRead) run

section

variable {st : SustainedState} {s : Sighting pid}
  (stat : ℤ → Option ℤ) (now : ℤ) (prev : PidMap CpuSnap) {procs : List ProcObs}

theorem foldl_noteSnap_of_ne (h : ∀ q ∈ procs, q.pid ≠ pid) (next : PidMap CpuSnap) :
    (procs.foldl (fun next p => noteSnap next p.pid (cpuObservation stat now prev p).1) next)[pid]? = next[pid]? := by
  induction procs generalizing next with
  | nil => rfl
  | cons p procs ih =>
    obtain ⟨hp, hprocs⟩ := forall_mem_cons.mp h
    rw [foldl_cons, ih hprocs]
    cases (cpuObservation stat now prev p).1 with
    | none => rfl
    | some snap => rw [noteSnap, Std.ExtTreeMap.getElem?_insert, if_neg (by simpa using hp)]

theorem cpuObservation_pid {stat : ℤ → Option ℤ} {now : ℤ} {prev : PidMap CpuSnap}
    {p obs : ProcObs} (h : (cpuObservation stat now prev p).2 = some obs) : obs.pid = p.pid := by
  rw [cpuObservation] at h
  split at h
  · rw [← some.inj h]
  · obtain ⟨last, -, hlast⟩ := bind_eq_some_iff.mp h
    split at hlast
    · exact nomatch hlast
    · rw [← some.inj hlast]

theorem filter_others (h : ∀ q ∈ procs, q.pid ≠ pid) :
    (procs.filterMap fun p => (cpuObservation stat now prev p).2).filter (fun p => decide (p.pid = pid)) = [] := by
  rw [filter_eq_nil_iff]
  intro obs hobs
  obtain ⟨p, hp, hpobs⟩ := mem_filterMap.mp hobs
  rw [decide_eq_true_eq, cpuObservation_pid hpobs]
  exact h p hp

theorem probe_os (st : SustainedState) (s : Sighting pid) : (st.probe s).1.os = st.os := by
  rw [probe, cpuObservations]
  split <;> rfl

variable (hos : st.os = .linux)
include hos

theorem probe_prev : (st.probe s).1.prev[pid]? = (cpuObservation s.stat s.now st.prev s.proc).1 := by
  obtain ⟨hbefore, hafter⟩ := forall_mem_append.mp s.others
  rw [probe, cpuObservations, if_neg (not_not_intro hos)]
  rw [procs, foldl_append, foldl_cons, foldl_noteSnap_of_ne _ _ _ hafter]
  cases (cpuObservation s.stat s.now st.prev s.proc).1 with
  | none => rw [noteSnap, foldl_noteSnap_of_ne _ _ _ hbefore, getElem?_empty]
  | some snap => rw [noteSnap, s.pid_eq, getElem?_insert_self]

theorem own_eq : st.own s = (cpuObservation s.stat s.now st.prev s.proc).2.toList := by
  obtain ⟨hbefore, hafter⟩ := forall_mem_append.mp s.others
  rw [own, probe, cpuObservations, if_neg (not_not_intro hos)]
  rw [procs, filterMap_append, filter_append, filter_others _ _ _ hbefore, filterMap_cons]
  cases hobs : (cpuObservation s.stat s.now st.prev s.proc).2 with
  | none => exact filter_others _ _ _ hafter
  | some obs =>
    have hpid : obs.pid = pid := (cpuObservation_pid hobs).trans s.pid_eq
    rw [filter_cons_of_pos (by rw [hpid, decide_eq_true_eq]), filter_others _ _ _ hafter]
    rfl

theorem probe_failed (hread : s.counter = none) :
    st.own s = [{ s.proc with skip := true }] ∧ (st.probe s).1.prev[pid]? = st.prev[pid]? := by
  rw [own_eq hos, probe_prev hos, cpuObservation, s.stat_proc, hread]
  dsimp only
  rw [s.pid_eq]
  exact ⟨rfl, rfl⟩

theorem probe_read {cpu : ℤ} (hread : s.counter = some cpu) :
    (st.probe s).1.prev[pid]? = some ⟨s.proc.started, cpu, s.now⟩ := by
  rw [probe_prev hos, cpuObservation, s.stat_proc, hread]

theorem usage_failed (hread : s.counter = none) (lastRead : Option ℤ) : st.usage lastRead s = 0 := by
  rw [usage, (probe_failed hos hread).1]
  rfl

theorem usage_first (hprev : st.prev[pid]? = none) {cpu : ℤ} (hread : s.counter = some cpu)
    (lastRead : Option ℤ) : st.usage lastRead s = 0 := by
  rw [usage, own_eq hos, cpuObservation, s.stat_proc, hread, s.pid_eq, hprev]
  rfl

/-- A later read accounts for what the counter has grown by. -/
theorem usage_delta {last : CpuSnap} (hprev : st.prev[pid]? = some last) {cpu : ℤ}
    (hread : s.counter = some cpu) (hstart : |last.started - s.proc.started| ≤ startTolerance)
    (htime : last.time < s.now) (hcpu : last.cpu ≤ cpu) : st.usage (some last.time) s = ((cpu - last.cpu : ℤ) : ℚ) := by
  have hsame : sameStart (some last.started) s.proc.started = true := by
    rw [sameStart_iff]
    rintro _ ⟨rfl⟩
    exact hstart
  have htaken : ¬ (sameStart (some last.started) s.proc.started = false ∨ s.now ≤ last.time ∨
      cpu < last.cpu) := by
    rintro (hother | hearly | hless)
    · exact nomatch hsame.symm.trans hother
    · omega
    · omega
  have helapsed : ((s.now - last.time : ℤ) : ℚ) ≠ 0 := by
    rw [Int.cast_ne_zero]
    omega
  rw [usage, own_eq hos, cpuObservation, s.stat_proc, hread]
  dsimp only
  rw [s.pid_eq, hprev, bind_some, if_neg htaken, toList_some, filter_cons_of_pos (by simp [s.fresh]),
    filter_nil, map_singleton, sum_singleton, getD_some]
  field_simp

end

section

variable {st : SustainedState}

theorem probes_os (st : SustainedState) (run : List (Sighting pid)) : (st.probes run).os = st.os := by
  induction run generalizing st with
  | nil => rfl
  | cons s run ih => exact (ih _).trans (st.probe_os s)

/-- Successive reads see one process whose counter does not decrease. -/
def Successive (a b : ℤ × ℤ) : Prop := |a.1 - b.1| ≤ startTolerance ∧ a.2 ≤ b.2

theorem getLast?_cons_getD (a : ℤ × ℤ) (reads : List (ℤ × ℤ)) (d : ℤ) :
    ((a :: reads).getLast?.map Prod.snd).getD d = (reads.getLast?.map Prod.snd).getD a.2 := by
  rw [getLast?_cons]
  cases reads.getLast? with
  | none | some r => rfl

variable (run : List (Sighting pid))

theorem reads_cons_failed {s : Sighting pid} (hread : s.counter = none) : reads (s :: run) = reads run := by
  rw [reads, filterMap_cons, hread]
  rfl

theorem reads_cons_read {s : Sighting pid} {cpu : ℤ} (hread : s.counter = some cpu) :
    reads (s :: run) = (s.proc.started, cpu) :: reads run := by
  rw [reads, filterMap_cons, hread]
  rfl

theorem totalUsage_from (last : CpuSnap) (hos : st.os = .linux) (hprev : st.prev[pid]? = some last)
    (htimes : (last.time :: run.map now).Pairwise (· < ·))
    (hreads : ((last.started, last.cpu) :: reads run).IsChain Successive) :
    st.totalUsage (some last.time) run = ((((reads run).getLast?.map Prod.snd).getD last.cpu - last.cpu : ℤ) : ℚ) := by
  induction run generalizing st last with
  | nil => simp [totalUsage, reads]
  | cons s run ih =>
    obtain ⟨hfirst, hrest⟩ := pairwise_cons.mp htimes
    rw [totalUsage]
    cases hread : s.counter with
    | none =>
      rw [reads_cons_failed run hread] at hreads ⊢
      rw [usage_failed hos hread, zero_add]
      have htail : (last.time :: run.map now).Pairwise (· < ·) :=
        pairwise_cons.mpr ⟨fun t ht => hfirst t (.tail _ ht), (pairwise_cons.mp hrest).2⟩
      exact ih last ((st.probe_os s).trans hos) ((probe_failed hos hread).2.trans hprev) htail hreads
    | some cpu =>
      rw [reads_cons_read run hread] at hreads ⊢
      obtain ⟨⟨hstart, hcpu⟩, hchain⟩ := isChain_cons_cons.mp hreads
      have htime := hfirst s.now mem_cons_self
      rw [usage_delta hos hprev hread hstart htime hcpu]
      change _ + totalUsage _ (some s.now) run = _
      rw [ih ⟨s.proc.started, cpu, s.now⟩ ((st.probe_os s).trans hos)
        (probe_read hos hread) hrest hchain, getLast?_cons_getD]
      push_cast
      ring

theorem totalUsage_eq_growth (hos : st.os = .linux) (hprev : st.prev[pid]? = none)
    (htimes : (run.map now).Pairwise (· < ·)) (hreads : (reads run).IsChain Successive) :
    st.totalUsage none run = (growth run : ℚ) := by
  induction run generalizing st with
  | nil => rfl
  | cons s run ih =>
    obtain ⟨-, hrest⟩ := pairwise_cons.mp htimes
    rw [totalUsage, growth]
    cases hread : s.counter with
    | none =>
      rw [reads_cons_failed run hread] at hreads ⊢
      rw [usage_failed hos hread, zero_add]
      exact ih ((st.probe_os s).trans hos) ((probe_failed hos hread).2.trans hprev) hrest hreads
    | some cpu =>
      rw [reads_cons_read run hread] at hreads ⊢
      rw [usage_first hos hprev hread, zero_add, getLast?_cons_getD]
      exact totalUsage_from run ⟨s.proc.started, cpu, s.now⟩
        ((st.probe_os s).trans hos) (probe_read hos hread) htimes hreads

end

/-- Over probes at increasing times, some of which cannot read the counter of a process: what the
observations account for is what the counter grows by between its first and its last read; and a
failed read gives one skipped observation and leaves the snapshot. -/
theorem cpuObservations_telescope (st : SustainedState) (run : List (Sighting pid))
    (hos : st.os = .linux) (hprev : st.prev[pid]? = none) (htimes : (run.map Sighting.now).Pairwise (· < ·))
    (hreads : (Sighting.reads run).IsChain Successive) :
    st.totalUsage none run = (Sighting.growth run : ℚ) ∧
      ∀ before s after, run = before ++ s :: after → s.counter = none →
        (st.probes before).own s = [{ s.proc with skip := true }] ∧
          ((st.probes before).probe s).1.prev[pid]? = (st.probes before).prev[pid]? := by
  refine ⟨totalUsage_eq_growth run hos hprev htimes hreads, ?_⟩
  rintro before s after - hread
  exact probe_failed ((st.probes_os before).trans hos) hread

def diagnosticd (started : ℤ) : ProcObs := ⟨412, 1, "diagnosticd", 0, started, false⟩

/-- A sighting of the only process, with its start time and counter in seconds. -/
def sighting (now started : ℤ) (counter : Option ℤ) : Sighting 412 where
  now := now * second
  stat := fun _ => counter.map (· * second)
  before := []
  proc := diagnosticd (started * second)
  after := []
  pid_eq := rfl
  fresh := rfl
  others := by simp

def watching : SustainedState := SustainedState.new defaultSustainedConfig .linux

theorem cpuObservations_telescope_failure :
    (Sighting.reads [sighting 60 0 (some 10), sighting 120 1 none, sighting 180 2 (some 100)]).IsChain
        Successive ∧
      watching.totalUsage none
        [sighting 60 0 (some 10), sighting 120 1 none, sighting 180 2 (some 100)] = ((90 * second : ℤ) : ℚ) := by
  have hchain : (reads [sighting 60 0 (some 10), sighting 120 1 none, sighting 180 2 (some 100)]).IsChain
        Successive := by
    refine isChain_cons_cons.mpr ⟨⟨?_, ?_⟩, isChain_singleton _⟩ <;> decide
  exact ⟨hchain, (cpuObservations_telescope watching _ rfl rfl (by decide) hchain).1⟩

/-- Start times that drift by the tolerance from probe to probe: after a failed read the next one
is taken for that of another process, and the CPU time since is lost. -/
theorem cpuObservations_drift_lost :
    (|0 * second - 3 * second| ≤ startTolerance ∧ |3 * second - 6 * second| ≤ startTolerance) ∧
      watching.totalUsage none
        [sighting 60 0 (some 10), sighting 120 3 none, sighting 180 6 (some 100)] = 0 ∧
      Sighting.growth [sighting 60 0 (some 10), sighting 120 3 none, sighting 180 6 (some 100)] = 90 * second := by
  exact ⟨by decide, by decide +kernel, by decide⟩

end SustainedState
end Spectra.Hostwatch
