import Spectra.Hostwatch.Sustained
import Spectra.Library.GoText

/-! The sustained-CPU probe. -/
namespace Spectra.Hostwatch
open Library

inductive Os where
  | unknown | darwin | linux
  deriving DecidableEq

def sustainedChainDepth : ℕ := 8

def sustainedSampleRetry : ℤ := 1800 * second

structure SampleSummary where
  text : String
  failed : Bool
  time : ℤ
  deriving DecidableEq

/-- The cumulative CPU time of a process at one probe. -/
structure CpuSnap where
  started : ℤ
  cpu : ℤ
  time : ℤ
  deriving DecidableEq

structure SustainedState where
  tracker : SustainedTracker
  os : Os
  summaries : KeyMap SampleSummary
  persisted : KeyMap ℤ
  prev : PidMap CpuSnap
  failures : ℕ

/-- What the host answers during one tick: the parsed `ps` listing, the CPU time of
`/proc/<pid>/stat`, and the one-shot sample of a process with its success. -/
structure ProbeInput where
  ps : Option (List ProcObs)
  stat : ℤ → Option ℤ
  sample : ℤ → String × Bool

structure ChainLink where
  pid : ℤ
  name : String
  deriving DecidableEq

structure RestoredIdent where
  since : Option ℤ
  started : Option ℤ

/-- How an alert's detail is written, and what is read back from it. -/
structure DetailText where
  render : SustainedFinding → ℤ → List ChainLink → Os → String → String
  parse : String → RestoredIdent

namespace SustainedState

def new (cfg : SustainedConfig) (os : Os) : SustainedState :=
  ⟨SustainedTracker.new cfg, os, ∅, ∅, ∅, 0⟩

/-- A process on Linux: its snapshot for the next tick and its observation. The usage is the CPU
time since the last tick; a first sighting has none. -/
def cpuObservation (stat : ℤ → Option ℤ) (now : ℤ) (prev : PidMap CpuSnap) (p : ProcObs) :
    Option CpuSnap × Option ProcObs :=
  match stat p.pid with
  | none => (prev[p.pid]?, some { p with skip := true })
  | some cpu =>
    (some ⟨p.started, cpu, now⟩,
      prev[p.pid]?.bind fun last =>
        if sameStart (some last.started) p.started = false ∨ now ≤ last.time ∨ cpu < last.cpu then
          none
        else some { p with cpuPct := 100 * ((cpu - last.cpu : ℤ) : ℚ) / ((now - last.time : ℤ) : ℚ) })

def noteSnap (next : PidMap CpuSnap) (pid : ℤ) (snap : Option CpuSnap) : PidMap CpuSnap :=
  match snap with
  | none => next
  | some s => next.insert pid s

def cpuObservations (stat : ℤ → Option ℤ) (procs : List ProcObs) (now : ℤ) (st : SustainedState) :
    SustainedState × List ProcObs :=
  if st.os ≠ .linux then (st, procs)
  else
    let next := procs.foldl
      (fun next p => noteSnap next p.pid (cpuObservation stat now st.prev p).1) ∅
    ({ st with prev := next }, procs.filterMap fun p => (cpuObservation stat now st.prev p).2)

/-- The cached summary of a finding, taken anew if there is none, or an old failed one, and
the tick may still take a sample. -/
def sampleFor (sample : ℤ → String × Bool) (key : String) (pid now : ℤ) (budget : ℕ)
    (summaries : KeyMap SampleSummary) : String × ℕ × KeyMap SampleSummary :=
  let cached := summaries[key]?
  let retry := cached.any fun c => c.failed && decide (sustainedSampleRetry ≤ now - c.time)
  if (cached = none ∨ retry) ∧ 0 < budget then
    let (text, ok) := sample pid
    (text, budget - 1, summaries.insert key ⟨text, !ok, now⟩)
  else (cached.elim "" SampleSummary.text, budget, summaries)

end SustainedState

/-- The walk of `ParentChain` from a process up, at most `n` processes long. -/
def ancestors (table : PidMap ProcObs) : ℕ → List ℤ → ℤ → List ChainLink
  | 0, _, _ => []
  | n + 1, seen, cur =>
    if cur ∈ seen then []
    else
      match table[cur]? with
      | none => []
      | some p =>
        ⟨p.pid, GoPath.base p.name⟩ :: if p.ppid ≤ 0 then [] else ancestors table n (cur :: seen) p.ppid

def parentChain (table : PidMap ProcObs) (pid : ℤ) (maxDepth : ℕ) : List ChainLink :=
  (ancestors table (maxDepth + 1) [] pid).reverse

def sustainedKey (f : SustainedFinding) : String :=
  sustainedKeyPrefix ++ GoPath.base f.name ++ ":" ++ GoText.itoa f.pid

namespace SustainedState
variable (text : DetailText)

/-- The loop of `sustainedConditions` over the findings. -/
def renderConditions (sample : ℤ → String × Bool) (table : PidMap ProcObs) (now : ℤ) (os : Os) :
    List SustainedFinding → ℕ → KeyMap SampleSummary → List Condition × KeyMap SampleSummary
  | [], _, summaries => ([], summaries)
  | f :: fs, budget, summaries =>
    let (summary, budget, summaries) :=
      sampleFor sample (sustainedKey f) f.pid now budget summaries
    let detail := text.render f now (parentChain table f.pid sustainedChainDepth) os summary
    let (conds, summaries) := renderConditions sample table now os fs budget summaries
    (⟨sustainedKey f, "warn", GoPath.base f.name ++ " sustained high CPU", detail⟩ :: conds, summaries)

/-- `none` if `ps` failed. -/
def sustainedConditions (probe : ProbeInput) (now : ℤ) (st : SustainedState) :
    SustainedState × Option (List Condition) :=
  match probe.ps with
  | none => ({ st with failures := st.failures + 1 }, none)
  | some procs =>
    let table : PidMap ProcObs := procs.foldl (fun table p => table.insert p.pid p) ∅
    let (st, observed) := cpuObservations probe.stat procs now { st with failures := 0 }
    let (tracker, findings) := st.tracker.observe now observed
    let (conds, summaries) := renderConditions text probe.sample table now st.os findings 1 st.summaries
    let live := findings.map sustainedKey
    ({ st with tracker := tracker, summaries := summaries.filter fun key _ => decide (key ∈ live) }, some conds)

/-- The since-time a restored alert is registered with; an old detail has none. -/
def restoredSince (id : RestoredIdent) (a : Alert) : ℤ :=
  match id.since with
  | none => a.firedAt
  | some s => if a.firedAt < s then a.firedAt else s

/-- The process a firing sustained alert names in its key. -/
def restoredProc (a : Alert) : Option (String × ℤ) :=
  if a.state ≠ .firing ∨ hasPrefix a.key sustainedKeyPrefix = false then none
  else
    match GoText.splitLast ':' (a.key.toList.drop sustainedKeyPrefix.length) with
    | none => none
    | some (name, pid) =>
      match GoText.atoi (String.ofList pid) with
      | none => none
      | some pid => if 0 < pid then some (String.ofList name, pid) else none

def seedAlert (now : ℤ) (t : SustainedTracker) (a : Alert) : SustainedTracker :=
  match restoredProc a with
  | none => t
  | some (name, pid) =>
    let id := text.parse a.detail
    t.seed now pid name (some (restoredSince id a)) id.started

def seedSustained (now : ℤ) (alerts : List Alert) (st : SustainedState) : SustainedState :=
  { st with tracker := alerts.foldl (seedAlert text now) st.tracker }

end SustainedState
end Spectra.Hostwatch
