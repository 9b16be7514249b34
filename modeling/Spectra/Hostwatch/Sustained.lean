import Spectra.Hostwatch.Engine
import Spectra.Library.GoPath
import Spectra.Library.GoTime
import Mathlib.Algebra.Order.Ring.Rat

/-! The sustained-CPU tracker. -/
namespace Spectra.Hostwatch
open Library

def startTolerance : ℤ := 3 * second

def sustainedMinGap : ℤ := 300 * second

def sustainedMinClearPoints : ℤ := 4

def sustainedClearFraction : ℚ := 1 / 2

structure SustainedConfig where
  cpuPct : ℚ
  window : ℤ
  minFraction : ℚ
  allowlist : List String
  interval : ℤ
  maxGap : ℤ
  /-- `unicode.ToLower`, whose table comes with the Go runtime. -/
  lower : Char → Char

def defaultSustainedConfig : SustainedConfig := ⟨50, 900 * second, 9 / 10, [], 0, 0, Char.toLower⟩

/-- One process observation fed to the tracker; `skip` marks a process that is present but
has no usable reading. -/
structure ProcObs where
  pid : ℤ
  ppid : ℤ
  name : String
  cpuPct : ℚ
  started : ℤ
  skip : Bool
  deriving DecidableEq

structure SustainedFinding where
  pid : ℤ
  name : String
  started : Option ℤ
  since : ℤ
  duration : ℤ
  avgCPU : ℚ
  fraction : ℚ
  deriving DecidableEq

structure CpuPoint where
  time : ℤ
  above : Bool
  cpu : ℚ
  deriving DecidableEq

structure SustainedEntry where
  name : String
  started : Option ℤ
  points : List CpuPoint
  since : Option ℤ
  lastGood : ℤ
  adopt : Bool
  deriving DecidableEq

abbrev PidMap (α : Type) := Std.ExtTreeMap ℤ α

structure SustainedTracker where
  cfg : SustainedConfig
  entries : PidMap SustainedEntry
  last : Option ℤ

namespace SustainedConfig
variable (cfg : SustainedConfig)

def Allowed (name : String) : Bool :=
  cfg.allowlist.any fun pattern =>
    GoPath.pathMatch (pattern.map cfg.lower) ((GoPath.base name).map cfg.lower) = some true

/-- The method `maxGap` of the tracker. -/
def gapLimit : ℤ := if sustainedMinGap < cfg.maxGap then cfg.maxGap else sustainedMinGap

def capacity : ℤ := if cfg.interval ≤ 0 then 0 else cfg.window.tdiv (4 * cfg.interval)

def minClearPoints : ℤ :=
  let n := if 0 < cfg.capacity ∧ cfg.capacity < sustainedMinClearPoints then cfg.capacity
    else sustainedMinClearPoints
  if n < 2 then 2 else n

def minAbovePoints : ℤ := if 3 < cfg.capacity.tdiv 2 then cfg.capacity.tdiv 2 else 3

end SustainedConfig

/-- The difference of the zero time and any start saturates, its negation overflows, and
so it is within every tolerance. -/
def sameStart (a : Option ℤ) (b : ℤ) : Bool := a.all fun a => |a - b| ≤ startTolerance

theorem sameStart_iff {a : Option ℤ} {b : ℤ} : sameStart a b = true ↔ ∀ s ∈ a, |s - b| ≤ startTolerance := by
  cases a <;> simp [sameStart]

def trimPoints (cutoff : ℤ) : List CpuPoint → List CpuPoint
  | a :: b :: rest => if b.time < cutoff then trimPoints cutoff (b :: rest) else a :: b :: rest
  | points => points

def inWindow (cutoff : ℤ) : List CpuPoint → List CpuPoint
  | a :: rest => if a.time < cutoff then rest else a :: rest
  | [] => []

def anyAbove (points : List CpuPoint) : Bool := points.any CpuPoint.above

def countAbove (points : List CpuPoint) : ℕ := points.countP CpuPoint.above

/-- The share of readings above the threshold and their average; both are only read for a
nonempty list. -/
def summarize (points : List CpuPoint) : ℚ × ℚ :=
  ((countAbove points : ℚ) / points.length, (points.map CpuPoint.cpu).sum / points.length)

def lastBelow (points : List CpuPoint) (n : ℕ) : Bool :=
  n ≤ points.length && !anyAbove (points.drop (points.length - n))

namespace SustainedTracker
variable (cfg : SustainedConfig)

def new : SustainedTracker := ⟨cfg, ∅, none⟩

/-- What becomes of the entry of the observed PID. -/
def dropIfReused (p : ProcObs) : Option SustainedEntry → Option SustainedEntry
  | none => none
  | some e =>
    if e.adopt ∧ GoPath.base p.name = GoPath.base e.name ∧
        (e.started = none ∨ sameStart e.started p.started) then
      some { e with started := some p.started, adopt := false }
    else if e.adopt ∨ sameStart e.started p.started = false then none
    else some e

def staleHistory (e : SustainedEntry) (now : ℤ) : Bool :=
  match e.points.getLast? with
  | none => false
  | some q => 0 < cfg.interval && 8 * cfg.interval < now - q.time

/-- The readings of an entry with one more, before they are trimmed. -/
def appended (now : ℤ) (p : ProcObs) (e : SustainedEntry) : List CpuPoint :=
  (if staleHistory cfg e now then [] else e.points) ++ [⟨now, cfg.cpuPct ≤ p.cpuPct, p.cpuPct⟩]

/-- The second half of `record`, on the entry it found or made. -/
def recordInto (now : ℤ) (p : ProcObs) (e : SustainedEntry) : Option SustainedEntry :=
  let cutoff := now - cfg.window
  let points := trimPoints cutoff (appended cfg now p e)
  let inside := inWindow cutoff points
  let carried := e.since.isSome && inside.length < cfg.minClearPoints
  if !anyAbove inside && !carried then none
  else some { e with points := points, lastGood := now }

def record (now : ℤ) (p : ProcObs) : Option SustainedEntry → Option SustainedEntry
  | some e => recordInto cfg now p e
  | none =>
    if cfg.cpuPct ≤ p.cpuPct then
      recordInto cfg now p ⟨p.name, some p.started, [], none, now, false⟩
    else none

/-- Observations the tracker considers. -/
def Tracked (p : ProcObs) : Bool := 0 < p.pid && !cfg.Allowed p.name

def observeEntry (now : ℤ) (e : Option SustainedEntry) (p : ProcObs) : Option SustainedEntry :=
  let e := dropIfReused p e
  if p.skip then e else record cfg now p e

def observeProc (now : ℤ) (entries : PidMap SustainedEntry) (p : ProcObs) : PidMap SustainedEntry :=
  if Tracked cfg p then entries.alter p.pid fun e => observeEntry cfg now e p else entries

def resetEntry (e : SustainedEntry) : Option SustainedEntry :=
  match e.since with
  | none => none
  | some _ => some { e with points := [] }

def resetAfterGap (entries : PidMap SustainedEntry) : PidMap SustainedEntry :=
  entries.filterMap fun _ e => resetEntry e

/-- The `switch` of `evaluate`: when the entry starts or stops being sustained. -/
def updateSince (now : ℤ) (points inside : List CpuPoint) (since : Option ℤ) : Option ℤ :=
  let frac := (summarize inside).1
  let covered := points.head?.any fun q => cfg.window ≤ now - q.time
  match since with
  | none =>
    if covered ∧ cfg.minFraction ≤ frac ∧ cfg.minAbovePoints ≤ countAbove inside then
      inside.head?.map CpuPoint.time
    else none
  | some s =>
    if frac < sustainedClearFraction ∧ cfg.minClearPoints ≤ inside.length ∧ lastBelow inside 2 then
      none
    else some s

/-- One iteration of `evaluate`: what becomes of the entry, and its finding. -/
def evaluateEntry (now : ℤ) (pid : ℤ) (e : SustainedEntry) :
    Option SustainedEntry × Option SustainedFinding :=
  if cfg.window ≤ now - e.lastGood then (none, none)
  else
    let cutoff := now - cfg.window
    let points := trimPoints cutoff e.points
    let inside := inWindow cutoff points
    if inside = [] then (some { e with points := points }, none)
    else
      let since := updateSince cfg now points inside e.since
      (some { e with points := points, since := since },
        since.map fun s => ⟨pid, e.name, e.started, s, now - s, (summarize inside).2, (summarize inside).1⟩)

/-- The findings come in the order of their PIDs, which are distinct. -/
def evaluate (now : ℤ) (entries : PidMap SustainedEntry) :
    PidMap SustainedEntry × List SustainedFinding :=
  (entries.filterMap fun pid e => (evaluateEntry cfg now pid e).1,
    entries.toList.filterMap fun x => (evaluateEntry cfg now x.1 x.2).2)

/-- Whether an observation at this time follows a suspend or a step back of the clock. -/
def isGap (now : ℤ) (t : SustainedTracker) : Bool :=
  match t.last with
  | none => false
  | some last => t.cfg.gapLimit < now - last || now < last

def observe (now : ℤ) (procs : List ProcObs) (t : SustainedTracker) :
    SustainedTracker × List SustainedFinding :=
  let entries := if isGap now t then resetAfterGap t.entries else t.entries
  let entries := procs.foldl (observeProc t.cfg now) entries
  let seen := (procs.filter (Tracked t.cfg)).map ProcObs.pid
  let entries := entries.filter fun pid _ => decide (pid ∈ seen)
  let (entries, out) := evaluate t.cfg now entries
  (⟨t.cfg, entries, some now⟩, out)

def seed (now : ℤ) (pid : ℤ) (name : String) (since started : Option ℤ)
    (t : SustainedTracker) : SustainedTracker :=
  { t with entries := t.entries.insert pid ⟨name, started, [], since, now, true⟩ }

end SustainedTracker
end Spectra.Hostwatch
