import Spectra.Hostwatch.Writers

/-! The spawn probe. -/
namespace Spectra.Hostwatch
open Library Engine

structure SpawnProcess where
  pid : ℤ
  uid : ℤ

structure SpawnThresholds where
  rateWarn : ℚ
  rateCritical : ℚ
  uidWarnPct : ℚ
  uidCriticalPct : ℚ
  totalWarnPct : ℚ
  totalCriticalPct : ℚ

def defaultSpawnThresholds : SpawnThresholds := ⟨40, 120, 40, 70, 50, 80⟩

structure SpawnCounts where
  procsTotal : ℕ
  procsUID : ℕ
  uidLimit : ℤ
  totalLimit : ℤ
  delta : ℕ
  newPerSec : ℚ

/-- `previous` holds the process ids of the last probe, if there was one. -/
structure SpawnTracker where
  previous : Option (List ℤ)
  time : ℤ
  warnStreak : ℕ

/-- What one call of `TickSpawn` reads. The parent with the most children and the text that
`spawnDetail` makes of the attribution are given. -/
structure SpawnSample where
  now : ℤ
  processes : List SpawnProcess
  uid : ℤ
  uidLimit : ℤ
  totalLimit : ℤ
  parentPID : ℤ
  detail : String

namespace SpawnTracker

def update (x : SpawnSample) (t : SpawnTracker) : SpawnCounts × SpawnTracker :=
  let listed := x.processes.filter fun p => decide (0 < p.pid)
  let current := (listed.map SpawnProcess.pid).dedup
  let delta := t.previous.elim 0 fun previous => listed.countP fun p => decide (p.pid ∉ previous)
  ({ procsTotal := current.length
     procsUID := listed.countP fun p => decide (p.uid = x.uid)
     uidLimit := x.uidLimit
     totalLimit := x.totalLimit
     delta := delta
     newPerSec := if t.previous.isSome ∧ t.time < x.now then
       delta * second / (x.now - t.time : ℤ) else 0 },
   { t with previous := some current, time := x.now })

def spawnPctSeverity (count : ℕ) (limit : ℤ) (warn critical : ℚ) : String :=
  if limit ≤ 0 then ""
  else if critical ≤ 100 * count / limit then "critical"
  else if warn ≤ 100 * count / limit then "warn"
  else ""

def evaluateSpawn (cfg : SpawnThresholds) (s : SpawnCounts) (t : SpawnTracker) :
    List Condition × SpawnTracker :=
  let streak := if cfg.rateWarn ≤ s.newPerSec then t.warnStreak + 1 else 0
  let rate : List Condition :=
    if cfg.rateCritical ≤ s.newPerSec then
      [⟨"spawn.rate", "critical", "Process spawn rate is critical", ""⟩]
    else if 2 ≤ streak then [⟨"spawn.rate", "warn", "Process spawn rate is high", ""⟩]
    else []
  let uid := spawnPctSeverity s.procsUID s.uidLimit cfg.uidWarnPct cfg.uidCriticalPct
  let total := spawnPctSeverity s.procsTotal s.totalLimit cfg.totalWarnPct cfg.totalCriticalPct
  (rate ++
    (if uid ≠ "" then [⟨"procs.uid", uid, "User process limit is near exhaustion", ""⟩] else []) ++
    (if total ≠ "" then [⟨"procs.total", total, "System process limit is near exhaustion", ""⟩] else []),
   { t with warnStreak := streak })

/-- Every condition gets the text of the attribution. -/
def sampleSpawn (cfg : SpawnThresholds) (x : SpawnSample) (t : SpawnTracker) :
    List Condition × SpawnTracker :=
  let (s, t) := t.update x
  let (conds, t) := t.evaluateSpawn cfg s
  (conds.map fun c => { c with detail := x.detail }, t)

theorem keys_sampleSpawn (cfg : SpawnThresholds) (x : SpawnSample) (t : SpawnTracker) :
    ((t.sampleSpawn cfg x).1.map Condition.key).Sublist ["spawn.rate", "procs.uid", "procs.total"] := by
  have hkeys : ((t.sampleSpawn cfg x).1.map Condition.key) =
      (((t.update x).2.evaluateSpawn cfg (t.update x).1).1.map Condition.key) := by
    change List.map _ (List.map _ _) = _
    rw [List.map_map]
    rfl
  rw [hkeys, evaluateSpawn]
  split_ifs <;> simp

end SpawnTracker

/-- The service as far as the spawn probe goes. -/
structure SpawnService where
  tracker : SpawnTracker
  watch : Watch

/-- `TickSpawn` up to the end of `publishSpawn`, its call of `enqueueSpawnPersistence`, and the
two steps of the persister, whose writes succeed. -/
inductive SpawnOp where
  | tick (rt : Runtime) (x : SpawnSample)
  | enqueue
  | receive
  | write

namespace SpawnService

def start (ids : Stream' String) (store : AlertTable) : SpawnService where
  tracker := ⟨none, 0, 0⟩
  watch := Watch.start ids store []

/-- A probe begins once the one before it has put its item into the queue. -/
def step (cfg : SpawnThresholds) (s : SpawnService) : SpawnOp → SpawnService
  | .tick rt x =>
    if s.watch.published = none then
      let (conds, tracker) := s.tracker.sampleSpawn cfg x
      { tracker := tracker, watch := s.watch.step (.publishSpawn rt x.now conds x.parentPID) }
    else s
  | .enqueue => { s with watch := s.watch.step .enqueueSpawn }
  | .receive => { s with watch := s.watch.step .receiveSpawn }
  | .write => { s with watch := s.watch.step (.writeSpawn true) }

def run (cfg : SpawnThresholds) (ops : List SpawnOp) (s : SpawnService) : SpawnService :=
  ops.foldl (step cfg) s

/-- No probe is under way, the queue is empty and the persister idle. -/
def Idle (s : SpawnService) : Prop :=
  s.watch.published = none ∧ s.watch.queue = [] ∧ s.watch.writing = []

instance (s : SpawnService) : Decidable s.Idle := inferInstanceAs (Decidable (_ ∧ _))

end SpawnService
end Spectra.Hostwatch
