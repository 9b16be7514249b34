import Spectra.Hostwatch.Persistence

/-! The service as its goroutines interleave. -/
namespace Spectra.Hostwatch
open Library Engine

structure SpawnPersistRecord where
  time : ℤ
  detail : String

def spawnPersistInterval : ℤ := 30 * second

def spawnPersistQueueSize : ℕ := 16

/-- What a call of `persistSustained` has still to write. -/
structure SustainedWork where
  now : ℤ
  events : List Event
  active : List Alert

/-- The engine and the store, the alerts that `Tick` has captured, those of `TickSustained`
and `persisted`, and the items of the spawn probe: published, queued, being written. -/
structure Watch where
  engine : Engine
  store : AlertTable
  slow : List Alert
  sustained : SustainedWork
  persisted : KeyMap ℤ
  spawnPersisted : KeyMap SpawnPersistRecord
  published : Option (List Alert)
  queue : List (List Alert)
  writing : List Alert

/-- The severities `publishSpawn` notes before it evaluates. -/
def previousSeverity (e : Engine) (conds : List Condition) (key : String) : String :=
  if key ∈ conds.map Condition.key then e.active[key]?.elim "" Alert.severity else ""

def spawnRecent (now : ℤ) (persisted : KeyMap SpawnPersistRecord) (key : String) : Bool :=
  persisted[key]?.any fun prev => decide (now - prev.time < spawnPersistInterval)

/-- The loop of `spawnPersistenceItem` over the events. -/
def spawnItemEvents (now : ℤ) (previous : String → String) :
    List Event → KeyMap SpawnPersistRecord → List Alert × KeyMap SpawnPersistRecord
  | [], persisted => ([], persisted)
  | ev :: events, persisted =>
    if ev.type = .resolved then
      let (item, persisted) := spawnItemEvents now previous events (persisted.erase ev.alert.key)
      (ev.alert :: item, persisted)
    else if ev.type = .updated ∧ previous ev.alert.key = ev.alert.severity ∧
        spawnRecent now persisted ev.alert.key then
      spawnItemEvents now previous events persisted
    else
      let (item, persisted) := spawnItemEvents now previous events
        (persisted.insert ev.alert.key ⟨now, ev.alert.detail⟩)
      (ev.alert :: item, persisted)

/-- The loop of `spawnPersistenceItem` over the active alerts. -/
def spawnItemActive (now : ℤ) :
    List Alert → KeyMap SpawnPersistRecord → List Alert × KeyMap SpawnPersistRecord
  | [], persisted => ([], persisted)
  | a :: alerts, persisted =>
    if spawnKey a.key = false ∨ persisted[a.key]?.any (fun prev => prev.detail = a.detail) ∨
        spawnRecent now persisted a.key then
      spawnItemActive now alerts persisted
    else
      let (item, persisted) := spawnItemActive now alerts (persisted.insert a.key ⟨now, a.detail⟩)
      (a :: item, persisted)

/-- The alerts of an item, in the order they are written. -/
def spawnPersistenceItem (now : ℤ) (previous : String → String) (events : List Event)
    (active : List Alert) (persisted : KeyMap SpawnPersistRecord) :
    List Alert × KeyMap SpawnPersistRecord :=
  let (item, persisted) := spawnItemEvents now previous events persisted
  let (detail, persisted) := spawnItemActive now active persisted
  (item ++ detail, persisted)

/-- The steps that goroutines take: sections under the mutex, single calls of the store, and
operations on the queue. Each `ok` says whether the write succeeds. -/
inductive WatchOp where
  | tick (rt : Runtime) (now : ℤ) (conds : List Condition)
  | writeSlow (ok : Bool)
  | tickSustained (rt : Runtime) (now : ℤ) (conds : List Condition)
  | flagProbeUnavailable (now : ℤ)
  | writeSustained (ok : Bool)
  | publishSpawn (rt : Runtime) (now : ℤ) (conds : List Condition) (parentPID : ℤ)
  | enqueueSpawn
  | receiveSpawn
  | writeSpawn (ok : Bool)
  | ackStore (id : String) (now : ℤ)
  | ackEngine (rt : Runtime) (id : String) (now : ℤ)
  | prune (now keepDays : ℤ)

namespace Watch

def start (ids : Stream' String) (store : AlertTable) (rows : List AlertRow) : Watch where
  engine := (Engine.new ids).restore (rows.map fromRow)
  store := store
  slow := []
  sustained := ⟨0, [], []⟩
  persisted := ∅
  spawnPersisted := ∅
  published := none
  queue := []
  writing := []

def upsert (ok : Bool) (a : Alert) (store : AlertTable) : AlertTable :=
  if ok then store.upsertAlert (toRow a) else store

def writeSustained (ok : Bool) (m : Watch) : Watch :=
  match m.sustained.events, m.sustained.active with
  | ev :: events, _ =>
    let (persisted, w) := Writes.persistEvents m.sustained.now [ev]
      (m.persisted, ⟨m.store, Stream'.const ok⟩)
    { m with store := w.store, persisted := persisted,
             sustained := { m.sustained with events := events } }
  | [], a :: active =>
    let (persisted, w) := Writes.persistActive m.sustained.now [a]
      (m.persisted, ⟨m.store, Stream'.const ok⟩)
    { m with store := w.store, persisted := persisted,
             sustained := { m.sustained with active := active } }
  | [], [] => m

/-- A goroutine that is still writing what it captured takes no new turn; a step that cannot
be taken changes nothing. -/
def step (op : WatchOp) (m : Watch) : Watch :=
  match op with
  | .tick rt now conds =>
    if m.slow = [] then
      let (engine, events) := m.engine.evaluateSlow rt now conds
      { m with engine := engine, slow := events.map Event.alert }
    else m
  | .writeSlow ok =>
    match m.slow with
    | [] => m
    | a :: slow => { m with store := upsert ok a m.store, slow := slow }
  | .tickSustained rt now conds =>
    if m.sustained.events = [] ∧ m.sustained.active = [] then
      let stale := staleKeys m.engine.activeAlerts
      let (engine, events) := m.engine.evaluateSustained rt now conds
      { m with engine := engine,
               sustained := ⟨now, events ++ clearedNoteEvents stale engine.activeAlerts, sustainedAlerts engine⟩ }
    else m
  | .flagProbeUnavailable now =>
    if m.sustained.events = [] ∧ m.sustained.active = [] then
      let (engine, events, noted) := flagAlerts (sustainedAlerts m.engine) m.engine
      { m with engine := engine, sustained := ⟨now, events, noted⟩,
               persisted := events.foldl (fun p ev => p.erase ev.alert.key) m.persisted }
    else m
  | .writeSustained ok => m.writeSustained ok
  | .publishSpawn rt now conds parentPID =>
    if m.published = none then
      let previous := previousSeverity m.engine conds
      let (engine, events) := m.engine.evaluateSpawn rt now conds [parentPID]
      let (item, persisted) :=
        spawnPersistenceItem now previous events engine.activeAlerts m.spawnPersisted
      { m with engine := engine, spawnPersisted := persisted, published := some item }
    else m
  | .enqueueSpawn =>
    match m.published with
    | none => m
    | some item =>
      { m with published := none,
               queue := if item ≠ [] ∧ m.queue.length < spawnPersistQueueSize then m.queue ++ [item]
                 else m.queue }
  | .receiveSpawn =>
    match m.writing, m.queue with
    | [], item :: queue => { m with writing := item, queue := queue }
    | _, _ => m
  | .writeSpawn ok =>
    match m.writing with
    | [] => m
    | a :: writing => { m with store := upsert ok a m.store, writing := writing }
  | .ackStore id now => { m with store := (m.store.ackAlert id now).1 }
  | .ackEngine rt id now => { m with engine := (m.engine.ack rt id now).1 }
  | .prune now keepDays => { m with store := m.store.pruneResolvedAlerts now keepDays }

def run (ops : List WatchOp) (m : Watch) : Watch := ops.foldl (fun m op => m.step op) m

/-- The alerts that have been captured and not been written yet. -/
def pending (m : Watch) : List Alert :=
  m.slow ++ (m.sustained.events.map Event.alert ++ m.sustained.active) ++
    (m.published.getD [] ++ m.queue.flatten ++ m.writing)

end Watch
end Spectra.Hostwatch
