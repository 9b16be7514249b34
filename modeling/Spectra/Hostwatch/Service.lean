import Spectra.Hostwatch.Probe
import Spectra.Hostwatch.Store

/-! The watch service around the engine, as far as sustained alerts go. -/
namespace Spectra.Hostwatch
open Library

def sustainedPersistRefresh : ℤ := 300 * second

def sustainedProbeFailLimit : ℕ := 5

def sustainedWindowIntervals : ℤ := 16

def probeUnavailableNote : String :=
  " [probe unavailable: ps has failed for several consecutive ticks; this alert is not being re-evaluated and may be stale]"

def hasSuffix (s p : String) : Bool := p.toList.isSuffixOf s.toList

/-- `ValidateWatchInterval`: a window too short for the interval is widened. -/
def validateWatchInterval (interval : ℤ) (cfg : SustainedConfig) : SustainedConfig :=
  if sustainedWindowIntervals * interval ≤ cfg.window then cfg
  else { cfg with window := sustainedWindowIntervals * interval }

/-- The configuration `initSustained` gives the tracker. -/
def initSustained (cfg : SustainedConfig) (interval : ℤ) : SustainedConfig :=
  let cfg := if cfg.window ≤ 0 then defaultSustainedConfig else cfg
  { validateWatchInterval interval cfg with interval := interval, maxGap := 12 * interval }

structure ServiceOptions where
  sustained : SustainedConfig
  interval : ℤ
  os : Os
  ids : Stream' String

/-- The tracker's configuration; `NewService` replaces an interval that is not positive. -/
def ServiceOptions.trackerConfig (opts : ServiceOptions) : SustainedConfig :=
  initSustained opts.sustained (if opts.interval ≤ 0 then 15 * second else opts.interval)

structure Service where
  engine : Engine
  sustained : SustainedState
  store : AlertTable

/-- The store during one tick, with the outcomes of the writes still to come. -/
structure Writes where
  store : AlertTable
  outcomes : Stream' Bool

namespace Writes

/-- One call of `UpsertAlert`, and whether it succeeded. -/
def write (a : Alert) (w : Writes) : Writes × Bool :=
  (⟨if w.outcomes.head then AlertTable.upsertAlert (toRow a) w.store else w.store, w.outcomes.tail⟩, w.outcomes.head)

/-- The loop of `persistSustained` over the events. -/
def persistEvents (now : ℤ) : List Event → KeyMap ℤ × Writes → KeyMap ℤ × Writes
  | [], s => s
  | event :: events, (persisted, w) =>
    let (w, ok) := w.write event.alert
    persistEvents now events
      (if ok ∧ event.type ≠ .resolved then persisted.insert event.alert.key now else persisted.erase event.alert.key, w)

/-- The row of an active alert was written a short while ago. -/
def Recent (now : ℤ) (persisted : KeyMap ℤ) (key : String) : Bool :=
  persisted[key]?.any fun last => decide (now - last < sustainedPersistRefresh)

/-- The loop of `persistSustained` over the active alerts. -/
def persistActive (now : ℤ) : List Alert → KeyMap ℤ × Writes → KeyMap ℤ × Writes
  | [], s => s
  | a :: alerts, (persisted, w) =>
    if Recent now persisted a.key then persistActive now alerts (persisted, w)
    else
      let (w, ok) := w.write a
      persistActive now alerts
        (if ok then persisted.insert a.key now else persisted.erase a.key, w)

end Writes

/-- The alerts of `Active`, in the order of their keys. -/
def Engine.activeAlerts (e : Engine) : List Alert := e.active.toList.map Prod.snd

def sustainedAlerts (e : Engine) : List Alert :=
  e.activeAlerts.filter fun a => hasPrefix a.key sustainedKeyPrefix

def staleKeys (active : List Alert) : List String :=
  (active.filter fun a => hasPrefix a.key sustainedKeyPrefix && hasSuffix a.detail probeUnavailableNote).map Alert.key

def clearedNoteEvents (stale : List String) (active : List Alert) : List Event :=
  (active.filter fun a => decide (a.key ∈ stale) && !hasSuffix a.detail probeUnavailableNote).map
    fun a => ⟨.updated, a⟩

/-- The loop of `flagProbeUnavailable`: the engine, the events and the alerts to write. -/
def flagAlerts : List Alert → Engine → Engine × List Event × List Alert
  | [], e => (e, [], [])
  | a :: alerts, e =>
    if hasSuffix a.detail probeUnavailableNote then
      let (e, events, noted) := flagAlerts alerts e
      (e, events, a :: noted)
    else
      match e.setDetail a.key (a.detail ++ probeUnavailableNote) with
      | (e, none) =>
        let (e, events, noted) := flagAlerts alerts e
        (e, events, a :: noted)
      | (e, some b) =>
        let (e, events, noted) := flagAlerts alerts e
        (e, ⟨.updated, b⟩ :: events, b :: noted)

namespace Service

def new (opts : ServiceOptions) (store : AlertTable) : Service where
  engine := Engine.new opts.ids
  sustained := SustainedState.new opts.trackerConfig opts.os
  store := store

/-- `restore`, with the rows `ListAlerts` returned. -/
def restore (text : DetailText) (now : ℤ) (rows : List AlertRow) (s : Service) : Service :=
  let restored := rows.map fromRow
  { s with engine := s.engine.restore restored,
           sustained := s.sustained.seedSustained text now restored }

def persistSustained (now : ℤ) (outcomes : Stream' Bool) (events : List Event)
    (active : List Alert) (s : Service) : Service :=
  let (persisted, w) := Writes.persistActive now active
    (Writes.persistEvents now events (s.sustained.persisted, ⟨s.store, outcomes⟩))
  { s with sustained := { s.sustained with persisted := persisted }, store := w.store }

def flagProbeUnavailable (now : ℤ) (outcomes : Stream' Bool) (s : Service) : Service × List Event :=
  let (engine, events, noted) := flagAlerts (sustainedAlerts s.engine) s.engine
  let persisted := events.foldl (fun persisted ev => persisted.erase ev.alert.key)
    s.sustained.persisted
  (persistSustained now outcomes events noted
    { s with engine := engine, sustained := { s.sustained with persisted := persisted } }, events)

def tickSustained (text : DetailText) (rt : Runtime) (now : ℤ) (probe : ProbeInput)
    (outcomes : Stream' Bool) (s : Service) : Service × List Event :=
  match s.sustained.sustainedConditions text probe now with
  | (st, none) =>
    let s := { s with sustained := st }
    if sustainedProbeFailLimit ≤ st.failures then s.flagProbeUnavailable now outcomes else (s, [])
  | (st, some conds) =>
    let stale := staleKeys s.engine.activeAlerts
    let (engine, events) := s.engine.evaluateSustained rt now conds
    let events := events ++ clearedNoteEvents stale engine.activeAlerts
    (persistSustained now outcomes events (sustainedAlerts engine) { s with engine := engine, sustained := st }, events)

end Service
end Spectra.Hostwatch
