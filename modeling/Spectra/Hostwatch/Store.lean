import Spectra.Hostwatch.Engine

/-! The alerts table of the store, by alert id. -/
namespace Spectra.Hostwatch
open Library

structure AlertRow where
  id : String
  key : String
  severity : String
  title : String
  detail : String
  state : AlertState
  firedAt : ℤ
  resolvedAt : Option ℤ
  ackedAt : Option ℤ
  deriving DecidableEq

def toRow (a : Alert) : AlertRow :=
  ⟨a.id, a.key, a.severity, a.title, a.detail, a.state, a.firedAt, a.resolvedAt, a.ackedAt⟩

def fromRow (r : AlertRow) : Alert :=
  ⟨r.id, r.key, r.severity, r.title, r.detail, r.state, r.firedAt, r.resolvedAt, r.ackedAt⟩

abbrev AlertTable := KeyMap AlertRow

/-- The `ON CONFLICT(id)` clause: the key and the time of firing are not updated. -/
def AlertRow.update (r a : AlertRow) : AlertRow :=
  { r with severity := a.severity, title := a.title, detail := a.detail, state := a.state,
           resolvedAt := a.resolvedAt, ackedAt := a.ackedAt }

namespace AlertTable

def upsertAlert (a : AlertRow) (t : AlertTable) : AlertTable :=
  t.alter a.id fun
    | none => some a
    | some r => some (r.update a)

/-- `none` is `ErrNotFound`. -/
def ackAlert (id : String) (now : ℤ) (t : AlertTable) : AlertTable × Option AlertRow :=
  match t[id]? with
  | none => (t, none)
  | some r => (t.insert id { r with ackedAt := some now }, some { r with ackedAt := some now })

/-- The cutoff is the time `keepDays` before now, thirty days if none is given. -/
def pruneResolvedAlerts (now : ℤ) (keepDays : ℤ) (t : AlertTable) : AlertTable :=
  let days := if keepDays ≤ 0 then 30 else keepDays
  let cutoff := now - days * (24 * 3600 * 1000000000)
  t.filter fun _ r => !(r.state = .resolved && r.resolvedAt.any fun at' => decide (at' < cutoff))

variable {t : AlertTable} {id : String}

theorem getElem?_upsertAlert (a : AlertRow) :
    (upsertAlert a t)[id]? = if a.id = id then some (t[id]?.elim a fun r => r.update a) else t[id]? := by
  rw [upsertAlert, getElem?_alter_eq]
  split
  · rename_i h
    subst h
    cases t[a.id]? <;> rfl
  · rfl

theorem getElem?_ackAlert (now : ℤ) (id' : String) :
    (ackAlert id now t).1[id']? = if id = id' then t[id]?.map fun r => { r with ackedAt := some now } else t[id']? := by
  rw [ackAlert]
  cases h : t[id]? with
  | none =>
    by_cases hid : id = id'
    · rw [if_pos hid, ← hid]
      exact h
    · rw [if_neg hid]
  | some r =>
    rw [getElem?_insert_eq]
    rfl

theorem getElem?_pruneResolvedAlerts {now keepDays : ℤ} {r : AlertRow}
    (h : (pruneResolvedAlerts now keepDays t)[id]? = some r) : t[id]? = some r := by
  rw [pruneResolvedAlerts, Std.ExtTreeMap.getElem?_filter', Option.filter_eq_some_iff] at h
  exact h.1

end AlertTable
end Spectra.Hostwatch
