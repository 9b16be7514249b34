import Spectra.Library.GoRuntime
import Mathlib.Data.Stream.Init
import Mathlib.Data.String.Basic

/-! The alert engine: conditions become alerts with episodes, in three scopes that share
one table of active alerts. Times and durations are integers, in nanoseconds. -/
namespace Spectra.Hostwatch
open Library

abbrev KeyMap (α : Type) := Std.ExtTreeMap String α

structure Condition where
  key : String
  severity : String
  title : String
  detail : String
  deriving DecidableEq, Repr

inductive AlertState where
  | firing | resolved
  deriving DecidableEq, Repr

structure Alert where
  id : String
  key : String
  severity : String
  title : String
  detail : String
  state : AlertState
  firedAt : ℤ
  resolvedAt : Option ℤ
  ackedAt : Option ℤ
  deriving DecidableEq, Repr

/-- `a.Severity, a.Title, a.Detail = c.Severity, c.Title, c.Detail` -/
def Alert.refresh (a : Alert) (c : Condition) : Alert :=
  { a with severity := c.severity, title := c.title, detail := c.detail }

inductive EventType where
  | fired | updated | resolved
  deriving DecidableEq, Repr

structure Event where
  type : EventType
  alert : Alert
  deriving DecidableEq, Repr

/-- The engine's tables, and the ids its generator has yet to hand out. Every active
alert is filed under its own key. -/
structure Engine where
  active : KeyMap Alert
  clears : KeyMap ℤ
  parents : KeyMap ℤ
  ids : Stream' String
  keyed : ∀ {k : String} {a : Alert}, active[k]? = some a → a.key = k

/-- The choices of the Go runtime during one call. -/
structure Runtime where
  range : MapRange String Alert
  sort : SliceSort fun ev : Event => ev.alert.key

instance : Inhabited Runtime := ⟨⟨default, default⟩⟩

inductive Scope where
  | slow | spawn | sustained
  deriving DecidableEq, Repr

def sustainedKeyPrefix : String := "cpu.sustained:"

def hasPrefix (s p : String) : Bool := p.toList.isPrefixOf s.toList

def spawnKey (key : String) : Bool :=
  key = "spawn.rate" ∨ key = "procs.uid" ∨ key = "procs.total"

def withinScope (scope : Scope) (key : String) : Bool :=
  let sustained := hasPrefix key sustainedKeyPrefix
  match scope with
  | .spawn => spawnKey key
  | .sustained => sustained
  | .slow => !spawnKey key && !sustained

namespace Engine

def new (ids : Stream' String) : Engine where
  active := ∅
  clears := ∅
  parents := ∅
  ids := ids
  keyed := by simp

/-- `e.active[key] = a`; wherever the source assigns it, `key` is the key of `a`. -/
def setActive (e : Engine) (a : Alert) : Engine where
  active := e.active.insert a.key a
  clears := e.clears
  parents := e.parents
  ids := e.ids
  keyed := by
    intro k b hb
    rw [getElem?_insert_eq] at hb
    split at hb
    · rename_i hk
      rw [← Option.some.inj hb, hk]
    · exact e.keyed hb

/-- The three deletions of a resolved key. -/
def dropKey (e : Engine) (key : String) : Engine where
  active := e.active.erase key
  clears := e.clears.erase key
  parents := e.parents.erase key
  ids := e.ids
  keyed := by
    intro k b hb
    rw [getElem?_erase_eq] at hb
    split at hb
    · cases hb
    · exact e.keyed hb

def fire (c : Condition) (id : String) (now : ℤ) : Alert where
  id := id
  key := c.key
  severity := c.severity
  title := c.title
  detail := c.detail
  state := .firing
  firedAt := now
  resolvedAt := none
  ackedAt := none

def noteParent (scope : Scope) (topPID : ℤ) (key : String) (e : Engine) : Engine :=
  if scope = .spawn ∧ 0 ≤ topPID then { e with parents := e.parents.insert key topPID } else e

def applyCondition (now : ℤ) (c : Condition) (scope : Scope) (topPID : ℤ) (e : Engine) :
    Engine × Option Event :=
  let e := { e with clears := e.clears.insert c.key 0 }
  match e.active[c.key]? with
  | none =>
    let a := fire c e.ids.head now
    let e := { e with ids := e.ids.tail }
    (noteParent scope topPID c.key (e.setActive a), some ⟨.fired, a⟩)
  | some a =>
    let severityChanged := a.severity ≠ c.severity
    let parentChanged := scope = .spawn ∧ 0 ≤ topPID ∧ ∃ p ∈ e.parents[c.key]?, p ≠ topPID
    let b := a.refresh c
    let (a, e) := if a.title ≠ c.title ∨ a.detail ≠ c.detail ∨ severityChanged
      then (b, e.setActive b) else (a, e)
    (noteParent scope topPID c.key e,
      if severityChanged ∨ parentChanged then some ⟨.updated, a⟩ else none)

/-- The loop of `evaluate` over the conditions of its scope. -/
def applyConditions (now : ℤ) (scope : Scope) (topPID : ℤ) :
    List Condition → Engine → Engine × List Event
  | [], e => (e, [])
  | c :: cs, e =>
    if withinScope scope c.key then
      let (e, event) := applyCondition now c scope topPID e
      let (e, out) := applyConditions now scope topPID cs e
      (e, event.toList ++ out)
    else applyConditions now scope topPID cs e

def seenKeys (scope : Scope) (conditions : List Condition) : List String :=
  (conditions.filter fun c => withinScope scope c.key).map Condition.key

def resolve (a : Alert) (now : ℤ) : Alert :=
  { a with state := .resolved, resolvedAt := some now }

/-- One iteration of `resolveMissing`. -/
def resolveEntry (now : ℤ) (seen : List String) (scope : Scope) (clearAfter : ℤ)
    (key : String) (a : Alert) (e : Engine) : Engine × Option Event :=
  if withinScope scope key = false ∨ key ∈ seen then (e, none)
  else
    let n := e.clears[key]?.getD 0 + 1
    let e := { e with clears := e.clears.insert key n }
    if n < clearAfter then (e, none)
    else (e.dropKey key, some ⟨.resolved, resolve a now⟩)

/-- The loop of `resolveMissing` over the entries of the active table. -/
def resolveEntries (now : ℤ) (seen : List String) (scope : Scope) (clearAfter : ℤ) :
    List (String × Alert) → Engine → Engine × List Event
  | [], e => (e, [])
  | (key, a) :: rest, e =>
    let (e, event) := resolveEntry now seen scope clearAfter key a e
    let (e, out) := resolveEntries now seen scope clearAfter rest e
    (e, event.toList ++ out)

def resolveMissing (rt : Runtime) (now : ℤ) (seen : List String) (scope : Scope)
    (clearAfter : ℤ) (e : Engine) : Engine × List Event :=
  resolveEntries now seen scope clearAfter (rt.range.order e.active) e

/-- The events of `evaluate` in the order it appends them. -/
def emit (rt : Runtime) (now : ℤ) (conditions : List Condition) (scope : Scope)
    (clearAfter topPID : ℤ) (e : Engine) : Engine × List Event :=
  let (e, out) := applyConditions now scope topPID conditions e
  let (e, resolved) := resolveMissing rt now (seenKeys scope conditions) scope clearAfter e
  (e, out ++ resolved)

def evaluate (rt : Runtime) (now : ℤ) (conditions : List Condition) (scope : Scope)
    (clearAfter topPID : ℤ) (e : Engine) : Engine × List Event :=
  let (e, out) := emit rt now conditions scope clearAfter topPID e
  (e, rt.sort.sort out)

def evaluateSlow (rt : Runtime) (now : ℤ) (conditions : List Condition) (e : Engine) :
    Engine × List Event :=
  evaluate rt now conditions .slow 2 0 e

def evaluateSpawn (rt : Runtime) (now : ℤ) (conditions : List Condition) (topPID : List ℤ)
    (e : Engine) : Engine × List Event :=
  evaluate rt now conditions .spawn 3 (topPID.headD (-1)) e

def evaluateSustained (rt : Runtime) (now : ℤ) (conditions : List Condition) (e : Engine) :
    Engine × List Event :=
  evaluate rt now conditions .sustained 2 (-1) e

def setDetail (key detail : String) (e : Engine) : Engine × Option Alert :=
  match e.active[key]? with
  | none => (e, none)
  | some a =>
    if a.detail = detail then (e, none)
    else
      let b := { a with detail := detail }
      (e.setActive b, some b)

def restore : List Alert → Engine → Engine
  | [], e => e
  | a :: alerts, e => restore alerts (if a.state = .firing then e.setActive a else e)

def ack (rt : Runtime) (id : String) (now : ℤ) (e : Engine) : Engine × Option Alert :=
  match (rt.range.order e.active).find? fun entry => entry.2.id = id with
  | none => (e, none)
  | some (_, a) =>
    let b := { a with ackedAt := some now }
    (e.setActive b, some b)

end Engine
end Spectra.Hostwatch
