import Spectra.Library.GoRuntime
import Mathlib.Data.Stream.Defs

/-! The issues table and the service over it. -/
namespace Spectra.Issues
open Library
open Std (ExtTreeMap)

inductive IssueStatus
  | issueOpen
  | issueAcknowledged
  | issueDismissed
  | issueFixed
  | issueClosed
  deriving DecidableEq

/-- `status IN ('open','acknowledged')`. -/
def IssueStatus.Active (status : IssueStatus) : Prop :=
  status = .issueOpen ∨ status = .issueAcknowledged

instance (status : IssueStatus) : Decidable status.Active :=
  inferInstanceAs (Decidable (_ ∨ _))

structure Identity where
  ruleID : String
  machineUUID : String
  subject : String
  deriving DecidableEq

/-- A row without its id, which is the key of the table. -/
structure IssueRow where
  identity : Identity
  severity : String
  message : String
  fix : String
  status : IssueStatus
  firstSeenSnapshotID : String
  lastSeenSnapshotID : String
  createdAt : String
  updatedAt : String
  deriving DecidableEq

abbrev IssueTable := ExtTreeMap String IssueRow

structure FindingInput where
  ruleID : String
  subject : String
  severity : String
  message : String
  fix : String

inductive StoreError
  | insertIssue
  | notFound
  | database
  deriving DecidableEq

section
variable (scan : MapRange String IssueRow) (machineUUID snapshotID now : String)

/-- `SELECT id … LIMIT 1`, the first matching row in the order of the scan. -/
def IssueTable.selectID (t : IssueTable) (k : Identity) (p : IssueStatus → Prop) [DecidablePred p] :
    Option String :=
  ((scan.order t).find? fun entry => entry.2.identity = k ∧ p entry.2.status).map Prod.fst

/-- The loop of `UpsertIssues`: the table of the transaction, the ids still to come from `newID`
and the ids touched. -/
structure Upsert where
  table : IssueTable
  newIDs : Stream' String
  ids : List String

def IssueRow.refresh (row : IssueRow) : IssueRow :=
  { row with lastSeenSnapshotID := snapshotID, updatedAt := now }

def FindingInput.row (f : FindingInput) : IssueRow where
  identity := ⟨f.ruleID, machineUUID, f.subject⟩
  severity := f.severity
  message := f.message
  fix := f.fix
  status := .issueOpen
  firstSeenSnapshotID := snapshotID
  lastSeenSnapshotID := snapshotID
  createdAt := now
  updatedAt := now

def Upsert.finding (u : Upsert) (f : FindingInput) : Except StoreError Upsert :=
  match u.table.selectID scan ⟨f.ruleID, machineUUID, f.subject⟩ IssueStatus.Active with
  | some existingID => .ok { u with
      table := u.table.alter existingID (Option.map (·.refresh snapshotID now))
      ids := u.ids ++ [existingID] }
  | none =>
    match u.table.selectID scan ⟨f.ruleID, machineUUID, f.subject⟩ (· = .issueDismissed) with
    | some _ => .ok u
    | none =>
      if (u.table[u.newIDs.head]?).isSome then .error .insertIssue
      else .ok {
        table := u.table.insert u.newIDs.head (f.row machineUUID snapshotID now)
        newIDs := u.newIDs.tail
        ids := u.ids ++ [u.newIDs.head] }

/-- An error rolls the transaction back. -/
def IssueTable.upsertIssues (t : IssueTable) (newIDs : Stream' String)
    (findings : List FindingInput) : Except StoreError (IssueTable × List String) :=
  (findings.foldlM (Upsert.finding scan machineUUID snapshotID now) ⟨t, newIDs, []⟩).map
    fun u => (u.table, u.ids)

end

def IssueRow.setStatus (status : IssueStatus) (now : String) (row : IssueRow) : IssueRow :=
  { row with status := status, updatedAt := now }

def IssueTable.updateIssueStatus (t : IssueTable) (now id : String) (status : IssueStatus) :
    Except StoreError IssueTable :=
  if (t[id]?).isSome then .ok (t.alter id (Option.map (·.setStatus status now)))
  else .error .notFound

/-- The parts of a snapshot a check reads. -/
structure Snapshot where
  id : String
  machineUUID : String
  hostname : String

def Snapshot.machineUUIDOf (snap : Snapshot) : String :=
  if snap.machineUUID ≠ "" then snap.machineUUID
  else if snap.hostname ≠ "" then snap.hostname
  else "local"

/-- A request to the service. The snapshot of a check may be missing, and its findings are what
the engine says about it. -/
inductive Request
  | check (snap : Option Snapshot) (evaluate : Snapshot → List FindingInput)
  | upsertIssues (machineUUID snapshotID : String) (findings : List FindingInput)
  | update (id : String) (status : IssueStatus)
  | acknowledge (id : String)
  | dismiss (id : String)

/-- One call: the request, the clock and the ids it reads, and whether the database carries it
out. -/
structure Call where
  request : Request
  now : String
  newIDs : Stream' String
  carriedOut : Bool

variable (scan : MapRange String IssueRow)

def IssueTable.request (t : IssueTable) (now : String) (newIDs : Stream' String) :
    Request → Except StoreError IssueTable
  | .check none _ => .error .database
  | .check (some snap) evaluate =>
    (t.upsertIssues scan snap.machineUUIDOf snap.id now newIDs (evaluate snap)).map Prod.fst
  | .upsertIssues machineUUID snapshotID findings =>
    (t.upsertIssues scan machineUUID snapshotID now newIDs findings).map Prod.fst
  | .update id status => t.updateIssueStatus now id status
  | .acknowledge id => t.updateIssueStatus now id .issueAcknowledged
  | .dismiss id => t.updateIssueStatus now id .issueDismissed

/-- A call that fails leaves the table as it was. -/
def IssueTable.step (t : IssueTable) (call : Call) : IssueTable :=
  if call.carriedOut then
    match t.request scan call.now call.newIDs call.request with
    | .ok t' => t'
    | .error _ => t
  else t

def IssueTable.run (t : IssueTable) (calls : List Call) : IssueTable :=
  calls.foldl (IssueTable.step scan) t

end Spectra.Issues
