import Spectra.Issues.IssueStore

/-! When at most one issue of an identity is active. -/
namespace Spectra.Issues
open Library
open Std (ExtTreeMap)

namespace IssueTable

/-- At most one issue of an identity is open or acknowledged. -/
def Unique (t : IssueTable) : Prop :=
  ∀ (id₁ id₂ : String) (row₁ row₂ : IssueRow), t[id₁]? = some row₁ → t[id₂]? = some row₂ →
    row₁.status.Active → row₂.status.Active → row₁.identity = row₂.identity → id₁ = id₂

/-- No other issue of the identity of issue `id` is active. -/
def Alone (t : IssueTable) (id : String) : Prop :=
  ∀ row, t[id]? = some row → ∀ (id' : String) (row' : IssueRow), t[id']? = some row' → id' ≠ id →
    row'.status.Active → row'.identity ≠ row.identity

section
variable {scan : MapRange String IssueRow} {t : IssueTable} {k : Identity}
  {p : IssueStatus → Prop} [DecidablePred p]

private theorem selectID_eq_none (h : t.selectID scan k p = none) {id : String} {row : IssueRow}
    (hrow : t[id]? = some row) (hk : row.identity = k) : ¬ p row.status := by
  have hfind := List.find?_eq_none.mp (Option.map_eq_none_iff.mp h) _ (scan.mem_order.mpr hrow)
  intro hp
  exact hfind (decide_eq_true ⟨hk, hp⟩)

end

variable {t : IssueTable}

/-- Rows that change neither their identity nor become active leave the table unique. -/
theorem unique_alter (h : t.Unique) (id : String) {f : IssueRow → IssueRow}
    (hidentity : ∀ row, (f row).identity = row.identity) (hactive : ∀ row, (f row).status.Active → row.status.Active) :
    Unique (t.alter id (Option.map f)) := by
  have hback (id' : String) (row : IssueRow)
      (hrow : (t.alter id (Option.map f))[id']? = some row) :
      ∃ old, t[id']? = some old ∧ old.identity = row.identity ∧
        (row.status.Active → old.status.Active) := by
    rw [getElem?_alter_eq] at hrow
    split at hrow
    · subst id'
      obtain ⟨old, hold, rfl⟩ := Option.map_eq_some_iff.mp hrow
      exact ⟨old, hold, (hidentity old).symm, hactive old⟩
    · exact ⟨row, hrow, rfl, fun hactive => hactive⟩
  intro id₁ id₂ row₁ row₂ h₁ h₂ hact₁ hact₂ heq
  obtain ⟨old₁, hold₁, hid₁, hback₁⟩ := hback id₁ row₁ h₁
  obtain ⟨old₂, hold₂, hid₂, hback₂⟩ := hback id₂ row₂ h₂
  exact h id₁ id₂ old₁ old₂ hold₁ hold₂ (hback₁ hact₁) (hback₂ hact₂)
    (hid₁.trans (heq.trans hid₂.symm))

private theorem unique_insert (h : t.Unique) {id : String} {row : IssueRow}
    (hnone : ∀ (id' : String) (row' : IssueRow), t[id']? = some row' → row'.identity = row.identity →
      ¬ row'.status.Active) : Unique (t.insert id row) := by
  intro id₁ id₂ row₁ row₂ h₁ h₂ hact₁ hact₂ heq
  rw [getElem?_insert_eq] at h₁ h₂
  split at h₁ <;> split at h₂
  · exact (‹id = id₁›).symm.trans ‹id = id₂›
  · cases h₁
    exact absurd hact₂ (hnone id₂ row₂ h₂ heq.symm)
  · cases h₂
    exact absurd hact₁ (hnone id₁ row₁ h₁ heq)
  · exact h id₁ id₂ row₁ row₂ h₁ h₂ hact₁ hact₂ heq

variable {scan : MapRange String IssueRow} {machineUUID snapshotID now : String}

private theorem unique_finding {u u' : Upsert} {f : FindingInput} (h : u.table.Unique)
    (hok : u.finding scan machineUUID snapshotID now f = .ok u') : u'.table.Unique := by
  rw [Upsert.finding] at hok
  split at hok
  · obtain rfl := Except.ok.inj hok
    exact unique_alter h _ (fun _ => rfl) (fun _ => id)
  · rename_i hactive
    split at hok
    · obtain rfl := Except.ok.inj hok
      exact h
    · split at hok
      · cases hok
      · obtain rfl := Except.ok.inj hok
        exact unique_insert h fun id row hrow hk => selectID_eq_none hactive hrow hk

private theorem unique_foldlM (findings : List FindingInput) {u u' : Upsert} (h : u.table.Unique)
    (hok : findings.foldlM (Upsert.finding scan machineUUID snapshotID now) u = .ok u') : u'.table.Unique := by
  induction findings generalizing u with
  | nil =>
    obtain rfl := Except.ok.inj hok
    exact h
  | cons f findings ih =>
    rw [List.foldlM_cons] at hok
    cases hf : u.finding scan machineUUID snapshotID now f with
    | error e =>
      rw [hf] at hok
      cases hok
    | ok v =>
      rw [hf] at hok
      exact ih (unique_finding h hf) hok

theorem unique_upsertIssues (h : t.Unique) (scan : MapRange String IssueRow)
    (machineUUID snapshotID now : String) (newIDs : Stream' String) (findings : List FindingInput) :
    Unique (match (t.upsertIssues scan machineUUID snapshotID now newIDs findings).map Prod.fst with
      | .ok t' => t'
      | .error _ => t) := by
  rw [upsertIssues]
  cases hu : findings.foldlM (Upsert.finding scan machineUUID snapshotID now) ⟨t, newIDs, []⟩ with
  | error e => exact h
  | ok u => exact unique_foldlM findings h hu

/-- A status update keeps the table unique iff it does not activate a second issue. -/
theorem unique_setStatus_iff (h : t.Unique) (id now : String) (status : IssueStatus) (hrow : (t[id]?).isSome) :
    Unique (t.alter id (Option.map (·.setStatus status now))) ↔ (status.Active → t.Alone id) := by
  constructor
  · intro hunique hactive row hrow id' row' hrow' hne hactive' heq
    refine hne (hunique id' id row' (row.setStatus status now) ?_ ?_ hactive' hactive heq)
    · rw [getElem?_alter_eq, if_neg hne.symm, hrow']
    · rw [getElem?_alter_eq, if_pos rfl, hrow]
      rfl
  · intro halone
    by_cases hactive : status.Active
    · obtain ⟨row, hrow⟩ := Option.isSome_iff_exists.mp hrow
      have hother := halone hactive row hrow
      intro id₁ id₂ row₁ row₂ h₁ h₂ hact₁ hact₂ heq
      rw [getElem?_alter_eq, hrow] at h₁ h₂
      split at h₁ <;> split at h₂
      · exact (‹id = id₁›).symm.trans ‹id = id₂›
      · cases h₁
        exact absurd heq.symm (hother id₂ row₂ h₂ (Ne.symm ‹_›) hact₂)
      · cases h₂
        exact absurd heq (hother id₁ row₁ h₁ (Ne.symm ‹_›) hact₁)
      · exact h id₁ id₂ row₁ row₂ h₁ h₂ hact₁ hact₂ heq
    · exact unique_alter h id (fun _ => rfl) fun _ hact => absurd hact hactive

theorem unique_updateIssueStatus_iff (h : t.Unique) (now id : String) (status : IssueStatus) :
    Unique (match t.updateIssueStatus now id status with
      | .ok t' => t'
      | .error _ => t) ↔ (status.Active → t.Alone id) := by
  rw [updateIssueStatus]
  by_cases hrow : (t[id]?).isSome
  · rw [if_pos hrow]
    exact unique_setStatus_iff h id now status hrow
  · rw [if_neg hrow]
    refine ⟨fun _ _ row hsome => ?_, fun _ => h⟩
    rw [hsome] at hrow
    exact absurd rfl hrow

end IssueTable

def Request.target : Request → Option (String × IssueStatus)
  | .update id status => some (id, status)
  | .acknowledge id => some (id, .issueAcknowledged)
  | .dismiss id => some (id, .issueDismissed)
  | .check _ _ => none
  | .upsertIssues _ _ _ => none

/-- A call that is carried out makes an issue active only if no other of its identity is. -/
def Call.Allowed (t : IssueTable) (call : Call) : Prop :=
  call.carriedOut → ∀ id status, call.request.target = some (id, status) → status.Active →
    t.Alone id

namespace IssueTable
variable {scan : MapRange String IssueRow} {t : IssueTable}

theorem unique_step_iff (h : t.Unique) (call : Call) : (t.step scan call).Unique ↔ call.Allowed t := by
  obtain ⟨request, now, newIDs, carriedOut⟩ := call
  cases carriedOut with
  | false => exact ⟨fun _ hout => absurd hout Bool.false_ne_true, fun _ => h⟩
  | true =>
    have hset (id : String) (status : IssueStatus) :
        (status.Active → t.Alone id) ↔
          (true = true → ∀ id' status', some (id, status) = some (id', status') →
            status'.Active → t.Alone id') := by
      constructor
      · rintro h - _ _ ⟨rfl, rfl⟩
        exact h
      · intro h
        exact h rfl id status rfl
    have hnone : true = true → ∀ id status, (none : Option (String × IssueStatus)) =
        some (id, status) → status.Active → t.Alone id := fun _ _ _ h => nomatch h
    cases request with
    | check snap evaluate =>
      refine iff_of_true ?_ hnone
      cases snap with
      | none => exact h
      | some snap => exact unique_upsertIssues h scan _ _ _ _ _
    | upsertIssues machineUUID snapshotID findings =>
      exact iff_of_true (unique_upsertIssues h scan _ _ _ _ _) hnone
    | update id status => exact (unique_updateIssueStatus_iff h now id status).trans (hset id status)
    | acknowledge id | dismiss id =>
      exact (unique_updateIssueStatus_iff h now id _).trans (hset id _)

theorem run_append (scan : MapRange String IssueRow) (t : IssueTable) (calls : List Call)
    (call : Call) : run scan t (calls ++ [call]) = (run scan t calls).step scan call :=
  List.foldl_append

/-- At most one issue of each identity is active throughout a run iff no status update of the
run activates a second one. -/
theorem active_identity_unique_iff (scan : MapRange String IssueRow) (calls : List Call) :
    (∀ before, before <+: calls → Unique (run scan ∅ before)) ↔
      ∀ before call, before ++ [call] <+: calls → call.Allowed (run scan ∅ before) := by
  constructor
  · intro hunique before call hcall
    have hstep := hunique _ hcall
    rw [run_append] at hstep
    exact (unique_step_iff (hunique before ((List.prefix_append _ _).trans hcall)) call).mp hstep
  · intro hallowed before
    induction before using List.reverseRecOn with
    | nil => exact fun _ _ _ _ _ h => nomatch h
    | append_singleton before call ih =>
      intro hcall
      rw [run_append]
      exact (unique_step_iff (ih ((List.prefix_append _ _).trans hcall)) call).mpr
        (hallowed before call hcall)

def deadlock : FindingInput := ⟨"jvm-deadlock", "pid 7", "high", "threads are deadlocked", ""⟩

/-- A finding is fixed, comes back as a new issue, and the fixed issue is reopened. -/
def reopenedRun : List Call :=
  [⟨.upsertIssues "host" "s1" [deadlock], "t1", Stream'.const "a", true⟩,
    ⟨.update "a" .issueFixed, "t2", Stream'.const "", true⟩,
    ⟨.upsertIssues "host" "s2" [deadlock], "t3", Stream'.const "b", true⟩,
    ⟨.update "a" .issueOpen, "t4", Stream'.const "", true⟩]

theorem reopened_issue_duplicates : ¬ Unique (run default ∅ reopenedRun) := by
  intro h
  have ha : (run default ∅ reopenedRun)["a"]? = some ⟨⟨"jvm-deadlock", "host", "pid 7"⟩, "high",
      "threads are deadlocked", "", .issueOpen, "s1", "s1", "t1", "t4"⟩ := by decide +kernel
  have hb : (run default ∅ reopenedRun)["b"]? = some ⟨⟨"jvm-deadlock", "host", "pid 7"⟩, "high",
      "threads are deadlocked", "", .issueOpen, "s2", "s2", "t3", "t3"⟩ := by decide +kernel
  exact absurd (h "a" "b" _ _ ha hb (.inl rfl) (.inl rfl) rfl) (by decide)

end IssueTable
end Spectra.Issues
