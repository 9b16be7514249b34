import Spectra.Diff.Compare

/-! Which changes of a search path a comparison reports. -/
namespace Spectra.Diff
open Library List

/-- The directory stands at this place, and not after it. -/
def IsLast (dirs : List String) (d : String) (i : ℕ) : Prop :=
  dirs[i]? = some d ∧ ∀ j, i < j → dirs[j]? ≠ some d

variable {l l' : List String} {d : String} {i : ℕ}

theorem positions_concat (l : List String) (x : String) : positions (l ++ [x]) = (positions l).insert x l.length := by
  simp [positions, zipIdx_append]

private theorem getElem?_positions : (positions l)[d]? = some i ↔ IsLast l d i := by
  induction l using reverseRecOn with
  | nil => simp [positions, IsLast]
  | append_singleton l x ih =>
    rw [positions_concat, getElem?_insert_eq]
    unfold IsLast at ih ⊢
    split <;> grind

theorem mem_positions : d ∈ positions l ↔ d ∈ l := by
  induction l using reverseRecOn with
  | nil => simp [positions]
  | append_singleton l x ih => simp [positions_concat, ih, or_comm, eq_comm (a := d)]

private theorem positions_eq_iff : positions l = positions l' ↔ ∀ d i, IsLast l d i ↔ IsLast l' d i := by
  simp only [← getElem?_positions]
  constructor
  · intro h d i
    rw [h]
  · exact fun h => Std.ExtTreeMap.ext_getElem? fun d => Option.ext (h d)

/-- No change is reported exactly if every directory stands last at the same place. -/
theorem diffPathDirs_eq_nil_iff (a b : Snapshot) : (diffPathDirs a b).changes = [] ↔
    ∀ d i, IsLast a.pathDirs d i ↔ IsLast b.pathDirs d i := by
  rw [← positions_eq_iff]
  simp only [diffPathDirs, append_eq_nil_iff, filterMap_eq_nil_iff, mem_positions]
  constructor
  · rintro ⟨hab, hba⟩
    apply Std.ExtTreeMap.ext_getElem?
    intro d
    by_cases hd : d ∈ b.pathDirs
    · have hd' := hba d hd
      split at hd'
      · cases hd'
      · rename_i ha
        have heq : (positions a.pathDirs).getD d 0 = (positions b.pathDirs).getD d 0 := by simpa using hd'
        rw [Std.ExtTreeMap.getElem?_eq_some_getD (mem_positions.mpr (not_not.mp ha)), heq,
          ← Std.ExtTreeMap.getElem?_eq_some_getD (mem_positions.mpr hd)]
    · have ha : d ∉ a.pathDirs := fun ha => hd (by simpa using hab d ha)
      rw [← mem_positions] at hd ha
      simp [hd, ha]
  · intro h
    have hmem (d : String) : d ∈ a.pathDirs ↔ d ∈ b.pathDirs := by
      rw [← mem_positions, h, mem_positions]
    simp +contextual [hmem, h]

theorem eq_of_isLast (hl : l.Nodup) (h : ∀ d i, IsLast l d i ↔ IsLast l' d i) : l = l' := by
  have hall (i : ℕ) (d : String) (hd : l[i]? = some d) : l'[i]? = some d := by
    refine ((h d i).mp ⟨hd, fun j hj hd' => ?_⟩).1
    exact nodup_iff_getElem?_ne_getElem?.mp hl i j hj (by grind) (hd.trans hd'.symm)
  have hlen : l'.length ≤ l.length := by
    rcases eq_nil_or_concat l' with rfl | ⟨init, x, rfl⟩
    · exact Nat.zero_le _
    · have hx := ((h x init.length).mpr ⟨by simp, fun j hj => by grind⟩).1
      grind
  apply ext_getElem?
  grind

/-- Search paths that differ show a change, if their directories do not all stand last at the
same places; so they do where one of the paths repeats no directory. -/
theorem path_drift_reported (a b : Snapshot) :
    (((diffPathDirs a b).changes = [] ↔ a.pathDirs = b.pathDirs) ↔
      ((∀ d i, IsLast a.pathDirs d i ↔ IsLast b.pathDirs d i) → a.pathDirs = b.pathDirs)) ∧
    (a.pathDirs.Nodup ∨ b.pathDirs.Nodup → ((diffPathDirs a b).changes = [] ↔ a.pathDirs = b.pathDirs)) := by
  rw [diffPathDirs_eq_nil_iff]
  have hself (h : a.pathDirs = b.pathDirs) (d : String) (i : ℕ) :
      IsLast a.pathDirs d i ↔ IsLast b.pathDirs d i := by rw [h]
  refine ⟨⟨Iff.mp, fun h => ⟨h, hself⟩⟩, fun hnodup => ⟨fun h => ?_, hself⟩⟩
  rcases hnodup with ha | hb
  · exact eq_of_isLast ha h
  · exact (eq_of_isLast hb fun d i => (h d i).symm).symm

def onPath (dirs : List String) : Snapshot :=
  ⟨"", ⟨"", "", "", "", 0, 0, 0, 0, 0, "", [], [], "", ""⟩, [], [], [], [], [], [], [], dirs, [],
    false, 0, 0, 0, 0, ∅, []⟩

theorem path_drift_swap : ((onPath ["/bin", "/usr/bin"]).pathDirs.Nodup ∧
    ((diffPathDirs (onPath ["/bin", "/usr/bin"]) (onPath ["/usr/bin", "/bin"])).changes = [] ↔
      ["/bin", "/usr/bin"] = ["/usr/bin", "/bin"])) :=
  ⟨by decide, (path_drift_reported (onPath _) (onPath _)).2 (.inl (by decide))⟩

/-- A directory of which an earlier place has changed is not reported. -/
theorem path_drift_missed : ["/bin", "/opt", "/bin"] ≠ ["/opt", "/opt", "/bin"] ∧ (diffPathDirs
    (onPath ["/bin", "/opt", "/bin"]) (onPath ["/opt", "/opt", "/bin"])).changes = [] := by
  decide +kernel

end Spectra.Diff
