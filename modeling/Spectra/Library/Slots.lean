import Mathlib.Data.List.Basic

/-! Lists of slots of which each holds some items. -/
namespace Spectra.Library
open List

variable {α β : Type*} {l : List α} {i : ℕ} {a : α}

theorem flatMap_set_perm (f : α → List β) (a' : α) (h : l[i]? = some a) :
    ((l.set i a').flatMap f ++ f a).Perm (l.flatMap f ++ f a') := by
  induction l generalizing i with
  | nil => exact nomatch h
  | cons b l ih =>
    cases i with
    | zero =>
      cases h
      rw [set_cons_zero, flatMap_cons, flatMap_cons, append_assoc (f a)]
      exact perm_append_comm.trans (perm_append_comm.append_left _)
    | succ i =>
      simp only [set_cons_succ, flatMap_cons, append_assoc]
      exact (ih h).append_left _

theorem count_flatMap_set [BEq β] [LawfulBEq β] (f : α → List β) (a' : α) (x : β) (h : l[i]? = some a) :
    ((l.set i a').flatMap f).count x + (f a).count x = (l.flatMap f).count x + (f a').count x := by
  simpa only [count_append] using (flatMap_set_perm f a' h).count x

variable {a' : α}

theorem map_set_of_eq {f : α → β} (h : l[i]? = some a) (heq : f a' = f a) : (l.set i a').map f = l.map f := by
  induction l generalizing i with
  | nil => rfl
  | cons b l ih =>
    cases i with
    | zero =>
      cases h
      simp [set_cons_zero, heq]
    | succ i => simp [set_cons_succ, ih h]

theorem flatMap_set_of_eq {f : α → List β} (h : l[i]? = some a) (heq : f a' = f a) :
    (l.set i a').flatMap f = l.flatMap f := by
  rw [flatMap_def, map_set_of_eq h heq, flatMap_def]

theorem count_set [BEq α] [LawfulBEq α] (a' x : α) (h : l[i]? = some a) :
    (l.set i a').count x + [a].count x = l.count x + [a'].count x := by
  simpa using count_flatMap_set (fun a => [a]) a' x h

theorem getElem?_set_cases {j : ℕ} {b : α} (h : (l.set i a)[j]? = some b) : j = i ∧ b = a ∨ j ≠ i ∧ l[j]? = some b := by
  rw [getElem?_set] at h
  split at h
  · rename_i heq
    split at h
    · exact .inl ⟨heq.symm, (Option.some.inj h).symm⟩
    · exact nomatch h
  · rename_i hne
    exact .inr ⟨fun heq => hne heq.symm, h⟩

theorem getElem?_set_self_of_getElem? (h : l[i]? = some a) : (l.set i a')[i]? = some a' := by
  obtain ⟨hi, -⟩ := List.getElem?_eq_some_iff.mp h
  exact getElem?_set_self hi

theorem forall_mem_set {P : α → Prop} (h : ∀ b ∈ l, P b) (ha : P a) : ∀ b ∈ l.set i a, P b := by
  intro b hb
  cases mem_or_eq_of_mem_set hb with
  | inl hmem => exact h b hmem
  | inr heq => exact heq ▸ ha

theorem mem_of_mem_set {b : α} (h : b ∈ l.set i a) (hne : b ≠ a) : b ∈ l :=
  (mem_or_eq_of_mem_set h).resolve_right hne

theorem mem_set_of_mem {b : α} (hat : l[i]? = some a) (h : b ∈ l) (hne : b ≠ a) : b ∈ l.set i a' := by
  obtain ⟨j, hj⟩ := mem_iff_getElem?.mp h
  have hij : i ≠ j := fun heq => hne (Option.some.inj (hj.symm.trans (heq ▸ hat)))
  exact mem_iff_getElem?.mpr ⟨j, (getElem?_set_ne hij).trans hj⟩

theorem mem_set_of_getElem? (h : l[i]? = some a) : a' ∈ l.set i a' := by
  obtain ⟨hi, -⟩ := List.getElem?_eq_some_iff.mp h
  exact mem_set hi a'

end Spectra.Library
