import Spectra.Library.GoRuntime
import Mathlib.Data.Prod.Lex

/-! Tables whose primary key is a pair of integers, and the query for the newest rows of one owner. -/
namespace Spectra.Library
open Prod List
open Std (ExtTreeMap LawfulEqOrd)

/-- An owner and a time. -/
abbrev PairKey := ℤ ×ₗ ℤ

instance : LawfulEqOrd PairKey := ⟨fun h => compare_eq_iff_eq.mp h⟩

section
variable {R : Type*} (t : ExtTreeMap PairKey R) (owner : ℤ) (p : ℤ → R → Bool)

/-- The rows of one owner that meet a condition, each with its time. -/
def selectRows : List (ℤ × R) :=
  t.toList.filterMap fun entry =>
    if (ofLex entry.1).1 = owner ∧ p (ofLex entry.1).2 entry.2 then
      some ((ofLex entry.1).2, entry.2)
    else none

theorem mem_selectRows (a : ℤ) (row : R) :
    (a, row) ∈ selectRows t owner p ↔ t[(toLex (owner, a) : PairKey)]? = some row ∧ p a row := by
  rw [selectRows, mem_filterMap]
  constructor
  · rintro ⟨⟨k, row'⟩, hmem, hsome⟩
    split at hsome
    · rename_i hcond
      obtain ⟨rfl, rfl⟩ := mk.inj (Option.some.inj hsome)
      obtain ⟨rfl, hp⟩ := hcond
      exact ⟨ExtTreeMap.mem_toList_iff_getElem?_eq_some.mp hmem, hp⟩
    · cases hsome
  · rintro ⟨hrow, hp⟩
    exact ⟨(toLex (owner, a), row), ExtTreeMap.mem_toList_iff_getElem?_eq_some.mpr hrow,
      if_pos ⟨rfl, hp⟩⟩

theorem nodup_selectRows : ((selectRows t owner p).map fst).Nodup := by
  rw [Nodup, pairwise_map]
  refine List.Pairwise.filterMap _ ?_ (pairwise_map.mp (keys_toList_nodup t))
  intro e e' hne x hx x' hx' heq
  split at hx <;> split at hx' <;> try contradiction
  cases hx
  obtain rfl := Option.some.inj hx'
  rename_i hcond hcond'
  exact hne (Prod.ext (hcond.1.trans hcond'.1.symm) heq)

end

theorem strict_mergeSort {α K : Type*} [LinearOrder K] (key : α → K) {l : List α} (hnodup : (l.map key).Nodup) :
    (l.mergeSort fun a b => key a ≤ key b).Pairwise fun a b => key a < key b := by
  have hle : (l.mergeSort fun a b => key a ≤ key b).Pairwise fun a b => decide (key a ≤ key b) :=
    pairwise_mergeSort
      (fun a b c hab hbc => by
        simp only [decide_eq_true_eq] at *
        exact hab.trans hbc)
      (fun a b => by
        simp only [Bool.or_eq_true, decide_eq_true_eq]
        exact le_total _ _) l
  have hne : (l.mergeSort fun a b => key a ≤ key b).Pairwise fun a b => key a ≠ key b :=
    pairwise_map.mp (((mergeSort_perm l _).map key).nodup_iff.mpr hnodup)
  exact hle.imp₂ (fun a b hle hne => lt_of_le_of_ne (of_decide_eq_true hle) hne) hne

theorem getElem?_ofList_iff {V : Type*} {l : List (ℤ × V)} (hnodup : (l.map fst).Nodup) (k : ℤ)
    (v : V) : (ExtTreeMap.ofList l compare)[k]? = some v ↔ (k, v) ∈ l := by
  have hdistinct : l.Pairwise fun a b => ¬ compare a.1 b.1 = .eq :=
    (pairwise_map.mp hnodup).imp fun h => by simpa using h
  constructor
  · intro h
    by_cases hk : (l.map fst).contains k
    · obtain ⟨⟨k', w⟩, hmem, rfl⟩ := mem_map.mp (contains_iff_mem.mp hk)
      rw [ExtTreeMap.getElem?_ofList_of_mem (by simp) hdistinct hmem] at h
      cases h
      exact hmem
    · rw [ExtTreeMap.getElem?_ofList_of_contains_eq_false (by simpa using hk)] at h
      cases h
  · exact ExtTreeMap.getElem?_ofList_of_mem (by simp) hdistinct

variable {R : Type*}

/-- `ORDER BY at DESC LIMIT n`. -/
def newestRows (n : ℕ) (rows : List (ℤ × R)) : List (ℤ × R) :=
  (rows.mergeSort fun a b => b.1 ≤ a.1).take n

theorem mem_take_iff_countP {rows : List (ℤ × R)} (h : rows.Pairwise fun a b => b.1 < a.1) (n : ℕ)
    (x : ℤ × R) : x ∈ rows.take n ↔ x ∈ rows ∧ rows.countP (fun y => x.1 < y.1) < n := by
  induction rows generalizing n with
  | nil => simp
  | cons a rows ih =>
    obtain ⟨hhead, htail⟩ := pairwise_cons.mp h
    cases n with
    | zero => simp
    | succ n =>
      rw [take_succ_cons, mem_cons, ih htail]
      by_cases hx : x ∈ rows
      · have hlt := hhead x hx
        have hne : x ≠ a := fun h => absurd (h ▸ hlt) (lt_irrefl _)
        simp [hlt, hne]
      · by_cases hxa : x = a
        · subst hxa
          have hzero : rows.countP (fun y => x.1 < y.1) = 0 :=
            countP_eq_zero.mpr fun y hy => by
              have := hhead y hy
              simp only [decide_eq_true_eq]
              omega
          simp [hzero]
        · simp [hx, hxa]

variable {rows : List (ℤ × R)}

theorem sorted_mergeSort (hnodup : (rows.map fst).Nodup) :
    (rows.mergeSort fun a b => b.1 ≤ a.1).Pairwise fun a b => b.1 < a.1 :=
  strict_mergeSort (K := ℤᵒᵈ) fst hnodup

theorem mem_newestRows (hnodup : (rows.map fst).Nodup) (n : ℕ) (x : ℤ × R) :
    x ∈ newestRows n rows ↔ x ∈ rows ∧ rows.countP (fun y => x.1 < y.1) < n := by
  have hperm := mergeSort_perm rows fun a b => b.1 ≤ a.1
  rw [newestRows, mem_take_iff_countP (sorted_mergeSort hnodup), hperm.mem_iff, hperm.countP_eq]

theorem sorted_newestRows (hnodup : (rows.map fst).Nodup) (n : ℕ) : (newestRows n rows).Pairwise fun a b => b.1 < a.1 :=
  (sorted_mergeSort hnodup).sublist (take_sublist _ _)

theorem exists_newestRows_ge {n : ℕ} (hn : 0 < n) {x : ℤ × R} (hx : x ∈ rows)
    (hnodup : (rows.map fst).Nodup) : ∃ y ∈ newestRows n rows, x.1 ≤ y.1 := by
  have hsorted := sorted_mergeSort hnodup
  have hmem := (mergeSort_perm rows fun a b => b.1 ≤ a.1).mem_iff.mpr hx
  rw [newestRows]
  cases hl : rows.mergeSort fun a b => b.1 ≤ a.1 with
  | nil =>
    rw [hl] at hmem
    cases hmem
  | cons y l =>
    rw [hl] at hmem hsorted
    obtain ⟨m, rfl⟩ := Nat.exists_eq_succ_of_ne_zero hn.ne'
    refine ⟨y, by simp, ?_⟩
    rcases mem_cons.mp hmem with rfl | hmem
    · exact le_rfl
    · exact ((pairwise_cons.mp hsorted).1 x hmem).le

end Spectra.Library
