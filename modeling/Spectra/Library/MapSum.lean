import Spectra.Library.GoRuntime
import Mathlib.Algebra.BigOperators.Group.Finset.Piecewise
import Mathlib.Tactic.Ring

/-! Sums over the entries of a map that counts. -/
namespace Spectra.Library
open List
open Std (ExtTreeMap TransOrd LawfulEqOrd)
variable {K : Type*} [Ord K] [TransOrd K] [LawfulEqOrd K] [DecidableEq K]

/-- The sum of the entries, each times the weight of its key. -/
def weigh (f : K → ℤ) (m : ExtTreeMap K ℤ) : ℤ := (m.toList.map fun x => x.2 * f x.1).sum

omit [DecidableEq K] in
theorem toList_nodup {V : Type*} (m : ExtTreeMap K V) : m.toList.Nodup :=
  (keys_toList_nodup m).of_map _

variable {V : Type*}

theorem toList_perm_erase {m : ExtTreeMap K V} {k : K} {v : V} (h : m[k]? = some v) :
    m.toList.Perm ((k, v) :: (m.erase k).toList) := by
  rw [perm_ext_iff_of_nodup (toList_nodup m) (nodup_cons.mpr ⟨?_, toList_nodup _⟩)]
  · rintro ⟨a, x⟩
    rw [mem_cons, ExtTreeMap.mem_toList_iff_getElem?_eq_some,
      ExtTreeMap.mem_toList_iff_getElem?_eq_some, getElem?_erase_eq]
    by_cases ha : k = a
    · subst ha
      simp [h, eq_comm]
    · simp [ha, Ne.symm ha]
  · rw [ExtTreeMap.mem_toList_iff_getElem?_eq_some, getElem?_erase_eq, if_pos rfl]
    exact fun h => nomatch h

variable (w : K × V → ℤ) (m : ExtTreeMap K V) (k : K)

theorem sum_erase :
    (m.toList.map w).sum = (m[k]?.elim 0 fun v => w (k, v)) + ((m.erase k).toList.map w).sum := by
  cases h : m[k]? with
  | none =>
    have he : m.erase k = m := by
      apply ExtTreeMap.ext_getElem?
      intro a
      rw [getElem?_erase_eq]
      split
      · rename_i ha
        rw [← ha, h]
      · rfl
    rw [he]
    simp
  | some v =>
    rw [((toList_perm_erase h).map _).sum_eq]
    simp

/-- An update of one entry changes the sum by the difference at its key. -/
theorem sum_alter (f : Option V → V) :
    ((m.alter k fun old => some (f old)).toList.map w).sum =
      (m.toList.map w).sum - (m[k]?.elim 0 fun v => w (k, v)) + w (k, f m[k]?) := by
  have herase : (m.alter k fun old => some (f old)).erase k = m.erase k := by
    apply ExtTreeMap.ext_getElem?
    intro a
    rw [getElem?_erase_eq, getElem?_erase_eq, getElem?_alter_eq]
    split <;> rfl
  rw [sum_erase w (m.alter k _) k, sum_erase w m k, herase, getElem?_alter_eq, if_pos rfl]
  simp only [Option.elim_some]
  ring

omit [LawfulEqOrd K] [DecidableEq K] in
theorem weigh_empty (f : K → ℤ) : weigh f (∅ : ExtTreeMap K ℤ) = 0 := by
  have h : (∅ : ExtTreeMap K ℤ).toList = [] := rfl
  simp [weigh, h]

theorem weigh_addAt (f : K → ℤ) (m : ExtTreeMap K ℤ) (k : K) (v : ℤ) : weigh f (addAt m k v) = weigh f m + v * f k := by
  rw [weigh, addAt, sum_alter, weigh]
  cases m[k]? with
  | none => simp
  | some x =>
    simp only [Option.elim_some, Option.getD_some]
    ring

theorem contains_addAt (m : ExtTreeMap K ℤ) (k a : K) (v : ℤ) :
    (addAt m k v).contains a = (decide (k = a) || m.contains a) := by
  simp only [ExtTreeMap.contains_eq_isSome_getElem?, addAt, getElem?_alter_eq]
  split <;> simp [*]

omit [LawfulEqOrd K] [DecidableEq K] in
theorem sum_range (r : MapRange K ℤ) (m : ExtTreeMap K ℤ) (f : K × ℤ → ℤ) :
    ((r.order m).map f).sum = (m.toList.map f).sum :=
  ((r.perm m).map f).sum_eq

omit [DecidableEq K] in
theorem sum_other {m m' : ExtTreeMap K ℤ} (h : ∀ k : K, m.contains k = m'.contains k) :
    (m.toList.map fun x => m'[x.1]?.getD 0).sum = weigh (fun _ => 1) m' := by
  have hkeys : (m.toList.map Prod.fst).Perm (m'.toList.map Prod.fst) := by
    rw [perm_ext_iff_of_nodup (keys_toList_nodup m) (keys_toList_nodup m')]
    intro k
    have hmem (n : ExtTreeMap K ℤ) : k ∈ n.toList.map Prod.fst ↔ n.contains k := by
      simp
    rw [hmem, hmem, h]
  have hsum := (hkeys.map fun k => m'[k]?.getD 0).sum_eq
  rw [map_map, map_map] at hsum
  refine hsum.trans (congrArg sum (map_congr_left ?_))
  rintro ⟨k, v⟩ hx
  rw [ExtTreeMap.mem_toList_iff_getElem?_eq_some] at hx
  simp [hx]

end Spectra.Library
