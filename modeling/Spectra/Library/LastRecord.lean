import Mathlib.Algebra.BigOperators.Group.Finset.Piecewise
import Mathlib.Algebra.Order.Group.Int
import Mathlib.Algebra.Ring.Int.Defs

/-! Records kept under their key, where a later record takes the place of an earlier one. -/
namespace Spectra.Library
open List
variable {R K M : Type*} [DecidableEq K] (key : R → K)

def lastOf : List R → K → Option R
  | [], _ => none
  | r :: rs, k => lastOf rs k <|> if key r = k then some r else none

def lasts : List R → List R
  | [] => []
  | r :: rs => if key r ∈ rs.map key then lasts rs else r :: lasts rs

variable {key} {rs : List R}

theorem lastOf_concat (rs : List R) (r : R) (k : K) :
    lastOf key (rs ++ [r]) k = if key r = k then some r else lastOf key rs k := by
  induction rs with
  | nil => simp [lastOf]
  | cons s rs ih =>
    rw [cons_append, lastOf, ih]
    split <;> rfl

theorem lastOf_eq_none {k : K} : lastOf key rs k = none ↔ k ∉ rs.map key := by
  induction rs with
  | nil => simp [lastOf]
  | cons r rs ih =>
    rw [lastOf, map_cons, mem_cons, not_or, ← ih]
    by_cases h : key r = k
    · simp [h]
    · simp [h, Ne.symm h]

/-- The last records, summed over keys among which are all of theirs. -/
theorem sum_lastOf [AddCommMonoid M] (f : R → M) {ks : List K} (hks : ks.Nodup) (hsub : ∀ r ∈ rs, key r ∈ ks) :
    (ks.map fun k => (lastOf key rs k).elim 0 f).sum = ((lasts key rs).map f).sum := by
  rw [← sum_toFinset _ hks]
  induction rs with
  | nil => simp [lastOf, lasts]
  | cons r rs ih =>
    have hrest := ih fun s hs => hsub s (mem_cons_of_mem r hs)
    have hr := mem_toFinset.mpr (hsub r (.head _))
    by_cases hlater : key r ∈ rs.map key
    · rw [lasts, if_pos hlater, ← hrest]
      refine Finset.sum_congr rfl fun k _ => ?_
      rw [lastOf]
      by_cases hk : key r = k
      · obtain ⟨s, hs⟩ := Option.ne_none_iff_exists'.mp
          (mt lastOf_eq_none.mp (not_not.mpr (hk ▸ hlater)))
        rw [hs]
        rfl
      · rw [if_neg hk, Option.orElse_eq_orElse, Option.orElse_eq_or, Option.or_none]
    · have hnone := lastOf_eq_none.mpr hlater
      have hsplit (k : K) : (lastOf key (r :: rs) k).elim 0 f =
          (lastOf key rs k).elim 0 f + if k = key r then f r else 0 := by
        rw [lastOf]
        by_cases hk : k = key r
        · subst hk
          simp [hnone]
        · simp [hk, Ne.symm hk]
      rw [lasts, if_neg hlater, map_cons, sum_cons, ← hrest,
        Finset.sum_congr rfl fun k _ => hsplit k, Finset.sum_add_distrib, Finset.sum_ite_eq',
        if_pos hr, add_comm]

theorem lasts_eq_self (h : (rs.map key).Nodup) : lasts key rs = rs := by
  induction rs with
  | nil => rfl
  | cons r rs ih =>
    obtain ⟨hr, hrs⟩ := nodup_cons.mp h
    rw [lasts, if_neg hr, ih hrs]

variable {f : R → ℤ}

theorem sum_lasts_le (hf : ∀ r ∈ rs, 0 < f r) : ((lasts key rs).map f).sum ≤ (rs.map f).sum := by
  induction rs with
  | nil => exact le_rfl
  | cons r rs ih =>
    have hrest := ih fun s hs => hf s (mem_cons_of_mem r hs)
    have hr := hf r mem_cons_self
    rw [lasts, map_cons, sum_cons]
    split
    · omega
    · rw [map_cons, sum_cons]
      omega

theorem sum_lasts_lt (hf : ∀ r ∈ rs, 0 < f r) (h : ¬ (rs.map key).Nodup) :
    ((lasts key rs).map f).sum < (rs.map f).sum := by
  induction rs with
  | nil => exact absurd nodup_nil h
  | cons r rs ih =>
    have hpos := fun s hs => hf s (mem_cons_of_mem r hs)
    have hr := hf r mem_cons_self
    have hle : ((lasts key rs).map f).sum ≤ _ := sum_lasts_le hpos
    rw [lasts, map_cons, sum_cons]
    split
    · omega
    · rename_i hlater
      have hlt := ih hpos fun hn => h (nodup_cons.mpr ⟨hlater, hn⟩)
      rw [map_cons, sum_cons]
      omega

end Spectra.Library
