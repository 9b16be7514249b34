import Spectra.Heap.DominatorTree
import Spectra.Library.TreeSum

/-! Retained sizes are what a removal would free. -/
namespace Spectra.Heap
open Library Finset

namespace ObjectGraph
variable (g : ObjectGraph)

/-- Object `x` still ends a path from a GC root after object `i` is removed. -/
def ReachableWithout (i x : Fin g.len) : Prop :=
  ∃ r ∈ g.roots, ∃ p, IsWalk g.Edge p r x ∧ i ∉ p

/-- Object `x` is reachable, and only because object `i` is there. -/
def FreedBy (i x : Fin g.len) : Prop := g.ReachableFromRoot x ∧ ¬ g.ReachableWithout i x

end ObjectGraph

variable {g : ObjectGraph} {i : Fin g.len}

theorem freedBy_iff {x : Fin g.len} : g.FreedBy i x ↔ g.ReachableFromRoot x ∧ g.Dominates i x := by
  refine and_congr_right fun _ => ?_
  constructor
  · intro h r hr p hp
    by_contra hn
    exact h ⟨r, hr, p, hp, hn⟩
  · rintro h ⟨r, hr, p, hp, hn⟩
    exact hn (h r hr p hp)

private theorem loadShallow_eq {m : ℕ} [NeZero m] {a : Fin m → ℤ} (h0 : a 0 = 0) : loadShallow a = a := by
  have h := Loop.up_inv (f := fun d r => Function.update r d (a d)) (s := fun _ => 0)
    (fun k (r : Fin m → ℤ) => ∀ d, r d = if d.val < k then a d else 0) 1
    (Nat.pos_of_ne_zero (NeZero.ne m)) ?_ ?_
  · funext d
    exact (h d).trans (if_pos d.isLt)
  · intro d
    split
    · rename_i hd
      rw [show d = 0 from Fin.ext (by simpa using hd), h0]
    · rfl
  · intro k _ r hr d
    rcases eq_or_ne d k with rfl | hne
    · simp
    · rw [Function.update_of_ne hne, hr]
      exact if_congr (by omega) rfl rfl

open Classical in
theorem preorderRetained_eq (d : Fin (preorderLen g)) :
    preorderRetained g d = ∑ x with Dom (NumE g) 0 d x, preorderShallow g x := by
  have h0 : preorderShallow g 0 = 0 := by simp [preorderShallow, preorderVertex_zero]
  have hp (w : Fin (preorderLen g)) (hw : w ≠ 0) : preorderIdom g w < w :=
    preorder_tree.idom_lt (preorderIdom_spec hw)
  unfold preorderRetained accumulate
  rw [loadShallow_eq h0, TreeSum.down_eq_sum hp]
  simp [preorder_tree.dom_iff_anc_idom preorderIdom_spec]

open Classical in
theorem sum_preorder (w : Fin g.len → ℤ) :
    ∑ d, (preorderVertex g d).elim 0 w = ∑ v with g.ReachableFromRoot v, w v := by
  have hr (v : Fin g.len) : (if g.ReachableFromRoot v then w v else 0) =
      (preorderDfnum g v).elim 0 fun _ => w v := by
    have hreach : g.ReachableFromRoot v ↔ ∃ d, preorderDfnum g v = some d := by
      simp [reachableFromRoot_iff, preorder_iff]
    cases hv : preorderDfnum g v with
    | none | some d => simp [hreach, hv]
  rw [sum_filter]
  simp only [hr]
  exact TreeSum.sum_partial (fun d v => preorder_iff.symm) w

open Classical in
theorem sum_preorderShallow {P : Fin (preorderLen g) → Prop} {Q : Fin g.len → Prop}
    (h : ∀ d v, preorderVertex g d = some v → (P d ↔ Q v)) :
    ∑ d with P d, preorderShallow g d = ∑ v with g.ReachableFromRoot v ∧ Q v, g.shallow v := by
  have hl (d : Fin (preorderLen g)) : (if P d then preorderShallow g d else 0) =
      (preorderVertex g d).elim 0 fun v => if Q v then g.shallow v else 0 := by
    rw [preorderShallow]
    cases hv : preorderVertex g d with
    | none => simp
    | some v => simp [h d v hv]
  rw [sum_filter, ← filter_filter, sum_filter Q]
  simp only [hl]
  exact sum_preorder _

private theorem computeRetained_retained_none (h : preorderDfnum g i = none) : (computeRetained g).Retained i = 0 := by
  have h' : (computeRetained g).dfnum i = none := h
  simp [RetainedSnapshot.Retained, h']

theorem computeRetained_retained_some {d : Fin (preorderLen g)} (h : preorderDfnum g i = some d) :
    (computeRetained g).Retained i = preorderRetained g d := by
  have h' : (computeRetained g).dfnum i = some d := h
  rw [RetainedSnapshot.Retained, h']
  exact if_pos (preorderDfnum_pos h)

theorem reachable_of_freedBy {x : Fin g.len} (h : g.FreedBy i x) : g.ReachableFromRoot i := by
  obtain ⟨hx, hd⟩ := freedBy_iff.mp h
  exact reachableFromRoot_iff.mpr (dominates_reachable hd hx)

open Classical in
theorem retained_eq_freed (i : Fin g.len) : (computeRetained g).Retained i = ∑ x with g.FreedBy i x, g.shallow x := by
  cases h : preorderDfnum g i with
  | none =>
    have hi : ¬ g.ReachableFromRoot i := by
      rw [reachableFromRoot_iff]
      rintro ⟨d, hd⟩
      rw [preorder_iff.mpr hd] at h
      cases h
    rw [computeRetained_retained_none h, filter_eq_empty_iff.mpr, sum_empty]
    exact fun x _ hx => hi (reachable_of_freedBy hx)
  | some d =>
    rw [computeRetained_retained_some h, preorderRetained_eq]
    simp only [freedBy_iff]
    exact sum_preorderShallow fun e v hv => (dominates_iff_dom (preorder_iff.mp h) hv).symm

open Classical in
/-- `Retained` is exactly what removing the object would make unreachable, and
`ReachableBytes` is everything reachable. -/
theorem computeRetained_retained (g : ObjectGraph) :
    (∀ i, (computeRetained g).Retained i = ∑ x with g.FreedBy i x, g.shallow x) ∧
    (∀ i, g.ReachableFromRoot i → g.FreedBy i i) ∧
    (∀ i, ¬ g.ReachableFromRoot i → (computeRetained g).Retained i = 0) ∧
    (computeRetained g).reachableBytes = ∑ x with g.ReachableFromRoot x, g.shallow x := by
  refine ⟨retained_eq_freed, fun i hi => ?_, fun i hi => ?_, ?_⟩
  · rw [freedBy_iff]
    refine ⟨hi, fun r _ p hp => ?_⟩
    exact List.mem_of_getLast? hp.2.2
  · rw [retained_eq_freed, filter_eq_empty_iff.mpr, sum_empty]
    exact fun x _ hx => hi (reachable_of_freedBy hx)
  · change preorderRetained g 0 = _
    rw [preorderRetained_eq, sum_preorderShallow (Q := fun _ => True)]
    · simp
    · exact fun d _ _ => iff_true_intro (root_dom d)

namespace ObjectGraph
variable (g) (Q : Fin g.len → Prop)

/-- A reachable object with the property `Q` below no other one in the dominator tree. -/
def Outermost (i : Fin g.len) : Prop :=
  g.ReachableFromRoot i ∧ Q i ∧ ∀ v, g.StrictlyDominates v i → ¬ Q v

/-- A reachable object that an object with the property `Q` dominates. -/
def Under (x : Fin g.len) : Prop := g.ReachableFromRoot x ∧ ∃ i, Q i ∧ g.Dominates i x

/-- A reachable object that is no longer reachable once all objects with the property `Q` are
removed. -/
def FreedByAll (x : Fin g.len) : Prop :=
  g.ReachableFromRoot x ∧ ¬ ∃ r ∈ g.roots, ∃ p, IsWalk g.Edge p r x ∧ ∀ i ∈ p, ¬ Q i

end ObjectGraph

variable {Q : Fin g.len → Prop}

theorem dominates_self (i : Fin g.len) : g.Dominates i i :=
  fun _ _ _ hp => List.mem_of_getLast? hp.2.2

variable {x : Fin g.len}

theorem freedByAll_of_under (h : g.Under Q x) : g.FreedByAll Q x := by
  obtain ⟨hx, i, hi, hdom⟩ := h
  refine ⟨hx, ?_⟩
  rintro ⟨r, hr, p, hp, hnot⟩
  exact hnot i (hdom r hr p hp) hi

theorem dominates_iff_anc {a b : Fin (preorderLen g)} {v w : Fin g.len}
    (ha : preorderVertex g a = some v) (hb : preorderVertex g b = some w) :
    g.Dominates v w ↔ Anc 0 (preorderIdom g) a b := by
  rw [dominates_iff_dom ha hb, preorder_tree.dom_iff_anc_idom preorderIdom_spec]

private theorem exists_outermost {i : Fin g.len} (hx : g.ReachableFromRoot x) (hi : Q i)
    (hdom : g.Dominates i x) : ∃ j, g.Outermost Q j ∧ g.Dominates j x := by
  obtain ⟨c, hc⟩ := reachableFromRoot_iff.mp hx
  obtain ⟨a, ha⟩ := dominates_reachable hdom hx
  induction a using WellFoundedLT.induction generalizing i with
  | ind a ih =>
    have hreach : g.ReachableFromRoot i := reachableFromRoot_iff.mpr ⟨a, ha⟩
    by_cases hout : ∀ v, g.StrictlyDominates v i → ¬ Q v
    · exact ⟨i, ⟨hreach, hi, hout⟩, hdom⟩
    · push Not at hout
      obtain ⟨v, ⟨hvi, hne⟩, hv⟩ := hout
      obtain ⟨b, hb⟩ := dominates_reachable hvi hreach
      have hba := (dominates_iff_anc hb ha).mp hvi
      have hlt : b < a := by
        refine lt_of_le_of_ne (preorder_tree.anc_le (preorder_tree.dom_anc ((dominates_iff_dom hb ha).mp hvi))) ?_
        rintro rfl
        exact hne (Option.mem_unique hb ha)
      refine ih b hlt hv ?_ hb
      exact (dominates_iff_anc hb hc).mpr (hba.trans ((dominates_iff_anc ha hc).mp hdom))

open Classical in
theorem sum_retained_outermost (Q : Fin g.len → Prop) :
    ∑ i with g.Outermost Q i, (computeRetained g).Retained i = ∑ x with g.Under Q x, g.shallow x := by
  simp only [retained_eq_freed]
  rw [← sum_biUnion]
  · refine sum_congr (ext fun x => ?_) fun _ _ => rfl
    simp only [mem_biUnion, mem_filter_univ, freedBy_iff]
    constructor
    · rintro ⟨i, hi, hx, hdom⟩
      exact ⟨hx, i, hi.2.1, hdom⟩
    · rintro ⟨hx, i, hi, hdom⟩
      obtain ⟨j, hj, hjx⟩ := exists_outermost hx hi hdom
      exact ⟨j, hj, hx, hjx⟩
  · intro i hi j hj hne
    refine disjoint_left.mpr fun x hix hjx => hne ?_
    simp only [coe_filter_univ, mem_filter_univ] at hi hj hix hjx
    obtain ⟨hx, hix⟩ := freedBy_iff.mp hix
    obtain ⟨_, hjx⟩ := freedBy_iff.mp hjx
    obtain ⟨a, ha⟩ := reachableFromRoot_iff.mp hi.1
    obtain ⟨b, hb⟩ := reachableFromRoot_iff.mp hj.1
    obtain ⟨c, hc⟩ := reachableFromRoot_iff.mp hx
    by_contra hne
    rcases Anc.total ((dominates_iff_anc ha hc).mp hix) ((dominates_iff_anc hb hc).mp hjx)
      with hab | hba
    · exact hj.2.2 i ⟨(dominates_iff_anc ha hb).mpr hab, hne⟩ hi.2.1
    · exact hi.2.2 j ⟨(dominates_iff_anc hb ha).mpr hba, Ne.symm hne⟩ hj.2.1

end Spectra.Heap
