import Spectra.Heap.Dominators
import Spectra.Heap.LtCorrect

/-! The computed dominator tree is the true one. -/
namespace Spectra.Heap
open Library Option RetainedSnapshot

namespace ObjectGraph
variable (g : ObjectGraph)

/-- Object `i` ends some reference path that starts at a GC root. -/
def ReachableFromRoot (i : Fin g.len) : Prop := ∃ r ∈ g.roots, ∃ p, IsWalk g.Edge p r i

/-- Every reference path from a GC root to `w` contains `v`. -/
def Dominates (v w : Fin g.len) : Prop := Library.Dominates g.Edge (· ∈ g.roots) v w

def StrictlyDominates (v w : Fin g.len) : Prop := g.Dominates v w ∧ v ≠ w

/-- `v` strictly dominates `i`, and every strict dominator of `i` dominates `v`. -/
def IsImmediateDominator (v i : Fin g.len) : Prop :=
  g.StrictlyDominates v i ∧ ∀ u, g.StrictlyDominates u i → g.Dominates u v

end ObjectGraph

variable (g : ObjectGraph)

def NumE (a b : Fin (preorderLen g)) : Prop := (dfsPreorder g).NumEdge a.val b.val

variable {g}

section
variable {v : Fin g.len} {d : Fin (preorderLen g)}

theorem preorderDfnum_eq : preorderDfnum g v = some d ↔ (dfsPreorder g).dfnum v = some d.val := by
  rw [preorderDfnum]
  constructor
  · intro h
    obtain ⟨k, hk, he⟩ := bind_eq_some_iff.mp h
    have hlt : k < preorderLen g := (dfsPreorder_inv g).num_lt hk
    rw [asIndex_of_lt hlt] at he
    rw [hk, ← some.inj he]
  · intro h
    rw [h, bind_some, asIndex_of_lt d.isLt]

theorem preorderVertex_eq : preorderVertex g d = some v ↔ (dfsPreorder g).vertex[d.val]? = some (some v) :=
  join_eq_some_iff

theorem preorder_iff : preorderDfnum g v = some d ↔ preorderVertex g d = some v := by
  rw [preorderDfnum_eq, preorderVertex_eq, (dfsPreorder_inv g).dfnum_iff]

end

theorem preorderVertex_zero : preorderVertex g 0 = none := by
  cases h : preorderVertex g 0 with
  | none => rfl
  | some v =>
    have hv := preorderVertex_eq.mp h
    rw [Fin.val_zero, (dfsPreorder_inv g).sentinel] at hv
    cases hv

variable {d : Fin (preorderLen g)}

theorem preorderVertex_ne_zero (hd : d ≠ 0) : ∃ v, preorderVertex g d = some v := by
  have hpos : 0 < d.val := Nat.pos_of_ne_zero fun h => hd (Fin.ext (by exact h))
  obtain ⟨v, hv⟩ := (dfsPreorder_inv g).total d.val hpos d.isLt
  exact ⟨v, preorderVertex_eq.mpr hv⟩

variable {v : Fin g.len}

theorem ne_zero_of_preorderVertex (h : preorderVertex g d = some v) : d ≠ 0 := by
  rintro rfl
  rw [preorderVertex_zero] at h
  cases h

variable {a b : Fin (preorderLen g)}

theorem preorderVertex_inj (ha : preorderVertex g a = some v) (hb : preorderVertex g b = some v) : a = b :=
  some.inj ((preorder_iff.mpr ha).symm.trans (preorder_iff.mpr hb))

theorem numE_iff : NumE g a b ↔
    ∃ v, preorderVertex g b = some v ∧ (a = 0 ∧ v ∈ g.roots ∨ ∃ u, preorderVertex g a = some u ∧ g.Edge u v) := by
  have h0 : a = 0 ↔ a.val = 0 := by rw [Fin.ext_iff, Fin.val_zero]
  simp only [NumE, DfsState.NumEdge, preorderVertex_eq, h0]

private theorem preorder_root {r : Fin g.len} (hr : r ∈ g.roots) : ∃ d, preorderDfnum g r = some d := by
  obtain ⟨k, hk⟩ := dfsPreorder_root g hr
  exact ⟨⟨k, (dfsPreorder_inv g).num_lt hk⟩, preorderDfnum_eq.mpr hk⟩

theorem preorder_edge {u : Fin g.len} (hu : preorderDfnum g u = some a) (he : g.Edge u v) :
    ∃ b, preorderDfnum g v = some b ∧
      (a < b → Anc 0 (dfsPreorder g).par a.val b.val) := by
  obtain ⟨k, hk, hanc⟩ := (dfsPreorder_inv g).closed u a.val (preorderDfnum_eq.mp hu)
    (by simp [dfsPreorder_stack]) v he
  exact ⟨⟨k, (dfsPreorder_inv g).num_lt hk⟩, preorderDfnum_eq.mpr hk, hanc⟩

theorem preorderParent_val (hd : d ≠ 0) : (preorderParent g d).val = (dfsPreorder g).par d.val := by
  obtain ⟨v, hv⟩ := preorderVertex_ne_zero hd
  obtain ⟨p, hp, hlt, _⟩ := (dfsPreorder_inv g).parent_spec d.val v (preorderVertex_eq.mp hv)
  simp [preorderParent, DfsState.par, hp, asIndex_of_lt (hlt.trans d.isLt)]

theorem anc_val : Anc 0 (preorderParent g) a b ↔ Anc 0 (dfsPreorder g).par a.val b.val := by
  constructor
  · intro h
    induction h with
    | refl => exact .refl
    | @tail c d _ hcd ih =>
      obtain ⟨hne, rfl⟩ := hcd
      exact .tail ih ⟨fun h0 => hne (Fin.ext (by exact h0)), (preorderParent_val hne).symm⟩
  · intro h
    induction hk : b.val using Nat.strong_induction_on generalizing b with
    | _ k ih =>
      rcases DfsTree.anc_cases h with he | ⟨hne, hp⟩
      · exact Fin.ext he ▸ .refl
      · have hb : b ≠ 0 := by
          rintro rfl
          simp at hne
        have hlt := (dfsPreorder_inv g).par_lt hne
        rw [← preorderParent_val hb] at hp hlt
        exact .tail (ih _ (hk ▸ hlt) hp rfl) ⟨hb, rfl⟩

/-- The depth-first search produced a depth-first tree. -/
theorem preorder_tree : DfsTree (NumE g) 0 (preorderParent g) where
  parent_lt {w} hw := by
    have hlt := (dfsPreorder_inv g).par_lt (k := w.val) fun h => hw (Fin.ext (by exact h))
    rw [← preorderParent_val hw] at hlt
    exact hlt
  parent_edge {w} hw := by
    obtain ⟨v, hv⟩ := preorderVertex_ne_zero hw
    obtain ⟨p, hp, _, he⟩ := (dfsPreorder_inv g).parent_spec w.val v (preorderVertex_eq.mp hv)
    have hpar : (preorderParent g w).val = p := by
      rw [preorderParent_val hw]
      simp [DfsState.par, hp]
    rw [NumE, hpar]
    exact he
  interval hcv hcw hwv :=
    anc_val.mpr ((dfsPreorder_inv g).interval (anc_val.mp hcv) (Fin.isLt _) hcw hwv)
  forward {v w} he hlt := by
    obtain ⟨x, hx, ⟨rfl, _⟩ | ⟨u, hu, hux⟩⟩ := numE_iff.mp he
    · exact anc_val.mpr (by exact (dfsPreorder_inv g).root_anc w.val)
    · obtain ⟨b, hb, hanc⟩ := preorder_edge (preorder_iff.mpr hu) hux
      obtain rfl : w = b := preorderVertex_inj hx (preorder_iff.mp hb)
      exact anc_val.mpr (hanc hlt)

private theorem mem_predPairs : (b, a) ∈ predPairs g ↔ NumE g a b := by
  rw [numE_iff]
  simp only [predPairs, List.mem_append, List.mem_flatMap, List.mem_filterMap, map_eq_some_iff, Prod.mk.injEq]
  constructor
  · rintro (⟨d, _, hd⟩ | ⟨r, hr, k, hk, rfl, rfl⟩)
    · cases hv : preorderVertex g d with
      | none => simp [hv] at hd
      | some u =>
        rw [hv] at hd
        simp only [elim_some, List.mem_filterMap, map_eq_some_iff] at hd
        obtain ⟨w, hw, k, hk, rfl, rfl⟩ := hd
        exact ⟨w, preorder_iff.mp hk, .inr ⟨u, hv, hw⟩⟩
    · exact ⟨r, preorder_iff.mp hk, .inl ⟨rfl, hr⟩⟩
  · rintro ⟨v, hv, ⟨rfl, hr⟩ | ⟨u, hu, he⟩⟩
    · exact .inr ⟨v, hr, b, preorder_iff.mpr hv, rfl, rfl⟩
    · refine .inl ⟨a, ?_, ?_⟩
      · rw [Loop.mem_drop_finRange]
        exact Nat.pos_of_ne_zero fun h => ne_zero_of_preorderVertex hu (Fin.ext (by exact h))
      · rw [hu]
        simp only [elim_some, List.mem_filterMap, map_eq_some_iff, Prod.mk.injEq]
        exact ⟨v, he, b, preorder_iff.mpr hv, rfl, trivial⟩

theorem preorderIdom_spec (hd : d ≠ 0) : IsIdom (NumE g) 0 (preorderIdom g d) d :=
  lengauerTarjan_spec preorder_tree
    (fun v w => by rw [Csr.slice_items, Csr.mem_row, mem_predPairs]) hd

theorem preorder_reach {r x : Fin g.len} (hr : r ∈ g.roots)
    (h : Relation.ReflTransGen g.Edge r x) : ∃ a, preorderVertex g a = some x := by
  induction h with
  | refl =>
    obtain ⟨a, ha⟩ := preorder_root hr
    exact ⟨a, preorder_iff.mp ha⟩
  | tail _ hcd ih =>
    obtain ⟨c, hc⟩ := ih
    obtain ⟨d, hd, _⟩ := preorder_edge (preorder_iff.mpr hc) hcd
    exact ⟨d, preorder_iff.mp hd⟩

variable {w : Fin g.len}

/-- Walks of the numbered graph from the super-root are walks from GC roots. -/
theorem through_iff {P : Fin g.len → Prop} (hb : preorderVertex g b = some w) :
    Through (NumE g) (fun a => ∀ u, preorderVertex g a = some u → P u) 0 b ↔ ∃ r ∈ g.roots, Through g.Edge P r w := by
  constructor
  · rintro ⟨_, hr⟩
    induction hr generalizing w with
    | refl => exact absurd rfl (ne_zero_of_preorderVertex hb)
    | @tail a b _ hab ih =>
      obtain ⟨x, hx, hcase⟩ := numE_iff.mp hab.1
      obtain rfl : x = w := mem_unique hx hb
      rcases hcase with ⟨_, hroot⟩ | ⟨u, hu, he⟩
      · exact ⟨x, hroot, .refl (hab.2 x hx)⟩
      · obtain ⟨r, hr, ht⟩ := ih hu
        exact ⟨r, hr, ht.tail he (hab.2 x hx)⟩
  · rintro ⟨r, hroot, hP, hr⟩
    have hone {d : Fin (preorderLen g)} {x : Fin g.len} (hd : preorderVertex g d = some x)
        (hx : P x) : ∀ u, preorderVertex g d = some u → P u := by
      intro u hu
      rwa [← mem_unique hd hu]
    induction hr generalizing b with
    | refl =>
      exact .tail (.refl fun u hu => by rw [preorderVertex_zero] at hu; cases hu)
        (numE_iff.mpr ⟨r, hb, .inl ⟨rfl, hroot⟩⟩) (hone hb hP)
    | @tail x y hrx hxy ih =>
      obtain ⟨a, ha⟩ := preorder_reach hroot (Through.reach ⟨hP, hrx⟩)
      exact .tail (ih ha) (numE_iff.mpr ⟨y, hb, .inr ⟨x, ha, hxy.1⟩⟩) (hone hb hxy.2)

theorem reachableFromRoot_iff : g.ReachableFromRoot w ↔ ∃ b, preorderVertex g b = some w := by
  constructor
  · rintro ⟨r, hr, p, hp⟩
    have ht := exists_walk_iff_through (P := fun _ => True).mp ⟨p, hp, by simp⟩
    exact preorder_reach hr ht.reach
  · rintro ⟨b, hb⟩
    have ht : Through (NumE g) (fun a => ∀ u, preorderVertex g a = some u → True) 0 b :=
      preorder_tree.anc_through (preorder_tree.root_anc b) (by simp)
    obtain ⟨r, hr, h⟩ := (through_iff hb).mp ht
    obtain ⟨p, hp, _⟩ := exists_walk_iff_through.mpr h
    exact ⟨r, hr, p, hp⟩

theorem dominates_iff_dom (ha : preorderVertex g a = some v) (hb : preorderVertex g b = some w) :
    g.Dominates v w ↔ Dom (NumE g) 0 a b := by
  have hset : (fun c => ∀ u, preorderVertex g c = some u → u ≠ v) = (· ≠ a) := by
    funext c
    apply propext
    constructor
    · rintro h rfl
      exact h v ha rfl
    · rintro h u hu rfl
      exact h (preorderVertex_inj hu ha)
  unfold ObjectGraph.Dominates Dom
  rw [dominates_iff, ← hset, through_iff hb]
  push Not
  rfl

theorem dominates_reachable (h : g.Dominates v w) (hw : g.ReachableFromRoot w) : ∃ a, preorderVertex g a = some v := by
  obtain ⟨b, hb⟩ := reachableFromRoot_iff.mp hw
  by_contra hn
  obtain ⟨r, hr, ht⟩ := (through_iff (P := (· ≠ v)) hb).mp
    (preorder_tree.anc_through (preorder_tree.root_anc b) (by
      rintro c _ _ u hu rfl
      exact hn ⟨c, hu⟩))
  exact dominates_iff.mp h r hr ht

private theorem dom_zero_iff {z : Fin (preorderLen g)} : Dom (NumE g) 0 z 0 ↔ z = 0 := by
  constructor
  · intro h
    by_contra hz
    exact h (.refl (Ne.symm hz))
  · rintro rfl
    exact root_dom 0

theorem idom_zero_iff (hb : preorderVertex g b = some w) : preorderIdom g b = 0 ↔ ∀ v, ¬ g.StrictlyDominates v w := by
  have hb0 := ne_zero_of_preorderVertex hb
  obtain ⟨⟨hdom, hne⟩, hall⟩ := preorderIdom_spec hb0
  constructor
  · rintro h0 v ⟨hv, hvw⟩
    obtain ⟨a, ha⟩ := dominates_reachable hv (reachableFromRoot_iff.mpr ⟨b, hb⟩)
    have hab : a ≠ b := by
      rintro rfl
      exact hvw (mem_unique ha hb)
    have := hall a ((dominates_iff_dom ha hb).mp hv) hab
    rw [h0, dom_zero_iff] at this
    exact ne_zero_of_preorderVertex ha this
  · intro h
    by_contra h0
    obtain ⟨v, hv⟩ := preorderVertex_ne_zero h0
    refine h v ⟨(dominates_iff_dom hv hb).mpr hdom, ?_⟩
    rintro rfl
    exact hne (preorderVertex_inj hv hb)

theorem isImmediateDominator_idom (hb : preorderVertex g b = some w)
    (hv : preorderVertex g (preorderIdom g b) = some v) : g.IsImmediateDominator v w := by
  obtain ⟨⟨hdom, hne⟩, hall⟩ := preorderIdom_spec (ne_zero_of_preorderVertex hb)
  refine ⟨⟨(dominates_iff_dom hv hb).mpr hdom, ?_⟩, ?_⟩
  · rintro rfl
    exact hne (preorderVertex_inj hv hb)
  · rintro u ⟨hu, huw⟩
    obtain ⟨a, ha⟩ := dominates_reachable hu (reachableFromRoot_iff.mpr ⟨b, hb⟩)
    refine (dominates_iff_dom ha hv).mpr (hall a ((dominates_iff_dom ha hb).mp hu) ?_)
    rintro rfl
    exact huw (mem_unique ha hb)

theorem isImmediateDominator_unique {u : Fin g.len} (hw : g.ReachableFromRoot w)
    (hu : g.IsImmediateDominator u w) (hv : g.IsImmediateDominator v w) : u = v := by
  obtain ⟨a, ha⟩ := dominates_reachable hu.1.1 hw
  obtain ⟨b, hb⟩ := dominates_reachable hv.1.1 hw
  have hab := preorder_tree.anc_le (preorder_tree.dom_anc ((dominates_iff_dom ha hb).mp (hv.2 u hu.1)))
  have hba := preorder_tree.anc_le (preorder_tree.dom_anc ((dominates_iff_dom hb ha).mp (hu.2 v hv.1)))
  obtain rfl := le_antisymm hab hba
  exact mem_unique ha hb

variable {i : Fin g.len}

theorem preorderDfnum_pos (h : preorderDfnum g i = some d) : 0 < d.val :=
  Nat.pos_of_ne_zero fun h0 =>
    ne_zero_of_preorderVertex (preorder_iff.mp h) (Fin.ext (by exact h0))

private theorem computeRetained_reachable :
    (computeRetained g).Reachable i = true ↔ ∃ d, preorderDfnum g i = some d := by
  cases h : preorderDfnum g i with
  | none =>
    have h' : (computeRetained g).dfnum i = none := h
    simp [Reachable, h']
  | some d =>
    have h' : (computeRetained g).dfnum i = some d := h
    simp [Reachable, h', preorderDfnum_pos h]

theorem computeRetained_immediateDominator_none (h : preorderDfnum g i = none) :
    (computeRetained g).ImmediateDominator i = none := by
  have h' : (computeRetained g).dfnum i = none := h
  simp [ImmediateDominator, h']

theorem computeRetained_immediateDominator (h : preorderDfnum g i = some d) : (computeRetained g).ImmediateDominator i =
      preorderVertex g (preorderIdom g d) := by
  have h' : (computeRetained g).dfnum i = some d := h
  rw [ImmediateDominator, h']
  change (if d.val = 0 ∨ (preorderIdom g d).val = 0 then none else preorderVertex g (preorderIdom g d)) = _
  split
  · rename_i h0
    rcases h0 with h0 | h0
    · exact absurd h0 (preorderDfnum_pos h).ne'
    · rw [show preorderIdom g d = 0 from Fin.ext (by exact h0), preorderVertex_zero]
  · rfl

/-- `ComputeRetained` computes the true dominator tree of every object graph: which objects
are reachable, and for each of them the unique immediate dominator if there is one. -/
theorem computeRetained_dominator_tree (g : ObjectGraph) :
    (∀ i, (computeRetained g).Reachable i = true ↔ g.ReachableFromRoot i) ∧
    (∀ i v, (computeRetained g).ImmediateDominator i = some v ↔
      g.ReachableFromRoot i ∧ g.IsImmediateDominator v i) ∧
    (∀ i u v, g.ReachableFromRoot i → g.IsImmediateDominator u i → g.IsImmediateDominator v i →
      u = v) ∧
    (∀ i, (computeRetained g).ImmediateDominator i = none ↔
      ¬ g.ReachableFromRoot i ∨ ∀ v, ¬ g.StrictlyDominates v i) := by
  have hreach (i : Fin g.len) : g.ReachableFromRoot i ↔ ∃ d, preorderDfnum g i = some d := by
    simp [reachableFromRoot_iff, preorder_iff]
  have hnone {i : Fin g.len} {d} (h : preorderDfnum g i = some d) :
      preorderVertex g (preorderIdom g d) = none ↔ ∀ v, ¬ g.StrictlyDominates v i := by
    rw [← idom_zero_iff (preorder_iff.mp h)]
    refine ⟨fun hx => by_contra fun hne => ?_, fun h0 => h0 ▸ preorderVertex_zero⟩
    obtain ⟨x, hx'⟩ := preorderVertex_ne_zero hne
    cases hx.symm.trans hx'
  refine ⟨fun i => computeRetained_reachable.trans (hreach i).symm, fun i v => ?_,
    fun i u v hi hu hv => isImmediateDominator_unique hi hu hv, fun i => ?_⟩
  · cases h : preorderDfnum g i with
    | none => simp [hreach, computeRetained_immediateDominator_none h, h]
    | some d =>
      have hi : g.ReachableFromRoot i := (hreach i).mpr ⟨d, h⟩
      rw [computeRetained_immediateDominator h]
      constructor
      · exact fun hv => ⟨hi, isImmediateDominator_idom (preorder_iff.mp h) hv⟩
      · rintro ⟨_, hv⟩
        cases hx : preorderVertex g (preorderIdom g d) with
        | none => exact absurd hv.1 ((hnone h).mp hx v)
        | some x =>
          rw [isImmediateDominator_unique hi (isImmediateDominator_idom (preorder_iff.mp h) hx) hv]
  · cases h : preorderDfnum g i with
    | none => simp [hreach, computeRetained_immediateDominator_none h, h]
    | some d =>
      rw [computeRetained_immediateDominator h, hnone h, or_iff_right (not_not_intro ((hreach i).mpr ⟨d, h⟩))]

end Spectra.Heap
