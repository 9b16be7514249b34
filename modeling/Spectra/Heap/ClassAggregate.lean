import Spectra.Heap.ParsedGraph
import Spectra.Heap.RetainedSize
import Spectra.Library.TreeWalk

/-! The class totals of `aggregateClasses`. -/
namespace Spectra.Heap
open Library TreeWalk List Csr AggState

section
variable {g : ObjectGraph} {m : ℕ}

/-- The tables that the class walk updates. -/
structure Tables where
  classes : List ClassRetained
  onPath : List ℤ

variable (vertex : Fin m → Option (Fin g.len)) (retained : Fin m → ℤ)
  (pairs : List (Fin m × Fin m))

def enterVertex (c : Fin m) (s : Tables) : Tables :=
  match vertex c with
  | none => s
  | some obj =>
    { classes := s.classes.modify (g.cls obj) fun e =>
        { e with
          instances := e.instances + 1
          shallowBytes := e.shallowBytes + g.shallow obj
          retainedBytes := e.retainedBytes +
            if s.onPath.getD (g.cls obj) 0 = 0 then retained c else 0 }
      onPath := s.onPath.modify (g.cls obj) (· + 1) }

def leaveVertex (d : Fin m) (s : Tables) : Tables :=
  match vertex d with
  | none => s
  | some obj => { s with onPath := s.onPath.modify (g.cls obj) (· - 1) }

/-- The frames of the class walk with the children still to come in place of positions. -/
def AggState.walk (s : AggState m) : Walk (Fin m) Tables :=
  ⟨⟨s.classes, s.onPath⟩, s.stack.map fun f => (f.1, (Csr.row pairs f.1).drop (f.2 - Csr.offsets pairs f.1.castSucc))⟩

/-- Every position lies in the run of its frame. -/
def AggState.Within (s : AggState m) : Prop :=
  ∀ f ∈ s.stack, Csr.offsets pairs f.1.castSucc ≤ f.2 ∧ f.2 ≤ Csr.offsets pairs f.1.succ

variable {vertex pairs}

private theorem drop_row [NeZero m] {d : Fin m} {next : ℕ} (hlo : offsets pairs d.castSucc ≤ next)
    (hhi : next < offsets pairs d.succ) : ∃ c, (d, c) ∈ pairs ∧ (items 0 pairs)[next]? = some c ∧
      (row pairs d).drop (next - offsets pairs d.castSucc) =
        c :: (row pairs d).drop (next + 1 - offsets pairs d.castSucc) := by
  have hs := offsets_succ pairs d
  have hj : next - offsets pairs d.castSucc < (row pairs d).length := by omega
  have hget := getElem?_items 0 pairs hj
  rw [Nat.add_sub_cancel' hlo, getElem?_eq_getElem hj] at hget
  refine ⟨_, mem_row.mp (getElem_mem hj), hget, ?_⟩
  rw [drop_eq_getElem_cons hj, Nat.sub_add_comm hlo]

section
variable {childStart : Fin (m + 1) → ℕ} {children : List (Fin m)} {t : Tables} {d : Fin m}
  {next : ℕ} {rest : List (Fin m × ℕ)}

private theorem aggregateStep_leave (h : next = childStart d.succ) :
    aggregateStep vertex retained childStart children ⟨t.classes, t.onPath, (d, next) :: rest⟩ =
      ⟨(leaveVertex vertex d t).classes, (leaveVertex vertex d t).onPath, rest⟩ := by
  simp only [aggregateStep, if_pos h, leaveVertex]
  cases vertex d with
  | none | some obj => rfl

private theorem aggregateStep_enter {c : Fin m} {obj : Fin g.len} (h : next ≠ childStart d.succ)
    (hc : children[next]? = some c) (hobj : vertex c = some obj) :
    aggregateStep vertex retained childStart children ⟨t.classes, t.onPath, (d, next) :: rest⟩ =
      ⟨(enterVertex vertex retained c t).classes, (enterVertex vertex retained c t).onPath,
        (c, childStart c.castSucc) :: (d, next + 1) :: rest⟩ := by
  simp [aggregateStep, if_neg h, hc, hobj, enterVertex]

end

variable [NeZero m]

private theorem walk_aggregateStep (hv : ∀ p ∈ pairs, ∃ obj, vertex p.2 = some obj) {s : AggState m}
    (h : s.Within pairs) :
    (aggregateStep vertex retained (offsets pairs) (items 0 pairs) s).Within pairs ∧
    (aggregateStep vertex retained (offsets pairs) (items 0 pairs) s).walk pairs =
      step (row pairs) (enterVertex vertex retained) (leaveVertex vertex) (s.walk pairs) := by
  obtain ⟨classes, onPath, stack⟩ := s
  cases stack with
  | nil => exact ⟨h, rfl⟩
  | cons f rest =>
    obtain ⟨d, next⟩ := f
    obtain ⟨⟨hlo, hhi⟩, hrest⟩ := forall_mem_cons.mp h
    have hs := offsets_succ pairs d
    by_cases hend : next = offsets pairs d.succ
    · rw [aggregateStep_leave retained (t := ⟨classes, onPath⟩) hend]
      have hnil : (row pairs d).drop (next - offsets pairs d.castSucc) = [] := by
        rw [drop_eq_nil_iff]
        omega
      refine ⟨hrest, ?_⟩
      simp [walk, hnil, step_leave]
    · obtain ⟨c, hc, hget, hcons⟩ := drop_row hlo (lt_of_le_of_ne hhi hend)
      obtain ⟨obj, hobj⟩ := hv _ hc
      rw [aggregateStep_enter retained (t := ⟨classes, onPath⟩) hend hget hobj]
      constructor
      · refine forall_mem_cons.mpr ⟨⟨le_rfl, ?_⟩, forall_mem_cons.mpr ⟨?_, hrest⟩⟩
        · exact offsets_mono pairs Fin.castSucc_lt_succ.le
        · exact ⟨Nat.le_succ_of_le hlo, Nat.succ_le_of_lt (lt_of_le_of_ne hhi hend)⟩
      · simp [walk, hcons, step_enter]

private theorem walk_aggregateLoop (hv : ∀ p ∈ pairs, ∃ obj, vertex p.2 = some obj) (n : ℕ)
    {s : AggState m} (h : s.Within pairs) :
    (aggregateLoop vertex retained (offsets pairs) (items 0 pairs) n s).walk pairs =
      (step (row pairs) (enterVertex vertex retained) (leaveVertex vertex))^[n] (s.walk pairs) := by
  induction n generalizing s with
  | zero => rfl
  | succ n ih =>
    rw [aggregateLoop]
    split
    · rename_i hempty
      obtain ⟨classes, onPath, stack⟩ := s
      obtain rfl : stack = [] := isEmpty_iff.mp hempty
      exact (Function.iterate_fixed rfl (n + 1)).symm
    · obtain ⟨hwithin, hwalk⟩ := walk_aggregateStep retained hv h
      rw [ih hwithin, hwalk, Function.iterate_succ_apply]

def initialTables (g : ObjectGraph) : Tables :=
  ⟨g.classNames.map fun name => ⟨name, 0, 0, 0⟩, g.classNames.map fun _ => 0⟩

private theorem aggregateClasses_eq (hv : ∀ p ∈ pairs, ∃ obj, vertex p.2 = some obj) :
    aggregateClasses vertex retained (offsets pairs) (items 0 pairs) =
      ((step (row pairs) (enterVertex vertex retained) (leaveVertex vertex))^[2 * m]
        ⟨initialTables g, [(0, row pairs 0)]⟩).state.classes := by
  have h : (mk (initialTables g).classes (initialTables g).onPath
      [(0, offsets pairs (Fin.castSucc 0))]).Within pairs := by
    refine forall_mem_singleton.mpr ⟨le_rfl, ?_⟩
    exact offsets_mono pairs Fin.castSucc_lt_succ.le
  have hloop := walk_aggregateLoop retained hv (2 * m) h
  have hinit : (mk (initialTables g).classes (initialTables g).onPath
      [(0, offsets pairs (Fin.castSucc 0))]).walk pairs =
      ⟨initialTables g, [(0, row pairs 0)]⟩ := by
    simp [walk]
  rw [← hinit, ← hloop]
  rfl

variable (vertex)

def classAt (d : Fin m) : Option ℕ := (vertex d).map g.cls

variable (idom : Fin m → Fin m)

/-- The number is of class `k`, and no number strictly above it in the tree is. -/
def Topmost (k : ℕ) (d : Fin m) : Prop :=
  classAt vertex d = some k ∧ ∀ a, Anc 0 idom a d ∧ a ≠ d → classAt vertex a ≠ some k

open Classical in
/-- The entry of class `k` after the numbers `entered`. -/
noncomputable def credit (entered : List (Fin m)) (k : ℕ) (name : String) : ClassRetained where
  className := name
  instances := (entered.map fun d => if classAt vertex d = some k then 1 else 0).sum
  shallowBytes := (entered.map fun d =>
    if classAt vertex d = some k then (vertex d).elim 0 g.shallow else 0).sum
  retainedBytes := (entered.map fun d => if Topmost vertex idom k d then retained d else 0).sum

/-- The tables between two rounds of the walk. -/
structure Tallied (entered path : List (Fin m)) (t : Tables) : Prop where
  onPath : ∀ k, t.onPath[k]? =
    g.classNames[k]?.map fun _ => ((path.countP fun d => classAt vertex d = some k : ℕ) : ℤ)
  classes : ∀ k, t.classes[k]? = g.classNames[k]?.map (credit vertex retained idom entered k)

variable {vertex retained idom}

private theorem tallied_initial (h0 : vertex 0 = none) : Tallied vertex retained idom [] [0] (initialTables g) := by
  constructor
  · simp only [initialTables, getElem?_map]
    simp [classAt, h0]
  · intro k
    simp only [initialTables, getElem?_map]
    rfl

theorem Tallied.leave {entered : List (Fin m)} {d : Fin m} {path : List (Fin m)} {t : Tables}
    (h : Tallied vertex retained idom entered (d :: path) t) :
    Tallied vertex retained idom entered path (leaveVertex vertex d t) := by
  rw [leaveVertex]
  cases hd : vertex d with
  | none =>
    refine ⟨fun k => ?_, h.classes⟩
    rw [h.onPath]
    simp [classAt, hd]
  | some obj =>
    refine ⟨fun k => ?_, h.classes⟩
    rw [getElem?_modify, h.onPath]
    cases g.classNames[k]? with
    | none => rfl
    | some name => by_cases hk : g.cls obj = k <;> simp [classAt, hd, hk]

theorem Tallied.enter {entered path : List (Fin m)} {c : Fin m} {t : Tables}
    {obj : Fin g.len} (hobj : vertex c = some obj) (hpath : ∀ x, x ∈ path ↔ Anc 0 idom x c ∧ x ≠ c)
    (h : Tallied vertex retained idom entered path t) :
    Tallied vertex retained idom (c :: entered) (c :: path) (enterVertex vertex retained c t) := by
  have hcls : classAt vertex c = some (g.cls obj) := by rw [classAt, hobj, Option.map_some]
  have hfresh : t.onPath[g.cls obj]?.getD 0 = 0 ↔ Topmost vertex idom (g.cls obj) c := by
    rw [h.onPath, getElem?_eq_getElem (g.cls_lt obj),
      Option.map_some, Option.getD_some, Int.natCast_eq_zero, countP_eq_zero]
    simp only [decide_eq_true_eq, hpath]
    exact ⟨fun hp => ⟨hcls, hp⟩, And.right⟩
  rw [enterVertex, hobj]
  constructor
  · intro k
    simp only [getElem?_modify, h.onPath]
    cases g.classNames[k]? with
    | none => rfl
    | some name => by_cases hk : g.cls obj = k <;> simp [hcls, hk]
  · intro k
    simp only [getElem?_modify, h.classes]
    cases g.classNames[k]? with
    | none => rfl
    | some name =>
      by_cases hk : g.cls obj = k
      · subst hk
        by_cases ht : Topmost vertex idom (g.cls obj) c
        · simp [credit, hcls, hobj, hfresh.mpr ht, ht, add_comm]
        · simp [credit, hcls, hobj, mt hfresh.mp ht, ht, add_comm]
      · have hn : ¬ Topmost vertex idom k c := fun ht => hk (Option.some.inj (hcls.symm.trans ht.1))
        simp [credit, hcls, hk, hn]

variable (retained) in
private theorem exists_entered {kids : Fin m → List (Fin m)} (t : IsTree 0 idom kids)
    (h0 : vertex 0 = none) (hv : ∀ d, d ≠ 0 → ∃ obj, vertex d = some obj) :
    ∃ entered : List (Fin m), entered.Nodup ∧ (∀ d, d ∈ entered ↔ d ≠ 0) ∧ ∀ k,
      ((step kids (enterVertex vertex retained) (leaveVertex vertex))^[2 * m]
        ⟨initialTables g, [(0, kids 0)]⟩).state.classes[k]? =
      g.classNames[k]?.map (credit vertex retained idom entered k) := by
  have hI : Invariant 0 idom (enterVertex vertex retained) (leaveVertex vertex)
      (Tallied vertex retained idom) := by
    refine ⟨fun hc _ _ hpath h => ?_, Tallied.leave⟩
    obtain ⟨obj, hobj⟩ := hv _ hc
    exact h.enter hobj hpath
  obtain ⟨entered, hnodup, hmem, h⟩ := run_spec (n := 2 * m) t hI (tallied_initial h0)
    (by rw [Fintype.card_fin]; omega)
  exact ⟨entered, hnodup, hmem, h.classes⟩

end

variable {g : ObjectGraph}

theorem mem_childPairs {m : ℕ} [NeZero m] {idom : Fin m → Fin m} {c d : Fin m} :
    (d, c) ∈ childPairs idom ↔ c ≠ 0 ∧ idom c = d := by
  have h0 : c ≠ 0 ↔ 1 ≤ c.val := by rw [Ne, Fin.ext_iff, Fin.val_zero, Nat.one_le_iff_ne_zero]
  simp only [childPairs, mem_map, Loop.mem_drop_finRange, Prod.mk.injEq, h0]
  constructor
  · rintro ⟨a, ha, hd, rfl⟩
    exact ⟨ha, hd⟩
  · rintro ⟨hc, hd⟩
    exact ⟨c, hc, hd, rfl⟩

theorem nodup_row_childPairs {m : ℕ} {idom : Fin m → Fin m} (d : Fin m) : (row (childPairs idom) d).Nodup := by
  have hsub : (row (childPairs idom) d).Sublist ((childPairs idom).map Prod.snd) :=
    filter_sublist.map Prod.snd
  refine List.Nodup.sublist hsub ?_
  rw [childPairs, map_map]
  exact ((nodup_finRange m).sublist (drop_sublist 1 _)).map fun _ _ h => h

private theorem childPairs_tree : IsTree 0 (preorderIdom g) (row (childPairs (preorderIdom g))) where
  mem_kids := mem_row.trans mem_childPairs
  nodup_kids := nodup_row_childPairs
  root_anc v := by
    rw [← preorder_tree.dom_iff_anc_idom preorderIdom_spec]
    exact root_dom v

variable {d : Fin (preorderLen g)} {v : Fin g.len}

private theorem topmost_iff {k : ℕ} (hv : preorderVertex g d = some v) :
    Topmost (preorderVertex g) (preorderIdom g) k d ↔
      g.cls v = k ∧ ∀ u, g.StrictlyDominates u v → g.cls u ≠ k := by
  have hd : classAt (preorderVertex g) d = some (g.cls v) := by rw [classAt, hv, Option.map_some]
  rw [Topmost, hd, Option.some.injEq]
  refine and_congr_right fun _ => ⟨?_, ?_⟩
  · rintro h u ⟨hdom, hne⟩ hu
    obtain ⟨a, ha⟩ := dominates_reachable hdom (reachableFromRoot_iff.mpr ⟨d, hv⟩)
    refine h a ⟨(dominates_iff_anc ha hv).mp hdom, ?_⟩ (by rw [classAt, ha, Option.map_some, hu])
    rintro rfl
    exact hne (Option.mem_unique ha hv)
  · rintro h a ⟨hanc, hne⟩ ha
    obtain ⟨u, hu, huk⟩ := Option.map_eq_some_iff.mp ha
    refine h u ⟨(dominates_iff_anc hu hv).mpr hanc, ?_⟩ huk
    rintro rfl
    exact hne (preorderVertex_inj hu hv)

private theorem sum_entered {m : ℕ} [NeZero m] {entered : List (Fin m)} (hnodup : entered.Nodup)
    (hmem : ∀ d, d ∈ entered ↔ d ≠ 0) {f : Fin m → ℤ} (h0 : f 0 = 0) : (entered.map f).sum = ∑ d, f d := by
  rw [← sum_toFinset f hnodup]
  refine Finset.sum_subset (Finset.subset_univ _) fun d _ hd => ?_
  rw [mem_toFinset, hmem, not_not] at hd
  rw [hd, h0]

variable {entered : List (Fin (preorderLen g))}

private theorem sum_entered_eq (hnodup : entered.Nodup)
    (hmem : ∀ d, d ∈ entered ↔ d ≠ 0) {f : Fin (preorderLen g) → ℤ} {w : Fin g.len → ℤ}
    {R : Fin g.len → Prop} [DecidablePred R] (hR : ∀ i, R i → g.ReachableFromRoot i) (h0 : f 0 = 0)
    (hf : ∀ d v, preorderVertex g d = some v → f d = if R v then w v else 0) :
    (entered.map f).sum = ∑ i with R i, w i := by
  classical
  have hobjects : ∑ i with R i, w i =
      ∑ i with g.ReachableFromRoot i, if R i then w i else 0 := by
    rw [← Finset.sum_filter, Finset.filter_filter]
    refine Finset.sum_congr (Finset.ext fun i => ?_) fun _ _ => rfl
    simp only [Finset.mem_filter_univ]
    exact ⟨fun h => ⟨hR i h, h⟩, And.right⟩
  rw [sum_entered hnodup hmem h0, hobjects, ← sum_preorder]
  refine Finset.sum_congr rfl fun d _ => ?_
  cases hv : preorderVertex g d with
  | none =>
    obtain rfl : d = 0 := by
      by_contra hd
      obtain ⟨v, hd⟩ := preorderVertex_ne_zero hd
      rw [hd] at hv
      cases hv
    exact h0
  | some v => exact hf d v hv

theorem reached (hv : preorderVertex g d = some v) : g.ReachableFromRoot v :=
  reachableFromRoot_iff.mpr ⟨d, hv⟩

theorem classAt_zero : classAt (preorderVertex g) 0 = none := by
  rw [classAt, preorderVertex_zero, Option.map_none]

theorem classAt_eq {k : ℕ} (hv : preorderVertex g d = some v) :
    classAt (preorderVertex g) d = some k ↔ g.cls v = k := by
  rw [classAt, hv, Option.map_some, Option.some.injEq]

open Classical in
private theorem credit_eq (hnodup : entered.Nodup)
    (hmem : ∀ d, d ∈ entered ↔ d ≠ 0) (k : ℕ) (name : String) :
    credit (preorderVertex g) (preorderRetained g) (preorderIdom g) entered k name =
      ⟨name, ∑ i with g.ReachableFromRoot i ∧ g.cls i = k, 1,
        ∑ i with g.ReachableFromRoot i ∧ g.cls i = k, g.shallow i,
        ∑ i with g.Outermost (g.cls · = k) i, (computeRetained g).Retained i⟩ := by
  rw [credit]
  congr 1 <;> refine sum_entered_eq hnodup hmem (fun _ h => h.1) ?_ fun d v hv => ?_
  · simp [classAt_zero]
  · simp [classAt_eq hv, reached hv]
  · simp [classAt_zero]
  · simp [classAt_eq hv, hv, reached hv]
  · simp [Topmost, classAt_zero]
  · simp [topmost_iff hv, computeRetained_retained_some (preorder_iff.mpr hv), reached hv, ObjectGraph.Outermost]

open Classical in
private theorem computeRetained_classes_get (c : Fin g.classNames.length) :
    (computeRetained g).classes[c.val]? = some
      ⟨g.classNames.get c, ∑ i with g.ReachableFromRoot i ∧ g.cls i = c.val, 1,
        ∑ i with g.ReachableFromRoot i ∧ g.cls i = c.val, g.shallow i,
        ∑ i with g.Outermost (g.cls · = c.val) i, (computeRetained g).Retained i⟩ := by
  have hpairs : ∀ p ∈ childPairs (preorderIdom g), ∃ obj, preorderVertex g p.2 = some obj :=
    fun p hp => preorderVertex_ne_zero (mem_childPairs.mp hp).1
  obtain ⟨entered, hnodup, hmem, h⟩ := exists_entered (preorderRetained g)
    childPairs_tree preorderVertex_zero fun _ hd => preorderVertex_ne_zero hd
  change (aggregateClasses (preorderVertex g) (preorderRetained g)
    (Csr.offsets (childPairs (preorderIdom g))) (Csr.items 0 (childPairs (preorderIdom g))))[c.val]? = _
  rw [aggregateClasses_eq _ hpairs, h, getElem?_eq_getElem c.isLt, Option.map_some, credit_eq hnodup hmem]
  rfl

open Classical in
/-- A class is credited with its reachable instances, and with the retained sizes of those below no
other instance of it in the dominator tree. Where no size is negative, as in every parsed graph,
the credited bytes lie between the class's own bytes and those that removing it would free. -/
theorem computeRetained_classes (g : ObjectGraph) :
    (∀ c : Fin g.classNames.length, ∃ e, (computeRetained g).classes[c.val]? = some e ∧
      e.className = g.classNames.get c ∧
      e.instances = (Finset.univ.filter fun i => g.ReachableFromRoot i ∧ g.cls i = c.val).card ∧
      e.shallowBytes = ∑ i with g.ReachableFromRoot i ∧ g.cls i = c.val, g.shallow i ∧
      e.retainedBytes = ∑ i with (g.ReachableFromRoot i ∧ g.cls i = c.val) ∧
        ∀ v, g.StrictlyDominates v i → g.cls v ≠ c.val, (computeRetained g).Retained i ∧
      ((∀ i, 0 ≤ g.shallow i) →
        e.shallowBytes ≤ e.retainedBytes ∧
        e.retainedBytes ≤ (computeRetained g).reachableBytes ∧
        e.retainedBytes ≤ ∑ x with g.FreedByAll (g.cls · = c.val) x, g.shallow x)) ∧
    ∀ lim sort bs, parseObjectGraph lim sort bs = .ok g → ∀ i, 0 ≤ g.shallow i := by
  refine ⟨fun c => ⟨_, computeRetained_classes_get c, rfl, ?_, rfl, ?_, fun hnonneg => ?_⟩,
    fun lim sort bs h => (wellFormed_of_parseObjectGraph h).shallow_nonneg⟩
  · rw [Finset.sum_const, nsmul_eq_mul, mul_one]
  · dsimp only
    refine Finset.sum_congr (Finset.ext fun i => ?_) fun _ _ => rfl
    rw [Finset.mem_filter_univ, Finset.mem_filter_univ]
    exact and_assoc.symm
  · have hunder := sum_retained_outermost (g := g) (g.cls · = c.val)
    dsimp only
    rw [hunder, (computeRetained_retained g).2.2.2]
    refine ⟨?_, ?_, ?_⟩ <;> refine Finset.sum_le_sum_of_subset_of_nonneg
      (Finset.monotone_filter_right _ fun i _ hi => ?_) fun i _ _ => hnonneg i
    · exact ⟨hi.1, i, hi.2, dominates_self i⟩
    · exact hi.1
    · exact freedByAll_of_under hi

/-- The second and third node are below the first one, which alone is credited. -/
theorem computeRetained_classes_listGraph :
    (computeRetained listGraph).classes =
      [⟨"Holder", 1, 5, 36⟩, ⟨"Node", 3, 30, 31⟩, ⟨"Leaf", 1, 1, 1⟩] ∧
    ∃ e, (computeRetained listGraph).classes[1]? = some e ∧ e.shallowBytes ≤ e.retainedBytes ∧
      e.retainedBytes ≤ (computeRetained listGraph).reachableBytes := by
  refine ⟨by decide +kernel, ?_⟩
  obtain ⟨e, he, _, _, _, _, hle⟩ := (computeRetained_classes listGraph).1 ⟨1, by decide⟩
  obtain ⟨hlo, hhi, _⟩ := hle listGraph_wellFormed.shallow_nonneg
  exact ⟨e, he, hlo, hhi⟩

end Spectra.Heap
