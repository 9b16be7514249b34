import Mathlib.Data.Prod.Lex
import Spectra.Heap.DominatorTree
import Spectra.Library.BoundedHeap

/-! The largest retained sizes. -/
namespace Spectra.Heap
open Library List

namespace RetainedSnapshot
variable {g : ObjectGraph} (s : RetainedSnapshot g)

def idAt (d : Fin s.m) : ℕ := (s.vertex d).elim 0 g.ids

/-- The method `less` of `retainedHeap`: smaller retained, then larger id. -/
def less (a b : Fin s.m) : Bool :=
  if s.retained a ≠ s.retained b then s.retained a < s.retained b else s.idAt b < s.idAt a

def rank (d : Fin s.m) : Lex (ℤ × ℕ) := toLex (-s.retained d, s.idAt d)

/-- What `topRetained` uses of the Go libraries. -/
structure TopRuntime where
  heap : HeapImpl s.less
  sort : SliceSort s.rank

/-- The preorder numbers of the `limit` largest retained objects. -/
def topRetained (rt : s.TopRuntime) (limit : ℤ) : List (Fin s.m) :=
  let n := s.m - 1
  let limit := if limit ≤ 0 ∨ n < limit then n else limit.toNat
  rt.sort.sort (((List.finRange s.m).drop 1).foldl (offer rt.heap limit) [])

/-- The preorder numbers other than that of the super-root number the reachable objects. -/
structure Numbered : Prop where
  zero : ∀ d : Fin s.m, d.val = 0 → s.vertex d = none
  total : ∀ d : Fin s.m, d.val ≠ 0 → ∃ i, s.vertex d = some i
  dfnum_iff : ∀ i d, s.dfnum i = some d ↔ s.vertex d = some i

def objectRank (i : Fin g.len) : Lex (ℤ × ℕ) := toLex (-s.Retained i, g.ids i)

/-- All reachable objects in the order of their rank. -/
def ranking : List (Fin g.len) :=
  (SliceSort.stable s.objectRank).sort ((List.finRange g.len).filter fun i => s.Reachable i)

variable {s}

theorem less_iff (a b : Fin s.m) : s.less a b = true ↔ s.rank b < s.rank a := by
  unfold less rank
  rw [Prod.Lex.toLex_lt_toLex]
  split
  · simp only [decide_eq_true_eq]
    omega
  · simp only [decide_eq_true_eq]
    omega

instance inhabited_topRuntime : Inhabited s.TopRuntime := ⟨⟨HeapImpl.sorting less_iff, default⟩⟩

theorem Numbered.reachable_iff (h : s.Numbered) {i : Fin g.len} :
    s.Reachable i = true ↔ ∃ d : Fin s.m, d.val ≠ 0 ∧ s.vertex d = some i := by
  rw [Reachable]
  constructor
  · intro hr
    cases hd : s.dfnum i with
    | none =>
      rw [hd] at hr
      cases hr
    | some d =>
      rw [hd] at hr
      exact ⟨d, (of_decide_eq_true hr).ne', (h.dfnum_iff i d).mp hd⟩
  · rintro ⟨d, hd, hv⟩
    rw [(h.dfnum_iff i d).mpr hv]
    exact decide_eq_true (Nat.pos_of_ne_zero hd)

theorem Numbered.objectRank_eq (h : s.Numbered) {i : Fin g.len} {d : Fin s.m}
    (hv : s.vertex d = some i) : s.objectRank i = s.rank d := by
  have hpos : 0 < d.val := by
    apply Nat.pos_of_ne_zero
    intro h0
    rw [h.zero d h0] at hv
    cases hv
  have hretained : s.Retained i = s.retained d := by
    rw [Retained, (h.dfnum_iff i d).mpr hv]
    exact if_pos hpos
  rw [objectRank, rank, hretained, idAt, hv]
  rfl

theorem Numbered.exists_objects (h : s.Numbered) {l : List (Fin s.m)} (hl : ∀ d ∈ l, d.val ≠ 0) :
    ∃ u : List (Fin g.len), l.map s.vertex = u.map some ∧ l.map s.rank = u.map s.objectRank := by
  induction l with
  | nil => exact ⟨[], rfl, rfl⟩
  | cons d l ih =>
    obtain ⟨u, hu, hrank⟩ := ih fun e he => hl e (mem_cons_of_mem d he)
    obtain ⟨i, hi⟩ := h.total d (hl d (.head _))
    refine ⟨i :: u, ?_, ?_⟩
    · rw [map_cons, map_cons, hi, hu]
    · rw [map_cons, map_cons, h.objectRank_eq hi, hrank]

theorem mem_numbers {d : Fin s.m} : d ∈ (finRange s.m).drop 1 ↔ d.val ≠ 0 :=
  Loop.mem_drop_finRange.trans Nat.one_le_iff_ne_zero

variable (h : s.Numbered) (hids : Function.Injective g.ids)
include h hids

theorem Numbered.nodup_ranks : (((finRange s.m).drop 1).map s.rank).Nodup := by
  refine List.Nodup.map_on ?_ ((nodup_finRange s.m).sublist (drop_sublist 1 _))
  intro a ha b hb hab
  obtain ⟨i, hi⟩ := h.total a (mem_numbers.mp ha)
  obtain ⟨j, hj⟩ := h.total b (mem_numbers.mp hb)
  have hid : s.idAt a = s.idAt b := (Prod.ext_iff.mp (congrArg ofLex hab)).2
  rw [idAt, idAt, hi, hj] at hid
  obtain rfl : i = j := hids hid
  exact Option.some.inj (((h.dfnum_iff i a).mpr hi).symm.trans ((h.dfnum_iff i b).mpr hj))

theorem Numbered.sorted_numbers (sort : SliceSort s.rank) :
    (sort.sort ((finRange s.m).drop 1)).map s.vertex = s.ranking.map some := by
  have hmem {d : Fin s.m} : d ∈ sort.sort ((finRange s.m).drop 1) ↔ d.val ≠ 0 :=
    sort.mem_sort.trans mem_numbers
  obtain ⟨u, hu, hrank⟩ := h.exists_objects fun d hd => hmem.mp hd
  have hnodup : (u.map s.objectRank).Nodup := by
    rw [← hrank]
    exact ((sort.perm _).map s.rank).nodup_iff.mpr (h.nodup_ranks hids)
  have hsorted : u.Pairwise fun i j => s.objectRank i ≤ s.objectRank j := by
    have := sort.sorted ((finRange s.m).drop 1)
    rw [← pairwise_map, hrank, pairwise_map] at this
    exact this
  have hperm : u.Perm s.ranking := by
    refine List.Perm.trans ?_ ((SliceSort.stable s.objectRank).perm _).symm
    rw [perm_ext_iff_of_nodup hnodup.of_map ((nodup_finRange _).filter _)]
    intro i
    have hi : i ∈ u ↔ some i ∈ u.map some := by simp
    rw [hi, ← hu, mem_map, mem_filter, h.reachable_iff]
    simp only [hmem, mem_finRange, true_and]
  have heq : u = s.ranking := by
    refine hperm.eq_of_pairwise ?_ hsorted ((SliceSort.stable s.objectRank).sorted _)
    intro i j hi hj hij hji
    exact inj_on_of_nodup_map hnodup hi (hperm.mem_iff.mpr hj) (le_antisymm hij hji)
  rw [hu, heq]

theorem Numbered.length_ranking : s.ranking.length = s.m - 1 := by
  have := congrArg length (h.sorted_numbers hids default)
  rw [length_map, length_map, ((default : SliceSort s.rank).perm _).length_eq, length_drop, length_finRange] at this
  exact this.symm

end RetainedSnapshot

private theorem computeRetained_numbered (g : ObjectGraph) : (computeRetained g).Numbered where
  zero d h0 := by
    have : d = (0 : Fin (preorderLen g)) := Fin.ext (by exact h0)
    rw [this]
    exact preorderVertex_zero
  total d hd := preorderVertex_ne_zero fun h => hd (by rw [h]; rfl)
  dfnum_iff _ _ := preorder_iff

/-- With distinct object ids `topRetained` returns the beginning of the ranking of all reachable
objects: `limit` of them, or all if the limit is not positive or too large. -/
theorem topRetained_eq_ranking (g : ObjectGraph) (hids : Function.Injective g.ids) :
    (computeRetained g).Numbered ∧
    ∀ s : RetainedSnapshot g, s.Numbered → ∀ (rt : s.TopRuntime) (limit : ℤ),
      (s.topRetained rt limit).map s.vertex = (s.ranking.take
        (if limit ≤ 0 ∨ s.ranking.length < limit then s.ranking.length else limit.toNat)).map some := by
  refine ⟨computeRetained_numbered g, fun s hs rt limit => ?_⟩
  rw [RetainedSnapshot.topRetained, sort_foldl_offer RetainedSnapshot.less_iff rt.heap _
    (hs.nodup_ranks hids) rt.sort rt.sort, map_take, hs.sorted_numbers hids, map_take,
    hs.length_ranking hids]

theorem topRetained_listGraph :
    Function.Injective listGraph.ids ∧
      ((computeRetained listGraph).topRetained default 2).map (computeRetained listGraph).vertex =
        ((computeRetained listGraph).ranking.take (if (2 : ℤ) ≤ 0 ∨
          ((computeRetained listGraph).ranking.length : ℤ) < 2
          then (computeRetained listGraph).ranking.length else (2 : ℤ).toNat)).map some := by
  have hids : Function.Injective listGraph.ids := by
    intro i j hij
    have hval : i.val + 1 = j.val + 1 := hij
    exact Fin.ext (by omega)
  obtain ⟨hnumbered, htop⟩ := topRetained_eq_ranking listGraph hids
  exact ⟨hids, htop _ hnumbered default 2⟩

end Spectra.Heap
