import Spectra.Heap.GraphNodes

/-! The graph shows every object of the builder. -/
namespace Spectra.Heap
open Library List

section
variable {n : ℕ} {ids : Fin n → ℕ}

theorem searchID_sound {id : ℕ} {j : Fin n} (h : searchID ids id = some j) : ids j = id := by
  simpa using (Option.filter_eq_some_iff.mp h).2

/-- The first id that is not smaller is the one looked for, if that is there at all. -/
theorem searchID_complete (hmono : Monotone ids) {id : ℕ} {k : Fin n} (hk : ids k = id) :
    ∃ j, searchID ids id = some j := by
  cases hf : (finRange n).find? fun k => decide (id ≤ ids k) with
  | none =>
    have := find?_eq_none.mp hf k (mem_finRange k)
    simp [hk] at this
  | some j =>
    have hj : id ≤ ids j := by simpa using find?_some hf
    have hjk : j ≤ k := by
      obtain ⟨_, i, hi, hij, hbefore⟩ := find?_eq_some_iff_getElem.mp hf
      by_contra hlt
      rw [not_le] at hlt
      have hji : j.val = i := by
        rw [← hij]
        simp
      have := hbefore k.val (by have := Fin.lt_def.mp hlt; omega)
      simp [hk] at this
    rw [searchID, hf]
    simp [le_antisymm (hk ▸ hmono hjk) hj]

private theorem map_filterMap_searchID (hmono : Monotone ids) (run : List ℕ) :
    (run.filterMap (searchID ids)).map ids = run.filter fun r => decide (∃ k, ids k = r) := by
  induction run with
  | nil => rfl
  | cons r run ih =>
    by_cases hr : ∃ k, ids k = r
    · obtain ⟨k, hk⟩ := hr
      obtain ⟨j, hj⟩ := searchID_complete hmono hk
      rw [filterMap_cons_some hj, map_cons, ih, filter_cons_of_pos (by simpa using ⟨k, hk⟩), searchID_sound hj]
    · have hnone : searchID ids r = none := by
        cases hs : searchID ids r with
        | none => rfl
        | some j => exact absurd ⟨j, searchID_sound hs⟩ hr
      rw [filterMap_cons_none hnone, ih, filter_cons_of_neg (by simpa using hr)]

end

namespace GraphBuilder
variable (sort : SliceSort RawObject.id) (names : ClassKey → String) (unresolved : ℕ)
  (b : GraphBuilder)

/-- Object `i` of the graph is the object `o` of the builder. -/
structure Shows (g : ObjectGraph) (i : Fin g.len) (o : RawObject) : Prop where
  id : g.ids i = o.id
  shallow : g.shallow i = o.shallow
  cls : g.cls i = o.cls
  out : (g.Out i).map g.ids = (b.run o).filter fun r => decide (r ∈ b.objects.map RawObject.id)

theorem sortedIDs_mono : Monotone (sortedIDs (sort.sort b.objects)) := by
  intro i j hij
  rcases hij.lt_or_eq with hlt | rfl
  · exact pairwise_iff_getElem.mp (sort.sorted b.objects) i j i.isLt j.isLt hlt
  · exact le_rfl

theorem mem_sortedIDs (id : ℕ) : (∃ k, sortedIDs (sort.sort b.objects) k = id) ↔ id ∈ b.objects.map RawObject.id := by
  rw [← ((sort.perm b.objects).map RawObject.id).mem_iff, mem_map]
  constructor
  · rintro ⟨k, rfl⟩
    exact ⟨_, getElem_mem k.isLt, rfl⟩
  · rintro ⟨o, ho, rfl⟩
    obtain ⟨k, hk, rfl⟩ := mem_iff_getElem.mp ho
    exact ⟨⟨k, hk⟩, rfl⟩

section
variable (i : Fin (b.build sort names unresolved).len)

theorem out_build :
    (b.build sort names unresolved).Out i =
      resolvedRun (sort.sort b.objects) b.rawEdges ((sort.sort b.objects).get i) := by
  have hi : i.val < (resolveEdges (sort.sort b.objects) b.rawEdges).length := by
    rw [resolveEdges, length_map]
    exact i.isLt
  have hslice : (b.build sort names unresolved).Out i =
      (resolveEdges (sort.sort b.objects) b.rawEdges)[i.val] := by
    change (((resolveEdges (sort.sort b.objects) b.rawEdges).flatten.drop
      (((resolveEdges (sort.sort b.objects) b.rawEdges).take i.val).map length).sum).take
      ((((resolveEdges (sort.sort b.objects) b.rawEdges).take (i.val + 1)).map length).sum -
        (((resolveEdges (sort.sort b.objects) b.rawEdges).take i.val).map length).sum)) = _
    rw [map_take, map_take, drop_sum_flatten, drop_eq_getElem_cons hi, flatten_cons, take_add_one]
    simp [getElem?_eq_getElem hi]
  rw [hslice]
  exact getElem_map _

theorem shows_get : b.Shows (b.build sort names unresolved) i ((sort.sort b.objects).get i) where
  id := rfl
  shallow := rfl
  cls := rfl
  out := by
    rw [out_build]
    refine (map_filterMap_searchID (sortedIDs_mono sort b) _).trans ?_
    congr 1
    funext r
    exact decide_eq_decide.mpr (mem_sortedIDs sort b r)

theorem exists_object : ∃ o ∈ b.objects, b.Shows (b.build sort names unresolved) i o :=
  ⟨_, sort.mem_sort.mp (get_mem _ _), shows_get sort names unresolved b i⟩

end

theorem exists_index {o : RawObject} (ho : o ∈ b.objects) : ∃ i, b.Shows (b.build sort names unresolved) i o := by
  obtain ⟨k, hk, rfl⟩ := mem_iff_getElem.mp (sort.mem_sort.mpr ho)
  exact ⟨⟨k, hk⟩, shows_get sort names unresolved b ⟨k, hk⟩⟩

end GraphBuilder
end Spectra.Heap
