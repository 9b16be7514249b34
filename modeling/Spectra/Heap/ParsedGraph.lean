import Spectra.Heap.GraphShows

/-! What every graph of the parser satisfies, whatever the stream. -/
namespace Spectra.Heap
open Library

structure ObjectGraph.WellFormed (g : ObjectGraph) : Prop where
  outStart_zero : g.outStart 0 = 0
  shallow_nonneg : ∀ i, 0 ≤ g.shallow i
  gcRoots_sorted : g.gcRoots.Pairwise fun a b => a.object ≤ b.object
  mem_roots : ∀ i, i ∈ g.roots ↔ ∃ r ∈ g.gcRoots, r.object = i

section
variable {w : IdSize} {all L : IdMap ClassLayout} {n : Node}

theorem node_shallow_nonneg {r : SubRecord} (h : r.node w L = some n) : 0 ≤ n.shallow := by
  cases r with
  | root | heapDumpInfo => cases h
  | classDump =>
    cases h
    exact le_rfl
  | instanceDump objID classID fields =>
    rw [SubRecord.node] at h
    split at h
    · cases h
      exact Int.natCast_nonneg _
    · cases h
      exact Int.natCast_nonneg _
  | objectArrayDump objID arrayClassID elems | primArrayDump objID numElems elemType =>
    cases h
    exact add_nonneg (by decide) (mul_nonneg (Int.natCast_nonneg _) (Int.natCast_nonneg _))

private theorem finalNode_shallow_nonneg {r : SubRecord} (h : r.finalNode w all L = some n) : 0 ≤ n.shallow := by
  rw [SubRecord.finalNode] at h
  split at h
  · obtain ⟨n', hn', rfl⟩ := Option.map_eq_some_iff.mp h
    rw [resolveNode]
    split
    · exact Int.natCast_nonneg _
    · exact (node_shallow_nonneg hn')
  · exact node_shallow_nonneg h

private theorem finalNodes_shallow_nonneg {subs : List SubRecord}
    (h : n ∈ finalNodes w all L subs) : 0 ≤ n.shallow := by
  induction subs generalizing L with
  | nil => cases h
  | cons r subs ih =>
    rcases List.mem_append.mp h with h | h
    · exact finalNode_shallow_nonneg (Option.mem_toList.mp h)
    · exact ih h

end

theorem wellFormed_of_parseObjectGraph {lim : GraphLimits} {sort : SliceSort RawObject.id}
    {bs : List UInt8} {g : ObjectGraph} (h : parseObjectGraph lim sort bs = .ok g) : g.WellFormed := by
  obtain ⟨d, _, _, hacc, rfl⟩ := parseObjectGraph_ok h
  have hread : (d.graphState lim).Reading lim d.idSize d.subRecords :=
    GraphState.reading_records d.records hacc.err
  refine ⟨rfl, fun i => ?_, (SliceSort.stable GCRoot.object).sorted _, fun i => ?_⟩
  · obtain ⟨o, ho, hi⟩ := GraphBuilder.exists_object sort _ _ _ i
    have hmem : (((d.graphState lim).resolved lim d.idSize).node o).bare ∈
        (finalNodes d.idSize (layoutsOf d.subRecords) ∅ d.subRecords).map Node.bare := by
      rw [← hread.resolved_bare]
      exact List.mem_map_of_mem (List.mem_map_of_mem ho)
    obtain ⟨n, hn, heq⟩ := List.mem_map.mp hmem
    have hshallow : n.shallow = o.shallow := congrArg Node.shallow heq
    have hnonneg := finalNodes_shallow_nonneg hn
    rw [hshallow, ← hi.shallow] at hnonneg
    exact hnonneg
  · refine mem_roots_build.trans ⟨?_, ?_⟩
    · rintro ⟨kind, thread, hr⟩
      exact ⟨_, hr, rfl⟩
    · rintro ⟨⟨_, kind, thread⟩, hr, rfl⟩
      exact ⟨kind, thread, hr⟩

theorem listGraph_wellFormed : listGraph.WellFormed where
  outStart_zero := rfl
  shallow_nonneg := by decide
  gcRoots_sorted := by decide
  mem_roots := by decide

end Spectra.Heap
