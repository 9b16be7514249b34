import Spectra.Heap.ClassTable
import Spectra.Heap.GraphOrder

/-! The graph of a dump in terms of its sub-records alone. -/
namespace Spectra.Heap
open Library List GraphBuilder

/-- The name of an object: for a class object that the dump uses as a class, that class. -/
def displayOf (names : ClassKey → String) (keys : List ClassKey) (n : Node) : String :=
  if n.id ≠ 0 ∧ keyName names n.key = javaLangClass ∧ ⟨n.id, 0⟩ ∈ keys then
    "class " ++ keyName names ⟨n.id, 0⟩
  else keyName names n.key

def threadOf (threads : IdMap ℕ) (kind : RootKind) (serial : ℕ) : ℕ :=
  if hasThreadSerial kind ∧ kind ≠ .threadObject then threads[serial]?.getD 0 else 0

/-- An instance whose class has no layout. -/
def SubRecord.unresolved (all : IdMap ClassLayout) : SubRecord → Bool
  | .instanceDump _ c _ => all[c]?.isNone
  | _ => false

open SubRecord

def lastNodes (w : IdSize) (subs : List SubRecord) : List Node :=
  subs.filterMap (SubRecord.lastNode w (layoutsOf subs))

/-- The graph has the objects of the sub-records, with their names, sizes, references and roots. -/
structure ObjectGraph.ShowsDump (w : IdSize) (names : ClassKey → String) (subs : List SubRecord)
    (g : ObjectGraph) : Prop where
  ids : StrictMono g.ids
  object : ∀ i, ∃ n ∈ lastNodes w subs, g.ids i = n.id ∧ g.shallow i = n.shallow ∧
    g.ClassName i = keyName names n.key ∧
    g.DisplayName i = displayOf names (subs.flatMap SubRecord.classKeys) n ∧
    (g.Out i).map g.ids = n.refs.filter fun r => decide (r ∈ subs.filterMap SubRecord.objectID)
  index : ∀ id ∈ subs.filterMap SubRecord.objectID, ∃ i, g.ids i = id
  gcRoot : ∀ i kind thread, ⟨i, kind, thread⟩ ∈ g.gcRoots ↔ g.ids i ≠ 0 ∧
    ∃ serial, .root kind (g.ids i) serial ∈ subs ∧
      thread = threadOf (threadsOf subs) kind serial
  root : ∀ i, i ∈ g.roots ↔ g.ids i ≠ 0 ∧ ∃ kind serial, .root kind (g.ids i) serial ∈ subs
  unresolved : g.unresolved = subs.countP (SubRecord.unresolved (layoutsOf subs))

section
variable {n : ℕ}

private theorem mem_rawRoots {subs : List SubRecord} {r : RawRoot} :
    r ∈ subs.filterMap rawRoot ↔ r.id ≠ 0 ∧ .root r.kind r.id r.threadSerial ∈ subs := by
  rw [mem_filterMap]
  constructor
  · rintro ⟨s, hs, hr⟩
    cases s with
    | root kind objID serial =>
      rw [rawRoot] at hr
      split at hr
      · cases hr
      · rename_i hid
        cases hr
        exact ⟨hid, hs⟩
    | _ => cases hr
  · rintro ⟨hid, hs⟩
    exact ⟨_, hs, if_neg hid⟩

end

section
variable {sort : SliceSort RawObject.id} {names : ClassKey → String} {unresolved : ℕ}
  {b : GraphBuilder}

private theorem mem_resolveRoots (hids : (b.objects.map RawObject.id).Nodup)
    {i : Fin (sort.sort b.objects).length} {kind : RootKind} {thread : ℕ} :
    ⟨i, kind, thread⟩ ∈ resolveRoots (sort.sort b.objects) b.roots b.threadBySerial ↔
      ∃ serial, ⟨sortedIDs (sort.sort b.objects) i, kind, serial⟩ ∈ b.roots ∧
        thread = threadOf b.threadBySerial kind serial := by
  rw [resolveRoots, mem_filterMap]
  constructor
  · rintro ⟨⟨id, kind', serial⟩, hr, h⟩
    obtain ⟨j, hj, heq⟩ := Option.map_eq_some_iff.mp h
    cases heq
    obtain rfl := searchID_sound hj
    exact ⟨serial, hr, rfl⟩
  · rintro ⟨serial, hr, rfl⟩
    refine ⟨_, hr, ?_⟩
    rw [(searchID_iff sort hids _ i).mpr rfl]
    rfl

theorem mem_roots_build {i : Fin (b.build sort names unresolved).len} :
    i ∈ (b.build sort names unresolved).roots ↔
      ∃ kind thread, ⟨i, kind, thread⟩ ∈ (b.build sort names unresolved).gcRoots := by
  have hsort : ∀ r, r ∈ (b.build sort names unresolved).gcRoots ↔
      r ∈ resolveRoots (sort.sort b.objects) b.roots b.threadBySerial :=
    fun _ => (SliceSort.stable GCRoot.object).mem_sort
  refine ((Library.foldl_addNew _ []).2 i).trans ?_
  simp only [hsort]
  constructor
  · intro h
    obtain ⟨⟨_, kind, thread⟩, hr, rfl⟩ := mem_map.mp (h.resolve_left not_mem_nil)
    exact ⟨kind, thread, hr⟩
  · rintro ⟨kind, thread, hr⟩
    exact .inr (mem_map.mpr ⟨_, hr, rfl⟩)

private theorem sortedIDs_strictMono (hids : (b.objects.map RawObject.id).Nodup) :
    StrictMono (sortedIDs (sort.sort b.objects)) := by
  refine (sortedIDs_mono sort b).strictMono_of_injective fun i j hij => ?_
  have hi := (searchID_iff sort hids _ i).mpr hij
  have hj := (searchID_iff sort hids _ j).mpr rfl
  exact Option.some.inj (hi.symm.trans hj)

end

variable {lim : GraphLimits} {d : Dump}

/-- Where the layouts are acyclic and no id repeats, the graph of an accepted dump whose references
fit the limit shows the dump. -/
theorem showsDump_finalize (sort : SliceSort RawObject.id)
    (herr : (d.graphState lim).b.err = none) (hfit : d.DeferredFit lim)
    (hids : DistinctIDs d.subRecords) (hacyclic : Acyclic (layoutsOf d.subRecords)) :
    ((d.graphState lim).finalize lim d.idSize sort).ShowsDump d.idSize (d.graphState lim).className d.subRecords := by
  have hread : (d.graphState lim).Reading lim d.idSize d.subRecords :=
    GraphState.reading_records d.records herr
  have hnodes : ((d.graphState lim).resolved lim d.idSize).nodes =
      lastNodes d.idSize d.subRecords := by
    rw [hread.resolved_nodes ((hread.deferredFit_iff herr).mp hfit)]
    exact finalNodes_eq hids hacyclic
  have hobjs : ((d.graphState lim).resolved lim d.idSize).objects.map RawObject.id =
      d.subRecords.filterMap objectID := by
    rw [← map_id_finalNodes ∅ d.subRecords, finalNodes_eq hids hacyclic]
    refine Eq.trans ?_ (congrArg (map Node.id) hnodes)
    rw [nodes, map_map]
    rfl
  have hnodup : (((d.graphState lim).resolved lim d.idSize).objects.map RawObject.id).Nodup :=
    hobjs ▸ hids
  obtain ⟨hroots, hclasses⟩ := GraphState.resolved_same lim d.idSize (d.graphState lim)
  have htable : Tabled (d.subRecords.flatMap classKeys)
      ((d.graphState lim).resolved lim d.idSize).classes := by
    rw [hclasses]
    exact GraphState.tabled_records d.records
  have hrawRoots := hroots.roots.trans hread.roots
  have hthreads := hroots.threadBySerial.trans hread.threads
  have hgcRoot : ∀ i kind thread,
      ⟨i, kind, thread⟩ ∈ ((d.graphState lim).finalize lim d.idSize sort).gcRoots ↔
        ((d.graphState lim).finalize lim d.idSize sort).ids i ≠ 0 ∧ ∃ serial,
          .root kind (((d.graphState lim).finalize lim d.idSize sort).ids i) serial ∈
            d.subRecords ∧ thread = threadOf (threadsOf d.subRecords) kind serial := by
    intro i kind thread
    refine ((SliceSort.stable GCRoot.object).mem_sort.trans (mem_resolveRoots hnodup)).trans ?_
    rw [hrawRoots, hthreads]
    simp only [mem_rawRoots]
    constructor
    · rintro ⟨serial, ⟨h0, hmem⟩, rfl⟩
      exact ⟨h0, serial, hmem, rfl⟩
    · rintro ⟨h0, serial, hmem, rfl⟩
      exact ⟨serial, ⟨h0, hmem⟩, rfl⟩
  refine ⟨sortedIDs_strictMono hnodup, ?_, ?_, hgcRoot, ?_, ?_⟩
  · intro i
    obtain ⟨o, ho, hi⟩ := exists_object sort _ _ _ i
    refine ⟨((d.graphState lim).resolved lim d.idSize).node o, ?_, hi.id, hi.shallow,
      className_build htable i ho hi,
      displayName_build htable hnodup i ho hi, ?_⟩
    · rw [← hnodes]
      exact mem_map_of_mem ho
    · rw [← hobjs]
      exact hi.out
  · intro id hid
    rw [← hobjs] at hid
    exact (mem_sortedIDs sort _ id).mpr hid
  · intro i
    refine mem_roots_build.trans ⟨?_, ?_⟩
    · rintro ⟨kind, thread, h⟩
      obtain ⟨h0, serial, hmem, _⟩ := (hgcRoot i kind thread).mp h
      exact ⟨h0, kind, serial, hmem⟩
    · rintro ⟨h0, kind, serial, hmem⟩
      exact ⟨kind, _, (hgcRoot i kind _).mpr ⟨h0, serial, hmem, rfl⟩⟩
  · change (d.graphState lim).pending.countP _ = _
    rw [hread.layouts, hread.pending]
    exact countP_readPending (nil_append d.subRecords) hids 0

end Spectra.Heap
