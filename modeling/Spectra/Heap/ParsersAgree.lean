import Spectra.Heap.Dominators
import Spectra.Heap.ParserRecords
import Spectra.Heap.HistogramTotals
import Spectra.Heap.GraphReading

/-! The two parsers agree on what an accepted dump holds. -/
namespace Spectra.Heap
open Library Reader List RawObject Dump HprofState

def SubRecord.isClassDump : SubRecord → Bool
  | .classDump _ _ _ _ _ _ => true
  | _ => false

open SubRecord

/-- The class of every INSTANCE_DUMP has exactly one CLASS_DUMP. -/
def OneClassDump (subs : List SubRecord) : Prop :=
  ∀ objID c fields, .instanceDump objID c fields ∈ subs → (classDumpsOf c subs).length = 1

section
variable {w : IdSize}

/-- The histogram knows the instance sizes of the layouts. -/
theorem classInstSize_records (records : List Record) (c : ℕ) :
    (records.foldl (applyRecord w) newHPROFState).classInstSize[c]? =
      (layoutsOf (records.flatMap Record.subRecords))[c]?.map ClassLayout.instSize := by
  have hnew : ∀ c : ℕ, newHPROFState.classInstSize[c]? =
      (layoutsOf [])[c]?.map ClassLayout.instSize := by
    rw [newHPROFState, layoutsOf]
    simp
  refine foldl_inv w (fun subs st => ∀ c : ℕ, st.classInstSize[c]? = (layoutsOf subs)[c]?.map ClassLayout.instSize)
    (fun _ _ _ _ h => h) ?_ records hnew c
  intro subs st r h c
  rw [layoutsOf, foldl_append]
  cases r with
  | classDump classObjID superID loaderID instSize refs types =>
    simp only [apply, foldl_cons, foldl_nil, addLayout, getElem?_insert_eq, h]
    split <;> rfl
  | _ => exact h c

end

section
variable {w : IdSize}

def instSizeIn (L : IdMap ClassLayout) (c : ℕ) : ℤ := (L[c]?.map ClassLayout.instSize).getD 0

private theorem shallow_finalNode {pre subs : List SubRecord} {r : SubRecord} (hone : OneClassDump (pre ++ r :: subs)) :
    ((r.finalNode w (layoutsOf (pre ++ r :: subs)) (layoutsOf pre)).toList.map Node.shallow).sum =
      r.size w (instSizeIn (layoutsOf (pre ++ r :: subs))) := by
  cases r with
  | instanceDump objID c fields =>
    have hlen := hone objID c fields (by simp)
    cases hl : settled w (layoutsOf pre) c fields with
    | some l =>
      have hall := layout_of_one hlen (Option.filter_eq_some_iff.mp hl).1
      rw [finalNode_settled hl]
      simp [size, tally, instSizeIn, hall]
    | none =>
      obtain ⟨l, hdump⟩ := length_eq_one_iff.mp hlen
      have hall : (layoutsOf (pre ++ .instanceDump objID c fields :: subs))[c]? = some l := by
        rw [getElem?_layoutsOf, hdump]
        rfl
      rw [finalNode_deferred hl]
      simp [size, tally, instSizeIn, resolveNode, hall]
  | _ => simp [finalNode, deferred, node, size, tally, arraySize, primArraySize]

private theorem sum_finalNodes (pre : List SubRecord) {subs all : List SubRecord} (hall : pre ++ subs = all)
    (hone : OneClassDump all) :
    ((finalNodes w (layoutsOf all) (layoutsOf pre) subs).map Node.shallow).sum =
      (subs.map (size w (instSizeIn (layoutsOf all)))).sum := by
  induction subs generalizing pre with
  | nil => rfl
  | cons r subs ih =>
    rw [finalNodes, map_append, sum_append, map_cons, sum_cons,
      addLayout_layoutsOf, ih (pre ++ [r]) (by rw [append_assoc]; exact hall)]
    subst hall
    rw [shallow_finalNode hone]

private theorem length_finalNodes (all L : IdMap ClassLayout) (subs : List SubRecord) :
    ((finalNodes w all L subs).length : ℤ) = (subs.map instances).sum + subs.countP isClassDump := by
  induction subs generalizing L with
  | nil => rfl
  | cons r subs ih =>
    have hr : ((r.finalNode w all L).toList.length : ℤ) =
        r.instances + if r.isClassDump then 1 else 0 := by
      cases r with
      | instanceDump objID c fields =>
        cases hl : settled w L c fields with
        | some l =>
          rw [finalNode_settled hl]
          rfl
        | none =>
          rw [finalNode_deferred hl]
          rfl
      | _ => rfl
    rw [finalNodes, length_append, Nat.cast_add, ih, hr, countP_cons, map_cons, sum_cons]
    push_cast
    ring

/-- The first number that `ComputeRetained` reports, from the objects of the builder. -/
theorem totalShallowBytes_build (sort : SliceSort RawObject.id) (names : ClassKey → String)
    (unresolved : ℕ) (b : GraphBuilder) :
    (computeRetained (b.build sort names unresolved)).totalShallowBytes = (b.nodes.map Node.shallow).sum := by
  have hfold (l : List ℤ) (z : ℤ) : l.foldl (fun total x => total + x) z = z + l.sum := by
    induction l generalizing z with
    | nil => simp
    | cons x l ih => rw [foldl_cons, ih, sum_cons, add_assoc]
  have hsort : ((sort.sort b.objects).map shallow).sum =
      (b.objects.map shallow).sum := ((sort.perm _).map _).sum_eq
  have hloop := hfold ((sort.sort b.objects).map shallow) 0
  rw [zero_add, hsort] at hloop
  rw [GraphBuilder.nodes, map_map]
  refine Eq.trans ?_ hloop
  change ((finRange (sort.sort b.objects).length).drop 0).foldl
    (fun total i => total + (sort.sort b.objects)[i].shallow) 0 = _
  have hmap : (finRange (sort.sort b.objects).length).map
      (fun i => (sort.sort b.objects)[i].shallow) =
      (sort.sort b.objects).map shallow := by
    apply ext_getElem
    · simp
    · simp
  rw [drop_zero, ← hmap, foldl_map]

end

/-- A stream that the graph parser accepts is accepted by the histogram parser; where the class
of every instance has one CLASS_DUMP, the totals are the same. -/
theorem parsers_agree (lim : GraphLimits) (sort : SliceSort RawObject.id) (rt : HistogramRuntime)
    {bs : List UInt8} {g : ObjectGraph} (hone : ∀ d, Dump.ofBytes bs = .ok d → OneClassDump d.subRecords)
    (hg : parseObjectGraph lim sort bs = .ok g) :
    ∃ d h, Dump.ofBytes bs = .ok d ∧ parseHPROF rt bs = .ok h ∧
      (computeRetained g).totalShallowBytes = h.total.bytes ∧
      (g.len : ℤ) - d.subRecords.countP SubRecord.isClassDump = h.total.instances := by
  obtain ⟨d, rest, hdec, ⟨herr, _⟩, rfl⟩ := parseObjectGraph_ok hg
  obtain ⟨st, hst, rfl⟩ := readHPROF_follows bs d rest hdec
  have hd : ofBytes bs = .ok d := by rw [ofBytes, hdec]; rfl
  have hone := hone d hd
  have hgraph := GraphState.reading_records d.records herr
  have hhist := tallied_records d.idSize d.records
  have hbare := hgraph.resolved_bare
  refine ⟨d, _, hd, by rw [parseHPROF, hst]; rfl, ?_, ?_⟩
  · have hsum := congrArg (fun ns => (ns.map Node.shallow).sum) hbare
    simp only [map_map] at hsum
    refine (totalShallowBytes_build sort _ _ _).trans (hsum.trans ?_)
    have hsizes : instSizeIn (layoutsOf d.subRecords) = fun c : ℕ =>
        (((d.records.foldl (.applyRecord d.idSize)
          newHPROFState).classInstSize[c]?.getD 0 : ℕ) : ℤ) := by
      funext c
      rw [classInstSize_records]
      unfold instSizeIn subRecords
      cases (layoutsOf (d.records.flatMap Record.subRecords))[c]? <;> rfl
    rw [hhist.total_bytes, ← hsizes]
    exact sum_finalNodes [] rfl hone
  · have hlen := congrArg length hbare
    rw [length_map, length_map, GraphBuilder.length_nodes] at hlen
    have hcount := length_finalNodes (w := d.idSize) (layoutsOf d.subRecords) ∅ d.subRecords
    have hsort := (sort.perm ((d.graphState lim).resolved lim d.idSize).objects).length_eq
    have hinst := hhist.total_instances rt
    rw [← subRecords] at hlen
    rw [← hlen, ← graphState, ← hsort] at hcount
    rw [hinst]
    exact sub_eq_of_eq_add hcount

/-- A dump of one instance of class 1 that precedes its CLASS_DUMP, with 4-byte identifiers. -/
def instanceFirstDump : List UInt8 :=
  emptyDump ++ recordBytes 0x1C (instanceDumpBytes 16 1 [16] ++ classDumpBytes 1 24 [2])

private theorem ofBytes_instanceFirstDump : ofBytes instanceFirstDump =
    .ok ⟨.four, [.heapDump [.instanceDump 16 1 [0, 0, 0, 16], .classDump 1 0 0 24 [] [2]]]⟩ := by
  decide +kernel

theorem parsers_agree_instanceFirst :
    ∃ g d h, parseObjectGraph defaultLimits default instanceFirstDump = .ok g ∧
      Dump.ofBytes instanceFirstDump = .ok d ∧ parseHPROF default instanceFirstDump = .ok h ∧
      (computeRetained g).totalShallowBytes = h.total.bytes ∧
      (g.len : ℤ) - d.subRecords.countP SubRecord.isClassDump = h.total.instances := by
  have hok : (parseObjectGraph defaultLimits default instanceFirstDump).isOk = true := by
    decide +kernel
  cases hg : parseObjectGraph defaultLimits default instanceFirstDump with
  | error e =>
    rw [hg] at hok
    cases hok
  | ok g =>
    obtain ⟨d, h, hd, hh, hbytes, hcount⟩ := parsers_agree defaultLimits default default (by
      intro d hd
      rw [ofBytes_instanceFirstDump] at hd
      cases hd
      intro objID c fields hmem
      simp [subRecords, Record.subRecords] at hmem
      obtain ⟨rfl, rfl, rfl⟩ := hmem
      decide) hg
    exact ⟨g, d, h, rfl, hd, hh, hbytes, hcount⟩

end Spectra.Heap
