import Spectra.Heap.GraphAccepts
import Spectra.Heap.GraphShows

/-! Two streams with the same records in another order give the same graph. -/
namespace Spectra.Heap
open Library List GraphState GraphBuilder

def Record.body (id : ℕ) : Record → Option String
  | .string i body => if i = id then some body else none
  | _ => none

open Record

def Record.nameID (classObjID : ℕ) : Record → Option ℕ
  | .loadClass c nameID => if c = classObjID then some nameID else none
  | _ => none

/-- The same sub-records in any order and partition, and for every id the same STRING and LOAD_CLASS
records wherever they stand. -/
structure Dump.SameRecords (d d' : Dump) : Prop where
  idSize : d.idSize = d'.idSize
  subRecords : d.subRecords.Perm d'.subRecords
  bodies : ∀ id, d.records.filterMap (Record.body id) = d'.records.filterMap (Record.body id)
  nameIDs : ∀ c, d.records.filterMap (Record.nameID c) = d'.records.filterMap (Record.nameID c)

open Dump

/-- A serial number stands for one thread. -/
def ThreadsDistinct (subs : List SubRecord) : Prop :=
  ∀ serial o o', .root .threadObject o serial ∈ subs → .root .threadObject o' serial ∈ subs →
    o ≠ 0 → o' ≠ 0 → o = o'

/-- The references of an object, null ones included. -/
def SubRecord.refs (w : IdSize) (all : IdMap ClassLayout) : SubRecord → List ℕ
  | .classDump _ superID loaderID _ refs _ => superID :: loaderID :: refs
  | .instanceDump _ classID fields =>
    if all[classID]?.isSome then (instanceRefs w all classID fields).1 else []
  | .objectArrayDump _ _ elems => elems
  | _ => []

open SubRecord

/-- All references together, null ones included, are within the edge limit. -/
def Dump.ReferencesFit (lim : GraphLimits) (d : Dump) : Prop :=
  (d.subRecords.map fun r => (r.refs d.idSize (layoutsOf d.subRecords)).length).sum ≤
    lim.maxGraphEdges

instance (lim : GraphLimits) (d : Dump) : Decidable (d.ReferencesFit lim) :=
  inferInstanceAs (Decidable (_ ≤ _))

/-- The same objects, and for every object the same names, size, references and roots. -/
structure ObjectGraph.SameAs (g g' : ObjectGraph) : Prop where
  ids : List.ofFn g.ids = List.ofFn g'.ids
  object : ∀ i j, g.ids i = g'.ids j → g.ClassName i = g'.ClassName j ∧
    g.DisplayName i = g'.DisplayName j ∧ g.shallow i = g'.shallow j ∧
    (g.Out i).map g.ids = (g'.Out j).map g'.ids
  gcRoot : ∀ i j, g.ids i = g'.ids j → ∀ kind thread,
    ⟨i, kind, thread⟩ ∈ g.gcRoots ↔ ⟨j, kind, thread⟩ ∈ g'.gcRoots
  root : ∀ i j, g.ids i = g'.ids j → (i ∈ g.roots ↔ j ∈ g'.roots)
  unresolved : g.unresolved = g'.unresolved

section
variable (lim : GraphLimits)

private theorem foldl_apply_names (w : IdSize) (st : GraphState) (subs : List SubRecord) :
    (subs.foldl (apply lim w) st).strings = st.strings ∧
      (subs.foldl (apply lim w) st).classNameID = st.classNameID := by
  induction subs generalizing st with
  | nil => exact ⟨rfl, rfl⟩
  | cons r subs ih =>
    obtain ⟨-, hs, hn⟩ := apply_rest lim w st r
    exact ⟨(ih _).1.trans hs, (ih _).2.trans hn⟩

theorem names_records (w : IdSize) (records : List Record) (st : GraphState) (id : ℕ) :
    (records.foldl (applyRecord lim w) st).strings[id]? =
        ((records.filterMap (body id)).getLast?.or st.strings[id]?) ∧
      (records.foldl (applyRecord lim w) st).classNameID[id]? =
        ((records.filterMap (nameID id)).getLast?.or st.classNameID[id]?) := by
  induction records generalizing st with
  | nil => exact ⟨rfl, rfl⟩
  | cons r records ih =>
    rw [foldl_cons, (ih _).1, (ih _).2]
    cases r with
    | string i body =>
      refine ⟨?_, by simp [applyRecord, Record.apply, nameID]⟩
      by_cases hi : i = id
      · simp [applyRecord, Record.apply, Record.body, hi, getLast?_cons]
      · simp [applyRecord, Record.apply, Record.body, hi, getElem?_insert_eq]
    | loadClass c nameID =>
      refine ⟨by simp [applyRecord, Record.apply, body], ?_⟩
      by_cases hc : c = id
      · simp [applyRecord, Record.apply, Record.nameID, hc, getLast?_cons]
      · simp [applyRecord, Record.apply, Record.nameID, hc, getElem?_insert_eq]
    | heapDump subs =>
      obtain ⟨hs, hn⟩ := foldl_apply_names lim w st subs
      simp [applyRecord, Record.apply, body, nameID, hs, hn]
    | other => exact ⟨rfl, rfl⟩

theorem Dump.SameRecords.className {d d' : Dump} (h : d.SameRecords d') :
    (d.graphState lim).className = (d'.graphState lim).className := by
  have hstrings : (d.graphState lim).strings = (d'.graphState lim).strings := by
    apply Std.ExtTreeMap.ext_getElem?
    intro id
    unfold graphState
    rw [(names_records lim _ _ _ id).1, (names_records lim _ _ _ id).1, h.bodies]
    rfl
  have hnames : (d.graphState lim).classNameID = (d'.graphState lim).classNameID := by
    apply Std.ExtTreeMap.ext_getElem?
    intro id
    unfold graphState
    rw [(names_records lim _ _ _ id).2, (names_records lim _ _ _ id).2, h.nameIDs]
    rfl
  unfold GraphState.className
  rw [hstrings, hnames]

end

section

theorem getElem?_foldl_addThread (threads : IdMap ℕ) (subs : List SubRecord) (serial : ℕ) :
    (subs.foldl addThread threads)[serial]? = threads[serial]? ∧
        (∀ o, .root .threadObject o serial ∈ subs → o = 0) ∨
      ∃ o, o ≠ 0 ∧ .root .threadObject o serial ∈ subs ∧ (subs.foldl addThread threads)[serial]? = some o := by
  induction subs generalizing threads with
  | nil => exact .inl ⟨rfl, by simp⟩
  | cons r subs ih =>
    obtain ⟨hrest, hnone⟩ | ⟨o, h0, hmem, hrest⟩ := ih (r.addThread threads)
    · rw [foldl_cons, hrest]
      cases r with
      | root kind objID s =>
        by_cases hr : objID ≠ 0 ∧ kind = .threadObject
        · obtain ⟨h0, rfl⟩ := hr
          by_cases hs : s = serial
          · subst hs
            simp [addThread, h0]
          · refine .inl ⟨by simp [addThread, h0, getElem?_insert_eq, hs], ?_⟩
            intro o ho
            rcases mem_cons.mp ho with heq | ho
            · cases heq
              exact absurd rfl hs
            · exact hnone o ho
        · refine .inl ⟨by rw [addThread, if_neg hr], ?_⟩
          intro o ho
          rcases mem_cons.mp ho with heq | ho
          · cases heq
            by_contra h0
            exact hr ⟨h0, rfl⟩
          · exact hnone o ho
      | _ =>
        refine .inl ⟨rfl, fun o ho => hnone o ?_⟩
        simpa using ho
    · exact .inr ⟨o, h0, .tail _ hmem, hrest⟩

private theorem threadsOf_perm {subs subs' : List SubRecord} (hthreads : ThreadsDistinct subs)
    (hperm : subs.Perm subs') : threadsOf subs = threadsOf subs' := by
  apply Std.ExtTreeMap.ext_getElem?
  intro serial
  unfold threadsOf
  obtain ⟨h, hnone⟩ | ⟨o, h0, hmem, h⟩ := getElem?_foldl_addThread ∅ subs serial
  · obtain ⟨h', _⟩ | ⟨o, h0, hmem, _⟩ := getElem?_foldl_addThread ∅ subs' serial
    · rw [h, h']
    · exact absurd (hnone o (hperm.mem_iff.mpr hmem)) h0
  · obtain ⟨_, hnone⟩ | ⟨o', h0', hmem', h'⟩ := getElem?_foldl_addThread ∅ subs' serial
    · exact absurd (hnone o (hperm.mem_iff.mp hmem)) h0
    · rw [h, h', hthreads serial o o' hmem (hperm.mem_iff.mpr hmem') h0 h0']

end

section
variable {w : IdSize} {names : ClassKey → String} {subs subs' : List SubRecord}
  {g g' : ObjectGraph}

theorem map_id_lastNodes (subs : List SubRecord) : (lastNodes w subs).map Node.id = subs.filterMap objectID := by
  rw [lastNodes, map_filterMap]
  congr 1
  funext r
  cases r with
  | instanceDump objID c fields =>
    rw [lastNode, resolveNode]
    cases (layoutsOf subs)[c]? <;> rfl
  | _ => rfl

variable (hg : g.ShowsDump w names subs) (hg' : g'.ShowsDump w names subs') (hperm : subs.Perm subs')
include hg hg' hperm

private theorem ids_eq : ofFn g.ids = ofFn g'.ids := by
  have hmem : ∀ {g : ObjectGraph} {subs : List SubRecord}, g.ShowsDump w names subs →
      ∀ id, id ∈ ofFn g.ids ↔ id ∈ subs.filterMap objectID := by
    intro g subs hg id
    rw [mem_ofFn]
    refine ⟨?_, hg.index id⟩
    rintro ⟨i, rfl⟩
    obtain ⟨n, hn, hid, _⟩ := hg.object i
    rw [hid, ← map_id_lastNodes (w := w)]
    exact mem_map_of_mem hn
  have hsorted : ∀ {g : ObjectGraph}, StrictMono g.ids → (ofFn g.ids).Pairwise (· < ·) :=
    fun h => pairwise_ofFn.mpr fun _ _ hij => h hij
  refine List.Perm.eq_of_pairwise' (hsorted hg.ids) (hsorted hg'.ids)
    ((perm_ext_iff_of_nodup ?_ ?_).mpr fun id => ?_)
  · exact nodup_ofFn.mpr hg.ids.injective
  · exact nodup_ofFn.mpr hg'.ids.injective
  · rw [hmem hg, hmem hg', (hperm.filterMap _).mem_iff]

/-- What shows the same sub-records is the same. -/
theorem ObjectGraph.ShowsDump.sameAs (hids : DistinctIDs subs)
    (hthreads : ThreadsDistinct subs) : g.SameAs g' where
  ids := ids_eq hg hg' hperm
  object i j hij := by
    obtain ⟨n, hn, hid, hshallow, hclass, hdisplay, hout⟩ := hg.object i
    obtain ⟨n', hn', hid', hshallow', hclass', hdisplay', hout'⟩ := hg'.object j
    rw [lastNodes, ← layoutsOf_perm hids hperm] at hn'
    obtain rfl := inj_on_of_nodup_map (by rw [map_id_lastNodes]; exact hids) hn ((hperm.filterMap _).mem_iff.mpr hn')
      (hid.symm.trans (hij.trans hid'))
    refine ⟨hclass.trans hclass'.symm, ?_, hshallow.trans hshallow'.symm, ?_⟩
    · rw [hdisplay, hdisplay', displayOf, displayOf]
      simp only [(hperm.flatMap_right classKeys).mem_iff]
    · rw [hout, hout']
      simp [(hperm.filterMap objectID).mem_iff]
  gcRoot i j hij kind thread := by
    rw [hg.gcRoot, hg'.gcRoot, hij, threadsOf_perm hthreads hperm]
    simp [hperm.mem_iff]
  root i j hij := by
    rw [hg.root, hg'.root, hij]
    simp only [hperm.mem_iff]
  unresolved := by
    rw [hg.unresolved, hg'.unresolved, layoutsOf_perm hids hperm, hperm.countP_eq]

end

section
variable {lim : GraphLimits} {w : IdSize}

theorem node_id (L : IdMap ClassLayout) (r : SubRecord) : (r.node w L).map Node.id = r.objectID := by
  cases r with
  | instanceDump objID c fields =>
    rw [SubRecord.node]
    split <;> rfl
  | _ => rfl

private theorem addObject_err {b : GraphBuilder} {k : ClassKey} {name : String} (objID : ℕ)
    (shallow : ℤ) {refs : List ℕ} (herr : b.err = none) (hobjs : b.objects.length < lim.maxGraphObjects)
    (hrefs : b.rawEdges.length + refs.length ≤ lim.maxGraphEdges) :
    ((b.classFor k name).1.addObject lim objID (b.classFor k name).2 shallow refs).1.err = none := by
  have hext := b.classFor_extends k name
  rw [GraphBuilder.addObject, if_neg (by rw [hext.objects]; omega), appendRefs]
  split
  · exact hext.err.trans herr
  · rw [if_neg]
    · exact hext.err.trans herr
    · change ¬ _ < (b.classFor k name).1.rawEdges.length + _
      rw [hext.rawEdges]
      omega

private theorem apply_err {st : GraphState} {r : SubRecord} (herr : st.b.err = none)
    (hobjs : r.objectID ≠ none → st.b.objects.length < lim.maxGraphObjects)
    (hrefs : st.b.rawEdges.length + (r.readRefs w st.layouts).length ≤ lim.maxGraphEdges) :
    (st.apply lim w r).b.err = none := by
  cases hn : r.node w st.layouts with
  | none => rw [(apply_root lim st hn).1, herr]
  | some n =>
    obtain ⟨b, name, hext, -, -, -, hb, -⟩ := apply_object lim st hn
    rw [hb]
    refine addObject_err n.id n.shallow (hext.err.trans herr) ?_ ?_
    · rw [hext.objects]
      refine hobjs fun hid => ?_
      rw [← node_id, hn] at hid
      cases hid
    · rw [hext.rawEdges]
      exact hrefs

variable {pre post : List SubRecord} {r : SubRecord}

theorem readRefs_le (hids : DistinctIDs (pre ++ r :: post)) (hacyclic : Acyclic (layoutsOf (pre ++ r :: post))) :
    (r.readRefs w (layoutsOf pre)).length ≤ (r.refs w (layoutsOf (pre ++ r :: post))).length := by
  cases r with
  | instanceDump objID c fields =>
    cases hl : settled w (layoutsOf pre) c fields with
    | some l =>
      obtain ⟨hlayout, hdone⟩ := Option.filter_eq_some_iff.mp hl
      simp only [readRefs, hl, refs]
      rw [layoutsOf_known hids c l hlayout, instanceRefs_mono hacyclic (layoutsOf_known hids) hdone]
      exact le_rfl
    | none =>
      simp only [readRefs, hl]
      exact Nat.zero_le _
  | _ => exact le_rfl

private theorem node_refs_le (n : ℕ)
    (hids : DistinctIDs (pre ++ r :: post)) (hacyclic : Acyclic (layoutsOf (pre ++ r :: post))) :
    ((r.node w (layoutsOf pre)).toList.map fun n => n.refs.length).sum +
        ((deferredRefs w (layoutsOf (pre ++ r :: post)) ((r.deferred w (layoutsOf pre)).map fun x =>
          PendingInstance.mk (some n) x.1 x.2).toList).map length).sum ≤
      (r.refs w (layoutsOf (pre ++ r :: post))).length := by
  cases r with
  | instanceDump objID c fields =>
    cases hl : settled w (layoutsOf pre) c fields with
    | some l =>
      have hle := readRefs_le (w := w) hids hacyclic
      simp only [readRefs, hl] at hle
      simp only [SubRecord.node, deferred, hl]
      exact (length_nonNull_le _).trans hle
    | none =>
      simp only [SubRecord.node, deferred, hl]
      cases hall : (layoutsOf (pre ++ .instanceDump objID c fields :: post))[c]? with
      | none => simp [deferredRefs, hall]
      | some l => simp [deferredRefs, refs, hall]
  | classDump id superID loaderID instSize refs types =>
    simpa [SubRecord.node, deferred, deferredRefs, SubRecord.refs] using
      length_nonNull_le (superID :: loaderID :: refs)
  | objectArrayDump id c elems =>
    simpa [SubRecord.node, deferred, deferredRefs, refs] using
      length_nonNull_le elems
  | _ => exact Nat.zero_le _

theorem sum_refs_le (pre : List SubRecord) {subs post all : List SubRecord}
    (hall : pre ++ (subs ++ post) = all) (n : ℕ) (hids : DistinctIDs all) (hacyclic : Acyclic (layoutsOf all)) :
    ((readNodes w (layoutsOf pre) subs).map fun n => n.refs.length).sum +
        ((deferredRefs w (layoutsOf all) (readPending w (layoutsOf pre) n subs)).map
          length).sum ≤ (subs.map fun r => (r.refs w (layoutsOf all)).length).sum := by
  induction subs generalizing pre n with
  | nil => exact le_rfl
  | cons r subs ih =>
    have ih := ih (pre ++ [r]) (by rw [append_assoc]; exact hall)
      (n + (r.node w (layoutsOf pre)).toList.length)
    subst hall
    simp only [cons_append] at hids ih ⊢
    have hr := node_refs_le (w := w) n hids hacyclic
    rw [readNodes, readPending, map_append, sum_append, deferredRefs,
      filterMap_append, map_append, sum_append, ← deferredRefs, ← deferredRefs,
      map_cons, sum_cons, addLayout_layoutsOf]
    omega

theorem Fits.of_sum {max n : ℕ} {rest : List (List ℕ)} (h : n + (rest.map length).sum ≤ max) : Fits max n rest := by
  induction rest generalizing n with
  | nil => trivial
  | cons refs rest ih =>
    rw [map_cons, sum_cons] at h
    have hle := length_nonNull_le refs
    exact ⟨by omega, ih (by omega)⟩

theorem Dump.ReferencesFit.deferredFit {d : Dump} (h : d.ReferencesFit lim)
    (hids : DistinctIDs d.subRecords) (hacyclic : Acyclic (layoutsOf d.subRecords)) : d.DeferredFit lim :=
  Fits.of_sum ((sum_refs_le [] (append_nil d.subRecords) 0 hids hacyclic).trans h)

theorem length_readNodes (L : IdMap ClassLayout) (subs : List SubRecord) :
    (readNodes w L subs).length = (subs.filterMap objectID).length := by
  induction subs generalizing L with
  | nil => rfl
  | cons r subs ih =>
    rw [readNodes, length_append, ih, filterMap_cons, ← node_id L r]
    cases r.node w L <;> simp [Nat.add_comm]

/-- Dumps with no more objects and references than the limits allow are read without error. -/
theorem Dump.ReferencesFit.err {d : Dump} (h : d.ReferencesFit lim)
    (hobjs : (d.subRecords.filterMap objectID).length ≤ lim.maxGraphObjects)
    (hids : DistinctIDs d.subRecords) (hacyclic : Acyclic (layoutsOf d.subRecords)) :
    (d.graphState lim).b.err = none := by
  have hinv := foldl_inv lim d.idSize (fun subs st => subs <+: d.subRecords →
    st.b.err = none ∧ st.Reading lim d.idSize subs) (fun _ _ _ _ h hp => ?_) ?_ d.records
    (fun _ => ⟨rfl, reading_new⟩)
  · exact (hinv prefix_rfl).1
  · obtain ⟨herr, hread⟩ := h hp
    exact ⟨herr, hread.names⟩
  · rintro subs st r ih hp
    obtain ⟨herr, hread⟩ := ih ((prefix_append subs [r]).trans hp)
    obtain ⟨post, hpost⟩ := hp
    have hall : subs ++ r :: post = d.subRecords := by
      rw [← hpost, append_assoc]
      rfl
    have herr' : (st.apply lim d.idSize r).b.err = none := by
      apply apply_err herr
      · intro hr
        obtain ⟨id, hid⟩ := Option.ne_none_iff_exists'.mp hr
        rw [← length_nodes, hread.nodes, length_readNodes]
        rw [← hall, filterMap_append, filterMap_cons_some hid, length_append, length_cons] at hobjs
        omega
      · rw [hread.edges, hread.layouts]
        have hsum := sum_refs_le (w := d.idSize) [] hall 0 hids hacyclic
        have hr := readRefs_le (w := d.idSize) (hall ▸ hids) (hall ▸ hacyclic)
        rw [Dump.ReferencesFit] at h
        rw [hall] at hr
        rw [← hall, map_append, sum_append, map_cons, sum_cons, hall] at h
        change ((readNodes d.idSize ∅ subs).map fun n => n.refs.length).sum + _ ≤ _ at hsum
        omega
    exact ⟨herr', hread.apply herr'⟩

end

/-- A stream with the records of an accepted stream in another order, in which the object ids are
distinct, superclass chains acyclic, serial numbers one thread each and the references within the
limit, is accepted and has the same graph. -/
theorem graph_order_independent (lim : GraphLimits) (sort sort' : SliceSort RawObject.id)
    {bs bs' : List UInt8} {d d' : Dump} {g : ObjectGraph} (hd : Dump.ofBytes bs = .ok d)
    (hd' : Dump.ofBytes bs' = .ok d') (hg : parseObjectGraph lim sort bs = .ok g)
    (hsame : d.SameRecords d') (hids : DistinctIDs d.subRecords)
    (hacyclic : Acyclic (layoutsOf d.subRecords)) (hthreads : ThreadsDistinct d.subRecords)
    (hfit : d.ReferencesFit lim) : ∃ g', parseObjectGraph lim sort' bs' = .ok g' ∧ g.SameAs g' := by
  obtain ⟨e, rest, hdec, hacc, rfl⟩ := parseObjectGraph_ok hg
  obtain rfl : e = d := by
    rw [ofBytes, hdec] at hd
    cases hd
    rfl
  have hread : (e.graphState lim).Reading lim e.idSize e.subRecords :=
    reading_records e.records hacc.err
  have hlayouts := layoutsOf_perm hids hsame.subRecords
  have hids' := hids.perm hsame.subRecords
  have hacyclic' : Acyclic (layoutsOf d'.subRecords) := hlayouts ▸ hacyclic
  have hfit' : d'.ReferencesFit lim := by
    unfold Dump.ReferencesFit
    rw [← hlayouts, ← hsame.idSize, ← (hsame.subRecords.map _).sum_eq]
    exact hfit
  have hobjs : (d'.subRecords.filterMap objectID).length ≤ lim.maxGraphObjects := by
    rw [← (hsame.subRecords.filterMap _).length_eq, ← length_readNodes ∅, ← hread.nodes]
    exact hread.objects_le
  have hacc' : d'.Accepted lim := by
    refine ⟨hfit'.err hobjs hids' hacyclic', fun r hr => ?_⟩
    exact hacc.fields r (hsame.subRecords.mem_iff.mpr hr)
  refine ⟨_, parseObjectGraph_accepted hd' hacc', ?_⟩
  have hshows := showsDump_finalize sort hacc.err (hfit.deferredFit hids hacyclic) hids
    hacyclic
  have hshows' : ((d'.graphState lim).finalize lim d'.idSize sort').ShowsDump e.idSize
      (e.graphState lim).className d'.subRecords := by
    rw [hsame.idSize, hsame.className lim]
    exact showsDump_finalize sort' hacc'.err (hfit'.deferredFit hids' hacyclic') hids' hacyclic'
  exact hshows.sameAs hshows' hsame.subRecords hids hthreads

/-- The sub-records of `selfReferringDump` the other way round and in two segments. -/
def classFirstDump : List UInt8 :=
  emptyDump ++ recordBytes 0x1C (classDumpBytes 1 24 [2, 2]) ++
    recordBytes 0x1C (instanceDumpBytes 16 1 [16, 16])

private theorem ofBytes_classFirstDump : ofBytes classFirstDump =
    .ok ⟨.four, [.heapDump [.classDump 1 0 0 24 [] [2, 2]],
      .heapDump [.instanceDump 16 1 [0, 0, 0, 16, 0, 0, 0, 16]]]⟩ := by
  decide +kernel

theorem acyclic_of_super_zero {subs : List SubRecord}
    (h : ∀ c superID loaderID instSize refs types,
      .classDump c superID loaderID instSize refs types ∈ subs → c ≠ 0 ∧ superID = 0) : Acyclic (layoutsOf subs) := by
  have hsuper : ∀ c d, Super (layoutsOf subs) c d → c ≠ 0 ∧ d = 0 := by
    rintro c _ ⟨l, hl, rfl⟩
    rw [getElem?_layoutsOf] at hl
    obtain ⟨r, hr, hrl⟩ := mem_filterMap.mp (mem_of_getLast? hl)
    cases r with
    | classDump id superID loaderID instSize refs types =>
      dsimp only at hrl
      split at hrl
      · rename_i hid
        cases hrl
        exact hid ▸ h id superID loaderID instSize refs types hr
      · cases hrl
    | _ => cases hrl
  intro c hc
  obtain ⟨_, hfirst, _⟩ := Relation.TransGen.head'_iff.mp hc
  obtain ⟨_, _, hlast⟩ := Relation.TransGen.tail'_iff.mp hc
  exact (hsuper _ _ hfirst).1 (hsuper _ _ hlast).2

theorem graph_order_independent_classFirst :
    ∃ g g', parseObjectGraph defaultLimits default selfReferringDump = .ok g ∧
      parseObjectGraph defaultLimits default classFirstDump = .ok g' ∧ g.SameAs g' := by
  have hok : (parseObjectGraph defaultLimits default selfReferringDump).toOption.isSome = true := by
    decide +kernel
  cases hg : parseObjectGraph defaultLimits default selfReferringDump with
  | error e =>
    rw [hg] at hok
    cases hok
  | ok g =>
    obtain ⟨g', hg', hsame⟩ := graph_order_independent defaultLimits default default
      ofBytes_selfReferringDump ofBytes_classFirstDump hg
      ⟨rfl, List.Perm.swap _ _ _, fun _ => rfl, fun _ => rfl⟩ (by decide +kernel)
      (acyclic_of_super_zero (by simp +contextual [Dump.subRecords, Record.subRecords]))
      (by simp [ThreadsDistinct, Dump.subRecords, Record.subRecords]) (by decide +kernel)
    exact ⟨g, g', rfl, hg', hsame⟩

/-- Two objects, of which both are given as the thread with serial number 7, and a frame root. -/
def twoThreadsDump (first second : UInt8) : List UInt8 :=
  emptyDump ++ recordBytes 0x1C ([0x23, 0, 0, 0, 1, 0, 0, 0, 0, 0, 0, 0, 0, 8] ++
    [0x23, 0, 0, 0, 2, 0, 0, 0, 0, 0, 0, 0, 0, 8] ++
    [0x08, 0, 0, 0, first, 0, 0, 0, 7, 0, 0, 0, 0] ++
    [0x08, 0, 0, 0, second, 0, 0, 0, 7, 0, 0, 0, 0] ++ [0x03, 0, 0, 0, 1, 0, 0, 0, 7, 0, 0, 0, 0])

theorem ofBytes_twoThreadsDump :
    ofBytes (twoThreadsDump 1 2) = .ok ⟨.four, [.heapDump [.primArrayDump 1 0 8,
        .primArrayDump 2 0 8, .root .threadObject 1 7, .root .threadObject 2 7,
        .root .javaFrame 1 7]]⟩ ∧
      ofBytes (twoThreadsDump 2 1) = .ok ⟨.four, [.heapDump [.primArrayDump 1 0 8,
        .primArrayDump 2 0 8, .root .threadObject 2 7, .root .threadObject 1 7, .root .javaFrame 1 7]]⟩ := by
  decide +kernel

def rootRecords (g : ObjectGraph) : List (ℕ × RootKind × ℕ) :=
  g.gcRoots.map fun r => (g.ids r.object, r.kind, r.threadID)

theorem rootRecords_twoThreadsDump :
    (parseObjectGraph defaultLimits default (twoThreadsDump 1 2)).toOption.map rootRecords =
        some [(1, .threadObject, 0), (1, .javaFrame, 2), (2, .threadObject, 0)] ∧
      (parseObjectGraph defaultLimits default (twoThreadsDump 2 1)).toOption.map rootRecords =
        some [(1, .threadObject, 0), (1, .javaFrame, 1), (2, .threadObject, 0)] := by
  decide +kernel

theorem ok_of_toOption {g : Except HprofError ObjectGraph}
    {l : List (ℕ × RootKind × ℕ)} (h : g.toOption.map rootRecords = some l) : ∃ x, g = .ok x ∧ rootRecords x = l := by
  cases g with
  | error e => cases h
  | ok x => exact ⟨x, rfl, Option.some.inj h⟩

/-- Where two threads have one serial number, the last one owns the frame. -/
theorem graph_depends_on_thread_order :
    ∃ d d' g g', Dump.ofBytes (twoThreadsDump 1 2) = .ok d ∧
      Dump.ofBytes (twoThreadsDump 2 1) = .ok d' ∧
      parseObjectGraph defaultLimits default (twoThreadsDump 1 2) = .ok g ∧
      parseObjectGraph defaultLimits default (twoThreadsDump 2 1) = .ok g' ∧
      d.SameRecords d' ∧ DistinctIDs d.subRecords ∧ Acyclic (layoutsOf d.subRecords) ∧
      d.ReferencesFit defaultLimits ∧ ¬ g.SameAs g' := by
  obtain ⟨g, hg, hroots⟩ := ok_of_toOption rootRecords_twoThreadsDump.1
  obtain ⟨g', hg', hroots'⟩ := ok_of_toOption rootRecords_twoThreadsDump.2
  refine ⟨_, _, g, g', ofBytes_twoThreadsDump.1, ofBytes_twoThreadsDump.2, hg, hg',
    ⟨rfl, ?_, fun _ => rfl, fun _ => rfl⟩, by decide +kernel,
    acyclic_of_super_zero (by simp [Dump.subRecords, Record.subRecords]), by decide +kernel,
    fun hsame => ?_⟩
  · exact (List.Perm.swap _ _ _).cons _ |>.cons _
  · have hframe : (1, RootKind.javaFrame, 2) ∈ rootRecords g := by
      rw [hroots]
      decide
    have hframe' : (1, RootKind.javaFrame, 1) ∈ rootRecords g' := by
      rw [hroots']
      decide
    obtain ⟨⟨i, _, _⟩, hr, heq⟩ := mem_map.mp hframe
    obtain ⟨⟨j, _, _⟩, _, heq'⟩ := mem_map.mp hframe'
    simp only [Prod.mk.injEq] at heq heq'
    obtain ⟨hi, rfl, rfl⟩ := heq
    have hmem := (hsame.gcRoot i j (hi.trans heq'.1.symm) _ _).mp hr
    have : (1, RootKind.javaFrame, 2) ∈ rootRecords g' :=
      mem_map.mpr ⟨_, hmem, by simp [heq'.1]⟩
    rw [hroots'] at this
    revert this
    decide

end Spectra.Heap
