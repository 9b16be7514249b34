import Spectra.Heap.GraphReading
import Spectra.Heap.GraphBuild

/-! The names of the objects of the graph, which follow from the keys in the class table. -/
namespace Spectra.Heap
open Library List Prod GraphBuilder

/-- The name that a key has in the class table, empty if the name is looked up later. -/
def presetName (k : ClassKey) : String :=
  if k = ⟨0, 0⟩ then javaLangClass
  else if k.primType ≠ 0 then primArrayName k.primType
  else ""

def keyName (names : ClassKey → String) (k : ClassKey) : String :=
  if presetName k = "" then names k else presetName k

def SubRecord.classKeys : SubRecord → List ClassKey
  | .root _ _ _ => []
  | .heapDumpInfo => []
  | .classDump classObjID _ _ _ _ _ => [⟨classObjID, 0⟩]
  | .instanceDump _ classID _ => [⟨classID, 0⟩]
  | .objectArrayDump _ arrayClassID _ => [⟨arrayClassID, 0⟩]
  | .primArrayDump _ _ elemType => [⟨0, elemType⟩]

open SubRecord

/-- The class table holds the key of class objects and those looked up, with their names. -/
structure Tabled (keys : List ClassKey) (classes : List (ClassKey × String)) : Prop where
  preset : ∀ c ∈ classes, c.2 = presetName c.1
  keys : ∀ k, k ∈ classes.map Prod.fst ↔ k = ⟨0, 0⟩ ∨ k ∈ keys

theorem Tabled.classFor {keys : List ClassKey} {b : GraphBuilder} (h : Tabled keys b.classes)
    {k : ClassKey} {name : String} (hk : k = ⟨0, 0⟩ ∨ name = presetName k) :
    Tabled (keys ++ [k]) (b.classFor k name).1.classes := by
  rw [GraphBuilder.classFor]
  split
  · rename_i i hi
    refine ⟨h.preset, fun k' => ?_⟩
    have hmem : k ∈ b.classes.map fst := by
      obtain ⟨hlt, hc, _⟩ := findIdx?_eq_some_iff_getElem.mp hi
      exact mem_map.mpr ⟨_, getElem_mem hlt, by simpa using hc⟩
    rw [h.keys k', mem_append, mem_singleton, ← or_assoc]
    refine ⟨Or.inl, fun h' => h'.elim id ?_⟩
    rintro rfl
    exact (h.keys k').mp hmem
  · rename_i hnone
    have hnew : k ∉ b.classes.map fst := by
      intro hmem
      obtain ⟨c, hc, rfl⟩ := mem_map.mp hmem
      simpa using findIdx?_eq_none_iff.mp hnone c hc
    have hname : name = presetName k := by
      refine hk.resolve_left fun hk => hnew ?_
      rw [hk]
      exact (h.keys _).mpr (.inl rfl)
    constructor
    · intro c hc
      rcases mem_append.mp hc with hc | hc
      · exact h.preset c hc
      · rw [mem_singleton.mp hc]
        exact hname
    · intro k'
      rw [map_append, mem_append, h.keys k', mem_append, or_assoc]
      rfl

variable {classes : List (ClassKey × String)}

namespace GraphState
variable {lim : GraphLimits} {w : IdSize} {st : GraphState}

theorem presetName_of_class (c : ℕ) : (⟨c, 0⟩ : ClassKey) = ⟨0, 0⟩ ∨ "" = presetName ⟨c, 0⟩ := by
  by_cases hc : c = 0
  · exact .inl (by rw [hc])
  · exact .inr (by simp [presetName, hc])

theorem presetName_of_prim (t : UInt8) : (⟨0, t⟩ : ClassKey) = ⟨0, 0⟩ ∨ primArrayName t = presetName ⟨0, t⟩ := by
  by_cases ht : t = 0
  · exact .inl (by rw [ht])
  · exact .inr (by simp [presetName, ht])

variable {keys : List ClassKey}

theorem addObject_tabled (st : GraphState) (h : Tabled keys st.b.classes) {k : ClassKey}
    {name : String} (hk : k = ⟨0, 0⟩ ∨ name = presetName k) (objID : ℕ) (shallow : ℤ) (refs : List ℕ) :
    Tabled (keys ++ [k]) (st.addObject lim k name objID shallow refs).1.b.classes := by
  have hsame := (addObject_sameRoots lim objID (st.b.classFor k name).1
    (st.b.classFor k name).2 shallow refs).2
  change Tabled _ ((st.b.classFor k name).1.addObject lim objID (st.b.classFor k name).2 shallow refs).1.classes
  rw [hsame]
  exact h.classFor hk

theorem Tabled.same_keys {keys' : List ClassKey}
    (h : Tabled keys classes) (hkeys : ∀ k, k = ⟨0, 0⟩ ∨ k ∈ keys ↔ k = ⟨0, 0⟩ ∨ k ∈ keys') : Tabled keys' classes :=
  ⟨h.preset, fun k => (h.keys k).trans (hkeys k)⟩

theorem apply_tabled (h : Tabled keys st.b.classes) (r : SubRecord) :
    Tabled (keys ++ r.classKeys) (st.apply lim w r).b.classes := by
  cases r with
  | root kind objID serial =>
    rw [classKeys, append_nil]
    change Tabled keys (st.b.addRoot kind objID serial).classes
    rw [GraphBuilder.addRoot]
    split <;> exact h
  | heapDumpInfo =>
    rw [classKeys, append_nil]
    exact h
  | classDump classObjID superID loaderID instSize refs types =>
    have hclass := h.classFor (presetName_of_class classObjID)
    refine Tabled.same_keys (addObject_tabled { st with
      layouts := st.layouts.insert classObjID ⟨superID, types, instSize⟩
      b := (st.b.classFor ⟨classObjID, 0⟩ "").1 } hclass (.inl rfl) classObjID 0 _) fun k => ?_
    rw [mem_append (s := keys ++ _), mem_singleton]
    tauto
  | instanceDump objID classID fields =>
    change Tabled _ (st.addInstance lim w objID classID fields).b.classes
    rw [addInstance]
    split <;> exact addObject_tabled st h (presetName_of_class classID) objID _ _
  | objectArrayDump objID arrayClassID elems =>
    exact addObject_tabled st h (presetName_of_class arrayClassID) objID _ _
  | primArrayDump objID numElems elemType =>
    exact addObject_tabled st h (presetName_of_prim elemType) objID _ _

theorem tabled_records (records : List Record) :
    Tabled ((records.flatMap Record.subRecords).flatMap classKeys)
      (records.foldl (GraphState.applyRecord lim w) (GraphState.new w)).b.classes := by
  refine GraphState.foldl_inv lim w
    (fun subs st => Tabled (subs.flatMap classKeys) st.b.classes) ?_ ?_ records ?_
  · exact fun _ _ _ _ h => h
  · intro subs st r h
    rw [flatMap_append, flatMap_singleton]
    exact apply_tabled h r
  · constructor
    · intro c hc
      rw [mem_singleton.mp hc]
      rfl
    · intro k
      change k ∈ [(⟨0, 0⟩ : ClassKey)] ↔ _
      simp

variable (all : IdMap ClassLayout) (inst : PendingInstance) (b : GraphBuilder)

theorem resolvePending_classes : (resolvePending lim w all inst b).classes = b.classes := by
  rw [resolvePending]
  split
  · exact (appendRefs_sameRoots ..).2
  · rfl

theorem resolvePending_sameRoots : b.SameRoots (resolvePending lim w all inst b) := by
  rw [resolvePending]
  split
  · rename_i layout p _ _
    have hset : b.SameRoots (b.setShallow p layout.instSize) := ⟨rfl, rfl, rfl⟩
    exact hset.trans (appendRefs_sameRoots ..).1
  · exact ⟨rfl, rfl, rfl⟩

theorem resolved_same (lim : GraphLimits) (w : IdSize) (st : GraphState) :
    st.b.SameRoots (st.resolved lim w) ∧ (st.resolved lim w).classes = st.b.classes := by
  unfold resolved resolveBuilder
  generalize st.pending = pending
  generalize st.b = b
  induction pending generalizing b with
  | nil => exact ⟨⟨rfl, rfl, rfl⟩, rfl⟩
  | cons inst pending ih =>
    obtain ⟨hroots, hclasses⟩ := ih (resolvePending lim w st.layouts inst b)
    exact ⟨(resolvePending_sameRoots st.layouts inst b).trans hroots,
      hclasses.trans (resolvePending_classes st.layouts inst b)⟩

end GraphState

namespace GraphBuilder
variable {sort : SliceSort RawObject.id} {names : ClassKey → String} {unresolved : ℕ}
  {b : GraphBuilder} {keys : List ClassKey}

theorem map_name (h : Tabled keys b.classes) :
    (b.classes.map fun c => if c.2 = "" then names c.1 else c.2) = b.classes.map fun c => keyName names c.1 := by
  apply map_congr_left
  intro c hc
  rw [keyName, h.preset c hc]

variable {o : RawObject}

theorem getElem?_classNames (h : Tabled keys b.classes) (ho : o ∈ b.objects) :
    (b.classes.map fun c => if c.2 = "" then names c.1 else c.2)[o.cls]? = some (keyName names (b.keyAt o.cls)) := by
  rw [map_name h, getElem?_map, keyAt, getElem?_eq_getElem (b.cls_lt o ho)]
  rfl

theorem className_build (h : Tabled keys b.classes) (i : Fin (b.build sort names unresolved).len)
    (ho : o ∈ b.objects) (hi : b.Shows (b.build sort names unresolved) i o) :
    (b.build sort names unresolved).ClassName i = keyName names (b.keyAt o.cls) := by
  have hget : (b.build sort names unresolved).classNames[(b.build sort names unresolved).cls i]? =
      some (keyName names (b.keyAt o.cls)) := by
    rw [hi.cls]
    exact getElem?_classNames h ho
  rw [getElem?_eq_getElem ((b.build sort names unresolved).cls_lt i)] at hget
  exact Option.some.inj hget

/-- Of the entries of the class table, the one for an object's own id names its class. -/
theorem classObjects_eq {n : ℕ} {ids : Fin n → ℕ} {className : Fin n → String}
    {N : ClassKey → String} (hsearch : ∀ id i, searchID ids id = some i ↔ ids i = id)
    (hN : ∀ c ∈ classes, c.2 = N c.1) (f : Fin n → Option String) (i : Fin n) :
    classObjects ids className classes f i =
      if ids i ≠ 0 ∧ className i = javaLangClass ∧ ⟨ids i, 0⟩ ∈ classes.map fst then some (N ⟨ids i, 0⟩) else f i := by
  induction classes generalizing f with
  | nil => simp [classObjects]
  | cons c classes ih =>
    obtain ⟨⟨classID, primType⟩, name⟩ := c
    have hname : name = N ⟨classID, primType⟩ := hN _ mem_cons_self
    rw [classObjects, ih fun c hc => hN c (.tail _ hc)]
    simp only [map_cons, mem_cons]
    by_cases hrest : ids i ≠ 0 ∧ className i = javaLangClass ∧
        (⟨ids i, 0⟩ : ClassKey) ∈ classes.map fst
    · rw [if_pos hrest, if_pos ⟨hrest.1, hrest.2.1, .inr hrest.2.2⟩]
    · rw [if_neg hrest]
      by_cases hkey : primType ≠ 0 ∨ classID = 0
      · rw [if_pos hkey, if_neg]
        rintro ⟨h0, hc, heq | hmem⟩
        · cases heq
          exact hkey.elim (absurd rfl) h0
        · exact hrest ⟨h0, hc, hmem⟩
      · rw [if_neg hkey]
        have hprim : primType = 0 := by
          by_contra hne
          exact hkey (.inl hne)
        have hid : classID ≠ 0 := fun hz => hkey (.inr hz)
        subst hprim
        by_cases hi : ids i = classID
        · have := (hsearch classID i).mpr hi
          simp only [this, hi]
          by_cases hc : className i = javaLangClass
          · simp [hc, hid, hname]
          · simp [hc]
        · rw [if_neg]
          · cases hs : searchID ids classID with
            | none => rfl
            | some j =>
              have hij : i ≠ j := by
                rintro rfl
                exact hi ((hsearch classID i).mp hs)
              dsimp only
              split
              · exact Function.update_of_ne hij _ _
              · rfl
          · rintro ⟨h0, hc, heq | hmem⟩
            · cases heq
              exact hi rfl
            · exact hrest ⟨h0, hc, hmem⟩

theorem searchID_iff (sort : SliceSort RawObject.id) (hids : (b.objects.map RawObject.id).Nodup) (id : ℕ)
    (i : Fin (sort.sort b.objects).length) :
    searchID (sortedIDs (sort.sort b.objects)) id = some i ↔ sortedIDs (sort.sort b.objects) i = id := by
  refine ⟨searchID_sound, fun hi => ?_⟩
  obtain ⟨j, hj⟩ := searchID_complete (sortedIDs_mono sort b) hi
  have hnodup := ((sort.perm b.objects).map RawObject.id).nodup_iff.mpr hids
  have hij : j = i := by
    apply Fin.ext
    have hlen : (sort.sort b.objects).length = ((sort.sort b.objects).map RawObject.id).length := by
      simp
    apply (nodup_iff_injective_getElem.mp hnodup).eq_iff (a := ⟨j, hlen ▸ j.isLt⟩)
      (b := ⟨i, hlen ▸ i.isLt⟩) |>.mp _ |> congrArg Fin.val
    simpa [sortedIDs] using (searchID_sound hj).trans hi.symm
  rw [hj, hij]

/-- The display name of an object of the graph. -/
theorem displayName_build (h : Tabled keys b.classes) (hids : (b.objects.map RawObject.id).Nodup)
    (i : Fin (b.build sort names unresolved).len) (ho : o ∈ b.objects)
    (hi : b.Shows (b.build sort names unresolved) i o) :
    (b.build sort names unresolved).DisplayName i =
      if o.id ≠ 0 ∧ keyName names (b.keyAt o.cls) = javaLangClass ∧ ⟨o.id, 0⟩ ∈ keys then
        "class " ++ keyName names ⟨o.id, 0⟩ else keyName names (b.keyAt o.cls) := by
  have hclass := className_build h i ho hi
  have hnames : ∀ c ∈ (b.classes.map fst).zip
      (b.classes.map fun c => if c.2 = "" then names c.1 else c.2), c.2 = keyName names c.1 := by
    rw [map_name h, zip_map']
    intro c hc
    obtain ⟨c', _, rfl⟩ := mem_map.mp hc
    rfl
  have hid : sortedIDs (sort.sort b.objects) i = o.id := hi.id
  have hcls : ((sort.sort b.objects).get i).cls = o.cls := hi.cls
  have hclsName : (b.classes.map fun c => if c.2 = "" then names c.1 else c.2)[
      ((sort.sort b.objects).get i).cls]?.getD "" = keyName names (b.keyAt o.cls) := by
    rw [hcls, getElem?_classNames h ho]
    rfl
  have hkeys : (⟨o.id, 0⟩ : ClassKey) ∈ ((b.classes.map fst).zip
      (b.classes.map fun c => if c.2 = "" then names c.1 else c.2)).map fst ∧ o.id ≠ 0 ↔
      (⟨o.id, 0⟩ : ClassKey) ∈ keys ∧ o.id ≠ 0 := by
    rw [map_fst_zip (by simp), h.keys]
    refine and_congr_left fun h0 => or_iff_right fun heq => h0 ?_
    exact congrArg ClassKey.classID heq
  have hobj : (b.build sort names unresolved).classObjOf i =
      if o.id ≠ 0 ∧ keyName names (b.keyAt o.cls) = javaLangClass ∧ ⟨o.id, 0⟩ ∈ keys then
        some (keyName names ⟨o.id, 0⟩)
      else none := by
    refine (classObjects_eq (searchID_iff sort hids) hnames _ i).trans ?_
    rw [hid]
    refine if_congr ⟨?_, ?_⟩ rfl rfl
    · rintro ⟨h0, hc, hk⟩
      exact ⟨h0, hclsName.symm.trans hc, (hkeys.mp ⟨hk, h0⟩).1⟩
    · rintro ⟨h0, hc, hk⟩
      exact ⟨h0, hclsName.trans hc, (hkeys.mpr ⟨hk, h0⟩).1⟩
  rw [ObjectGraph.DisplayName, hobj, hclass]
  split <;> rename_i hsplit <;> split at hsplit <;> cases hsplit <;> rename_i hcond
  · rw [if_pos hcond]
  · rw [if_neg hcond]

end GraphBuilder
end Spectra.Heap
