import Spectra.Heap.GraphNodes

/-! What the graph parser holds after a list of sub-records, as a function of that list. -/
namespace Spectra.Heap
open Library List Option GraphBuilder SubRecord GraphState

/-- The layout by which an instance is resolved when it is read. -/
def settled (w : IdSize) (L : IdMap ClassLayout) (c : ℕ) (fields : List UInt8) : Option ClassLayout :=
  L[c]?.filter fun _ => (instanceRefs w L c fields).2

namespace SubRecord

def addLayout (L : IdMap ClassLayout) : SubRecord → IdMap ClassLayout
  | .classDump classObjID superID _ instSize _ types => L.insert classObjID ⟨superID, types, instSize⟩
  | _ => L

/-- The object of a sub-record as it is read; the layouts are those read before it. -/
def node (w : IdSize) (L : IdMap ClassLayout) : SubRecord → Option Node
  | .root _ _ _ => none
  | .heapDumpInfo => none
  | .classDump classObjID superID loaderID _ refs _ =>
    some ⟨classObjID, ⟨0, 0⟩, 0, nonNull (superID :: loaderID :: refs)⟩
  | .instanceDump objID classID fields =>
    match settled w L classID fields with
    | some layout =>
      some ⟨objID, ⟨classID, 0⟩, layout.instSize, nonNull (instanceRefs w L classID fields).1⟩
    | none => some ⟨objID, ⟨classID, 0⟩, fields.length, []⟩
  | .objectArrayDump objID arrayClassID elems =>
    some ⟨objID, ⟨arrayClassID, 0⟩, hprofArrayHeaderBytes + elems.length * w.bytes, nonNull elems⟩
  | .primArrayDump objID numElems elemType =>
    some ⟨objID, ⟨0, elemType⟩, hprofArrayHeaderBytes + numElems * hprofTypeSize elemType w, []⟩

def readRefs (w : IdSize) (L : IdMap ClassLayout) : SubRecord → List ℕ
  | .classDump _ superID loaderID _ refs _ => superID :: loaderID :: refs
  | .instanceDump _ classID fields =>
    match settled w L classID fields with
    | some _ => (instanceRefs w L classID fields).1
    | none => []
  | .objectArrayDump _ _ elems => elems
  | _ => []

/-- The class and the field data of an instance that has to wait for layouts. -/
def deferred (w : IdSize) (L : IdMap ClassLayout) : SubRecord → Option (ℕ × List UInt8)
  | .instanceDump _ classID fields =>
    match settled w L classID fields with
    | some _ => none
    | none => some (classID, fields)
  | _ => none

def rawRoot : SubRecord → Option RawRoot
  | .root kind objID serial => if objID = 0 then none else some ⟨objID, kind, serial⟩
  | _ => none

def addThread (threads : IdMap ℕ) : SubRecord → IdMap ℕ
  | .root kind objID serial =>
    if objID ≠ 0 ∧ kind = .threadObject then threads.insert serial objID else threads
  | _ => threads

end SubRecord

def layoutsOf (subs : List SubRecord) : IdMap ClassLayout := subs.foldl SubRecord.addLayout ∅

theorem addLayout_layoutsOf (pre : List SubRecord) (r : SubRecord) :
    r.addLayout (layoutsOf pre) = layoutsOf (pre ++ [r]) := by
  simp [layoutsOf]

def threadsOf (subs : List SubRecord) : IdMap ℕ := subs.foldl SubRecord.addThread ∅

/-- What `finalize` makes of the object of an instance that waited. -/
def resolveNode (w : IdSize) (L : IdMap ClassLayout) (classID : ℕ) (fields : List UInt8)
    (n : Node) : Node :=
  match L[classID]? with
  | some layout =>
    { n with shallow := layout.instSize, refs := nonNull (instanceRefs w L classID fields).1 }
  | none => n

variable {all : IdMap ClassLayout} {fields : List UInt8} {L : IdMap ClassLayout}

section
variable (w : IdSize)

def readNodes : IdMap ClassLayout → List SubRecord → List Node
  | _, [] => []
  | L, r :: subs => (r.node w L).toList ++ readNodes (r.addLayout L) subs

def readPending : IdMap ClassLayout → ℕ → List SubRecord → List PendingInstance
  | _, _, [] => []
  | L, n, r :: subs =>
    ((r.deferred w L).map fun x => PendingInstance.mk (some n) x.1 x.2).toList ++
      readPending (r.addLayout L) (n + (r.node w L).toList.length) subs

/-- The object of a sub-record in the end: `L` holds the layouts read before it, and `all` those
of the whole dump. -/
def SubRecord.finalNode (all L : IdMap ClassLayout) (r : SubRecord) : Option Node :=
  match r.deferred w L with
  | some (classID, fields) => (r.node w L).map (resolveNode w all classID fields)
  | none => r.node w L

def finalNodes (all : IdMap ClassLayout) : IdMap ClassLayout → List SubRecord → List Node
  | _, [] => []
  | L, r :: subs => (r.finalNode w all L).toList ++ finalNodes all (r.addLayout L) subs

/-- The first loop of `finalize` on plain lists. -/
def resolveAll (all : IdMap ClassLayout) (pending : List PendingInstance) (ns : List Node) :
    List Node :=
  pending.foldl (fun ns inst => match inst.parseIdx with
    | some p => ns.modify p (resolveNode w all inst.classID inst.fields)
    | none => ns) ns

variable {w}

theorem SubRecord.finalNode_settled {objID classID : ℕ} {layout : ClassLayout}
    (h : settled w L classID fields = some layout) :
    finalNode w all L (.instanceDump objID classID fields) =
      some ⟨objID, ⟨classID, 0⟩, layout.instSize, nonNull (instanceRefs w L classID fields).1⟩ := by
  simp [finalNode, deferred, node, h]

theorem SubRecord.finalNode_deferred {objID classID : ℕ}
    (h : settled w L classID fields = none) :
    finalNode w all L (.instanceDump objID classID fields) =
      some (resolveNode w all classID fields ⟨objID, ⟨classID, 0⟩, fields.length, []⟩) := by
  simp [finalNode, deferred, node, h]

theorem readNodes_concat (L : IdMap ClassLayout) (subs : List SubRecord) (r : SubRecord) :
    readNodes w L (subs ++ [r]) = readNodes w L subs ++ (r.node w (subs.foldl addLayout L)).toList := by
  induction subs generalizing L with
  | nil => simp [readNodes]
  | cons s subs ih => simp [readNodes, ih]

private theorem readPending_concat (L : IdMap ClassLayout) (n : ℕ) (subs : List SubRecord) (r : SubRecord) :
    readPending w L n (subs ++ [r]) = readPending w L n subs ++
      ((r.deferred w (subs.foldl addLayout L)).map fun x =>
        PendingInstance.mk (some (n + (readNodes w L subs).length)) x.1 x.2).toList := by
  induction subs generalizing L n with
  | nil => simp [readPending, readNodes]
  | cons s subs ih => simp [readPending, readNodes, ih, Nat.add_assoc]

/-- Every instance put off ends up with its final size and references. -/
theorem resolveAll_readPending (all L : IdMap ClassLayout) (subs : List SubRecord) (before : List Node) :
    resolveAll w all (readPending w L before.length subs) (before ++ readNodes w L subs) =
      before ++ finalNodes w all L subs := by
  induction subs generalizing L before with
  | nil => simp [resolveAll, readPending, readNodes, finalNodes]
  | cons r subs ih =>
    unfold readPending readNodes finalNodes SubRecord.finalNode
    cases hd : r.deferred w L with
    | none =>
      have := ih (r.addLayout L) (before ++ (r.node w L).toList)
      simpa using this
    | some x =>
      obtain ⟨classID, fields⟩ := x
      cases hn : r.node w L with
      | none =>
        cases r <;> simp [SubRecord.deferred, SubRecord.node] at hd hn
        split at hn <;> cases hn
      | some n =>
        have := ih (r.addLayout L) (before ++ [resolveNode w all classID fields n])
        have hmod := modify_middle before (readNodes w (r.addLayout L) subs) n
          (resolveNode w all classID fields)
        simp only [resolveAll, map_some, toList_some, singleton_append, foldl_cons] at this ⊢
        rw [hmod]
        simpa using this

end

namespace GraphState
variable {lim : GraphLimits} {w : IdSize} {st : GraphState}

/-- One object is appended to the graph, unless a limit is broken. -/
theorem addObject_ok {b : GraphBuilder} {k : ClassKey} {name : String} {objID : ℕ} {shallow : ℤ} {refs : List ℕ} :
    let s := (b.classFor k name).1.addObject lim objID (b.classFor k name).2 shallow refs
    s.1.err = none → b.err = none ∧ s.2 = some b.nodes.length ∧
      b.nodes.length < lim.maxGraphObjects ∧
      (refs ≠ [] → b.rawEdges.length + refs.length ≤ lim.maxGraphEdges) ∧
      s.1.rawEdges = b.rawEdges ++ nonNull refs ∧
      s.1.nodes = b.nodes ++ [⟨objID, k, shallow, nonNull refs⟩] ∧ b.SameRoots s.1 := by
  intro s h
  have hext := b.classFor_extends k name
  obtain ⟨herr, hp, hlen, hfit, hedges, hnodes⟩ := GraphBuilder.addObject_ok _ _ h
  obtain ⟨hroots, _⟩ := addObject_sameRoots lim objID (b.classFor k name).1
    (b.classFor k name).2 shallow refs
  rw [hext.err] at herr
  rw [← length_nodes] at hlen
  rw [hext.nodes] at hp hnodes hlen
  rw [hext.rawEdges] at hfit hedges
  rw [keyAt_classFor] at hnodes
  exact ⟨herr, hp, hlen, hfit, hedges, hnodes, hroots.1.trans hext.idSize, hroots.2.trans hext.roots,
    hroots.3.trans hext.threadBySerial⟩

theorem apply_rest (lim : GraphLimits) (w : IdSize) (st : GraphState) (r : SubRecord) :
    (st.apply lim w r).layouts = r.addLayout st.layouts ∧
      (st.apply lim w r).strings = st.strings ∧ (st.apply lim w r).classNameID = st.classNameID := by
  cases r with
  | instanceDump objID classID fields =>
    rw [apply, addInstance]
    split <;> exact ⟨rfl, rfl, rfl⟩
  | _ => exact ⟨rfl, rfl, rfl⟩

variable {r : SubRecord}

/-- A sub-record without an object adds a root at most. -/
theorem apply_root (lim : GraphLimits) (st : GraphState) (hn : r.node w st.layouts = none) :
    let b := (st.apply lim w r).b
    b.err = st.b.err ∧ b.nodes = st.b.nodes ∧ b.rawEdges = st.b.rawEdges ∧
      b.idSize = st.b.idSize ∧ b.roots = st.b.roots ++ r.rawRoot.toList ∧
      b.threadBySerial = r.addThread st.b.threadBySerial ∧
      r.deferred w st.layouts = none ∧ (st.apply lim w r).pending = st.pending := by
  cases r with
  | root kind objID serial =>
    rw [apply, addRoot, GraphBuilder.addRoot, SubRecord.rawRoot, SubRecord.addThread]
    split <;> rename_i hid <;> simp [hid, nodes, SubRecord.deferred]
    exact fun _ _ => rfl
  | heapDumpInfo =>
    exact ⟨rfl, rfl, rfl, rfl, (append_nil _).symm, rfl, rfl, rfl⟩
  | instanceDump objID classID fields =>
    rw [SubRecord.node] at hn
    split at hn <;> cases hn
  | _ => cases hn

/-- The object of a sub-record is added once its classes are looked up. -/
theorem apply_object {n : Node} (lim : GraphLimits) (st : GraphState) (hn : r.node w st.layouts = some n) :
    ∃ b name, st.b.Extends b ∧ n.refs = nonNull (r.readRefs w st.layouts) ∧
      r.rawRoot = none ∧ (∀ threads, r.addThread threads = threads) ∧
      let s := (b.classFor n.key name).1.addObject lim n.id (b.classFor n.key name).2 n.shallow
        (r.readRefs w st.layouts)
      (st.apply lim w r).b = s.1 ∧ (st.apply lim w r).pending = st.pending ++
        ((r.deferred w st.layouts).map fun x => PendingInstance.mk s.2 x.1 x.2).toList := by
  cases r with
  | root | heapDumpInfo => cases hn
  | classDump classObjID superID loaderID instSize refs types =>
    cases hn
    exact ⟨_, javaLangClass, st.b.classFor_extends _ _, rfl, rfl, fun _ => rfl, rfl, (append_nil _).symm⟩
  | instanceDump objID classID fields =>
    refine ⟨st.b, "", .refl _, ?_⟩
    simp only [SubRecord.node] at hn
    simp only [apply, addInstance, SubRecord.readRefs, SubRecord.deferred]
    rw [← settled]
    cases hl : settled w st.layouts classID fields with
    | some layout =>
      rw [hl] at hn
      cases hn
      exact ⟨rfl, rfl, fun _ => rfl, rfl, (append_nil _).symm⟩
    | none =>
      rw [hl] at hn
      cases hn
      exact ⟨rfl, rfl, fun _ => rfl, rfl, rfl⟩
  | objectArrayDump objID arrayClassID elems =>
    cases hn
    exact ⟨st.b, "", .refl _, rfl, rfl, fun _ => rfl, rfl, (append_nil _).symm⟩
  | primArrayDump objID numElems elemType =>
    cases hn
    exact ⟨st.b, primArrayName elemType, .refl _, rfl, rfl, fun _ => rfl, rfl, (append_nil _).symm⟩

/-- The state of the parser after some sub-records. -/
structure Reading (lim : GraphLimits) (w : IdSize) (subs : List SubRecord) (st : GraphState) :
    Prop where
  layouts : st.layouts = layoutsOf subs
  nodes : st.b.nodes = readNodes w ∅ subs
  pending : st.pending = readPending w ∅ 0 subs
  edges : st.b.rawEdges.length = ((readNodes w ∅ subs).map fun n => n.refs.length).sum
  edges_le : st.b.rawEdges.length ≤ lim.maxGraphEdges
  objects_le : st.b.nodes.length ≤ lim.maxGraphObjects
  idSize : st.b.idSize = w
  roots : st.b.roots = subs.filterMap SubRecord.rawRoot
  threads : st.b.threadBySerial = threadsOf subs

variable {subs : List SubRecord}

theorem reading_concat {st' : GraphState} (refs : List ℕ) (h : st.Reading lim w subs)
    (hlayouts : st'.layouts = r.addLayout st.layouts)
    (hnodes : st'.b.nodes = st.b.nodes ++ (r.node w st.layouts).toList)
    (hpending : st'.pending = st.pending ++ ((r.deferred w st.layouts).map fun x =>
      PendingInstance.mk (some st.b.nodes.length) x.1 x.2).toList)
    (hrefs : ((r.node w st.layouts).toList.map fun n => n.refs.length).sum = (nonNull refs).length)
    (hedges : st'.b.rawEdges = st.b.rawEdges ++ nonNull refs)
    (hfit : refs ≠ [] → st.b.rawEdges.length + refs.length ≤ lim.maxGraphEdges)
    (hobjs : r.node w st.layouts ≠ none → st.b.nodes.length < lim.maxGraphObjects)
    (hidSize : st'.b.idSize = st.b.idSize) (hroots : st'.b.roots = st.b.roots ++ r.rawRoot.toList)
    (hthreads : st'.b.threadBySerial = r.addThread st.b.threadBySerial) : st'.Reading lim w (subs ++ [r]) where
  layouts := by
    rw [hlayouts, h.layouts]
    simp [layoutsOf]
  nodes := by rw [hnodes, h.nodes, readNodes_concat, ← layoutsOf, ← h.layouts]
  pending := by
    rw [hpending, readPending_concat, ← layoutsOf, ← h.layouts, ← h.nodes, h.pending]
    simp
  edges := by
    rw [hedges, length_append, h.edges, readNodes_concat, ← layoutsOf, ← h.layouts, map_append, sum_append, hrefs]
  edges_le := by
    rw [hedges, length_append]
    by_cases hnil : refs = []
    · subst hnil
      exact h.edges_le
    · exact (Nat.add_le_add_left (length_nonNull_le _) _).trans (hfit hnil)
  objects_le := by
    rw [hnodes, length_append]
    cases hn : r.node w st.layouts with
    | none => exact h.objects_le
    | some n => exact hobjs (hn ▸ some_ne_none n)
  idSize := hidSize.trans h.idSize
  roots := by
    rw [hroots, h.roots]
    cases hr : r.rawRoot <;> simp [hr]
  threads := by
    rw [hthreads, h.threads]
    simp [threadsOf]

/-- What one sub-record adds. -/
theorem Reading.apply (h : st.Reading lim w subs) (herr : (st.apply lim w r).b.err = none) :
    (st.apply lim w r).Reading lim w (subs ++ [r]) := by
  obtain ⟨hlayouts, -, -⟩ := apply_rest lim w st r
  cases hn : r.node w st.layouts with
  | none =>
    obtain ⟨-, hnodes, hedges, hidSize, hroots, hthreads, hdeferred, hpending⟩ :=
      apply_root lim st hn
    refine reading_concat [] h hlayouts ?_ ?_ ?_ (by simp [hedges, nonNull]) (absurd rfl)
      (absurd hn) hidSize hroots hthreads
    · rw [hnodes, hn, toList_none, append_nil]
    · rw [hpending, hdeferred, map_none, toList_none, append_nil]
    · rw [hn]
      rfl
  | some n =>
    obtain ⟨b, name, hext, hrefs, hroot, hthread, hb, hpending⟩ := apply_object lim st hn
    rw [hb] at herr
    obtain ⟨-, hp, hobjs, hfit, hedges, hnodes, hsame⟩ := addObject_ok herr
    rw [← hb, hext.rawEdges] at hedges
    rw [hp, hext.nodes] at hpending
    rw [← hb, hext.nodes, ← hrefs] at hnodes
    rw [hext.nodes] at hobjs
    rw [hext.rawEdges] at hfit
    refine reading_concat _ h hlayouts (by rw [hnodes, hn]; rfl) hpending ?_ hedges hfit
      (fun _ => hobjs) ?_ ?_ ?_
    · rw [hn, ← hrefs]
      simp
    · rw [hb, hsame.idSize, hext.idSize]
    · rw [hb, hsame.roots, hext.roots, hroot, toList_none, append_nil]
    · rw [hb, hsame.threadBySerial, hext.threadBySerial, hthread]

theorem err_of_apply (herr : (st.apply lim w r).b.err = none) : st.b.err = none := by
  cases hn : r.node w st.layouts with
  | none => exact (apply_root lim st hn).1 ▸ herr
  | some n =>
    obtain ⟨b, name, hext, -, -, -, hb, -⟩ := apply_object lim st hn
    exact hext.err ▸ (addObject_ok (hb ▸ herr)).1

theorem Reading.names (h : st.Reading lim w subs) {strings : IdMap String} {names : IdMap ℕ} :
    Reading lim w subs { st with strings := strings, classNameID := names } :=
  ⟨h.layouts, h.nodes, h.pending, h.edges, h.edges_le, h.objects_le, h.idSize, h.roots, h.threads⟩

theorem reading_new : (new w).Reading lim w [] where
  layouts := rfl
  nodes := rfl
  pending := rfl
  edges := rfl
  edges_le := Nat.zero_le _
  objects_le := Nat.zero_le _
  idSize := rfl
  roots := rfl
  threads := rfl

theorem reading_records (records : List Record)
    (herr : (records.foldl (applyRecord lim w) (new w)).b.err = none) :
    (records.foldl (applyRecord lim w) (new w)).Reading lim w
      (records.flatMap Record.subRecords) := by
  refine foldl_inv lim w (fun subs st => st.b.err = none → st.Reading lim w subs)
    ?_ ?_ records (fun _ => reading_new) herr
  · exact fun _ _ _ _ h herr => (h herr).names
  · exact fun _ _ _ h herr => (h (err_of_apply herr)).apply herr

end GraphState

section
variable {lim : GraphLimits} {w : IdSize}

theorem fieldRefs_ne_nil (types : List UInt8) {offset : ℕ}
    {out : List ℕ} (h : out ≠ []) {out' : List ℕ}
    (h' : fieldRefs w fields types offset out = .error out' ∨
      ∃ o, fieldRefs w fields types offset out = .ok (o, out')) : out' ≠ [] := by
  induction types generalizing offset out with
  | nil =>
    obtain h' | ⟨o, h'⟩ := h'
    · cases h'
    · cases h'
      exact h
  | cons typ types ih =>
    unfold fieldRefs at h'
    dsimp only at h'
    split at h'
    · obtain h' | ⟨o, h'⟩ := h'
      · cases h'
        exact h
      · cases h'
    · refine ih ?_ h'
      split
      · simp
      · exact h

private theorem chainRefs_ne_nil {layouts : IdMap ClassLayout} (room : ℕ)
    {c offset : ℕ} {out : List ℕ} (h : out ≠ []) : (chainRefs w layouts fields room c offset out).1 ≠ [] := by
  induction room generalizing c offset out with
  | zero =>
    rw [chainRefs]
    split <;> exact h
  | succ room ih =>
    unfold chainRefs
    split
    · exact h
    · dsimp only
      split
      · exact h
      · split
        · rename_i hf
          exact fieldRefs_ne_nil _ h (.inl hf)
        · rename_i hf
          exact ih (fieldRefs_ne_nil _ h (.inr ⟨_, hf⟩))

theorem instanceRefs_ne_nil (layouts : IdMap ClassLayout) (classID : ℕ) (fields : List UInt8) :
    (instanceRefs w layouts classID fields).1 ≠ [] :=
  chainRefs_ne_nil _ (cons_ne_nil _ _)

variable {inst : PendingInstance}

/-- One round of the first loop of `finalize`: the instance is resolved, or its references break
the edge limit and are left out. -/
theorem resolvePending_cases (lim : GraphLimits) (w : IdSize) (all : IdMap ClassLayout) {p : ℕ}
    (hp : inst.parseIdx = some p) (b : GraphBuilder) :
    ((resolvePending lim w all inst b).err = b.err ∧
        (resolvePending lim w all inst b).nodes =
          b.nodes.modify p (resolveNode w all inst.classID inst.fields)) ∨
      ∃ layout, all[inst.classID]? = some layout ∧
        (resolvePending lim w all inst b).err ≠ none ∧
        (resolvePending lim w all inst b).nodes =
          b.nodes.modify p fun n => { n with shallow := layout.instSize } := by
  rw [resolvePending, hp]
  cases hl : all[inst.classID]? with
  | none =>
    have hid : resolveNode w all inst.classID inst.fields = id := by
      funext n
      simp [resolveNode, hl]
    rw [hid]
    simp
  | some layout =>
    obtain ⟨herr, _, _, hnodes⟩ | ⟨herr, _, _, hnodes⟩ := appendRefs_cases lim p
      (instanceRefs_ne_nil (w := w) all inst.classID inst.fields) (b.setShallow p layout.instSize)
    · refine .inl ⟨herr, ?_⟩
      rw [hnodes, nodes_setShallow, modify_modify_eq]
      congr 1
      funext n
      simp [resolveNode, hl]
    · refine .inr ⟨layout, rfl, herr, ?_⟩
      rw [hnodes, nodes_setShallow]

def resolveBuilder (lim : GraphLimits) (w : IdSize) (all : IdMap ClassLayout)
    (pending : List PendingInstance) (b : GraphBuilder) : GraphBuilder :=
  pending.foldl (fun b inst => GraphState.resolvePending lim w all inst b) b

variable {pending : List PendingInstance} {b : GraphBuilder}

theorem resolveBuilder_nodes (hp : ∀ inst ∈ pending, ∃ p, inst.parseIdx = some p)
    (herr : (resolveBuilder lim w all pending b).err = none) :
    b.err = none ∧ (resolveBuilder lim w all pending b).nodes = resolveAll w all pending b.nodes := by
  induction pending generalizing b with
  | nil => exact ⟨herr, rfl⟩
  | cons inst pending ih =>
    obtain ⟨p, hinst⟩ := hp inst mem_cons_self
    obtain ⟨herr', hnodes⟩ := ih (fun i hi => hp i (.tail _ hi)) herr
    obtain ⟨hb, hb'⟩ | ⟨_, _, hb, _⟩ := resolvePending_cases lim w all hinst b
    · refine ⟨hb ▸ herr', hnodes.trans ?_⟩
      rw [hb']
      simp [resolveAll, hinst]
    · exact absurd herr' hb

def Node.bare (n : Node) : Node := { n with refs := [] }

theorem map_modify {α β : Type} (g : α → β) {f : α → α} {f' : β → β}
    (h : ∀ x, g (f x) = f' (g x)) (l : List α) (p : ℕ) : (l.modify p f).map g = (l.map g).modify p f' := by
  apply ext_getElem?
  intro i
  simp only [getElem?_map, getElem?_modify]
  cases l[i]? with
  | none => rfl
  | some x => by_cases hi : p = i <;> simp [hi, h]

private theorem resolvePending_bare (lim : GraphLimits) (w : IdSize) (all : IdMap ClassLayout)
    {p : ℕ} (hp : inst.parseIdx = some p) (b : GraphBuilder) :
    (resolvePending lim w all inst b).nodes.map Node.bare =
      (b.nodes.map Node.bare).modify p fun n =>
        { n with shallow := (all[inst.classID]?.map fun l => (l.instSize : ℤ)).getD n.shallow } := by
  obtain ⟨_, hn⟩ | ⟨layout, hl, _, hn⟩ := resolvePending_cases lim w all hp b
  · rw [hn]
    apply map_modify
    intro n
    unfold resolveNode Node.bare
    cases all[inst.classID]? <;> rfl
  · rw [hn, hl]
    apply map_modify
    intro n
    rfl

private theorem resolveBuilder_bare {ns : List Node} (hp : ∀ inst ∈ pending, ∃ p, inst.parseIdx = some p)
    (h : b.nodes.map Node.bare = ns.map Node.bare) :
    (resolveBuilder lim w all pending b).nodes.map Node.bare = (resolveAll w all pending ns).map Node.bare := by
  induction pending generalizing b ns with
  | nil => exact h
  | cons inst pending ih =>
    obtain ⟨p, hinst⟩ := hp inst mem_cons_self
    have hstep : (ns.modify p (resolveNode w all inst.classID inst.fields)).map Node.bare =
        (ns.map Node.bare).modify p fun n =>
          { n with shallow := (all[inst.classID]?.map fun l => (l.instSize : ℤ)).getD n.shallow } := by
      apply map_modify
      intro n
      unfold resolveNode Node.bare
      cases all[inst.classID]? <;> rfl
    have := ih (fun i hi => hp i (.tail _ hi))
      (((resolvePending_bare lim w all hinst b).trans (by rw [h])).trans hstep.symm)
    simpa [resolveAll, resolveBuilder, hinst] using this

private theorem parseIdx_readPending {n : ℕ} {subs : List SubRecord}
    (h : inst ∈ readPending w L n subs) : ∃ p, inst.parseIdx = some p := by
  induction subs generalizing L n with
  | nil => cases h
  | cons r subs ih =>
    rcases mem_append.mp h with h | h
    · obtain ⟨x, _, rfl⟩ := map_eq_some_iff.mp (mem_toList.mp h)
      exact ⟨n, rfl⟩
    · exact ih h

namespace GraphState
variable {subs : List SubRecord} {st : GraphState}

def resolved (lim : GraphLimits) (w : IdSize) (st : GraphState) : GraphBuilder :=
  resolveBuilder lim w st.layouts st.pending st.b

variable (h : st.Reading lim w subs)
include h

theorem Reading.resolveAll :
    Heap.resolveAll w st.layouts st.pending st.b.nodes = finalNodes w (layoutsOf subs) ∅ subs := by
  rw [h.layouts, h.pending, h.nodes]
  exact resolveAll_readPending (layoutsOf subs) ∅ subs []

theorem Reading.parseIdx : ∀ inst ∈ st.pending, ∃ p, inst.parseIdx = some p := by
  rw [h.pending]
  exact fun _ hinst => parseIdx_readPending hinst

theorem Reading.resolved_bare :
    (st.resolved lim w).nodes.map Node.bare = (finalNodes w (layoutsOf subs) ∅ subs).map Node.bare :=
  (resolveBuilder_bare h.parseIdx rfl).trans (by rw [h.resolveAll])

theorem Reading.resolved_nodes (herr : (st.resolved lim w).err = none) :
    (st.resolved lim w).nodes = finalNodes w (layoutsOf subs) ∅ subs :=
  (resolveBuilder_nodes h.parseIdx herr).2.trans h.resolveAll

end GraphState
end

/-- The layouts in the CLASS_DUMPs of one class, in stream order. -/
def classDumpsOf (c : ℕ) (subs : List SubRecord) : List ClassLayout :=
  subs.filterMap fun
    | .classDump classObjID superID _ instSize _ types =>
      if classObjID = c then some ⟨superID, types, instSize⟩ else none
    | _ => none

private theorem getElem?_foldl_addLayout (L : IdMap ClassLayout) (subs : List SubRecord) (c : ℕ) :
    (subs.foldl addLayout L)[c]? = (classDumpsOf c subs).getLast?.or L[c]? := by
  induction subs generalizing L with
  | nil => rfl
  | cons r subs ih =>
    rw [foldl_cons, ih]
    cases r with
    | classDump classObjID superID loaderID instSize refs types =>
      rw [addLayout, getElem?_insert_eq]
      by_cases hc : classObjID = c
      · simp [classDumpsOf, hc, getLast?_cons]
      · simp [classDumpsOf, hc]
    | _ => simp [classDumpsOf, addLayout]

theorem getElem?_layoutsOf (subs : List SubRecord) (c : ℕ) : (layoutsOf subs)[c]? = (classDumpsOf c subs).getLast? := by
  rw [layoutsOf, getElem?_foldl_addLayout]
  simp

theorem layout_of_one {pre subs : List SubRecord} {c : ℕ} {l : ClassLayout}
    (h : (classDumpsOf c (pre ++ subs)).length = 1) (hl : (layoutsOf pre)[c]? = some l) :
    (layoutsOf (pre ++ subs))[c]? = some l := by
  rw [getElem?_layoutsOf] at hl ⊢
  rw [classDumpsOf, filterMap_append, ← classDumpsOf, ← classDumpsOf] at h ⊢
  have hne : classDumpsOf c pre ≠ [] := by
    intro hnil
    rw [hnil] at hl
    cases hl
  have hnil : classDumpsOf c subs = [] := by
    rw [← length_eq_zero_iff]
    have := length_pos_iff.mpr hne
    rw [length_append] at h
    omega
  rw [hnil, append_nil, hl]

end Spectra.Heap
