import Spectra.Heap.GraphBuild
import Spectra.Heap.InstanceRefs
import Spectra.Heap.ParserRecords

/-! The references of the dumped objects are the edges of the graph. -/
namespace Spectra.Heap
open Library List GraphState GraphBuilder

/-- The layout of a class, if it has a CLASS_DUMP and all of them say the same. -/
def layoutIn (subs : List SubRecord) (c : ℕ) : Option ClassLayout :=
  match classDumpsOf c subs with
  | [] => none
  | l :: ls => if ∀ l' ∈ ls, l' = l then some l else none

/-- The object of a sub-record and its references in order, null ones included, where the
layouts of its class chain are in the dump. -/
inductive References (w : IdSize) (subs : List SubRecord) : SubRecord → ℕ → List ℕ → Prop
  | classDump {id superID loaderID instSize : ℕ} {refs : List ℕ} {types : List UInt8} :
      References w subs (.classDump id superID loaderID instSize refs types) id
        (superID :: loaderID :: refs)
  | instanceDump {id c : ℕ} {fields : List UInt8} {ls : List ClassLayout} :
      Chain (layoutIn subs) c ls → References w subs (.instanceDump id c fields) id
        (c :: objectFields w (ls.flatMap ClassLayout.fieldTypes) fields)
  | objectArrayDump {id c : ℕ} {elems : List ℕ} :
      References w subs (.objectArrayDump id c elems) id elems
  | primArrayDump {id numElems : ℕ} {elemType : UInt8} :
      References w subs (.primArrayDump id numElems elemType) id []

def SubRecord.objectID : SubRecord → Option ℕ
  | .root _ _ _ => none
  | .heapDumpInfo => none
  | .classDump id _ _ _ _ _ => some id
  | .instanceDump id _ _ => some id
  | .objectArrayDump id _ _ => some id
  | .primArrayDump id _ _ => some id

open SubRecord

/-- Every reference to a dumped object is an edge, in order and with multiplicity. -/
def HasReferences (w : IdSize) (subs : List SubRecord) (g : ObjectGraph) : Prop :=
  ∀ r ∈ subs, ∀ id refs, References w subs r id refs → ∃ i, g.ids i = id ∧
    (g.Out i).map g.ids =
      refs.filter fun t => decide (t ≠ 0 ∧ t ∈ subs.filterMap SubRecord.objectID)

/-- The references of the objects, whatever part of them is taken, number at most `max`. -/
def ReferencesWithin (max : ℕ) (w : IdSize) (subs : List SubRecord) : Prop :=
  ∀ refsOf : SubRecord → List ℕ,
    (∀ r ∈ subs, refsOf r = [] ∨ ∃ id, References w subs r id (refsOf r)) →
    (subs.map fun r => (nonNull (refsOf r)).length).sum ≤ max

/-- Lists of references that fit one after the other, beginning with `n` edges; null references
count only where they are added. -/
def Fits (max : ℕ) : ℕ → List (List ℕ) → Prop
  | _, [] => True
  | n, refs :: rest => n + refs.length ≤ max ∧ Fits max (n + (nonNull refs).length) rest

instance Fits.decidable (max : ℕ) : (n : ℕ) → (rest : List (List ℕ)) → Decidable (Fits max n rest)
  | _, [] => isTrue trivial
  | n, refs :: rest =>
    have := Fits.decidable max (n + (nonNull refs).length) rest
    inferInstanceAs (Decidable (_ ∧ _))

/-- The references of the instances that wait for a layout which the dump has. -/
def deferredRefs (w : IdSize) (all : IdMap ClassLayout) (pending : List PendingInstance) :
    List (List ℕ) :=
  pending.filterMap fun inst =>
    all[inst.classID]?.map fun _ => (instanceRefs w all inst.classID inst.fields).1

/-- The references of the instances that precede a CLASS_DUMP of their chain, added in stream
order to those of all other objects, stay within the edge limit. -/
def Dump.DeferredFit (lim : GraphLimits) (d : Dump) : Prop :=
  Fits lim.maxGraphEdges
    ((readNodes d.idSize ∅ d.subRecords).map fun n => n.refs.length).sum
    (deferredRefs d.idSize (layoutsOf d.subRecords) (readPending d.idSize ∅ 0 d.subRecords))

open Dump

instance (lim : GraphLimits) (d : Dump) : Decidable (d.DeferredFit lim) :=
  Fits.decidable _ _ _

section
variable {lim : GraphLimits} {w : IdSize} {all : IdMap ClassLayout}

/-- `finalize` breaks no limit exactly where the instances that waited fit. -/
theorem resolveBuilder_err_iff {pending : List PendingInstance} {b : GraphBuilder}
    (hp : ∀ inst ∈ pending, ∃ p, inst.parseIdx = some p) (hb : b.err = none) :
    (resolveBuilder lim w all pending b).err = none ↔
      Fits lim.maxGraphEdges b.rawEdges.length (deferredRefs w all pending) := by
  induction pending generalizing b with
  | nil => exact ⟨fun _ => trivial, fun _ => hb⟩
  | cons inst pending ih =>
    obtain ⟨p, hinst⟩ := hp inst mem_cons_self
    have hp' := fun i hi => hp i (.tail _ hi)
    change (resolveBuilder lim w all pending (resolvePending lim w all inst b)).err = none ↔ _
    cases hl : all[inst.classID]? with
    | none =>
      have hrefs : deferredRefs w all (inst :: pending) = deferredRefs w all pending := by
        simp [deferredRefs, hl]
      rw [resolvePending, hl, hrefs]
      exact ih hp' hb
    | some layout =>
      have hrefs : deferredRefs w all (inst :: pending) =
          (instanceRefs w all inst.classID inst.fields).1 :: deferredRefs w all pending := by
        simp [deferredRefs, hl]
      rw [resolvePending, hl, hinst, hrefs, Fits]
      obtain ⟨herr, hfit, hedges, _⟩ | ⟨herr, hlim, _⟩ := appendRefs_cases lim p
        (instanceRefs_ne_nil (w := w) all inst.classID inst.fields)
        (b.setShallow p layout.instSize)
      · rw [ih hp' (herr.trans hb), hedges, length_append]
        exact (and_iff_right hfit).symm
      · refine iff_of_false (fun h => herr (resolveBuilder_nodes hp' h).1) fun h => ?_
        exact absurd h.1 (not_le.mpr hlim)

theorem Fits.sum_le {max n : ℕ} {rest : List (List ℕ)} (h : Fits max n rest)
    (hn : n ≤ max) : n + (rest.map fun refs => (nonNull refs).length).sum ≤ max := by
  induction rest generalizing n with
  | nil => exact hn
  | cons refs rest ih =>
    have := ih h.2 ((Nat.add_le_add_left (length_nonNull_le _) _).trans h.1)
    rw [map_cons, sum_cons, ← Nat.add_assoc]
    exact this

private theorem sum_refs_finalNodes (L : IdMap ClassLayout) (n : ℕ) (subs : List SubRecord) :
    ((finalNodes w all L subs).map fun n => n.refs.length).sum =
      ((readNodes w L subs).map fun n => n.refs.length).sum +
        ((deferredRefs w all (readPending w L n subs)).map fun refs => (nonNull refs).length).sum := by
  induction subs generalizing L n with
  | nil => rfl
  | cons r subs ih =>
    rw [finalNodes, readNodes, readPending, map_append, sum_append, map_append,
      sum_append, deferredRefs, filterMap_append, map_append, sum_append,
      ← deferredRefs, ← deferredRefs, ih _ (n + (r.node w L).toList.length)]
    have hr : ((r.finalNode w all L).toList.map fun n => n.refs.length).sum =
        ((r.node w L).toList.map fun n => n.refs.length).sum +
          ((deferredRefs w all ((r.deferred w L).map fun x =>
            PendingInstance.mk (some n) x.1 x.2).toList).map fun refs =>
              (nonNull refs).length).sum := by
      cases r with
      | instanceDump objID c fields =>
        cases hl : settled w L c fields with
        | some l =>
          rw [finalNode_settled hl]
          simp only [SubRecord.node, deferred, hl]
          rfl
        | none =>
          rw [finalNode_deferred hl]
          simp only [SubRecord.node, deferred, hl]
          cases hall : all[c]? <;> simp [resolveNode, deferredRefs, hall]
      | _ => rfl
    omega

end

section
variable {w : IdSize} {all : IdMap ClassLayout} (L : IdMap ClassLayout)

private theorem finalNodes_append (xs ys : List SubRecord) :
    finalNodes w all L (xs ++ ys) = finalNodes w all L xs ++ finalNodes w all (xs.foldl addLayout L) ys := by
  induction xs generalizing L with
  | nil => rfl
  | cons x xs ih => simp [finalNodes, ih]

variable {pre : List SubRecord}

private theorem mem_finalNodes (post : List SubRecord) {r : SubRecord} {n : Node}
    (h : r.finalNode w all (layoutsOf pre) = some n) : n ∈ finalNodes w all ∅ (pre ++ r :: post) := by
  rw [finalNodes_append, finalNodes, ← layoutsOf, h]
  simp

private theorem finalNode_id (r : SubRecord) : (r.finalNode w all L).map Node.id = r.objectID := by
  cases r with
  | instanceDump objID c fields =>
    cases hl : settled w L c fields with
    | some l =>
      rw [finalNode_settled hl]
      rfl
    | none =>
      rw [finalNode_deferred hl, resolveNode]
      cases all[c]? <;> rfl
  | _ => rfl

theorem map_id_finalNodes (subs : List SubRecord) :
    (finalNodes w all L subs).map Node.id = subs.filterMap objectID := by
  induction subs generalizing L with
  | nil => rfl
  | cons r subs ih =>
    rw [finalNodes, map_append, ih, filterMap_cons, ← finalNode_id L r]
    cases r.finalNode w all L <;> rfl

variable {subs : List SubRecord} {l : ClassLayout}

private theorem layoutIn_eq {c : ℕ} {l' : ClassLayout} (h : layoutIn subs c = some l)
    (hl' : l' ∈ classDumpsOf c subs) : l' = l := by
  rw [layoutIn] at h
  split at h
  · cases h
  · rename_i heq
    split at h
    · rename_i hsame
      cases h
      rw [heq] at hl'
      rcases mem_cons.mp hl' with rfl | hl'
      · rfl
      · exact hsame l' hl'
    · cases h

private theorem layoutsOf_sub {post : List SubRecord} {c : ℕ} {l' : ClassLayout}
    (h : layoutIn (pre ++ post) c = some l) (hl' : (layoutsOf pre)[c]? = some l') : l' = l := by
  apply layoutIn_eq h
  rw [getElem?_layoutsOf] at hl'
  rw [classDumpsOf, filterMap_append]
  exact mem_append_left _ (mem_of_getLast? hl')

theorem layoutsOf_ne_none {c : ℕ} (h : layoutIn subs c = some l) : (layoutsOf subs)[c]? ≠ none := by
  rw [getElem?_layoutsOf]
  intro hnone
  rw [getLast?_eq_none_iff] at hnone
  simp [layoutIn, hnone] at h

/-- The object that the graph has for a sub-record carries its references. -/
theorem finalNode_references {post : List SubRecord} {r : SubRecord} {id : ℕ} {refs : List ℕ}
    (h : References w (pre ++ r :: post) r id refs) :
    ∃ key shallow, r.finalNode w (layoutsOf (pre ++ r :: post)) (layoutsOf pre) =
      some ⟨id, key, shallow, nonNull refs⟩ := by
  cases h with
  | classDump | objectArrayDump | primArrayDump => exact ⟨_, _, rfl⟩
  | @instanceDump id c fields ls hchain =>
    have hsub : ∀ (pre' post' : List SubRecord), pre ++ .instanceDump id c fields :: post =
        pre' ++ post' → ∀ d ∈ Chain.classes c ls, ∀ l, (layoutsOf pre')[d]? = some l →
        layoutIn (pre ++ .instanceDump id c fields :: post) d = some l := by
      intro pre' post' heq d hd l hl
      obtain ⟨l', hl'⟩ := hchain.known hd
      rw [heq] at hl' ⊢
      rw [layoutsOf_sub hl' hl, hl']
    cases hl : settled w (layoutsOf pre) c fields with
    | some l =>
      have hdone := (Option.filter_eq_some_iff.mp hl).2
      rw [finalNode_settled hl, instanceRefs_of_chain hchain (hsub _ _ rfl) (.inl hdone)]
      exact ⟨_, _, rfl⟩
    | none =>
      rw [finalNode_deferred hl]
      have hrefs : instanceRefs w _ c fields = _ := instanceRefs_of_chain hchain
        (hsub _ [] (append_nil _).symm) (.inr fun d hd => by
          obtain ⟨l', hl'⟩ := hchain.known hd
          exact layoutsOf_ne_none hl')
      rw [resolveNode]
      cases hall : (layoutsOf (pre ++ .instanceDump id c fields :: post))[c]? with
      | some l =>
        rw [hrefs]
        exact ⟨_, _, rfl⟩
      | none =>
        cases hchain with
        | root => exact ⟨_, _, rfl⟩
        | cls _ hl' _ => exact absurd hall (layoutsOf_ne_none hl')

private theorem sum_references_le {all : List SubRecord} (hall : pre ++ subs = all) {refsOf : SubRecord → List ℕ}
    (h : ∀ r ∈ all, refsOf r = [] ∨ ∃ id, References w all r id (refsOf r)) :
    (subs.map fun r => (nonNull (refsOf r)).length).sum ≤
      ((finalNodes w (layoutsOf all) (layoutsOf pre) subs).map fun n => n.refs.length).sum := by
  induction subs generalizing pre with
  | nil => exact le_rfl
  | cons r subs ih =>
    rw [map_cons, finalNodes, map_append, sum_append, addLayout_layoutsOf]
    refine Nat.add_le_add ?_ (ih (by rw [append_assoc]; exact hall))
    subst hall
    obtain hnil | ⟨id, href⟩ := h r (by simp)
    · rw [hnil]
      exact Nat.zero_le _
    · obtain ⟨key, shallow, hnode⟩ := finalNode_references href
      rw [hnode]
      simp

end

theorem GraphState.Reading.deferredFit_iff {d : Dump} {lim : GraphLimits}
    (hread : (d.graphState lim).Reading lim d.idSize d.subRecords)
    (herr : (d.graphState lim).b.err = none) :
    d.DeferredFit lim ↔ ((d.graphState lim).resolved lim d.idSize).err = none := by
  rw [resolved, resolveBuilder_err_iff hread.parseIdx herr, hread.layouts, hread.pending,
    hread.edges]
  rfl

/-- The graph of an accepted stream has every reference between dumped objects, and no more than
the limit allows, where the instances that wait for a layout fit the edge limit; elsewhere
`finalize` leaves some out and sets an error that is never looked at. -/
theorem graph_has_references (lim : GraphLimits) (sort : SliceSort RawObject.id) (bs : List UInt8) :
    (∃ e, parseObjectGraph lim sort bs = .error e) ∨
      ∃ d g, Dump.ofBytes bs = .ok d ∧ parseObjectGraph lim sort bs = .ok g ∧
        (d.DeferredFit lim ↔ ((d.graphState lim).resolved lim d.idSize).err = none) ∧
        (d.DeferredFit lim → HasReferences d.idSize d.subRecords g ∧
          ReferencesWithin lim.maxGraphEdges d.idSize d.subRecords) := by
  cases hg : parseObjectGraph lim sort bs with
  | error e => exact .inl ⟨e, rfl⟩
  | ok g =>
    obtain ⟨d, rest, hdec, ⟨herr, _⟩, rfl⟩ := parseObjectGraph_ok hg
    have hd : ofBytes bs = .ok d := by rw [ofBytes, hdec]; rfl
    have hread : (d.graphState lim).Reading lim d.idSize d.subRecords :=
      reading_records d.records herr
    have hfits := hread.deferredFit_iff herr
    refine .inr ⟨d, _, hd, rfl, hfits, fun hfit => ⟨?_, ?_⟩⟩
    · have hnodes := hread.resolved_nodes (hfits.mp hfit)
      have hids : ((d.graphState lim).resolved lim d.idSize).objects.map RawObject.id =
          d.subRecords.filterMap objectID := by
        rw [← map_id_finalNodes ∅ d.subRecords]
        refine Eq.trans ?_ (congrArg (map Node.id) hnodes)
        rw [nodes, map_map]
        rfl
      intro r hr id refs href
      obtain ⟨pre, post, hsplit⟩ := append_of_mem hr
      rw [hsplit] at href
      obtain ⟨key, shallow, hnode⟩ := finalNode_references href
      have hmem := mem_finalNodes post hnode
      rw [← hsplit] at hmem
      obtain ⟨o, ho, hon⟩ := mem_map.mp (hnodes ▸ hmem)
      obtain ⟨i, hi⟩ := exists_index sort (d.graphState lim).className
        ((d.graphState lim).pending.countP fun inst => (d.graphState lim).layouts[inst.classID]?.isNone) _ ho
      have hrun : ((d.graphState lim).resolved lim d.idSize).run o = nonNull refs :=
        congrArg Node.refs hon
      refine ⟨i, hi.id.trans (congrArg Node.id hon), hi.out.trans ?_⟩
      rw [hrun, nonNull, filter_filter, hids]
      simp [Bool.and_comm]
    · intro refsOf hrefs
      have hsum := sum_references_le (w := d.idSize) (nil_append d.subRecords) hrefs
      refine hsum.trans ?_
      have hedges : ((readNodes d.idSize ∅ d.subRecords).map fun n => n.refs.length).sum ≤
          lim.maxGraphEdges := hread.edges ▸ hread.edges_le
      exact (sum_refs_finalNodes ∅ 0 d.subRecords).trans_le (Fits.sum_le hfit hedges)

/-- One instance that precedes its CLASS_DUMP and refers twice to itself. -/
def selfReferringDump : List UInt8 :=
  emptyDump ++ recordBytes 0x1C (instanceDumpBytes 16 1 [16, 16] ++ classDumpBytes 1 24 [2, 2])

theorem ofBytes_selfReferringDump : ofBytes selfReferringDump =
    .ok ⟨.four, [.heapDump [.instanceDump 16 1 [0, 0, 0, 16, 0, 0, 0, 16], .classDump 1 0 0 24 [] [2, 2]]]⟩ := by
  decide +kernel

theorem graph_has_references_fit :
    (∃ e, parseObjectGraph defaultLimits default selfReferringDump = .error e) ∨
      ∃ d g, Dump.ofBytes selfReferringDump = .ok d ∧
        parseObjectGraph defaultLimits default selfReferringDump = .ok g ∧
        HasReferences d.idSize d.subRecords g ∧ ReferencesWithin defaultLimits.maxGraphEdges d.idSize d.subRecords := by
  obtain herr | ⟨d, g, hd, hg, -, hhas⟩ :=
    graph_has_references defaultLimits default selfReferringDump
  · exact .inl herr
  · refine .inr ⟨d, g, hd, hg, hhas ?_⟩
    rw [ofBytes_selfReferringDump] at hd
    cases hd
    decide +kernel

/-- With room for two references the three of the instance are dropped, and the stream is
accepted all the same. -/
theorem graph_loses_references :
    ∃ d g, Dump.ofBytes selfReferringDump = .ok d ∧
      parseObjectGraph ⟨10, 2⟩ default selfReferringDump = .ok g ∧
      ¬ HasReferences d.idSize d.subRecords g ∧ ¬ ReferencesWithin 2 d.idSize d.subRecords := by
  have hout : (parseObjectGraph ⟨10, 2⟩ default selfReferringDump).toOption.map
      (fun g => g.out.isEmpty) = some true := by
    decide +kernel
  cases hg : parseObjectGraph ⟨10, 2⟩ default selfReferringDump with
  | error e =>
    rw [hg] at hout
    cases hout
  | ok g =>
    rw [hg] at hout
    have hnil : g.out = [] := by simpa [Except.toOption] using hout
    have href : References .four [.instanceDump 16 1 [0, 0, 0, 16, 0, 0, 0, 16],
        .classDump 1 0 0 24 [] [2, 2]] (.instanceDump 16 1 [0, 0, 0, 16, 0, 0, 0, 16]) 16
        [1, 16, 16] :=
      .instanceDump (.cls (c := 1) (l := ⟨0, [2, 2], 24⟩) (by decide) rfl .root)
    refine ⟨_, g, ofBytes_selfReferringDump, rfl, fun h => ?_, fun h => ?_⟩
    · obtain ⟨i, _, hi⟩ := h _ (by simp [subRecords, Record.subRecords]) 16 _ href
      simp [ObjectGraph.Out, Csr.slice, hnil, subRecords, Record.subRecords, objectID] at hi
    · have := h (fun r => if r = .instanceDump 16 1 [0, 0, 0, 16, 0, 0, 0, 16] then [1, 16, 16]
        else []) (by
          intro r _
          by_cases hr : r = .instanceDump 16 1 [0, 0, 0, 16, 0, 0, 0, 16]
          · subst hr
            exact .inr ⟨16, href⟩
          · exact .inl (if_neg hr))
      revert this
      decide +kernel

end Spectra.Heap
