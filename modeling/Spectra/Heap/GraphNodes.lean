import Spectra.Heap.HprofRecords

/-! What the builder holds, object by object. -/
namespace Spectra.Heap
open Library List

/-- An object as the builder knows it. -/
structure Node where
  id : ℕ
  key : ClassKey
  shallow : ℤ
  refs : List ℕ
  deriving DecidableEq, Repr

def nonNull (refs : List ℕ) : List ℕ := refs.filter fun r => decide (r ≠ 0)

theorem length_nonNull_le (refs : List ℕ) : (nonNull refs).length ≤ refs.length :=
  length_filter_le _ _

namespace GraphBuilder
variable {lim : GraphLimits} {b : GraphBuilder}

def keyAt (b : GraphBuilder) (cls : ℕ) : ClassKey := (b.classes[cls]?.map Prod.fst).getD ⟨0, 0⟩

def run (b : GraphBuilder) (o : RawObject) : List ℕ := (b.rawEdges.drop o.edgeOff).take o.edgeCnt

def node (b : GraphBuilder) (o : RawObject) : Node := ⟨o.id, b.keyAt o.cls, o.shallow, b.run o⟩

def nodes (b : GraphBuilder) : List Node := b.objects.map b.node

variable (b : GraphBuilder)

@[simp] theorem length_nodes : b.nodes.length = b.objects.length :=
  length_map _

theorem modify_middle {α : Type} (l l' : List α) (x : α) (f : α → α) :
    (l ++ x :: l').modify l.length f = l ++ f x :: l' := by
  induction l with
  | nil => rfl
  | cons y l ih => simp [ih]

theorem run_append {edges more : List ℕ} {o : RawObject} (h : o.edgeOff + o.edgeCnt ≤ edges.length) :
    ((edges ++ more).drop o.edgeOff).take o.edgeCnt = (edges.drop o.edgeOff).take o.edgeCnt := by
  rw [drop_append_of_le_length (by omega), take_append_of_le_length]
  rw [length_drop]
  omega

/-- Looking a class up changes the class table only, at its end. -/
structure Extends (b b' : GraphBuilder) : Prop where
  idSize : b'.idSize = b.idSize
  objects : b'.objects = b.objects
  rawEdges : b'.rawEdges = b.rawEdges
  roots : b'.roots = b.roots
  err : b'.err = b.err
  threadBySerial : b'.threadBySerial = b.threadBySerial
  classes : b.classes <+: b'.classes

theorem Extends.refl : b.Extends b :=
  ⟨rfl, rfl, rfl, rfl, rfl, rfl, prefix_rfl⟩

theorem classFor_extends (k : ClassKey) (name : String) : b.Extends (b.classFor k name).1 := by
  rw [classFor]
  split
  · exact .refl b
  · exact ⟨rfl, rfl, rfl, rfl, rfl, rfl, prefix_append _ _⟩

theorem Extends.nodes {b b' : GraphBuilder} (h : b.Extends b') : b'.nodes = b.nodes := by
  rw [GraphBuilder.nodes, h.objects]
  apply map_congr_left
  intro o ho
  obtain ⟨more, hmore⟩ := h.classes
  have hcls : b'.classes[o.cls]? = b.classes[o.cls]? := by
    rw [← hmore, getElem?_append_left (b.cls_lt o ho)]
  simp [node, keyAt, run, h.rawEdges, hcls]

theorem keyAt_classFor (k : ClassKey) (name : String) :
    (b.classFor k name).1.keyAt (b.classFor k name).2 = k := by
  unfold classFor keyAt
  split
  · rename_i i h
    obtain ⟨hi, hk, _⟩ := findIdx?_eq_some_iff_getElem.mp h
    simpa [getElem?_eq_getElem hi] using hk
  · simp

theorem err_limitErr (e : HprofError) (b : GraphBuilder) : (b.limitErr e).err ≠ none := by
  rw [limitErr]
  cases b.err <;> simp

variable (lim : GraphLimits)

/-- The references of object `p` are replaced, or the limit is broken and nothing changes. -/
theorem appendRefs_cases (p : ℕ) {refs : List ℕ} (hrefs : refs ≠ []) (b : GraphBuilder) :
    ((b.appendRefs lim p refs).err = b.err ∧
        b.rawEdges.length + refs.length ≤ lim.maxGraphEdges ∧
        (b.appendRefs lim p refs).rawEdges = b.rawEdges ++ nonNull refs ∧
        (b.appendRefs lim p refs).nodes =
          b.nodes.modify p fun n => { n with refs := nonNull refs }) ∨
      ((b.appendRefs lim p refs).err ≠ none ∧
        lim.maxGraphEdges < b.rawEdges.length + refs.length ∧
        (b.appendRefs lim p refs).rawEdges = b.rawEdges ∧
        (b.appendRefs lim p refs).nodes = b.nodes) := by
  rw [appendRefs, if_neg hrefs]
  split
  · rename_i hlim
    exact .inr ⟨err_limitErr _ _, hlim, rfl, rfl⟩
  · refine .inl ⟨rfl, by omega, rfl, ?_⟩
    apply ext_getElem?
    intro i
    simp only [nodes, getElem?_map, getElem?_modify]
    cases ho : b.objects[i]? with
    | none => simp
    | some o =>
      have hrun := b.run_le o (mem_of_getElem? ho)
      by_cases hi : p = i
      · simp [hi, node, keyAt, run, nonNull]
      · simp [hi, node, keyAt, run, run_append hrun]

theorem nodes_setShallow (p : ℕ) (size : ℤ) (b : GraphBuilder) :
    (b.setShallow p size).nodes = b.nodes.modify p fun n => { n with shallow := size } := by
  apply ext_getElem?
  intro i
  simp only [nodes, setShallow, getElem?_map, getElem?_modify]
  cases b.objects[i]? with
  | none => simp
  | some o =>
    by_cases hi : p = i
    · simp [hi, node, keyAt, run]
    · simp [hi, node, keyAt, run]

/-- What adding objects and references leaves alone. -/
structure SameRoots (b b' : GraphBuilder) : Prop where
  idSize : b'.idSize = b.idSize
  roots : b'.roots = b.roots
  threadBySerial : b'.threadBySerial = b.threadBySerial

theorem SameRoots.trans {a b c : GraphBuilder} (h : a.SameRoots b) (h' : b.SameRoots c) : a.SameRoots c :=
  ⟨h'.1.trans h.1, h'.2.trans h.2, h'.3.trans h.3⟩

theorem appendRefs_sameRoots (p : ℕ) (refs : List ℕ) (b : GraphBuilder) :
    b.SameRoots (b.appendRefs lim p refs) ∧ (b.appendRefs lim p refs).classes = b.classes := by
  unfold appendRefs limitErr
  split
  · exact ⟨⟨rfl, rfl, rfl⟩, rfl⟩
  · split <;> exact ⟨⟨rfl, rfl, rfl⟩, rfl⟩

variable (id : ℕ) (b : GraphBuilder) (cls : Fin b.classes.length) (shallow : ℤ)

theorem addObject_sameRoots (refs : List ℕ) :
    b.SameRoots (b.addObject lim id cls shallow refs).1 ∧
      (b.addObject lim id cls shallow refs).1.classes = b.classes := by
  unfold addObject limitErr
  split
  · exact ⟨⟨rfl, rfl, rfl⟩, rfl⟩
  · obtain ⟨h, hc⟩ := appendRefs_sameRoots lim b.objects.length refs (b.push id cls shallow)
    exact ⟨⟨h.1, h.2, h.3⟩, hc⟩

theorem nodes_push :
    (b.push id cls shallow).nodes = b.nodes ++ [⟨id, b.keyAt cls, shallow, []⟩] := by
  simp [push, nodes, node, keyAt, run]

/-- An object is appended with its references, unless a limit is broken. -/
theorem addObject_ok {id : ℕ} {cls : Fin b.classes.length} {shallow : ℤ} {refs : List ℕ}
    (h : (b.addObject lim id cls shallow refs).1.err = none) :
    b.err = none ∧ (b.addObject lim id cls shallow refs).2 = some b.nodes.length ∧
      b.objects.length < lim.maxGraphObjects ∧
      (refs ≠ [] → b.rawEdges.length + refs.length ≤ lim.maxGraphEdges) ∧
      (b.addObject lim id cls shallow refs).1.rawEdges = b.rawEdges ++ nonNull refs ∧
      (b.addObject lim id cls shallow refs).1.nodes = b.nodes ++ [⟨id, b.keyAt cls, shallow, nonNull refs⟩] := by
  unfold addObject at h ⊢
  split
  · rename_i hlim
    rw [if_pos hlim] at h
    exact absurd h (err_limitErr _ _)
  · rename_i hlim
    rw [if_neg hlim] at h
    have hlen : b.objects.length < lim.maxGraphObjects := by omega
    by_cases hrefs : refs = []
    · subst hrefs
      exact ⟨h, by simp, hlen, by simp, (append_nil _).symm, nodes_push id b cls shallow⟩
    · obtain ⟨herr, hfit, hedges, hnodes⟩ | ⟨herr, _⟩ :=
        appendRefs_cases lim b.objects.length hrefs (b.push id cls shallow)
      · refine ⟨herr ▸ h, by simp, hlen, fun _ => hfit, hedges, ?_⟩
        rw [hnodes, nodes_push, ← length_nodes, modify_middle]
      · exact absurd h herr

end GraphBuilder
end Spectra.Heap
