import Spectra.Heap.Hprof

/-! The graph builder. -/
namespace Spectra.Heap
open Library GoText List

def javaLangClass : String := "java.lang.Class"

/-- The size limits, which are variables of the package. -/
structure GraphLimits where
  maxGraphObjects : ℕ
  maxGraphEdges : ℕ

def defaultLimits : GraphLimits := ⟨2 ^ 31 - 2, 2 ^ 31 - 1⟩

/-- A class-table entry: a dumped class object, or a primitive-array type. -/
structure ClassKey where
  classID : ℕ
  primType : UInt8
  deriving DecidableEq, Repr

/-- One position of the builder's parallel slices. -/
structure RawObject where
  id : ℕ
  cls : ℕ
  shallow : ℤ
  edgeOff : ℕ
  edgeCnt : ℕ
  deriving DecidableEq, Repr

structure RawRoot where
  id : ℕ
  kind : RootKind
  threadSerial : ℕ
  deriving DecidableEq, Repr

/-- `classes` is the class table with the preset names; the class of every object is in it, and
its references are a run of `rawEdges`. -/
structure GraphBuilder where
  idSize : IdSize
  objects : List RawObject
  rawEdges : List ℕ
  roots : List RawRoot
  err : Option HprofError
  threadBySerial : IdMap ℕ
  classes : List (ClassKey × String)
  cls_lt : ∀ o ∈ objects, o.cls < classes.length
  run_le : ∀ o ∈ objects, o.edgeOff + o.edgeCnt ≤ rawEdges.length

def hasThreadSerial : RootKind → Bool
  | .jniLocal | .javaFrame | .nativeStack | .threadBlock | .threadObject | .jniMonitor => true
  | _ => false

theorem of_mem_modify {α : Type} {l : List α} {i : ℕ} {f : α → α} {x : α}
    (h : x ∈ l.modify i f) : ∃ y ∈ l, x = y ∨ x = f y := by
  obtain ⟨j, hj⟩ := mem_iff_getElem?.mp h
  rw [getElem?_modify] at hj
  obtain ⟨y, hy, rfl⟩ := Option.map_eq_some_iff.mp hj
  refine ⟨y, mem_of_getElem? hy, ?_⟩
  split
  · exact .inr rfl
  · exact .inl rfl

namespace GraphBuilder

def new (w : IdSize) : GraphBuilder := ⟨w, [], [], [], none, ∅, [], by simp, by simp⟩

/-- The class index of a key, which is new if the key is. -/
def classFor (k : ClassKey) (presetName : String) (b : GraphBuilder) :
    (b : GraphBuilder) × Fin b.classes.length :=
  match h : b.classes.findIdx? fun c => c.1 = k with
  | some i => ⟨b, i, (List.findIdx?_eq_some_iff_getElem.mp h).1⟩
  | none =>
    ⟨{ b with
        classes := b.classes ++ [(k, presetName)]
        cls_lt := fun o ho => by
          have := b.cls_lt o ho
          simp only [List.length_append]
          omega },
      b.classes.length, by simp⟩

/-- `b.err` keeps the first violation. -/
def limitErr (e : HprofError) (b : GraphBuilder) : GraphBuilder := { b with err := b.err <|> some e }

/-- Set the references of object `p`, without the null ones. -/
def appendRefs (lim : GraphLimits) (p : ℕ) (refs : List ℕ) (b : GraphBuilder) : GraphBuilder :=
  if refs = [] then b
  else if lim.maxGraphEdges < b.rawEdges.length + refs.length then
    b.limitErr (.other ("hprof: heap has more than " ++ itoa lim.maxGraphEdges ++
      " references, which exceeds the supported maximum"))
  else
    let kept := refs.filter fun r => decide (r ≠ 0)
    { b with
      objects := b.objects.modify p fun o =>
        { o with edgeOff := b.rawEdges.length, edgeCnt := kept.length }
      rawEdges := b.rawEdges ++ kept
      cls_lt := fun o ho => by
        obtain ⟨o', ho', rfl | rfl⟩ := of_mem_modify ho
        · exact b.cls_lt o ho'
        · exact b.cls_lt o' ho'
      run_le := fun o ho => by
        rw [List.length_append]
        obtain ⟨o', ho', rfl | rfl⟩ := of_mem_modify ho
        · exact (b.run_le o ho').trans (Nat.le_add_right _ _)
        · exact le_rfl }

/-- The appends of `addObject` to the parallel slices. -/
def push (id : ℕ) (b : GraphBuilder) (cls : Fin b.classes.length) (shallow : ℤ) : GraphBuilder :=
  { b with
    objects := b.objects ++ [⟨id, cls, shallow, b.rawEdges.length, 0⟩]
    cls_lt := fun o ho => by
      rcases List.mem_append.mp ho with ho | ho
      · exact b.cls_lt o ho
      · rw [List.mem_singleton.mp ho]
        exact cls.isLt
    run_le := fun o ho => by
      rcases List.mem_append.mp ho with ho | ho
      · exact b.run_le o ho
      · rw [List.mem_singleton.mp ho]
        exact le_rfl }

/-- The builder with the object appended, and its parse-order index; none past the limit. -/
def addObject (lim : GraphLimits) (id : ℕ) (b : GraphBuilder) (cls : Fin b.classes.length)
    (shallow : ℤ) (refs : List ℕ) : GraphBuilder × Option ℕ :=
  if lim.maxGraphObjects ≤ b.objects.length then
    (b.limitErr (.other ("hprof: heap has more than " ++ itoa lim.maxGraphObjects ++
      " objects, which exceeds the supported maximum")), none)
  else
    ((b.push id cls shallow).appendRefs lim b.objects.length refs, some b.objects.length)

def setShallow (p : ℕ) (size : ℤ) (b : GraphBuilder) : GraphBuilder :=
  { b with
    objects := b.objects.modify p fun o => { o with shallow := size }
    cls_lt := fun o ho => by
      obtain ⟨o', ho', rfl | rfl⟩ := of_mem_modify ho
      · exact b.cls_lt o ho'
      · exact b.cls_lt o' ho'
    run_le := fun o ho => by
      obtain ⟨o', ho', rfl | rfl⟩ := of_mem_modify ho
      · exact b.run_le o ho'
      · exact b.run_le o' ho' }

def addRoot (kind : RootKind) (objID serial : ℕ) (b : GraphBuilder) : GraphBuilder :=
  if objID = 0 then b
  else
    { b with
      threadBySerial :=
        if kind = .threadObject then b.threadBySerial.insert serial objID else b.threadBySerial
      roots := b.roots ++ [⟨objID, kind, serial⟩] }

end GraphBuilder

/-- `sort.Search` for the first id that is not smaller, which must be the one looked for. -/
def searchID {n : ℕ} (ids : Fin n → ℕ) (id : ℕ) : Option (Fin n) :=
  ((List.finRange n).find? fun k => decide (id ≤ ids k)).filter fun k => decide (ids k = id)

section
variable (objects : List RawObject)

def sortedIDs (i : Fin objects.length) : ℕ := objects[i].id

def resolvedRun (rawEdges : List ℕ) (o : RawObject) : List (Fin objects.length) :=
  ((rawEdges.drop o.edgeOff).take o.edgeCnt).filterMap (searchID (sortedIDs objects))

def resolveEdges (rawEdges : List ℕ) : List (List (Fin objects.length)) :=
  objects.map (resolvedRun objects rawEdges)

def resolveRoots (raw : List RawRoot) (threadBySerial : IdMap ℕ) : List (GCRoot objects.length) :=
  raw.filterMap fun r => (searchID (sortedIDs objects) r.id).map fun i =>
    ⟨i, r.kind, if hasThreadSerial r.kind ∧ r.kind ≠ .threadObject then threadBySerial[r.threadSerial]?.getD 0 else 0⟩

end

/-- The last loop of `build`: the class objects and the names of their classes. -/
def classObjects {n : ℕ} (ids : Fin n → ℕ) (className : Fin n → String) :
    List (ClassKey × String) → (Fin n → Option String) → Fin n → Option String
  | [], classObjOf => classObjOf
  | (k, name) :: classes, classObjOf =>
    classObjects ids className classes <|
      if k.primType ≠ 0 ∨ k.classID = 0 then classObjOf
      else
        match searchID ids k.classID with
        | none => classObjOf
        | some obj =>
          if className obj = javaLangClass then Function.update classObjOf obj (some name)
          else classObjOf

theorem outStart_mono {α : Type} (runs : List (List α)) : Monotone fun i : ℕ => ((runs.take i).map length).sum := by
  apply monotone_nat_of_le_succ
  intro i
  rw [take_add_one, map_append, sum_append]
  exact Nat.le_add_right _ _

/-- Sort the objects by id, resolve references to indices and name the classes. -/
def GraphBuilder.build (sort : SliceSort RawObject.id) (names : ClassKey → String)
    (unresolved : ℕ) (b : GraphBuilder) : ObjectGraph :=
  let objects := sort.sort b.objects
  let runs := resolveEdges objects b.rawEdges
  let classNames := b.classes.map fun c => if c.2 = "" then names c.1 else c.2
  let gcRoots := resolveRoots objects b.roots b.threadBySerial
  { idSize := b.idSize.bytes
    unresolved := unresolved
    len := objects.length
    ids := sortedIDs objects
    cls := fun i => objects[i].cls
    shallow := fun i => objects[i].shallow
    outStart := fun i => ((runs.take i).map List.length).sum
    out := runs.flatten
    roots := (gcRoots.map GCRoot.object).foldl addNew []
    gcRoots := (SliceSort.stable GCRoot.object).sort gcRoots
    classNames := classNames
    classObjOf := classObjects (sortedIDs objects) (fun i => classNames[objects[i].cls]?.getD "")
      ((b.classes.map Prod.fst).zip classNames) fun _ => none
    outStart_mono := fun _ _ h => Heap.outStart_mono runs h
    outStart_last := by
      rw [List.length_flatten, List.take_of_length_le]
      simp [runs, resolveEdges]
    roots_nodup := (Library.foldl_addNew _ _).1 List.nodup_nil
    cls_lt := fun i => by
      rw [List.length_map]
      exact b.cls_lt _ (sort.mem_sort.mp (List.getElem_mem _)) }

end Spectra.Heap
