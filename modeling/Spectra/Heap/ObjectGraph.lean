import Spectra.Library.Csr

/-! The parsed object reference graph in its int32-indexed form. -/
namespace Spectra.Heap

/-- Why the JVM treats an object as a GC root. -/
inductive RootKind where
  | unknown | jniGlobal | jniLocal | javaFrame | nativeStack | stickyClass | threadBlock
  | monitorUsed | threadObject | internedString | finalizing | debugger | referenceCleanup
  | vmInternal | jniMonitor
  deriving DecidableEq, Repr

/-- One GC-root record; `threadID` is 0 when the dump does not name the thread. -/
structure GCRoot (len : ℕ) where
  object : Fin len
  kind : RootKind
  threadID : ℕ
  deriving DecidableEq, Repr

/-- Objects are numbered `0 .. len-1`; out-edges are stored CSR-style, so that the run of
object `i` is `out[outStart[i] : outStart[i+1]]`. The laws are what the builder ensures. -/
structure ObjectGraph where
  idSize : ℕ
  unresolved : ℕ
  len : ℕ
  ids : Fin len → ℕ
  cls : Fin len → ℕ
  shallow : Fin len → ℤ
  outStart : Fin (len + 1) → ℕ
  out : List (Fin len)
  roots : List (Fin len)
  gcRoots : List (GCRoot len)
  classNames : List String
  classObjOf : Fin len → Option String
  outStart_mono : Monotone outStart
  outStart_last : outStart (Fin.last len) = out.length
  roots_nodup : roots.Nodup
  cls_lt : ∀ i, cls i < classNames.length

namespace ObjectGraph
variable (g : ObjectGraph)

/-- The objects that object `i` references, in order and with multiplicity. -/
def Out (i : Fin g.len) : List (Fin g.len) :=
  Library.Csr.slice g.outStart g.out i

/-- The class name of object `i`, `java.lang.Class` for class objects. -/
def ClassName (i : Fin g.len) : String := g.classNames.get ⟨g.cls i, g.cls_lt i⟩

/-- The class name of object `i`, or "class X" for the class object of X. -/
def DisplayName (i : Fin g.len) : String :=
  match g.classObjOf i with
  | some name => "class " ++ name
  | none => g.ClassName i

def Edge (u v : Fin g.len) : Prop := v ∈ g.Out u

instance (u v : Fin g.len) : Decidable (g.Edge u v) := inferInstanceAs (Decidable (v ∈ g.Out u))

theorem mem_Out {u v : Fin g.len} : v ∈ g.Out u ↔
    ∃ i, g.outStart u.castSucc ≤ i ∧ i < g.outStart u.succ ∧ g.out[i]? = some v :=
  Library.Csr.mem_slice

end ObjectGraph

/-- A holder of a list of three nodes, the last of which has a leaf. -/
def listGraph : ObjectGraph where
  idSize := 8
  unresolved := 0
  len := 5
  ids i := i.val + 1
  cls := List.get [0, 1, 1, 1, 2]
  shallow := List.get [5, 10, 10, 10, 1]
  outStart := List.get [0, 1, 2, 3, 4, 4]
  out := [1, 2, 3, 4]
  roots := [0]
  gcRoots := [⟨0, .jniGlobal, 0⟩]
  classNames := ["Holder", "Node", "Leaf"]
  classObjOf _ := none
  outStart_mono := by
    intro i j
    revert i j
    decide
  outStart_last := rfl
  roots_nodup := by decide
  cls_lt := by decide

end Spectra.Heap
