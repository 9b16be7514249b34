import Spectra.Heap.Dfs
import Spectra.Heap.LengauerTarjan

/-! Retained-size analysis of an object graph. -/
namespace Spectra.Heap
open Library

/-- The reachable instances of one class. -/
structure ClassRetained where
  className : String
  instances : ℤ
  shallowBytes : ℤ
  retainedBytes : ℤ
  deriving DecidableEq, Repr

/-- An object graph with its dominator tree and retained sizes, in arrays indexed by
preorder number (0 is the super-root). -/
structure RetainedSnapshot (g : ObjectGraph) where
  totalShallowBytes : ℤ
  reachableObjects : ℕ
  reachableBytes : ℤ
  m : ℕ
  pos : NeZero m
  dfnum : Fin g.len → Option (Fin m)
  vertex : Fin m → Option (Fin g.len)
  idom : Fin m → Fin m
  retained : Fin m → ℤ
  childStart : Fin (m + 1) → ℕ
  children : List (Fin m)
  classes : List ClassRetained

/-- A number read back as an index of an array of length `m`. -/
def asIndex (m k : ℕ) : Option (Fin m) := if h : k < m then some ⟨k, h⟩ else none

theorem asIndex_of_lt {m k : ℕ} (h : k < m) : asIndex m k = some ⟨k, h⟩ := dif_pos h

variable (g : ObjectGraph)

/-- The length of `vertex` after the depth-first search. -/
def preorderLen : ℕ := (dfsPreorder g).vertex.length

instance : NeZero (preorderLen g) := ⟨(dfsPreorder_inv g).length_pos.ne'⟩

def preorderDfnum (v : Fin g.len) : Option (Fin (preorderLen g)) :=
  ((dfsPreorder g).dfnum v).bind (asIndex _)

def preorderVertex (d : Fin (preorderLen g)) : Option (Fin g.len) :=
  (dfsPreorder g).vertex[d.val]?.join

def preorderParent (d : Fin (preorderLen g)) : Fin (preorderLen g) :=
  ((dfsPreorder g).parent[d.val]?.join.bind (asIndex _)).getD 0

/-- The (to, from) pairs that `predecessors` counts and then fills in: the references of
every numbered object, then the super-root before every GC root. -/
def predPairs : List (Fin (preorderLen g) × Fin (preorderLen g)) :=
  ((List.finRange (preorderLen g)).drop 1).flatMap (fun d =>
    (preorderVertex g d).elim [] fun v =>
      (g.Out v).filterMap fun w => (preorderDfnum g w).map fun k => (k, d)) ++
  g.roots.filterMap fun r => (preorderDfnum g r).map fun k => (k, 0)

def childPairs {m : ℕ} (idom : Fin m → Fin m) : List (Fin m × Fin m) :=
  ((List.finRange m).drop 1).map fun d => (idom d, d)

section
variable {m : ℕ} [NeZero m]

/-- The two retained-size loops: load the shallow sizes, then add every vertex to its
immediate dominator from the last number down. -/
def loadShallow (shallow : Fin m → ℤ) : Fin m → ℤ :=
  Loop.up 1 (fun d r => Function.update r d (shallow d)) (fun _ => 0)

def accumulate (idom : Fin m → Fin m) (r : Fin m → ℤ) : Fin m → ℤ :=
  Loop.down 1 (fun d r => Function.update r (idom d) (r (idom d) + r d)) r

end

/-- The state of the class walk: aggregates, how many dominators of each class are on the
current path, and the frames of the walk with their next child position. -/
structure AggState (m : ℕ) where
  classes : List ClassRetained
  onPath : List ℤ
  stack : List (Fin m × ℕ)

section
variable {g} {m : ℕ} [NeZero m] (vertex : Fin m → Option (Fin g.len)) (retained : Fin m → ℤ)
  (childStart : Fin (m + 1) → ℕ) (children : List (Fin m))

def aggregateStep (s : AggState m) : AggState m :=
  match s.stack with
  | [] => s
  | (d, next) :: rest =>
    if next = childStart d.succ then
      match vertex d with
      | none => { s with stack := rest }
      | some obj => { s with onPath := s.onPath.modify (g.cls obj) (· - 1), stack := rest }
    else match children[next]? with
      | none => s
      | some c =>
        match vertex c with
        | none => s
        | some obj =>
          let k := g.cls obj
          let fresh := s.onPath.getD k 0 = 0
          { classes := s.classes.modify k fun e =>
              { e with
                instances := e.instances + 1
                shallowBytes := e.shallowBytes + g.shallow obj
                retainedBytes := e.retainedBytes + if fresh then retained c else 0 }
            onPath := s.onPath.modify k (· + 1)
            stack := (c, childStart c.castSucc) :: (d, next + 1) :: rest }

def aggregateLoop : ℕ → AggState m → AggState m
  | 0, s => s
  | fuel + 1, s =>
    if s.stack.isEmpty then s
    else aggregateLoop fuel (aggregateStep vertex retained childStart children s)

/-- Walk the dominator tree, crediting a class with a retained size only when no
dominator above is of the same class. Every number is pushed and popped once. -/
def aggregateClasses : List ClassRetained :=
  (aggregateLoop vertex retained childStart children (2 * m)
    ⟨g.classNames.map fun name => ⟨name, 0, 0, 0⟩, g.classNames.map fun _ => 0,
      [(0, childStart (Fin.castSucc 0))]⟩).classes

end

def preorderShallow (d : Fin (preorderLen g)) : ℤ := (preorderVertex g d).elim 0 g.shallow

def preorderIdom : Fin (preorderLen g) → Fin (preorderLen g) :=
  lengauerTarjan (preorderParent g) (Csr.offsets (predPairs g)) (Csr.items 0 (predPairs g))

def preorderRetained : Fin (preorderLen g) → ℤ :=
  accumulate (preorderIdom g) (loadShallow (preorderShallow g))

def computeRetained : RetainedSnapshot g where
  totalShallowBytes := Loop.up 0 (fun i total => total + g.shallow i) 0
  reachableObjects := preorderLen g - 1
  reachableBytes := preorderRetained g 0
  m := preorderLen g
  pos := inferInstance
  dfnum := preorderDfnum g
  vertex := preorderVertex g
  idom := preorderIdom g
  retained := preorderRetained g
  childStart := Csr.offsets (childPairs (preorderIdom g))
  children := Csr.items 0 (childPairs (preorderIdom g))
  classes := aggregateClasses (preorderVertex g) (preorderRetained g)
    (Csr.offsets (childPairs (preorderIdom g))) (Csr.items 0 (childPairs (preorderIdom g)))

namespace RetainedSnapshot
variable {g} (s : RetainedSnapshot g)

/-- Object `i`'s retained size, or 0 if it is unreachable. -/
def Retained (i : Fin g.len) : ℤ :=
  match s.dfnum i with
  | some d => if 0 < d.val then s.retained d else 0
  | none => 0

def Reachable (i : Fin g.len) : Bool :=
  match s.dfnum i with
  | some d => 0 < d.val
  | none => false

/-- Object `i`'s immediate dominator; `none` is the source's `ok = false`. -/
def ImmediateDominator (i : Fin g.len) : Option (Fin g.len) :=
  match s.dfnum i with
  | some d => if d.val = 0 ∨ (s.idom d).val = 0 then none else s.vertex (s.idom d)
  | none => none

end RetainedSnapshot
end Spectra.Heap
