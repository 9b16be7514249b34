import Mathlib.Data.Rat.Floor
import Spectra.Heap.Paths
import Spectra.Heap.TopRetained

/-! The automated leak-suspects report. -/
namespace Spectra.Heap
open Library

def accumulationRatio : ℚ := 8 / 10

/-- The object inside a suspect's subtree where retained memory fans out. -/
structure AccumulationPoint where
  id : ℕ
  className : String
  retainedBytes : ℤ
  percentOfHeap : ℚ
  directChildren : ℕ
  depth : ℕ

inductive SuspectKind where
  | object | cls
  deriving DecidableEq, Repr

structure LeakSuspect (len : ℕ) where
  kind : SuspectKind
  className : String
  id : ℕ
  instances : ℤ
  retainedBytes : ℤ
  percentOfHeap : ℚ
  accumulation : Option AccumulationPoint
  pathToRoot : Option (RootPath len)
  description : String

/-- Largest retained size first, then class name, then id. -/
def LeakSuspect.order {len : ℕ} (x : LeakSuspect len) : Lex (ℤ × Lex (String × ℕ)) :=
  toLex (-x.retainedBytes, toLex (x.className, x.id))

section

def RootKind.text : RootKind → String
  | .unknown => "unknown"
  | .jniGlobal => "jni_global"
  | .jniLocal => "jni_local"
  | .javaFrame => "java_frame"
  | .nativeStack => "native_stack"
  | .stickyClass => "sticky_class"
  | .threadBlock => "thread_block"
  | .monitorUsed => "monitor_used"
  | .threadObject => "thread_object"
  | .internedString => "interned_string"
  | .finalizing => "finalizing"
  | .debugger => "debugger"
  | .referenceCleanup => "reference_cleanup"
  | .vmInternal => "vm_internal"
  | .jniMonitor => "jni_monitor"

/-- The method `String`: the kinds of root once each, then the steps. -/
def RootPath.text {len : ℕ} (p : RootPath len) : String :=
  let kinds := p.roots.foldl (fun seen r => if r.kind ∈ seen then seen else seen ++ [r.kind]) []
  let steps := p.steps.map fun st => st.className ++ " (0x" ++ GoText.hex st.id ++ ")"
  "[" ++ ", ".intercalate (kinds.map RootKind.text) ++ "] " ++ " → ".intercalate steps

/-- The loop of `formatBytes`, which an int64 leaves after five rounds at the latest. -/
def unitLoop : ℕ → ℤ → ℤ × ℕ → ℤ × ℕ
  | 0, _, unit => unit
  | fuel + 1, m, (div, exp) =>
    if 1024 ≤ m then unitLoop fuel (m / 1024) (div * 1024, exp + 1) else (div, exp)

/-- `fixed1` prints a number as `%.1f`. -/
def formatBytes (fixed1 : ℚ → String) (n : ℤ) : String :=
  if n < 1024 then GoText.itoa n ++ " B"
  else
    let (div, exp) := unitLoop 5 (n / 1024) (1024, 0)
    fixed1 (n / div) ++ " " ++ ["K", "M", "G", "T", "P", "E"].getD exp "" ++ "iB"

def describeObjectSuspect {len : ℕ} (fixed1 : ℚ → String) (ls : LeakSuspect len) : String :=
  ls.className ++ " (0x" ++ GoText.hex ls.id ++ ") retains " ++ formatBytes fixed1 ls.retainedBytes ++
    " (" ++ fixed1 ls.percentOfHeap ++ "% of the reachable heap)." ++
  (match ls.accumulation with
    | none => ""
    | some acc =>
      if 0 < acc.depth then
        " Memory accumulates in " ++ acc.className ++ " (0x" ++ GoText.hex acc.id ++
          "), which retains " ++ formatBytes fixed1 acc.retainedBytes ++
          (if 0 < acc.directChildren then
            " across " ++ GoText.itoa acc.directChildren ++ " directly dominated objects"
          else "") ++ "."
      else if 1 < acc.directChildren then
        " It directly dominates " ++ GoText.itoa acc.directChildren ++ " objects."
      else "") ++
  match ls.pathToRoot with
  | none => ""
  | some p => " Shortest path from a GC root: " ++ p.text ++ "."

end

/-- The top-level instances of one class below the threshold. -/
structure ClassGroup (m : ℕ) where
  count : ℤ
  retained : ℤ
  largest : Fin m

/-- The choices of the Go runtime in `LeakSuspects`, and how it prints `%.1f`. -/
structure LeakRuntime (len m : ℕ) where
  range : MapRange ℕ (ClassGroup m)
  sort : SliceSort (@LeakSuspect.order len)
  fixed1 : ℚ → String

instance inhabited_leakRuntime {len m : ℕ} : Inhabited (LeakRuntime len m) :=
  ⟨⟨default, default, fun _ => ""⟩⟩

namespace RetainedSnapshot
variable {g : ObjectGraph} (s : RetainedSnapshot g) (rt : LeakRuntime g.len s.m)

def childrenOf (d : Fin s.m) : List (Fin s.m) := Csr.slice s.childStart s.children d

def percentOf (b : ℤ) : ℚ := if s.reachableBytes ≤ 0 then 0 else 100 * b / s.reachableBytes

/-- The first child that retains most. -/
def bestChild (d : Fin s.m) : Option (Fin s.m) :=
  (s.childrenOf d).foldl (fun best c =>
    match best with
    | none => some c
    | some b => if s.retained b < s.retained c then some c else some b) none

/-- Descend while one child retains most of its parent. The tree is at most `s.m` deep. -/
def descend : ℕ → Fin s.m × ℕ → Fin s.m × ℕ
  | 0, p => p
  | fuel + 1, (d, depth) =>
    match s.bestChild d with
    | none => (d, depth)
    | some best =>
      if (s.retained best : ℚ) < accumulationRatio * s.retained d then (d, depth)
      else descend fuel (best, depth + 1)

def accumulationPoint (d : Fin s.m) : AccumulationPoint × Fin s.m :=
  let (d, depth) := s.descend s.m (d, 0)
  ({ id := s.idAt d
     className := (s.vertex d).elim "" g.DisplayName
     retainedBytes := s.retained d
     percentOfHeap := s.percentOf (s.retained d)
     directChildren := s.childStart d.succ - s.childStart d.castSucc
     depth := depth }, d)

def shortestPath (d : Fin s.m) : Option (RootPath g.len) :=
  (s.vertex d).bind fun v => (g.PathsToGCRoots [v] 1).head?

variable {s}

def objectSuspect (d : Fin s.m) : LeakSuspect g.len :=
  let (acc, accD) := s.accumulationPoint d
  let ls : LeakSuspect g.len :=
    { kind := .object
      className := (s.vertex d).elim "" g.DisplayName
      id := s.idAt d
      instances := 1
      retainedBytes := s.retained d
      percentOfHeap := s.percentOf (s.retained d)
      accumulation := some acc
      pathToRoot := s.shortestPath accD
      description := "" }
  { ls with description := describeObjectSuspect rt.fixed1 ls }

def classSuspect (grp : ClassGroup s.m) : LeakSuspect g.len :=
  let className := (s.vertex grp.largest).elim "" g.ClassName
  let path := s.shortestPath grp.largest
  { kind := .cls
    className := className
    id := 0
    instances := grp.count
    retainedBytes := grp.retained
    percentOfHeap := s.percentOf grp.retained
    accumulation := none
    pathToRoot := path
    description := GoText.itoa grp.count ++ " instances of " ++ className ++ " together retain " ++
      formatBytes rt.fixed1 grp.retained ++ " (" ++ rt.fixed1 (s.percentOf grp.retained) ++
      "% of the reachable heap); none is dominated by another object, so each is held directly " ++
      "by GC roots or shared referrers." ++
      path.elim "" fun p => " Largest instance path: " ++ p.text ++ "." }

variable (s)

def addToGroup (grp : ClassGroup s.m) (d : Fin s.m) : ClassGroup s.m where
  count := grp.count + 1
  retained := grp.retained + s.retained d
  largest := if s.retained grp.largest < s.retained d then d else grp.largest

abbrev Groups := Std.ExtTreeMap ℕ (ClassGroup s.m)

variable {s} (threshold : ℤ)

/-- One round of the loop over the children of the super-root. -/
def suspectStep (st : List (LeakSuspect g.len) × s.Groups) (d : Fin s.m) :
    List (LeakSuspect g.len) × s.Groups :=
  if threshold ≤ s.retained d then (st.1 ++ [objectSuspect rt d], st.2)
  else
    match s.vertex d with
    | none => st
    | some obj =>
      if (g.classObjOf obj).isSome then st
      else
        let grp := st.2[g.cls obj]?.getD ⟨0, 0, d⟩
        (st.1, st.2.insert (g.cls obj) (s.addToGroup grp d))

/-- The children of the super-root. -/
def topLevel (s : RetainedSnapshot g) : List (Fin s.m) :=
  have := s.pos
  s.childrenOf 0

def suspectScan : List (LeakSuspect g.len) × s.Groups :=
  s.topLevel.foldl (suspectStep rt threshold) ([], ∅)

/-- The suspects before they are sorted: large subtrees, then classes of small ones. -/
def suspectCandidates : List (LeakSuspect g.len) :=
  (suspectScan rt threshold).1 ++
    (rt.range.order (suspectScan rt threshold).2).filterMap fun x =>
      if 1 < x.2.count ∧ threshold ≤ x.2.retained then some (classSuspect rt x.2) else none

end RetainedSnapshot
end Spectra.Heap
