import Spectra.Library.GoBytes
import Spectra.Library.GoRuntime

/-! The triage of the subdirectories of a cache. -/
namespace Spectra.Cachetriage
open List Library GoBytes

/-- An entry of a directory tree: a file, without a size if `Info` fails, or a directory, of which
`ReadDir` may fail after some entries. -/
inductive Node
  | file (name : Bytes) (size : Option Int64)
  | dir (name : Bytes) (failed : Bool) (entries : List Node)

inductive Class
  | safe
  | regenerable
  | risky
deriving DecidableEq

def scanFileLimit : ℕ := 50000

def safeMarkers : List String :=
  ["go-build", "gomod", "npm", "_cacache", "yarn", "pnpm", "pip", "cocoapods", "homebrew", "node-gyp",
    "ms-playwright", "puppeteer", "electron", "esbuild", "typescript", "carthage", "deno", "gradle", "cargo"]

def riskyNameFragments : List String :=
  ["cookie", "credential", "token", "account", "session", "keychain", ".sqlite", ".db", ".ldb", ".realm",
    "leveldb", "indexeddb"]

/-- The first of the fragments that a name has, in whatever case. -/
def marker (fragments : List String) (name : Bytes) : Option String :=
  fragments.find? fun fragment => contains (toLower name) (ascii fragment)

def riskyMarker : Bytes → Option String := marker riskyNameFragments

namespace Node

def name : Node → Bytes
  | file name _ | dir name _ _ => name

def isDir : Node → Bool
  | file _ _ => false
  | dir _ _ _ => true

mutual

/-- The entries in the order of `WalkDir`. -/
def walk : Node → List Node
  | file name size => [file name size]
  | dir name failed entries => dir name failed entries :: walkAll entries

def walkAll : List Node → List Node
  | [] => []
  | n :: ns => n.walk ++ walkAll ns

end

end Node

structure Scan where
  size : Int64 := 0
  markers : List String := []
  count : ℕ := 0
  truncated : Bool := false
  incomplete : Bool := false

/-- The calls of the function that `WalkDir` is given, for one entry. -/
def visit (s : Scan) : Node → Scan
  | .dir _ failed _ => { s with incomplete := s.incomplete || failed }
  | .file name size =>
    let s := { s with count := s.count + 1 }
    if scanFileLimit < s.count then { s with truncated := true }
    else size.elim { s with incomplete := true } fun size =>
      { s with
        size := s.size + size
        markers := if s.markers.length < 5 then s.markers ++ (riskyMarker name).toList else s.markers }

def scanFrom (s : Scan) : List Node → Scan
  | [] => s
  | n :: ns => if (visit s n).truncated then visit s n else scanFrom (visit s n) ns

def scan (n : Node) : Scan := scanFrom {} n.walk

def classify (name : Bytes) (markers : List String) (incomplete : Bool) : Class × String :=
  if 0 < markers.length then
    (.risky, "contains possible non-cache data: " ++ ", ".intercalate markers)
  else if incomplete then
    (.risky, "scan incomplete (unreadable or truncated) — held back from reclaimable")
  else match marker safeMarkers name with
    | some m => (.safe, "build/tooling cache (" ++ m ++ ")")
    | none => (.regenerable, "app runtime cache")

structure Entry where
  name : Bytes
  sizeBytes : Int64
  class_ : Class
  reason : String
  incomplete : Bool

structure Report where
  entries : List Entry := []
  totalBytes : Int64 := 0
  reclaimableBytes : Int64 := 0
  riskyBytes : Int64 := 0

def entry (n : Node) : Entry :=
  let s := scan n
  let incomplete := s.truncated || s.incomplete
  let c := classify n.name s.markers incomplete
  ⟨n.name, s.size, c.1, c.2, incomplete⟩

def addEntry (rep : Report) (e : Entry) : Report :=
  { rep with
    entries := rep.entries ++ [e]
    totalBytes := rep.totalBytes + e.sizeBytes
    riskyBytes := if e.class_ = .risky then rep.riskyBytes + e.sizeBytes else rep.riskyBytes
    reclaimableBytes :=
      if e.class_ = .risky then rep.reclaimableBytes else rep.reclaimableBytes + e.sizeBytes }

def triage (nodes : List Node) : Report :=
  let rep := ((nodes.filter Node.isDir).map entry).foldl addEntry {}
  { rep with entries := (SliceSort.stable fun e : Entry => -e.sizeBytes.toInt).sort rep.entries }

/-- The bytes of a file that was read. -/
def Node.bytes : Node → Int64
  | file _ size => size.getD 0
  | dir _ _ _ => 0

/-- The entry was read, and it is not a file with a risky name. -/
def Node.Harmless : Node → Prop
  | file name size => size.isSome ∧ riskyMarker name = none
  | dir _ failed _ => failed = false

/-- Nothing that makes a directory risky was found up to now. -/
def Scan.Clean (s : Scan) : Prop := s.truncated = false ∧ s.incomplete = false ∧ s.markers = []

private theorem visit_spec {s : Scan} (n : Node) (htruncated : s.truncated = false) (hcount : s.count ≤ scanFileLimit) :
    (visit s n).count = s.count + (if !n.isDir then 1 else 0) ∧
    ((visit s n).truncated = true ↔ scanFileLimit < (visit s n).count) ∧
    ((visit s n).truncated = false → ((visit s n).Clean ↔ s.Clean ∧ n.Harmless)) := by
  cases n with
  | dir name failed entries =>
    simp [visit, Node.isDir, Scan.Clean, Node.Harmless, htruncated, hcount, and_right_comm]
  | file name size =>
    rw [visit]
    split
    · rename_i hover
      exact ⟨rfl, iff_of_true rfl hover, nofun⟩
    · cases size with
      | none => simp_all [Scan.Clean, Node.Harmless, Node.isDir]
      | some size => cases hm : s.markers <;> simp_all [Scan.Clean, Node.Harmless, Node.isDir, apply_ite (· = [])]

private theorem clean_scanFrom {s : Scan} {ns : List Node} (htruncated : s.truncated = false)
    (hcount : s.count ≤ scanFileLimit) : (scanFrom s ns).Clean ↔
      s.Clean ∧ (∀ n ∈ ns, n.Harmless) ∧ s.count + ns.countP (!·.isDir) ≤ scanFileLimit := by
  induction ns generalizing s with
  | nil => simp [scanFrom, hcount]
  | cons n ns ih =>
    obtain ⟨hnext, hlimit, hclean⟩ := visit_spec n htruncated hcount
    rw [scanFrom, forall_mem_cons, countP_cons]
    cases hstop : (visit s n).truncated with
    | true =>
      have hover := hlimit.mp hstop
      exact iff_of_false (fun h => nomatch hstop.symm.trans h.1) (by omega)
    | false =>
      have hroom : (visit s n).count ≤ scanFileLimit := not_lt.mp fun h => nomatch hstop.symm.trans (hlimit.mpr h)
      rw [if_neg Bool.false_ne_true, ih hstop hroom, hclean hstop, hnext, Nat.add_right_comm, Nat.add_assoc]
      tauto

private theorem size_visit {s : Scan} {n : Node} (h : (visit s n).truncated = false) :
    (visit s n).size = s.size + n.bytes := by
  cases n with
  | dir name failed entries => exact (Int64.add_zero _).symm
  | file name size =>
    rw [visit] at h ⊢
    split at h
    · cases h
    · rename_i hlimit
      rw [if_neg hlimit]
      cases size with
      | none => exact (Int64.add_zero _).symm
      | some size => rfl

private theorem size_scanFrom {s : Scan} {ns : List Node} (h : (scanFrom s ns).truncated = false) :
    (scanFrom s ns).size = s.size + (ns.map Node.bytes).sum := by
  induction ns generalizing s with
  | nil => exact (Int64.add_zero _).symm
  | cons n ns ih =>
    rw [scanFrom] at h ⊢
    cases hstop : (visit s n).truncated with
    | true => simp [hstop] at h
    | false =>
      rw [if_neg (by simp [hstop])] at h ⊢
      rw [ih h, size_visit hstop, map_cons, sum_cons, Int64.add_assoc]

theorem class_ne_risky_iff (n : Node) : (entry n).class_ ≠ .risky ↔ (scan n).Clean := by
  change (classify n.name (scan n).markers ((scan n).truncated || (scan n).incomplete)).1 ≠ _ ↔ _
  unfold classify Scan.Clean
  split
  · simp_all [← length_pos_iff]
  · cases (scan n).truncated <;> cases (scan n).incomplete <;> simp_all
    split <;> simp

variable (es : List Entry)

private theorem totalBytes_foldl {rep : Report}
    (h : rep.reclaimableBytes + rep.riskyBytes = rep.totalBytes) :
    (es.foldl addEntry rep).reclaimableBytes + (es.foldl addEntry rep).riskyBytes =
      (es.foldl addEntry rep).totalBytes := by
  induction es generalizing rep with
  | nil => exact h
  | cons e es ih =>
    refine ih ?_
    simp only [addEntry, ← h]
    split_ifs
    · exact (Int64.add_assoc _ _ _).symm
    · rw [Int64.add_assoc, Int64.add_comm e.sizeBytes, ← Int64.add_assoc]

private theorem reclaimableBytes_foldl (rep : Report) :
    (es.foldl addEntry rep).reclaimableBytes = rep.reclaimableBytes +
      ((es.filter (·.class_ ≠ .risky)).map Entry.sizeBytes).sum := by
  induction es generalizing rep with
  | nil => exact (Int64.add_zero _).symm
  | cons e es ih =>
    rw [foldl_cons, ih, addEntry, filter_cons]
    by_cases hrisky : e.class_ = .risky
    · simp [hrisky]
    · simp [hrisky, Int64.add_assoc]

private theorem entries_foldl (rep : Report) : (es.foldl addEntry rep).entries = rep.entries ++ es := by
  induction es generalizing rep with
  | nil => exact (append_nil _).symm
  | cons e es ih => rw [foldl_cons, ih, addEntry, append_assoc, singleton_append]

/-- A subdirectory counts as reclaimable exactly if all of it was read within the limit and none of
its files has a risky name; the bytes of its files are then among the reclaimable ones. So it has
nothing suspicious in it exactly if none of its directories has a risky name either. -/
theorem reclaimable_iff (nodes : List Node) :
    (triage nodes).reclaimableBytes + (triage nodes).riskyBytes = (triage nodes).totalBytes ∧
    (triage nodes).entries.Perm ((nodes.filter Node.isDir).map entry) ∧
    (triage nodes).reclaimableBytes = (((nodes.filter Node.isDir).filter fun n =>
      (entry n).class_ ≠ .risky).map fun n => (n.walk.map Node.bytes).sum).sum ∧
    (∀ n, (entry n).class_ ≠ .risky ↔
      (∀ m ∈ n.walk, m.Harmless) ∧ n.walk.countP (!·.isDir) ≤ scanFileLimit) ∧
    ((∀ n ∈ nodes, n.isDir → (entry n).class_ ≠ .risky →
        (∀ m ∈ n.walk, m.Harmless ∧ riskyMarker m.name = none) ∧
          n.walk.countP (!·.isDir) ≤ scanFileLimit) ↔
      ∀ n ∈ nodes, n.isDir → (∀ m ∈ n.walk, m.Harmless) →
        n.walk.countP (!·.isDir) ≤ scanFileLimit →
        ∀ m ∈ n.walk, m.isDir → riskyMarker m.name = none) := by
  have hclass (n : Node) : (entry n).class_ ≠ .risky ↔
      (∀ m ∈ n.walk, m.Harmless) ∧ n.walk.countP (!·.isDir) ≤ scanFileLimit := by
    rw [class_ne_risky_iff, scan, clean_scanFrom rfl (Nat.zero_le _)]
    simp [Scan.Clean]
  refine ⟨totalBytes_foldl _ rfl, ?_, ?_, hclass, ?_⟩
  · exact ((SliceSort.stable _).perm _).trans (.of_eq (entries_foldl _ {}))
  · have hsum := reclaimableBytes_foldl ((nodes.filter Node.isDir).map entry) {}
    rw [filter_map, map_map] at hsum
    refine (hsum.trans (Int64.zero_add _)).trans (congrArg sum (map_congr_left fun n hn => ?_))
    have hclean := (class_ne_risky_iff n).mp (of_decide_eq_true (mem_filter.mp hn).2)
    exact (size_scanFrom hclean.1).trans (Int64.zero_add _)
  · refine forall₃_congr fun n _ _ => ?_
    rw [hclass]
    refine ⟨fun h hread hcount m hm _ => ((h ⟨hread, hcount⟩).1 m hm).2, fun h hn => ⟨fun m hm => ?_, hn.2⟩⟩
    have hread := hn.1 m hm
    refine ⟨hread, ?_⟩
    cases m with
    | file name size => exact hread.2
    | dir name failed entries => exact h hn.1 hn.2 _ hm rfl

/-- The name of a directory does not make it risky. -/
theorem reclaimable_cookies :
    let cache := Node.dir (ascii "Cookies") false [.file (ascii "a") (some 1)]
    riskyMarker cache.name = some "cookie" ∧ (entry cache).class_ = .regenerable ∧
      (triage [cache]).reclaimableBytes = 1 := by
  decide

end Spectra.Cachetriage
