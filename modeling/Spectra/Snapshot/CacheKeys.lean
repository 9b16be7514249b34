import Spectra.Library.GoText

/-! The keys under which the slow collectors cache their results. -/
namespace Spectra.Snapshot
open List Library GoText

def join (sep : Char) (parts : List (List Char)) : List Char := [sep].intercalate parts

/-- The options that matter to `storageCacheKey`; file names have no NUL and `int` has 64 bits. -/
structure StorageOptions where
  home : List Char
  appPaths : List (List Char)
  largestAppsN : ℤ
  includeSnapshots : Bool
  includeSpotlight : Bool
  nul_free : ∀ s ∈ home :: appPaths, '\x00' ∉ s
  int64 : -2 ^ 63 ≤ largestAppsN ∧ largestAppsN < 2 ^ 63

structure ToolchainOptions where
  home : List Char
  brewCellars : List (List Char)
  systemJVMRoot : List Char
  userJVMRoot : List Char
  nul_free : ∀ s ∈ home :: systemJVMRoot :: userJVMRoot :: brewCellars, '\x00' ∉ s

def StorageOptions.parts (o : StorageOptions) : List (List Char) :=
  ["storage".toList, o.home, join '|' o.appPaths, (GoText.itoa o.largestAppsN).toList,
    (toString o.includeSnapshots).toList, (toString o.includeSpotlight).toList]

def ToolchainOptions.parts (o : ToolchainOptions) : List (List Char) :=
  ["toolchain".toList, o.home, join '|' o.brewCellars, o.systemJVMRoot, o.userJVMRoot]

def storageCacheKey (o : StorageOptions) : List Char := join '\x00' o.parts

def toolchainCacheKey (o : ToolchainOptions) : List Char := join '\x00' o.parts

/-- The names between the bars of the paths; no path at all is one empty name. -/
def pieces (paths : List (List Char)) : List (List Char) :=
  if paths = [] then [[]] else paths.flatMap (splitOn '|')

theorem join_inj {sep : Char} {as bs : List (List Char)} (ha : ∀ s ∈ as, sep ∉ s)
    (hb : ∀ s ∈ bs, sep ∉ s) (hnil : as ≠ []) (hnil' : bs ≠ []) : join sep as = join sep bs ↔ as = bs := by
  refine ⟨fun h => ?_, congrArg _⟩
  rw [← splitOn_intercalate sep ha hnil, ← splitOn_intercalate sep hb hnil']
  exact congrArg _ h

theorem splitOn_join (paths : List (List Char)) : (join '|' paths).splitOn '|' = pieces paths := by
  rw [join, intercalate]
  induction paths with
  | nil => rfl
  | cons s paths ih =>
    cases paths with
    | nil => simp [pieces]
    | cons t paths =>
      rw [intersperse_cons_cons, flatten_cons, flatten_cons, singleton_append,
        splitOn_append_cons_self, ih]
      rfl

/-- Two lists of paths join to the same text exactly if they have the same pieces. -/
theorem join_eq_iff {as bs : List (List Char)} :
    join '|' as = join '|' bs ↔ pieces as = pieces bs := by
  rw [← splitOn_join, ← splitOn_join]
  refine ⟨congrArg _, fun h => ?_⟩
  have hjoin := congrArg ['|'].intercalate h
  rwa [intercalate_splitOn, intercalate_splitOn] at hjoin

theorem nul_notMem_join {parts : List (List Char)} (h : ∀ s ∈ parts, '\x00' ∉ s) : '\x00' ∉ join '|' parts := by
  rw [join, intercalate]
  induction parts with
  | nil => simp
  | cons s parts ih =>
    obtain ⟨hs, hparts⟩ := forall_mem_cons.mp h
    cases parts with
    | nil => simpa using hs
    | cons t parts => simpa [hs] using ih hparts

theorem StorageOptions.nul_notMem (o : StorageOptions) : ∀ s ∈ o.parts, '\x00' ∉ s := by
  obtain ⟨hhome, hpaths⟩ := forall_mem_cons.mp o.nul_free
  have hbool (b : Bool) : '\x00' ∉ (toString b).toList := by cases b <;> decide
  have hint : '\x00' ∉ (itoa o.largestAppsN).toList := fun h => by
    rcases mem_itoa h with h | h <;> revert h <;> decide
  simp [parts, hhome, nul_notMem_join hpaths, hint, hbool]

theorem ToolchainOptions.nul_notMem (o : ToolchainOptions) : ∀ s ∈ o.parts, '\x00' ∉ s := by
  have hnul := o.nul_free
  simp only [forall_mem_cons] at hnul
  simpa [parts, hnul.1, hnul.2.1, hnul.2.2.1] using nul_notMem_join hnul.2.2.2

theorem storageCacheKey_eq_iff (a b : StorageOptions) :
    storageCacheKey a = storageCacheKey b ↔ a.home = b.home ∧
      pieces a.appPaths = pieces b.appPaths ∧ a.largestAppsN = b.largestAppsN ∧
      a.includeSnapshots = b.includeSnapshots ∧ a.includeSpotlight = b.includeSpotlight := by
  have hbool (x y : Bool) : (toString x).toList = (toString y).toList ↔ x = y := by
    cases x <;> cases y <;> decide
  have hint : (itoa a.largestAppsN).toList = (itoa b.largestAppsN).toList ↔
      a.largestAppsN = b.largestAppsN := by
    refine ⟨fun h => ?_, fun h => by rw [h]⟩
    have hatoi := congrArg atoi (String.toList_inj.mp h)
    rw [atoi_itoa_of_int64 a.int64.1 a.int64.2, atoi_itoa_of_int64 b.int64.1 b.int64.2] at hatoi
    exact Option.some.inj hatoi
  rw [storageCacheKey, storageCacheKey, join_inj a.nul_notMem b.nul_notMem
    (by simp [StorageOptions.parts]) (by simp [StorageOptions.parts])]
  simp only [StorageOptions.parts, cons.injEq, true_and, and_true, hbool, hint, join_eq_iff]

theorem toolchainCacheKey_eq_iff (a b : ToolchainOptions) :
    toolchainCacheKey a = toolchainCacheKey b ↔ a.home = b.home ∧
      pieces a.brewCellars = pieces b.brewCellars ∧ a.systemJVMRoot = b.systemJVMRoot ∧
      a.userJVMRoot = b.userJVMRoot := by
  rw [toolchainCacheKey, toolchainCacheKey, join_inj a.nul_notMem b.nul_notMem
    (by simp [ToolchainOptions.parts]) (by simp [ToolchainOptions.parts])]
  simp only [ToolchainOptions.parts, cons.injEq, true_and, and_true, join_eq_iff]

/-- The keys tell apart all options but the lists of paths with the same pieces. -/
theorem cache_keys_separate (a b : StorageOptions) (c d : ToolchainOptions) :
    (storageCacheKey a = storageCacheKey b ↔ a.home = b.home ∧
      pieces a.appPaths = pieces b.appPaths ∧ a.largestAppsN = b.largestAppsN ∧
      a.includeSnapshots = b.includeSnapshots ∧ a.includeSpotlight = b.includeSpotlight) ∧
    (toolchainCacheKey c = toolchainCacheKey d ↔ c.home = d.home ∧
      pieces c.brewCellars = pieces d.brewCellars ∧ c.systemJVMRoot = d.systemJVMRoot ∧
      c.userJVMRoot = d.userJVMRoot) :=
  ⟨storageCacheKey_eq_iff a b, toolchainCacheKey_eq_iff c d⟩

def appsAt (paths : List String) (h : ∀ s ∈ [] :: paths.map String.toList, '\x00' ∉ s) :
    StorageOptions :=
  ⟨[], paths.map String.toList, 10, false, false, h, by decide⟩

/-- A path with a bar, and the two paths around it. -/
theorem cache_keys_collide :
    (appsAt ["/A|/B"] (by decide)).appPaths ≠ (appsAt ["/A", "/B"] (by decide)).appPaths ∧
    storageCacheKey (appsAt ["/A|/B"] (by decide)) = storageCacheKey (appsAt ["/A", "/B"] (by decide)) := by
  decide +kernel

end Spectra.Snapshot
