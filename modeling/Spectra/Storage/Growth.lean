import Spectra.Library.GoRuntime
import Mathlib.Algebra.Order.Field.Rat
import Mathlib.Data.Prod.Lex
import Mathlib.Data.String.Basic

/-! The growth of apps between two snapshots, each of which keeps the largest apps only. -/
namespace Spectra.Storage
open Library List
open Std (ExtTreeMap)

structure AppSize where
  path : String
  onDiskBytes : ℤ

structure Volume where
  mountPoint : String
  usedBytes : ℤ

structure State where
  volumes : List Volume
  userLibraryBytes : ℤ
  appCachesBytes : ℤ
  largestApps : List AppSize

/-- The largest apps, if `dirBytes` returns these sizes; a slice with a negative bound is `none`. -/
def topApps (sort : SliceSort fun a : AppSize => -a.onDiskBytes) (dirBytes : String → ℤ)
    (paths : List String) (n : ℤ) : Option (List AppSize) :=
  let sizes := sort.sort ((paths.map fun p => ⟨p, dirBytes p⟩).filter (0 < ·.onDiskBytes))
  if n < 0 then none else some (sizes.take n.toNat)

inductive Category
  | volume
  | userLibrary
  | appCaches
  | app
deriving DecidableEq

structure Delta where
  category : Category
  label : String
  beforeBytes : ℤ
  afterBytes : ℤ
  growthBytes : ℤ
  bytesPerDay : ℚ
deriving DecidableEq

structure Report where
  beforeAt : ℤ
  afterAt : ℤ
  days : ℚ
  totalGrowthBytes : ℤ
  deltas : List Delta
  note : String

def perDay (growth : ℤ) (days : ℚ) : ℚ := if days ≤ 0 then 0 else growth / days

def indexBytes (l : List (String × ℤ)) (m : ExtTreeMap String ℤ) : ExtTreeMap String ℤ :=
  l.foldl (fun m x => m.insert x.1 x.2) m

def indexVolumes (vols : List Volume) : ExtTreeMap String ℤ :=
  indexBytes (vols.map fun v => (v.mountPoint, v.usedBytes)) ∅

def indexApps (apps : List AppSize) : ExtTreeMap String ℤ :=
  indexBytes (apps.map fun a => (a.path, a.onDiskBytes)) ∅

def deltas (before after : State) (days : ℚ) : List Delta :=
  let delta (category : Category) (label : String) (b a : ℤ) : Delta :=
    let g := (a - b).bmod (2 ^ 64)
    ⟨category, label, b, a, g, perDay g days⟩
  after.volumes.map (fun v =>
      delta .volume v.mountPoint ((indexVolumes before.volumes)[v.mountPoint]?.getD 0) v.usedBytes) ++
    delta .userLibrary "~/Library" before.userLibraryBytes after.userLibraryBytes ::
    delta .appCaches "~/Library/Caches" before.appCachesBytes after.appCachesBytes ::
    after.largestApps.map fun app =>
      delta .app app.path ((indexApps before.largestApps)[app.path]?.getD 0) app.onDiskBytes

def topGrowers (topN : ℤ) (deltas : List Delta) : List Delta :=
  let growers := (SliceSort.stable fun d : Delta => toLex (-d.growthBytes, d.label)).sort
    (deltas.filter (0 < ·.growthBytes))
  if 0 < topN ∧ topN < growers.length then growers.take topN.toNat else growers

def compute (before after : State) (beforeAt afterAt topN : ℤ) : Report :=
  let days : ℚ := (afterAt - beforeAt : ℤ) / (24 * 3600 * 10 ^ 9)
  let deltas := deltas before after days
  { beforeAt, afterAt, days
    totalGrowthBytes := deltas.foldl (fun total d => (total + d.growthBytes).bmod (2 ^ 64)) 0
    deltas := topGrowers topN deltas
    note := if days ≤ 0 then "non-positive interval between snapshots; rates are zero" else "" }

private theorem mem_of_mem_topGrowers {topN : ℤ} {l : List Delta} {d : Delta} (h : d ∈ topGrowers topN l) : d ∈ l := by
  unfold topGrowers at h
  dsimp only at h
  split at h
  · exact mem_of_mem_filter ((SliceSort.mem_sort _).mp (mem_of_mem_take h))
  · exact mem_of_mem_filter ((SliceSort.mem_sort _).mp h)

variable {paths : List String} {n : ℤ} {before after : State}

theorem mem_topApps {sort : SliceSort fun a : AppSize => -a.onDiskBytes} {dirBytes : String → ℤ}
    {apps : List AppSize} (h : topApps sort dirBytes paths n = some apps) {a : AppSize} (ha : a ∈ apps) :
    a.path ∈ paths ∧ a.onDiskBytes = dirBytes a.path := by
  have hmem : a ∈ paths.map fun p => ⟨p, dirBytes p⟩ := by
    obtain ⟨-, h⟩ := Option.ite_none_left_eq_some.mp h
    cases h
    exact mem_of_mem_filter (sort.mem_sort.mp (mem_of_mem_take ha))
  obtain ⟨p, hp, rfl⟩ := mem_map.mp hmem
  exact ⟨hp, rfl⟩

private theorem getElem?_indexBytes {size : String → ℤ} {l : List (String × ℤ)} (h : ∀ x ∈ l, x.2 = size x.1)
    (m : ExtTreeMap String ℤ) (k : String) :
    (indexBytes l m)[k]? = if k ∈ l.map Prod.fst then some (size k) else m[k]? := by
  induction l generalizing m with
  | nil => rfl
  | cons x l ih =>
    rw [indexBytes, foldl_cons, ← indexBytes, ih fun y hy => h y (.tail _ hy), getElem?_insert_eq]
    grind

/-- The size of a reported app is that after the growth; the size before is the app's, if it
was among the largest then or had no size. -/
theorem compute_app {sort sort' : SliceSort fun a : AppSize => -a.onDiskBytes} {size size' : String → ℤ}
    (hbefore : topApps sort size paths n = some before.largestApps)
    (hafter : topApps sort' size' paths n = some after.largestApps) (beforeAt afterAt topN : ℤ)
    {d : Delta} (hd : d ∈ (compute before after beforeAt afterAt topN).deltas) (happ : d.category = .app) :
    d.label ∈ paths ∧ d.afterBytes = size' d.label ∧ (d.beforeBytes = size d.label ↔
      size d.label = 0 ∨ d.label ∈ before.largestApps.map AppSize.path) := by
  have hlook (k : String) : (indexApps before.largestApps)[k]? =
      if k ∈ before.largestApps.map AppSize.path then some (size k) else none := by
    rw [indexApps, @getElem?_indexBytes size]
    · simp
    · intro x hx
      obtain ⟨a, ha, rfl⟩ := mem_map.mp hx
      exact (mem_topApps hbefore ha).2
  rcases mem_append.mp (mem_of_mem_topGrowers hd) with hd | _ | ⟨_, _ | ⟨_, hd⟩⟩
  · obtain ⟨v, -, rfl⟩ := mem_map.mp hd
    cases happ
  · cases happ
  · cases happ
  · obtain ⟨app, hmem, rfl⟩ := mem_map.mp hd
    obtain ⟨hpath, hsize⟩ := mem_topApps hafter hmem
    refine ⟨hpath, hsize, ?_⟩
    dsimp only
    rw [hlook]
    split
    · rename_i hin
      simp [hin]
    · rename_i hout
      simp [hout, eq_comm]

def largest (a b : ℤ) : State where
  volumes := []
  userLibraryBytes := 0
  appCachesBytes := 0
  largestApps := (topApps default (fun p => if p = "/A.app" then a else b) ["/A.app", "/B.app"] 1).getD []

theorem compute_app_grown : ∃ d ∈ (compute (largest 5 9) (largest 5 11) 0 1 0).deltas,
    d.beforeBytes = 9 ∧ d.afterBytes = 11 := by
  have hmem : ⟨.app, "/B.app", 9, 11, 2, perDay 2 (1 / (24 * 3600 * 10 ^ 9))⟩ ∈
      (compute (largest 5 9) (largest 5 11) 0 1 0).deltas := by
    decide +kernel
  exact ⟨_, hmem, ((compute_app (n := 1) rfl rfl 0 1 0 hmem rfl).2.2.mpr (.inr (by decide +kernel))), rfl⟩

/-- An app that was the second before it grew, and seems to be new. -/
theorem compute_app_overtaken : (compute (largest 10 9) (largest 10 11) 0 1 0).deltas.map
    (fun d => (d.category, d.label, d.beforeBytes, d.afterBytes)) = [(.app, "/B.app", 0, 11)] := by
  decide +kernel

end Spectra.Storage
