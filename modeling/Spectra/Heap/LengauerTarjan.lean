import Spectra.Library.Semidominator
import Spectra.Library.Csr

/-! The Lengauer-Tarjan pass over preorder numbers. -/
namespace Spectra.Heap
open Library Function

/-- The forest (ancestor/label) with semidominators. -/
structure LtState (m : ℕ) where
  semi : Fin m → Fin m
  ancestor : Fin m → Option (Fin m)
  label : Fin m → Fin m

namespace LtState
variable {m : ℕ}

/-- First loop of `compress`: the vertices whose ancestor's ancestor is set, bottom up. -/
def compressPath (lt : LtState m) : ℕ → Fin m → List (Fin m)
  | 0, _ => []
  | fuel + 1, x =>
    match lt.ancestor x with
    | none => []
    | some a => if lt.ancestor a = none then [] else x :: compressPath lt fuel a

/-- Second loop of `compress`: shortcut one vertex over its ancestor. -/
def compressStep (y : Fin m) (lt : LtState m) : LtState m :=
  match lt.ancestor y with
  | none => lt
  | some a =>
    { lt with
      label := if lt.semi (lt.label a) < lt.semi (lt.label y) then
        Function.update lt.label y (lt.label a) else lt.label
      ancestor := Function.update lt.ancestor y (lt.ancestor a) }

def compress (lt : LtState m) (v : Fin m) : LtState m :=
  (lt.compressPath m v).foldr compressStep lt

def eval (lt : LtState m) (v : Fin m) : Fin m × LtState m :=
  if lt.ancestor v = none then (v, lt)
  else
    let lt' := lt.compress v
    (lt'.label v, lt')

def init (m : ℕ) : LtState m := ⟨id, fun _ => none, id⟩

end LtState

/-- All the arrays of the main loop. -/
structure LtRun (m : ℕ) where
  lt : LtState m
  idom : Fin m → Fin m
  bucketHead : Fin m → Option (Fin m)
  bucketNext : Fin m → Option (Fin m)

section
variable {m : ℕ} [NeZero m]

def LtRun.init (m : ℕ) [NeZero m] : LtRun m :=
  ⟨.init m, fun _ => 0, fun _ => none, fun _ => some 0⟩

/-- Fold one predecessor `v` into the semidominator of `w`. -/
def semiStep (w : Fin m) (lt : LtState m) (v : Fin m) : LtState m :=
  let (u, lt) := lt.eval v
  if lt.semi u < lt.semi w then { lt with semi := Function.update lt.semi w (lt.semi u) } else lt

/-- Walk the bucket of `p` from `v`, recording (deferred) immediate dominators. -/
def bucketLoop (p : Fin m) : ℕ → Option (Fin m) → LtRun m → LtRun m
  | 0, _, run => run
  | _ + 1, none, run => run
  | fuel + 1, some v, run =>
    let (u, lt) := run.lt.eval v
    bucketLoop p fuel (run.bucketNext v)
      { run with
        lt := lt
        idom := Function.update run.idom v (if lt.semi u < lt.semi v then u else p) }

/-- First half of the descending loop's body: find the semidominator of `w`, put `w` into
its bucket and link `w` to its parent. -/
def linkVertex (parent : Fin m → Fin m) (preds : Fin m → List (Fin m)) (w : Fin m)
    (run : LtRun m) : LtRun m :=
  let lt := (preds w).foldl (semiStep w) run.lt
  let sw := lt.semi w
  { lt := { lt with ancestor := Function.update lt.ancestor w (some (parent w)) }
    idom := run.idom
    bucketHead := Function.update run.bucketHead sw (some w)
    bucketNext := Function.update run.bucketNext w (run.bucketHead sw) }

/-- Second half: empty the bucket of the parent. -/
def flushBucket (p : Fin m) (run : LtRun m) : LtRun m :=
  let run := bucketLoop p m (run.bucketHead p) run
  { run with bucketHead := Function.update run.bucketHead p none }

def ltVertex (parent : Fin m → Fin m) (preds : Fin m → List (Fin m)) (w : Fin m)
    (run : LtRun m) : LtRun m :=
  flushBucket (parent w) (linkVertex parent preds w run)

/-- The body of the final ascending loop. -/
def fixIdom (semi : Fin m → Fin m) (w : Fin m) (idom : Fin m → Fin m) : Fin m → Fin m :=
  if idom w ≠ semi w then Function.update idom w (idom (idom w)) else idom

def lengauerTarjan (parent : Fin m → Fin m) (predStart : Fin (m + 1) → ℕ)
    (preds : List (Fin m)) : Fin m → Fin m :=
  let run := Loop.down 1 (ltVertex parent (Csr.slice predStart preds)) (.init m)
  Loop.up 1 (fixIdom run.lt.semi) run.idom

end

variable {m : ℕ} {r : Fin m} {E : Fin m → Fin m → Prop} {parent : Fin m → Fin m}

/-- The vertices from `k` on are linked. The pointer of a linked vertex may skip part of
its branch, and its label is the best vertex of the part it skips. -/
structure Forest (r : Fin m) (parent : Fin m → Fin m) (k : ℕ) (lt : LtState m) : Prop where
  unlinked : ∀ x, x.val < k → lt.ancestor x = none ∧ lt.label x = x
  linked : ∀ x, k ≤ x.val → ∃ a, lt.ancestor x = some a ∧ Anc r parent a x ∧ a < x ∧
    (∀ y, Anc r parent y x → a < y → k ≤ y.val) ∧
    Anc r parent (lt.label x) x ∧ a < lt.label x ∧
    ∀ y, Anc r parent y x → a < y → lt.semi (lt.label x) ≤ lt.semi y

namespace Forest
variable {k : ℕ} {lt : LtState m}

theorem le_of_ancestor (h : Forest r parent k lt) {x a : Fin m} (hx : lt.ancestor x = some a) : k ≤ x.val := by
  by_contra hlt
  rw [(h.unlinked x (by omega)).1] at hx
  cases hx

theorem lt_of_ancestor (h : Forest r parent k lt) {x : Fin m} (hx : lt.ancestor x = none) : x.val < k := by
  by_contra hlt
  obtain ⟨a, ha, _⟩ := h.linked x (by omega)
  rw [hx] at ha
  cases ha

theorem setSemi (h : Forest r parent k lt) {w : Fin m} (hw : w.val < k) (s : Fin m) :
    Forest r parent k { lt with semi := update lt.semi w s } := by
  refine ⟨h.unlinked, fun x hx => ?_⟩
  obtain ⟨a, h1, h2, h3, h4, h5, h6, h7⟩ := h.linked x hx
  have hne (y : Fin m) (hy : Anc r parent y x) (hay : a < y) : y ≠ w := by
    rintro rfl
    exact absurd (h4 y hy hay) (by omega)
  refine ⟨a, h1, h2, h3, h4, h5, h6, fun y hy hay => ?_⟩
  dsimp only
  rw [update_of_ne (hne _ h5 h6), update_of_ne (hne y hy hay)]
  exact h7 y hy hay

/-- Linking the next vertex to its parent. -/
theorem link (t : DfsTree E r parent) (h : Forest r parent (k + 1) lt) {w : Fin m} (hw : w.val = k) (hr : w ≠ r) :
    Forest r parent k { lt with ancestor := update lt.ancestor w (some (parent w)) } := by
  refine ⟨fun x hx => ?_, fun x hx => ?_⟩
  · have hne : x ≠ w := by rintro rfl; omega
    dsimp only
    rw [update_of_ne hne]
    exact h.unlinked x (by omega)
  · by_cases hxw : x = w
    · subst hxw
      have hl := (h.unlinked x (by omega)).2
      have hself (y : Fin m) (hy : Anc r parent y x) (hp : parent x < y) : y = x :=
        t.eq_of_parent_lt hy hp
      refine ⟨parent x, by simp, DfsTree.anc_parent hr, t.parent_lt hr, ?_, ?_, ?_, ?_⟩
      · intro y hy hp
        rw [hself y hy hp]
        exact hx
      · rw [hl]
        exact .refl
      · rw [hl]
        exact t.parent_lt hr
      · intro y hy hp
        rw [hself y hy hp, hl]
    · have hlt : k + 1 ≤ x.val := by
        omega
      obtain ⟨a, h1, h2, h3, h4, h5, h6, h7⟩ := h.linked x hlt
      refine ⟨a, ?_, h2, h3, fun y hy hay => ?_, h5, h6, h7⟩
      · dsimp only
        rw [update_of_ne hxw]
        exact h1
      · have := h4 y hy hay
        omega

variable (t : DfsTree E r parent) (h : Forest r parent k lt)
include t h

/-- One shortcut keeps the forest: the two skipped parts of the branch are joined and the
better of their labels is kept. -/
theorem compressStep {y a b : Fin m} (hy : lt.ancestor y = some a) (ha : lt.ancestor a = some b) :
    Forest r parent k (lt.compressStep y) := by
  have hky := h.le_of_ancestor hy
  have hka := h.le_of_ancestor ha
  obtain ⟨a', e1, y2, y3, y4, y5, y6, y7⟩ := h.linked y hky
  obtain rfl := Option.mem_unique hy e1
  obtain ⟨b', e2, a2, a3, a4, a5, a6, a7⟩ := h.linked a hka
  obtain rfl := Option.mem_unique ha e2
  have hsplit (z : Fin m) (hz : Anc r parent z y) (hbz : b < z) :
      a < z ∨ Anc r parent z a := by
    rcases lt_or_ge a z with hlt | hge
    · exact .inl hlt
    · exact .inr (t.anc_of_le hz y2 hge)
  have heq : lt.compressStep y =
      { lt with
        label := if lt.semi (lt.label a) < lt.semi (lt.label y) then
          update lt.label y (lt.label a) else lt.label
        ancestor := update lt.ancestor y (some b) } := by
    simp [LtState.compressStep, hy, ha]
  rw [heq]
  refine ⟨fun x hx => ?_, fun x hx => ?_⟩
  · have hne : x ≠ y := by rintro rfl; omega
    refine ⟨by simpa [hne] using (h.unlinked x hx).1, ?_⟩
    dsimp only
    split
    · rw [update_of_ne hne]
      exact (h.unlinked x hx).2
    · exact (h.unlinked x hx).2
  · by_cases hxy : x = y
    · subst hxy
      refine ⟨b, by simp, a2.trans y2, a3.trans y3, fun z hz hbz => ?_, ?_⟩
      · rcases hsplit z hz hbz with haz | hza
        · exact y4 z hz haz
        · exact a4 z hza hbz
      · split
        · rename_i hbetter
          simp only [update_self]
          refine ⟨a5.trans y2, a6, fun z hz hbz => ?_⟩
          rcases hsplit z hz hbz with haz | hza
          · exact hbetter.le.trans (y7 z hz haz)
          · exact a7 z hza hbz
        · rename_i hworse
          refine ⟨y5, a3.trans y6, fun z hz hbz => ?_⟩
          rcases hsplit z hz hbz with haz | hza
          · exact y7 z hz haz
          · exact (not_lt.mp hworse).trans (a7 z hza hbz)
    · obtain ⟨c, h1, hrest⟩ := h.linked x hx
      refine ⟨c, by simpa [hxy] using h1, ?_⟩
      split
      · simpa [hxy] using hrest
      · exact hrest

/-- `compress` leaves its vertex pointing at the unlinked end of its branch and changes
nothing above the vertex. -/
theorem compress_spec {fuel : ℕ} {v : Fin m} (hv : k ≤ v.val) (hf : v.val < fuel) :
    let lt' := (lt.compressPath fuel v).foldr LtState.compressStep lt
    Forest r parent k lt' ∧ lt'.semi = lt.semi ∧ (∀ x, v < x → lt'.ancestor x = lt.ancestor x) ∧
      ∃ a, lt'.ancestor v = some a ∧ a.val < k := by
  induction fuel generalizing v with
  | zero => omega
  | succ fuel ih =>
    obtain ⟨a, ha, _, hlt, _⟩ := h.linked v hv
    simp only [LtState.compressPath, ha]
    split
    · rename_i hnone
      exact ⟨h, rfl, fun _ _ => rfl, a, ha, h.lt_of_ancestor hnone⟩
    · rename_i hsome
      obtain ⟨b, hb⟩ := Option.ne_none_iff_exists'.mp hsome
      obtain ⟨i1, i2, i3, c, i4, i5⟩ := ih (h.le_of_ancestor hb) (by
        omega)
      have hv' := (i3 v hlt).trans ha
      simp only [List.foldr_cons]
      refine ⟨i1.compressStep t hv' i4, ?_, fun x hx => ?_, c, ?_, i5⟩
      · simp only [LtState.compressStep, hv']
        exact i2
      · simp only [LtState.compressStep, hv']
        rw [update_of_ne hx.ne']
        exact i3 x (hlt.trans hx)
      · simp only [LtState.compressStep, hv', update_self]
        exact i4

/-- `eval` finds the vertex of least semidominator on the linked part of a branch. -/
theorem eval_spec (v : Fin m) :
    Forest r parent k (lt.eval v).2 ∧ (lt.eval v).2.semi = lt.semi ∧
      (v.val < k → (lt.eval v).1 = v) ∧
      (k ≤ v.val → Anc r parent (lt.eval v).1 v ∧ k ≤ (lt.eval v).1.val ∧
        ∀ y, Anc r parent y v → k ≤ y.val → lt.semi (lt.eval v).1 ≤ lt.semi y) := by
  rw [LtState.eval]
  split
  · rename_i hnone
    exact ⟨h, rfl, fun _ => rfl, fun hle => absurd (h.lt_of_ancestor hnone) (by omega)⟩
  · rename_i hsome
    obtain ⟨b, hb⟩ := Option.ne_none_iff_exists'.mp hsome
    have hv := h.le_of_ancestor hb
    obtain ⟨i1, i2, _, a, i4, i5⟩ := h.compress_spec t hv v.isLt
    refine ⟨i1, i2, fun hlt => absurd hv (by omega), fun _ => ?_⟩
    obtain ⟨a', e, _, _, l4, l5, l6, l7⟩ := i1.linked v hv
    obtain rfl := Option.mem_unique i4 e
    refine ⟨l5, l4 _ l5 l6, fun y hy hky => ?_⟩
    have := l7 y hy (Fin.lt_def.mpr (by omega))
    rwa [i2] at this

end Forest
end Spectra.Heap
