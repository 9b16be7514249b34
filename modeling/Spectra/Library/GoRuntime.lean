import Mathlib.Data.Nat.PrimeFin

/-! Maps with extensional equality, and what a Go program leaves to its runtime. -/
namespace Spectra.Library
open List
open Std (ExtTreeMap TransOrd LawfulEqOrd)

theorem filter_key_eq_singleton {α κ : Type*} [DecidableEq κ] (key : α → κ) {l : List α} {a : α}
    (h : (l.map key).Nodup) (ha : a ∈ l) : (l.filter fun b => key b = key a) = [a] := by
  induction l with
  | nil => cases ha
  | cons b l ih =>
    rw [map_cons, nodup_cons] at h
    rcases mem_cons.mp ha with rfl | ha
    · rw [filter_cons_of_pos (by simp)]
      refine congrArg _ (filter_eq_nil_iff.mpr fun c hc => ?_)
      simp only [decide_eq_true_eq]
      exact fun he => h.1 (he ▸ mem_map_of_mem hc)
    · have hne : key b ≠ key a := fun he => h.1 (he ▸ mem_map_of_mem ha)
      rw [filter_cons_of_neg (by simpa using hne), ih h.2 ha]

/-- Appends an element, unless it is there. -/
def addNew {α : Type*} [DecidableEq α] (l : List α) (a : α) : List α :=
  if a ∈ l then l else l ++ [a]

theorem foldl_addNew {α : Type*} [DecidableEq α] (l seen : List α) :
    (seen.Nodup → (l.foldl addNew seen).Nodup) ∧ ∀ a, a ∈ l.foldl addNew seen ↔ a ∈ seen ∨ a ∈ l := by
  induction l generalizing seen with
  | nil => simp
  | cons b l ih =>
    refine ⟨fun h => (ih _).1 ?_, fun a => ((ih _).2 a).trans ?_⟩ <;> rw [addNew] <;> split
    · exact h
    · exact h.append (nodup_singleton b) (by simpa)
    · grind
    · simp [or_assoc]

section
variable {K V : Type*} [Ord K] [TransOrd K] [LawfulEqOrd K] [DecidableEq K] (m : ExtTreeMap K V)

theorem getElem?_insert_eq (k a : K) (v : V) : (m.insert k v)[a]? = if k = a then some v else m[a]? := by
  simp [ExtTreeMap.getElem?_insert]

theorem getElem?_erase_eq (k a : K) : (m.erase k)[a]? = if k = a then none else m[a]? := by
  simp [ExtTreeMap.getElem?_erase]

theorem getElem?_alter_eq (f : Option V → Option V) (k a : K) :
    (m.alter k f)[a]? = if k = a then f m[k]? else m[a]? := by
  simp [ExtTreeMap.getElem?_alter]

omit [DecidableEq K] in
theorem keys_toList_nodup : (m.toList.map Prod.fst).Nodup := by
  rw [Nodup, pairwise_map]
  exact ExtTreeMap.distinct_keys_toList.imp fun h he => h (by simp [he])

theorem toList_filter_key (k : K) : (m.toList.filter fun x => x.1 = k) = (m[k]?.map fun v => (k, v)).toList := by
  cases hv : m[k]? with
  | none =>
    refine filter_eq_nil_iff.mpr fun x hx => ?_
    simp only [decide_eq_true_eq]
    rintro rfl
    rw [ExtTreeMap.mem_toList_iff_getElem?_eq_some.mp hx] at hv
    cases hv
  | some v =>
    exact filter_key_eq_singleton Prod.fst (keys_toList_nodup m)
      (ExtTreeMap.mem_toList_iff_getElem?_eq_some.mpr hv)

/-- The statement `m[k] += v`. -/
def addAt (m : ExtTreeMap K ℤ) (k : K) (v : ℤ) : ExtTreeMap K ℤ :=
  m.alter k fun old => some (old.getD 0 + v)

end

/-- One behaviour of `range`: every map in some order of its entries. -/
structure MapRange (K V : Type*) [Ord K] [TransOrd K] where
  order : ExtTreeMap K V → List (K × V)
  perm : ∀ m, (order m).Perm m.toList

namespace MapRange
variable {K V : Type*} [Ord K] [TransOrd K] [LawfulEqOrd K]

instance : Inhabited (MapRange K V) := ⟨⟨ExtTreeMap.toList, fun _ => .refl _⟩⟩

theorem mem_order (r : MapRange K V) {m : ExtTreeMap K V} {k : K} {v : V} : (k, v) ∈ r.order m ↔ m[k]? = some v := by
  rw [(r.perm m).mem_iff, ExtTreeMap.mem_toList_iff_getElem?_eq_some]

theorem nodup_keys (r : MapRange K V) (m : ExtTreeMap K V) : ((r.order m).map Prod.fst).Nodup :=
  ((r.perm m).map Prod.fst).nodup_iff.mpr (keys_toList_nodup m)

end MapRange

/-- One behaviour of `sort.Slice` by a key: it need not keep equal elements in order. -/
structure SliceSort {α κ : Type*} [LinearOrder κ] (key : α → κ) where
  sort : List α → List α
  perm : ∀ l, (sort l).Perm l
  sorted : ∀ l, (sort l).Pairwise fun a b => key a ≤ key b

namespace SliceSort
variable {α κ : Type*} [LinearOrder κ] {key : α → κ}

def stable (key : α → κ) : SliceSort key where
  sort l := l.insertionSort fun a b => key a ≤ key b
  perm l := l.perm_insertionSort _
  sorted l := by
    have : Std.Total fun a b : α => key a ≤ key b := ⟨fun a b => le_total _ _⟩
    have : IsTrans α fun a b => key a ≤ key b := ⟨fun _ _ _ => le_trans⟩
    exact l.pairwise_insertionSort _

/-- The behaviour that reverses equal elements. -/
def reversing (key : α → κ) : SliceSort key where
  sort l := (stable key).sort l.reverse
  perm l := ((stable key).perm _).trans l.reverse_perm
  sorted _ := (stable key).sorted _

instance : Inhabited (SliceSort key) := ⟨stable key⟩

theorem mem_sort (s : SliceSort key) {l : List α} {a : α} : a ∈ s.sort l ↔ a ∈ l :=
  (s.perm l).mem_iff

theorem sort_eq_of_perm (s t : SliceSort key) {l l' : List α} (h : l.Perm l')
    (hn : (l.map key).Nodup) : s.sort l = t.sort l' := by
  have hp := ((s.perm l).trans h).trans (t.perm l').symm
  have hn' := ((s.perm l).map key).nodup_iff.mpr hn
  apply hp.eq_of_pairwise ?_ (s.sorted l) (t.sorted l')
  intro a b ha hb hab hba
  exact inj_on_of_nodup_map hn' ha (hp.mem_iff.mpr hb) (le_antisymm hab hba)

end SliceSort
end Spectra.Library
