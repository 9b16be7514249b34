import Spectra.Library.Loop
import Mathlib.Algebra.BigOperators.Fin
import Mathlib.Algebra.Order.BigOperators.Group.Finset

/-! Compressed sparse rows. -/
namespace Spectra.Library.Csr
open List Function Fin
variable {α : Type*} {m : ℕ}

/-- The run of row `k`: `items[start[k] : start[k+1]]`. -/
def slice (start : Fin (m + 1) → ℕ) (items : List α) (k : Fin m) : List α :=
  (items.drop (start k.castSucc)).take (start k.succ - start k.castSucc)

theorem mem_slice {start : Fin (m + 1) → ℕ} {items : List α} {k : Fin m} {x : α} :
    x ∈ slice start items k ↔ ∃ i, start k.castSucc ≤ i ∧ i < start k.succ ∧ items[i]? = some x := by
  rw [slice, mem_iff_getElem?]
  constructor
  · rintro ⟨j, hj⟩
    rw [getElem?_take] at hj
    split at hj
    · rw [getElem?_drop] at hj
      exact ⟨start k.castSucc + j, by omega, by omega, hj⟩
    · cases hj
  · rintro ⟨i, hlo, hhi, hi⟩
    refine ⟨i - start k.castSucc, ?_⟩
    rw [getElem?_take, if_pos (by omega), getElem?_drop,
      show start k.castSucc + (i - start k.castSucc) = i by omega, hi]

/-- Count the entries of each row one slot to the right, then take prefix sums. -/
def offsets (pairs : List (Fin m × α)) : Fin (m + 1) → ℕ :=
  let counts := pairs.foldl
    (fun s p => Function.update s p.1.succ (s p.1.succ + 1)) (fun _ => 0)
  Loop.up 1 (fun i s => Function.update s i (s i + s (i - 1))) counts

/-- The fill loop's state: the flat list and the next free slot of each row. -/
structure Fill (m : ℕ) (α : Type*) where
  items : List α
  fill : Fin m → ℕ

def Fill.add (s : Fill m α) (p : Fin m × α) : Fill m α :=
  ⟨s.items.set (s.fill p.1) p.2, Function.update s.fill p.1 (s.fill p.1 + 1)⟩

/-- The flat list, filled pair by pair; `zero` is the value of a fresh slot. -/
def items (zero : α) (pairs : List (Fin m × α)) : List α :=
  let start := offsets pairs
  (pairs.foldl Fill.add ⟨List.replicate (start (Fin.last m)) zero, fun k => start k.castSucc⟩).items

/-- The entries of row `k`, in input order. -/
def row (pairs : List (Fin m × α)) (k : Fin m) : List α :=
  (pairs.filter (fun p => p.1 = k)).map Prod.snd

theorem row_append (xs ys : List (Fin m × α)) (k : Fin m) : row (xs ++ ys) k = row xs k ++ row ys k := by
  simp [row]

theorem row_singleton (p : Fin m × α) (k : Fin m) : row [p] k = if p.1 = k then [p.2] else [] := by
  by_cases h : p.1 = k <;> simp [row, h]

theorem mem_row {pairs : List (Fin m × α)} {k : Fin m} {x : α} : x ∈ row pairs k ↔ (k, x) ∈ pairs := by
  simp only [row, mem_map, mem_filter, decide_eq_true_eq]
  constructor
  · rintro ⟨p, ⟨hp, rfl⟩, rfl⟩
    exact hp
  · exact fun h => ⟨_, ⟨h, rfl⟩, rfl⟩

variable (pairs : List (Fin m × α))

theorem counts_eq (s : Fin (m + 1) → ℕ) (i : Fin (m + 1)) :
    pairs.foldl (fun s p => update s p.1.succ (s p.1.succ + 1)) s i =
      s i + (pairs.filter (fun p => p.1.succ = i)).length := by
  induction pairs generalizing s with
  | nil => simp
  | cons p pairs ih =>
    rw [foldl_cons, ih]
    by_cases h : i = p.1.succ
    · subst h
      simp
      omega
    · simp [h, Ne.symm h]

theorem sum_below_succ (f : Fin m → ℕ) (k : Fin m) :
    (∑ j : Fin m, if j.val < k.val + 1 then f j else 0) = (∑ j : Fin m, if j.val < k.val then f j else 0) + f k := by
  have hsplit (j : Fin m) : (if j.val < k.val + 1 then f j else 0) =
      (if j.val < k.val then f j else 0) + (if j = k then f j else 0) := by
    have : j = k ↔ j.val = k.val := Fin.ext_iff
    split_ifs <;> omega
  simp only [hsplit]
  rw [Finset.sum_add_distrib]
  simp

section
variable (pairs : List (Fin m × α))

/-- Offsets are the lengths of all earlier rows together. -/
theorem offsets_eq (i : Fin (m + 1)) :
    offsets pairs i = ∑ k : Fin m, if k.val < i.val then (row pairs k).length else 0 := by
  let counts := pairs.foldl
    (fun s p => update s p.1.succ (s p.1.succ + 1)) (fun _ : Fin (m + 1) => 0)
  let total (n : ℕ) := ∑ k : Fin m, if k.val < n then (row pairs k).length else 0
  have hc (i : Fin (m + 1)) : counts i = (pairs.filter (fun p => p.1.succ = i)).length := by
    simpa using counts_eq pairs (fun _ => 0) i
  have hzero : counts 0 = 0 := by
    rw [hc]
    simp
  have hrow (k : Fin m) : counts k.succ = (row pairs k).length := by
    rw [hc]
    simp [row]
  have key := Loop.up_inv (m := m + 1) (s := counts)
    (f := fun i s => update s i (s i + s (i - 1)))
    (fun n s => ∀ i : Fin (m + 1), (i.val < n → s i = total i.val) ∧ (n ≤ i.val → s i = counts i)) 1
    (by omega) (by
      intro i
      refine ⟨fun h => ?_, fun _ => rfl⟩
      obtain rfl : i = 0 := Fin.ext (by simpa using h)
      simp [hzero, total]) (by
      intro i hi s hs j
      obtain ⟨k, rfl⟩ := Fin.exists_succ_eq.mpr (show i ≠ 0 by rintro rfl; simp at hi)
      have hpred : k.succ - 1 = k.castSucc := by
        apply Fin.ext
        rw [Fin.val_sub_one_of_ne_zero (Fin.succ_ne_zero k)]
        simp
      rw [update_apply]
      by_cases hj : j = k.succ
      · subst hj
        refine ⟨fun _ => ?_, fun h => by omega⟩
        rw [if_pos rfl, hpred, (hs k.succ).2 le_rfl, (hs k.castSucc).1 (by simp), hrow, Nat.add_comm]
        exact (sum_below_succ _ k).symm
      · rw [if_neg hj]
        exact ⟨fun h => (hs j).1 (by omega), fun h => (hs j).2 (by omega)⟩)
  exact (key i).1 i.isLt

theorem offsets_succ (k : Fin m) : offsets pairs k.succ = offsets pairs k.castSucc + (row pairs k).length := by
  rw [offsets_eq, offsets_eq]
  exact sum_below_succ _ k

theorem offsets_mono : Monotone (offsets pairs) := by
  intro i j hij
  rw [offsets_eq, offsets_eq]
  refine Finset.sum_le_sum fun k _ => ?_
  split_ifs <;> omega

theorem runs_disjoint {k l : Fin m} (hkl : k ≠ l) {i j : ℕ}
    (hi : i < (row pairs k).length) (hj : j < (row pairs l).length) :
    offsets pairs k.castSucc + i ≠ offsets pairs l.castSucc + j := by
  have hk := offsets_succ pairs k
  have hl := offsets_succ pairs l
  rcases lt_or_gt_of_ne hkl with hlt | hgt
  · have := offsets_mono pairs (succ_le_castSucc_iff.mpr hlt)
    omega
  · have := offsets_mono pairs (succ_le_castSucc_iff.mpr hgt)
    omega

end

/-- After the pairs `pre`, every row holds its entries so far at the front of its run. -/
structure Filled (pairs pre : List (Fin m × α)) (s : Fill m α) : Prop where
  length_eq : s.items.length = offsets pairs (Fin.last m)
  fill_eq : ∀ k, s.fill k = offsets pairs k.castSucc + (row pre k).length
  items_eq : ∀ k j, j < (row pre k).length →
    s.items[offsets pairs k.castSucc + j]? = (row pre k)[j]?

theorem Filled.add {pairs pre : List (Fin m × α)} {s : Fill m α} {p : Fin m × α}
    (h : Filled pairs pre s) (hp : ∃ post, pairs = pre ++ [p] ++ post) : Filled pairs (pre ++ [p]) (s.add p) := by
  obtain ⟨post, he⟩ := hp
  have hle (k : Fin m) : (row (pre ++ [p]) k).length ≤ (row pairs k).length := by
    rw [he, row_append (pre ++ [p])]
    simp
  have hlen (k : Fin m) : (row (pre ++ [p]) k).length =
      (row pre k).length + if p.1 = k then 1 else 0 := by
    rw [row_append, row_singleton, length_append]
    split <;> rfl
  have hself := hle p.1
  rw [hlen, if_pos rfl] at hself
  have hin : s.fill p.1 < s.items.length := by
    have h1 := offsets_succ pairs p.1
    have h2 := offsets_mono pairs (le_last p.1.succ)
    rw [h.length_eq, h.fill_eq]
    omega
  refine ⟨by simpa [Fill.add] using h.length_eq, fun k => ?_, fun k j hj => ?_⟩
  · simp only [Fill.add, update_apply, hlen, h.fill_eq]
    by_cases hk : k = p.1
    · subst hk
      simp
      omega
    · simp [hk, Ne.symm hk]
  · simp only [Fill.add]
    rw [getElem?_set, h.fill_eq]
    have hj' := hj
    rw [hlen] at hj'
    rw [row_append, row_singleton]
    by_cases hk : p.1 = k
    · subst hk
      rw [if_pos rfl] at hj'
      by_cases hlast : j = (row pre p.1).length
      · subst hlast
        rw [if_pos rfl, if_pos (h.fill_eq p.1 ▸ hin)]
        simp
      · rw [if_neg (by omega), h.items_eq _ _ (by omega), getElem?_append_left (by omega)]
    · rw [if_neg hk] at hj' ⊢
      rw [if_neg (runs_disjoint pairs hk (by omega) (hj.trans_le (hle k))), append_nil]
      exact h.items_eq k j hj'

theorem filled_all (pre post : List (Fin m × α)) (he : pairs = pre ++ post) {s : Fill m α}
    (h : Filled pairs pre s) : Filled pairs pairs (post.foldl Fill.add s) := by
  induction post generalizing pre s with
  | nil => simpa [he] using h
  | cons p post ih =>
    have he' : pairs = pre ++ [p] ++ post := by simp [he]
    exact ih (pre ++ [p]) he' (h.add ⟨post, he'⟩)

variable (zero : α) (pairs : List (Fin m × α))

theorem getElem?_items {k : Fin m} {j : ℕ} (hj : j < (row pairs k).length) :
    (items zero pairs)[offsets pairs k.castSucc + j]? = (row pairs k)[j]? := by
  have h := filled_all pairs [] pairs rfl
    (s := ⟨replicate (offsets pairs (last m)) zero, fun k => offsets pairs k.castSucc⟩)
    ⟨by simp, fun k => by simp [row], fun k j hj => by simp [row] at hj⟩
  exact h.items_eq k j hj

theorem slice_items (k : Fin m) : slice (offsets pairs) (items zero pairs) k = row pairs k := by
  have hs := offsets_succ pairs k
  apply ext_getElem?
  intro j
  rw [slice, getElem?_take, getElem?_drop]
  split
  · exact getElem?_items zero pairs (by omega)
  · rw [getElem?_eq_none (by omega)]

theorem length_row (k : Fin m) : (row pairs k).length = (pairs.map Prod.fst).count k := by
  rw [row, length_map, ← countP_eq_length_filter, count, countP_map]
  exact countP_congr fun p _ => by simp

theorem offsets_congr {β : Type*} {xs : List (Fin m × α)} {ys : List (Fin m × β)}
    (h : xs.map Prod.fst = ys.map Prod.fst) : offsets xs = offsets ys := by
  funext i
  simp only [offsets_eq, length_row, h]

theorem offsets_last : offsets pairs (last m) = pairs.length := by
  rw [offsets_eq]
  simp only [val_last, is_lt, if_true]
  induction pairs with
  | nil => simp [row]
  | cons p pairs ih =>
    have hrow (k : Fin m) : (row (p :: pairs) k).length =
        (row pairs k).length + if p.1 = k then 1 else 0 := by
      rw [← singleton_append, row_append, row_singleton, length_append, Nat.add_comm]
      split <;> rfl
    simp only [hrow, Finset.sum_add_distrib, ih, Finset.sum_ite_eq, Finset.mem_univ, if_true, length_cons]

/-- The runs one after the other are the flat list. -/
theorem flatMap_slice {start : Fin (m + 1) → ℕ} {items : List α} (h0 : start 0 = 0)
    (hmono : Monotone start) (hlast : start (last m) = items.length) :
    (finRange m).flatMap (slice start items) = items := by
  have key (k : ℕ) (hk : k ≤ m) : ((finRange m).take k).flatMap (slice start items) =
      items.take (start ⟨k, Nat.lt_succ_of_le hk⟩) := by
    induction k with
    | zero => simp [h0]
    | succ k ih =>
      have hlt : k < (finRange m).length := by rwa [length_finRange]
      rw [take_succ_eq_append_getElem hlt, flatMap_append, ih (by omega)]
      have hle : start (castSucc ⟨k, hk⟩) ≤ start (succ ⟨k, hk⟩) :=
        hmono castSucc_lt_succ.le
      have hsum : start (succ ⟨k, hk⟩) = start (castSucc ⟨k, hk⟩) +
          (start (succ ⟨k, hk⟩) - start (castSucc ⟨k, hk⟩)) := by omega
      simp only [getElem_finRange, flatMap_cons, flatMap_nil, append_nil]
      exact (take_add.symm).trans (congrArg (items.take ·) hsum.symm)
  have hall := key m le_rfl
  rw [take_of_length_le (by simp)] at hall
  rw [hall, show (⟨m, Nat.lt_succ_of_le le_rfl⟩ : Fin (m + 1)) = last m from rfl, hlast, take_length]

end Spectra.Library.Csr
