import Spectra.Library.GoRuntime

/-! The first elements of an order. -/
namespace Spectra.Library
open List
variable {α κ : Type*}

/-- Every element is not before its parent. -/
def IsHeap (less : α → α → Bool) (l : List α) : Prop :=
  ∀ i j x y, j = 2 * i + 1 ∨ j = 2 * i + 2 → l[i]? = some x → l[j]? = some y → less y x = false

/-- An implementation of `container/heap`, by what `Push` and `Fix` of the root are for. -/
structure HeapImpl (less : α → α → Bool) where
  push : List α → α → List α
  fix : List α → List α
  push_perm : ∀ l x, (push l x).Perm (x :: l)
  push_heap : ∀ l x, IsHeap less l → IsHeap less (push l x)
  fix_perm : ∀ l, (fix l).Perm l
  fix_heap : ∀ x y l, IsHeap less (x :: l) → IsHeap less (fix (y :: l))

/-- One element offered to a heap of at most `limit` elements. -/
def offer {less : α → α → Bool} (heap : HeapImpl less) (limit : ℕ) (items : List α) (x : α) :
    List α :=
  if items.length < limit then heap.push items x
  else
    match items with
    | [] => []
    | root :: rest => if 0 < limit ∧ less root x then heap.fix (x :: rest) else root :: rest

variable [LinearOrder κ] {rank : α → κ} {less : α → α → Bool}
  (hless : ∀ a b, less a b = true ↔ rank b < rank a)
include hless

theorem IsHeap.root_last {root : α} {rest : List α} (h : IsHeap less (root :: rest)) {x : α}
    (hx : x ∈ root :: rest) : rank x ≤ rank root := by
  obtain ⟨j, hj⟩ := mem_iff_getElem?.mp hx
  induction j using Nat.strong_induction_on generalizing x with
  | _ j ih =>
    rcases Nat.eq_zero_or_pos j with rfl | hpos
    · cases hj
      exact le_rfl
    · have hlt : (j - 1) / 2 < (root :: rest).length := by
        have := (List.getElem?_eq_some_iff.mp hj).1
        omega
      have hparent := getElem?_eq_getElem hlt
      have hle := h ((j - 1) / 2) j _ x (by omega) hparent hj
      rw [Bool.eq_false_iff, Ne, hless, not_lt] at hle
      exact hle.trans (ih _ (by omega) (mem_of_getElem? hparent) hparent)

variable {l : List α}

theorem isHeap_of_sorted (h : l.Pairwise fun a b => rank b ≤ rank a) : IsHeap less l := by
  intro i j x y hij hx hy
  rw [Bool.eq_false_iff, Ne, hless, not_lt]
  obtain ⟨hi, rfl⟩ := List.getElem?_eq_some_iff.mp hx
  obtain ⟨hj, rfl⟩ := List.getElem?_eq_some_iff.mp hy
  exact pairwise_iff_getElem.mp h i j hi hj (by omega)

/-- The implementation that keeps the elements in order. -/
def HeapImpl.sorting : HeapImpl less where
  push l x := ((SliceSort.stable rank).sort (x :: l)).reverse
  fix l := ((SliceSort.stable rank).sort l).reverse
  push_perm _ _ := (List.reverse_perm _).trans ((SliceSort.stable rank).perm _)
  push_heap _ _ _ := isHeap_of_sorted hless
    (List.pairwise_reverse.mpr ((SliceSort.stable rank).sorted _))
  fix_perm _ := (List.reverse_perm _).trans ((SliceSort.stable rank).perm _)
  fix_heap _ _ _ _ := isHeap_of_sorted hless
    (List.pairwise_reverse.mpr ((SliceSort.stable rank).sorted _))

omit hless in
/-- The heap holds as many elements as it may, and those it has let go come after them. -/
structure Selected (rank : α → κ) (less : α → α → Bool) (limit : ℕ)
    (offered items : List α) : Prop where
  heap : IsHeap less items
  length_eq : items.length = min limit offered.length
  split : ∃ gone, (items ++ gone).Perm offered ∧ ∀ x ∈ items, ∀ y ∈ gone, rank x < rank y

section
variable {limit : ℕ} {offered items : List α} {x : α}

omit hless in
theorem Selected.push (h : Selected rank less limit offered items) (impl : HeapImpl less)
    (hroom : items.length < limit) : Selected rank less limit (offered ++ [x]) (impl.push items x) := by
  obtain ⟨hheap, hlen, gone, hperm, -⟩ := h
  have hlength := hperm.length_eq
  rw [length_append] at hlength
  obtain rfl : gone = [] := length_eq_zero_iff.mp (by omega)
  rw [append_nil] at hperm
  refine ⟨impl.push_heap _ _ hheap, ?_, [], ?_, by simp⟩
  · rw [(impl.push_perm items x).length_eq, length_cons, length_append, length_singleton]
    omega
  · rw [append_nil]
    exact (impl.push_perm items x).trans
      ((hperm.cons x).trans (perm_append_singleton x _).symm)

omit hless in
theorem Selected.length_full (h : Selected rank less limit offered items)
    (hfull : ¬ items.length < limit) : items.length = min limit (offered ++ [x]).length := by
  have hlen := h.length_eq
  rw [length_append]
  omega

omit hless [LinearOrder κ] in
theorem perm_reject {gone : List α} (h : (items ++ gone).Perm offered) :
    (items ++ (x :: gone)).Perm (offered ++ [x]) :=
  perm_middle.trans ((h.cons x).trans (perm_append_singleton x _).symm)

omit hless in
theorem Selected.reject (h : Selected rank less limit offered items)
    (hfull : ¬ items.length < limit) (hlast : ∀ z ∈ items, rank z < rank x) :
    Selected rank less limit (offered ++ [x]) items := by
  obtain ⟨gone, hperm, hsplit⟩ := h.split
  refine ⟨h.heap, h.length_full hfull, x :: gone, perm_reject hperm, fun z hz y hy => ?_⟩
  rcases mem_cons.mp hy with rfl | hy
  · exact hlast z hz
  · exact hsplit z hz y hy

theorem Selected.replace {root : α} {rest : List α}
    (h : Selected rank less limit offered (root :: rest)) (impl : HeapImpl less)
    (hfull : ¬ (root :: rest).length < limit) (hn : (offered.map rank).Nodup) (hx : rank x < rank root) :
    Selected rank less limit (offered ++ [x]) (impl.fix (x :: rest)) := by
  obtain ⟨gone, hperm, hsplit⟩ := h.split
  have hrest : ∀ z ∈ rest, rank z < rank root := by
    intro z hz
    refine lt_of_le_of_ne (h.heap.root_last hless (.tail _ hz)) fun he => ?_
    have hnodup := (hperm.map rank).nodup_iff.mpr hn
    rw [map_append, map_cons, cons_append, nodup_cons] at hnodup
    exact hnodup.1 (mem_append_left _ (he ▸ mem_map_of_mem hz))
  refine ⟨impl.fix_heap root x rest h.heap, ?_, root :: gone, ?_, fun z hz y hy => ?_⟩
  · rw [(impl.fix_perm _).length_eq]
    exact h.length_full hfull
  · refine ((impl.fix_perm _).append_right _).trans (List.Perm.trans ?_ (perm_reject hperm))
    exact (perm_middle.cons x).trans
      ((List.Perm.swap root x _).trans (perm_middle.symm.cons root))
  · have hzr : rank z < rank root := by
      rcases mem_cons.mp ((impl.fix_perm _).mem_iff.mp hz) with rfl | hz
      · exact hx
      · exact hrest z hz
    rcases mem_cons.mp hy with rfl | hy
    · exact hzr
    · exact hzr.trans (hsplit root (.head _) y hy)

theorem Selected.offer (h : Selected rank less limit offered items) (impl : HeapImpl less)
    (hx : ∀ y ∈ offered, rank y ≠ rank x) (hn : (offered.map rank).Nodup) :
    Selected rank less limit (offered ++ [x]) (offer impl limit items x) := by
  have hne {y : α} (hy : y ∈ items) : rank y ≠ rank x := by
    obtain ⟨gone, hperm, -⟩ := h.split
    exact hx y (hperm.mem_iff.mp (mem_append_left _ hy))
  unfold Library.offer
  split
  · rename_i hroom
    exact h.push impl hroom
  · rename_i hfull
    cases items with
    | nil => exact h.reject hfull (by simp)
    | cons root rest =>
      dsimp only
      split
      · rename_i hroot
        exact h.replace hless impl hfull hn ((hless root x).mp hroot.2)
      · rename_i hroot
        have hlen := h.length_eq
        have hle : rank root ≤ rank x := by
          by_contra hlt
          rw [length_cons] at hlen
          exact hroot ⟨by omega, (hless root x).mpr (not_le.mp hlt)⟩
        refine h.reject hfull fun z hz => ?_
        exact lt_of_le_of_ne ((h.heap.root_last hless hz).trans hle) (hne hz)

end

variable (impl : HeapImpl less) (limit : ℕ) (hn : (l.map rank).Nodup)
include hn

theorem selected_foldl : Selected rank less limit l (l.foldl (offer impl limit) []) := by
  induction l using reverseRecOn with
  | nil => exact ⟨isHeap_of_sorted hless .nil, by simp, [], .refl _, by simp⟩
  | append_singleton l x ih =>
    rw [map_append, nodup_append] at hn
    obtain ⟨hl, -, hx⟩ := hn
    rw [foldl_append]
    refine (ih hl).offer hless impl (fun y hy => ?_) hl
    exact hx _ (mem_map_of_mem hy) _ (by simp)

/-- What the heap holds in the end, sorted, is the beginning of everything sorted. -/
theorem sort_foldl_offer (s t : SliceSort rank) : s.sort (l.foldl (offer impl limit) []) = (t.sort l).take limit := by
  obtain ⟨-, hlen, gone, hperm, hsplit⟩ := selected_foldl hless impl limit hn
  generalize l.foldl (offer impl limit) [] = items at hlen hperm hsplit
  have hsorted : s.sort items ++ s.sort gone = t.sort l := by
    have hp := ((s.perm items).append (s.perm gone)).trans hperm
    have hn' := (hp.map rank).nodup_iff.mpr hn
    refine (hp.trans (t.perm l).symm).eq_of_pairwise ?_ ?_ (t.sorted l)
    · intro a b ha hb hab hba
      exact inj_on_of_nodup_map hn' ha (hp.mem_iff.mpr ((t.perm l).mem_iff.mp hb))
        (le_antisymm hab hba)
    · rw [pairwise_append]
      refine ⟨s.sorted items, s.sorted gone, fun x hx y hy => ?_⟩
      exact (hsplit x (s.mem_sort.mp hx) y (s.mem_sort.mp hy)).le
  have hlength := hperm.length_eq
  rw [length_append] at hlength
  rw [← hsorted]
  have hitems := (s.perm items).length_eq
  have hgone := (s.perm gone).length_eq
  rcases Nat.le_total limit l.length with hle | hle
  · rw [take_append_of_le_length (by omega), take_of_length_le (by omega)]
  · rw [take_of_length_le (by rw [length_append]; omega),
      length_eq_zero_iff.mp (show (s.sort gone).length = 0 by omega), append_nil]

end Spectra.Library
