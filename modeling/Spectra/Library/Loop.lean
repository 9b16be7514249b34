import Mathlib.Data.List.FinRange

/-! Counted loops over the indices of an array, each with one invariant rule. -/
namespace Spectra.Library.Loop
open List
variable {σ : Type*} {m : ℕ}

/-- Run `f` at the indices from `lo` up to the last one. -/
def up (lo : ℕ) (f : Fin m → σ → σ) (s : σ) : σ :=
  ((List.finRange m).drop lo).foldl (fun s i => f i s) s

/-- Run `f` at the indices from the last one down to `lo`. -/
def down (lo : ℕ) (f : Fin m → σ → σ) (s : σ) : σ :=
  ((List.finRange m).drop lo).foldr f s

theorem drop_finRange {lo : ℕ} (h : lo < m) : (finRange m).drop lo = ⟨lo, h⟩ :: (finRange m).drop (lo + 1) := by
  rw [drop_eq_getElem_cons (by simpa using h)]
  simp

theorem drop_finRange_end : (finRange m).drop m = [] :=
  drop_of_length_le (by simp)

theorem mem_drop_finRange {lo : ℕ} {i : Fin m} : i ∈ (finRange m).drop lo ↔ lo ≤ i.val := by
  rw [mem_iff_getElem?]
  constructor
  · rintro ⟨k, hk⟩
    rw [getElem?_eq_some_iff] at hk
    obtain ⟨_, rfl⟩ := hk
    simp
  · intro h
    refine ⟨i.val - lo, ?_⟩
    rw [getElem?_drop, Nat.add_sub_cancel' h]
    simp

variable (I : ℕ → σ → Prop) (lo : ℕ) {f : Fin m → σ → σ} {s : σ}

theorem up_inv (hlo : lo ≤ m)
    (h : I lo s) (hs : ∀ i : Fin m, lo ≤ i.val → ∀ s, I i.val s → I (i.val + 1) (f i s)) : I m (up lo f s) := by
  induction hlo using Nat.decreasingInduction generalizing s with
  | self => simpa [up, drop_finRange_end] using h
  | of_succ lo hl ih =>
    have he : up lo f s = up (lo + 1) f (f ⟨lo, hl⟩ s) := by
      rw [up, drop_finRange hl]
      rfl
    rw [he]
    exact ih (hs ⟨lo, hl⟩ le_rfl s h) (fun i hle => hs i (by omega))

theorem down_inv (hlo : lo ≤ m)
    (h : I m s) (hs : ∀ i : Fin m, lo ≤ i.val → ∀ s, I (i.val + 1) s → I i.val (f i s)) : I lo (down lo f s) := by
  induction hlo using Nat.decreasingInduction with
  | self => simpa [down, drop_finRange_end] using h
  | of_succ lo hl ih =>
    have he : down lo f s = f ⟨lo, hl⟩ (down (lo + 1) f s) := by
      rw [down, drop_finRange hl]
      rfl
    rw [he]
    exact hs ⟨lo, hl⟩ le_rfl _ (ih (fun i hle => hs i (by omega)))

end Spectra.Library.Loop
