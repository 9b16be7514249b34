import Spectra.Library.Loop
import Spectra.Library.Semidominator
import Mathlib.Algebra.GroupWithZero.Nat
import Mathlib.Data.Fintype.BigOperators

/-! Subtree sums computed by one descending loop that adds every vertex to its parent. -/
namespace Spectra.Library.TreeSum
open Relation Finset
variable {M : Type*} [AddCommMonoid M] {m : ℕ} [NeZero m] {parent : Fin m → Fin m}

/-- Ancestry that steps down only to vertices numbered `k` or more. -/
def AncFrom (parent : Fin m → Fin m) (k : ℕ) : Fin m → Fin m → Prop :=
  ReflTransGen (fun a b => b ≠ 0 ∧ parent b = a ∧ k ≤ b.val)

section
variable (hp : ∀ w, w ≠ 0 → parent w < w)
include hp

theorem ancFrom_raise {j k : ℕ} {y x : Fin m} (h : AncFrom parent j y x)
    (hk : k ≤ y.val) : AncFrom parent (k + 1) y x := by
  induction h using ReflTransGen.head_induction_on with
  | refl => exact .refl
  | head hab _ ih =>
    obtain ⟨hb, rfl, _⟩ := hab
    have hlt := Fin.lt_def.mp (hp _ hb)
    exact .head ⟨hb, rfl, by omega⟩ (ih (by omega))

theorem ancFrom_step {k : Fin m} (hk : k ≠ 0) {y x : Fin m} :
    AncFrom parent k.val y x ↔ AncFrom parent (k.val + 1) y x ∨ y = parent k ∧ AncFrom parent (k.val + 1) k x := by
  constructor
  · intro h
    rcases h.cases_head with rfl | ⟨b, ⟨hb, rfl, hkb⟩, hbx⟩
    · exact .inl .refl
    · have hbx' := ancFrom_raise hp hbx hkb
      rcases eq_or_lt_of_le hkb with he | hlt
      · obtain rfl := Fin.ext he
        exact .inr ⟨rfl, hbx'⟩
      · exact .inl (.head ⟨hb, rfl, hlt⟩ hbx')
  · have hmono {y x : Fin m} (h : AncFrom parent (k.val + 1) y x) : AncFrom parent k.val y x :=
      ReflTransGen.mono (fun _ _ h => ⟨h.1, h.2.1, by omega⟩) _ _ h
    rintro (h | ⟨rfl, h⟩)
    · exact hmono h
    · exact .head ⟨hk, rfl, le_rfl⟩ (hmono h)

theorem ancFrom_disjoint {k x : Fin m} (hk : k ≠ 0)
    (h : AncFrom parent (k.val + 1) k x) : ¬ AncFrom parent (k.val + 1) (parent k) x := by
  have hlt := Fin.lt_def.mp (hp k hk)
  induction h with
  | refl =>
    intro h
    rcases h.cases_tail with he | ⟨_, _, _, _, hge⟩
    · exact absurd (congrArg Fin.val he) (by omega)
    · omega
  | @tail c x _ hcx ih =>
    intro h
    obtain ⟨_, rfl, hge⟩ := hcx
    rcases h.cases_tail with rfl | ⟨d, hd, _, rfl, _⟩
    · omega
    · exact ih hd

end

theorem ancFrom_end {y x : Fin m} : AncFrom parent m y x ↔ y = x := by
  constructor
  · intro h
    rcases h.cases_head with rfl | ⟨b, ⟨_, _, hb⟩, _⟩
    · rfl
    · exact absurd b.isLt (by omega)
  · rintro rfl
    exact .refl

theorem ancFrom_one {y x : Fin m} : AncFrom parent 1 y x ↔ Anc 0 parent y x := by
  have he : (fun a b : Fin m => b ≠ 0 ∧ parent b = a ∧ 1 ≤ b.val) =
      fun a b => b ≠ 0 ∧ parent b = a := by
    funext a b
    apply propext
    constructor
    · exact fun h => ⟨h.1, h.2.1⟩
    · exact fun h => ⟨h.1, h.2, Nat.pos_of_ne_zero fun h0 => h.1 (Fin.ext (by exact h0))⟩
  unfold AncFrom Anc
  rw [he]

open Classical in
/-- After the loop every vertex holds the sum over its subtree. -/
theorem down_eq_sum (hp : ∀ w, w ≠ 0 → parent w < w) (a : Fin m → M) (y : Fin m) :
    Loop.down 1 (fun d r => Function.update r (parent d) (r (parent d) + r d)) a y =
      ∑ x with Anc 0 parent y x, a x := by
  have h := Loop.down_inv (s := a)
    (f := fun d r => Function.update r (parent d) (r (parent d) + r d))
    (fun k r => ∀ y, r y = ∑ x with AncFrom parent k y x, a x) 1 (Nat.pos_of_ne_zero (NeZero.ne m))
    (fun y => by simp [ancFrom_end, filter_eq]) ?_ y
  · simpa only [ancFrom_one] using h
  · intro k hk r ih y
    have hk0 : k ≠ 0 := by
      rintro rfl
      simp at hk
    by_cases hy : y = parent k
    · subst hy
      rw [Function.update_self, ih, ih, ← sum_union]
      · refine sum_congr (ext fun x => ?_) fun _ _ => rfl
        simp [ancFrom_step hp hk0]
      · refine disjoint_left.mpr fun x hx hx' => ?_
        simp only [mem_filter_univ] at hx hx'
        exact ancFrom_disjoint hp hk0 hx' hx
    · rw [Function.update_of_ne hy, ih]
      simp [ancFrom_step hp hk0, hy]

theorem sum_partial {α β : Type*} [Fintype α] [Fintype β] {f : α → Option β}
    {b : β → Option α} (h : ∀ x y, f x = some y ↔ b y = some x) (w : β → M) :
    ∑ x, (f x).elim 0 w = ∑ y, (b y).elim 0 fun _ => w y := by
  classical
  have hl (x : α) : (f x).elim 0 w = ∑ y, if f x = some y then w y else 0 := by
    cases f x with
    | none | some y => simp
  have hr (y : β) : ((b y).elim 0 fun _ => w y) = ∑ x, if b y = some x then w y else 0 := by
    cases b y with
    | none | some x => simp
  simp only [hl, hr, h]
  exact sum_comm

end Spectra.Library.TreeSum
