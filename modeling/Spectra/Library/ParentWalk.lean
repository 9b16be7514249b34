import Mathlib.Order.Preorder.Finite
import Mathlib.Dynamics.PeriodicPts.Defs

/-! Walks along the pointers of a partial function. -/
namespace Spectra.Library.ParentWalk
open Relation Function
variable {α : Type*} {next : α → Option α} {a b p q : α}

/-- The walk has gone off the end, or it is at some element. -/
def up (next : α → Option α) (o : Option α) : Option α := o.bind next

/-- The elements that a walk from here comes to. -/
def Above (next : α → Option α) : α → α → Prop := TransGen fun a b => next a = some b

theorem iterate_up_none (n : ℕ) : (up next)^[n] none = none :=
  iterate_fixed rfl n

theorem iterate_none_of_le {o : Option α} {m n : ℕ} (h : (up next)^[n] o = none) (hle : n ≤ m) :
    (up next)^[m] o = none := by
  obtain ⟨k, rfl⟩ := Nat.exists_eq_add_of_le' hle
  rw [iterate_add_apply, h, iterate_up_none]

theorem above_iff : Above next a b ↔ ∃ n, (up next)^[n + 1] (some a) = some b := by
  constructor
  · intro h
    induction h with
    | single h => exact ⟨0, h⟩
    | tail _ h ih =>
      obtain ⟨n, hn⟩ := ih
      refine ⟨n + 1, ?_⟩
      rw [Function.iterate_succ_apply', hn]
      exact h
  · rintro ⟨n, hn⟩
    induction n generalizing b with
    | zero => exact .single hn
    | succ n ih =>
      rw [Function.iterate_succ_apply'] at hn
      obtain ⟨c, hc, hb⟩ := Option.bind_eq_some_iff.mp hn
      exact (ih hc).tail hb

/-- An element above itself is come to again and again. -/
theorem iterate_ne_none (h : Above next q q) (n : ℕ) : (up next)^[n] (some q) ≠ none := by
  obtain ⟨k, hk⟩ := above_iff.mp h
  intro hn
  have hperiod : Function.IsPeriodicPt (up next) (k + 1) (some q) := hk
  cases (hperiod.mul_const n).symm.trans (iterate_none_of_le hn (Nat.le_mul_of_pos_left n k.succ_pos))

/-- In a finite table a walk ends, or comes back to where it began, exactly if every cycle above
its start goes through the start. -/
theorem ends_iff {s : Set α} (hs : s.Finite) (hnext : ∀ a b, next a = some b → b ∈ s) :
    (∃ n, (up next)^[n + 1] (some p) = none ∨ (up next)^[n + 1] (some p) = some p) ↔
      ∀ q, Above next p q → Above next q q → Above next q p := by
  constructor
  · rintro ⟨n, hend⟩ q hpq hqq
    obtain ⟨m, hm⟩ := above_iff.mp hpq
    rcases hend with hnone | hback
    · refine absurd ?_ (iterate_ne_none hqq (n + 1))
      rw [← hm, ← iterate_add_apply]
      exact iterate_none_of_le hnone (by omega)
    · have hperiod : Function.IsPeriodicPt (up next) (n + 1) (some p) := hback
      rw [← hperiod.iterate_mod_apply] at hm
      refine above_iff.mpr ⟨n - (m + 1) % (n + 1), ?_⟩
      have hlt : (m + 1) % (n + 1) < n + 1 := Nat.mod_lt _ (by omega)
      rw [← hm, ← iterate_add_apply]
      rw [show n - (m + 1) % (n + 1) + 1 + (m + 1) % (n + 1) = n + 1 by omega]
      exact hback
  · intro h
    by_contra! hgoes
    have hin : ∀ n, (up next)^[n + 1] (some p) ∈ some '' s := by
      intro n
      obtain ⟨q, hq⟩ := Option.ne_none_iff_exists'.mp (hgoes n).1
      rw [iterate_succ_apply'] at hq ⊢
      obtain ⟨c, -, hc⟩ := Option.bind_eq_some_iff.mp hq
      exact ⟨q, hnext c q hc, hq.symm⟩
    obtain ⟨i, j, hlt, heq⟩ := (hs.image some).exists_lt_map_eq_of_forall_mem hin
    obtain ⟨q, -, hq⟩ := hin i
    have hcycle : Above next q q := by
      refine above_iff.mpr ⟨j - i - 1, ?_⟩
      rw [hq, ← iterate_add_apply, show j - i - 1 + 1 + (i + 1) = j + 1 by omega]
      exact heq.symm
    obtain ⟨t, ht⟩ := above_iff.mp (h q (above_iff.mpr ⟨i, hq.symm⟩) hcycle)
    rw [hq, ← iterate_add_apply] at ht
    exact (hgoes (t + 1 + i)).2 ht

variable {stop : α → Bool} {fuel : ℕ} {cur : Option α} {l : List α}

/-- A loop along the pointers, up to an element at which it stops; `none` if the fuel runs out. -/
def walkUntil (next : α → Option α) (stop : α → Bool) : ℕ → Option α → Option (List α)
  | 0, _ => none
  | _ + 1, none => some []
  | fuel + 1, some a =>
    if stop a then some [] else (walkUntil next stop fuel (next a)).map (a :: ·)

theorem isSome_walkUntil : (walkUntil next stop fuel cur).isSome ↔
    ∃ n < fuel, ∀ q, (up next)^[n] cur = some q → stop q = true := by
  fun_induction walkUntil next stop fuel cur with
  | case1 => simp
  | case2 fuel => exact iff_of_true rfl ⟨0, fuel.succ_pos, by simp⟩
  | case3 fuel a h => exact iff_of_true rfl ⟨0, fuel.succ_pos, by simp [h]⟩
  | case4 fuel a h ih =>
    rw [Option.isSome_map, ih, Nat.exists_lt_succ_left]
    exact (or_iff_right fun hstop => h (hstop a rfl)).symm

theorem walkUntil_spec (h : walkUntil next stop fuel cur = some l) :
    (∀ c, cur = some c → stop c = true ∨ c ∈ l) ∧
    (∀ y ∈ l, ∀ z, next y = some z → stop z = true ∨ z ∈ l) ∧
    ∀ y ∈ l, ∃ c, cur = some c ∧ ReflTransGen (fun a b => next a = some b) c y := by
  fun_induction walkUntil next stop fuel cur generalizing l with
  | case1 => cases h
  | case2 =>
    cases h
    simp
  | case3 fuel a hstop =>
    cases h
    simp [hstop]
  | case4 fuel a hstop ih =>
    obtain ⟨rest, hrest, rfl⟩ := Option.map_eq_some_iff.mp h
    obtain ⟨hfirst, hnext, hreach⟩ := ih hrest
    refine ⟨fun c hc => .inr (by simp_all), List.forall_mem_cons.mpr ⟨?_, ?_⟩,
      List.forall_mem_cons.mpr ⟨⟨a, rfl, .refl⟩, fun y hy => ?_⟩⟩
    · exact fun z hz => (hfirst z hz).imp_right (.tail _)
    · exact fun y hy z hz => (hnext y hy z hz).imp_right (.tail _)
    · obtain ⟨c, hc, hy⟩ := hreach y hy
      exact ⟨a, rfl, .head hc hy⟩

/-- A loop that ends has come to everything above its start. -/
theorem mem_walkUntil (hstop : ∀ q, Above next p q → stop q = true → q = p)
    (h : walkUntil next stop fuel (next p) = some l) : q = p ∨ q ∈ l ↔ q = p ∨ Above next p q := by
  obtain ⟨hfirst, hnext, hreach⟩ := walkUntil_spec h
  constructor
  · refine Or.imp_right fun hq => ?_
    obtain ⟨c, hc, hcq⟩ := hreach q hq
    exact .head' hc hcq
  · rintro (rfl | hq)
    · exact .inl rfl
    · induction hq with
      | single hb => exact (hfirst _ hb).imp_left (hstop _ (.single hb))
      | tail ha hb ih =>
        rcases ih with rfl | hc
        · exact (hfirst _ hb).imp_left (hstop _ (.tail ha hb))
        · exact (hnext _ hc _ hb).imp_left (hstop _ (.tail ha hb))

end Spectra.Library.ParentWalk
