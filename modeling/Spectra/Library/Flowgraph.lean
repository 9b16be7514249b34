import Mathlib.Data.List.Chain

/-! Walks confined to a set of vertices, and dominance as the lack of an avoiding walk. -/
namespace Spectra.Library
open Relation List ReflTransGen
variable {V : Type*} {E : V → V → Prop}

/-- `p` is a walk of `E` from `u` to `w`, written out vertex by vertex. -/
def IsWalk (E : V → V → Prop) (p : List V) (u w : V) : Prop :=
  p.IsChain E ∧ p.head? = some u ∧ p.getLast? = some w

/-- Some walk from `u` to `w` keeps every vertex, both ends included, inside `P`. -/
def Through (E : V → V → Prop) (P : V → Prop) (u w : V) : Prop :=
  P u ∧ ReflTransGen (fun a b => E a b ∧ P b) u w

namespace Through
variable {P Q : V → Prop} {u v w : V}

theorem refl (h : P u) : Through E P u u := ⟨h, .refl⟩

theorem mono (hpq : ∀ v, P v → Q v) (h : Through E P u w) : Through E Q u w :=
  ⟨hpq _ h.1, ReflTransGen.mono (fun _ _ hab => ⟨hab.1, hpq _ hab.2⟩) _ _ h.2⟩

theorem trans (h : Through E P u v) (h' : Through E P v w) : Through E P u w :=
  ⟨h.1, h.2.trans h'.2⟩

theorem tail (h : Through E P u v) (he : E v w) (hw : P w) : Through E P u w :=
  ⟨h.1, h.2.tail ⟨he, hw⟩⟩

theorem head (he : E u v) (hu : P u) (h : Through E P v w) : Through E P u w :=
  ⟨hu, .head ⟨he, h.1⟩ h.2⟩

theorem last (h : Through E P u w) : P w := by
  obtain ⟨hu, hr⟩ := h
  induction hr with
  | refl => exact hu
  | tail _ hab _ => exact hab.2

theorem reach (h : Through E P u w) : ReflTransGen E u w :=
  ReflTransGen.mono (fun _ _ hab => hab.1) _ _ h.2

theorem exists_last {a w : V} (h : Through E P a w) (hw : Q w) :
    Through E (fun v => P v ∧ Q v) a w ∨
      ∃ x y, Through E P a x ∧ ¬ Q x ∧ E x y ∧ Through E (fun v => P v ∧ Q v) y w := by
  obtain ⟨ha, hr⟩ := h
  induction hr using head_induction_on with
  | refl => exact .inl (.refl ⟨ha, hw⟩)
  | @head a b hab _ ih =>
    rcases ih hab.2 with hall | ⟨x, y, hx, hq, he, hy⟩
    · by_cases hq : Q a
      · exact .inl (.head hab.1 ⟨ha, hq⟩ hall)
      · exact .inr ⟨a, b, .refl ha, hq, hab.1, hall⟩
    · exact .inr ⟨x, y, .head hab.1 ha hx, hq, he, hy⟩

theorem exists_first {a w : V} (h : Through E P a w) (hw : Q w) :
    ∃ y, P y ∧ Q y ∧ ReflTransGen (fun a b => E a b ∧ ¬ Q a) a y := by
  obtain ⟨ha, hr⟩ := h
  induction hr using head_induction_on with
  | refl => exact ⟨w, ha, hw, .refl⟩
  | @head a b hab _ ih =>
    by_cases hq : Q a
    · exact ⟨a, ha, hq, .refl⟩
    · obtain ⟨y, hp, hy, hr⟩ := ih hab.2
      exact ⟨y, hp, hy, .head ⟨hab.1, hq⟩ hr⟩

theorem avoids_or_hits [DecidableEq V] {a w : V} (b : V) (h : Through E P a w) :
    Through E (fun v => P v ∧ v ≠ b) a w ∨ Through E P a b := by
  obtain ⟨ha, hr⟩ := h
  induction hr using head_induction_on with
  | refl =>
    by_cases hb : w = b
    · exact .inr (hb ▸ .refl ha)
    · exact .inl (.refl ⟨ha, hb⟩)
  | @head a c hac _ ih =>
    by_cases hb : a = b
    · exact .inr (hb ▸ .refl ha)
    · exact (ih hac.2).imp (.head hac.1 ⟨ha, hb⟩) (.head hac.1 ha)

end Through

section
variable {u w : V} {p : List V}

theorem isWalk_cons {a : V} (hp : p ≠ []) : IsWalk E (a :: p) u w ↔ a = u ∧ ∃ v, E a v ∧ IsWalk E p v w := by
  obtain ⟨b, q, rfl⟩ := exists_cons_of_ne_nil hp
  simp only [IsWalk, isChain_cons_cons, head?_cons, Option.some.injEq]
  constructor
  · rintro ⟨⟨hab, hc⟩, rfl, hl⟩
    exact ⟨rfl, b, hab, hc, rfl, hl⟩
  · rintro ⟨rfl, v, hab, hc, rfl, hl⟩
    exact ⟨⟨hab, hc⟩, rfl, hl⟩

variable {P : V → Prop}

/-- A walk that enters only vertices of `P`. -/
theorem isWalk_and : IsWalk (fun a b => E a b ∧ P b) p u w ↔ IsWalk E p u w ∧ ∀ x ∈ p.tail, P x := by
  induction p generalizing u with
  | nil => simp [IsWalk]
  | cons a p ih =>
    by_cases hn : p = []
    · subst hn
      simp [IsWalk]
    · obtain ⟨b, q, rfl⟩ := exists_cons_of_ne_nil hn
      rw [isWalk_cons hn, isWalk_cons hn]
      constructor
      · rintro ⟨rfl, v, ⟨hav, hv⟩, hwalk⟩
        obtain ⟨hw, htail⟩ := ih.mp hwalk
        obtain rfl : b = v := Option.some.inj hw.2.1
        exact ⟨⟨rfl, b, hav, hw⟩, forall_mem_cons.mpr ⟨hv, htail⟩⟩
      · rintro ⟨⟨rfl, v, hav, hw⟩, hall⟩
        obtain ⟨hb, htail⟩ := forall_mem_cons.mp hall
        obtain rfl : b = v := Option.some.inj hw.2.1
        exact ⟨rfl, b, ⟨hav, hb⟩, ih.mpr ⟨hw, htail⟩⟩

/-- Cut a walk at its last vertex inside `Q`. -/
theorem IsWalk.exists_last {Q : V → Prop} (h : IsWalk E p u w) (hq : ∃ y ∈ p, Q y) :
    ∃ r q, Q r ∧ r ∈ p ∧ q.length ≤ p.length ∧ IsWalk E q r w ∧ ∀ y ∈ q.tail, ¬ Q y := by
  induction p generalizing u with
  | nil => simp [IsWalk] at h
  | cons a p ih =>
    by_cases hin : ∃ y ∈ p, Q y
    · obtain ⟨y, hy, hyq⟩ := hin
      obtain ⟨_, v, _, hv⟩ := (isWalk_cons (ne_nil_of_mem hy)).mp h
      obtain ⟨r, q, hr, hmem, hlen, hwalk, htail⟩ := ih hv ⟨y, hy, hyq⟩
      exact ⟨r, q, hr, .tail _ hmem, hlen.trans (Nat.le_succ _), hwalk, htail⟩
    · push Not at hin
      obtain ⟨y, hy, hyq⟩ := hq
      obtain rfl : y = a := (mem_cons.mp hy).resolve_right fun hmem => hin y hmem hyq
      obtain rfl : y = u := Option.some.inj h.2.1
      exact ⟨y, y :: p, hyq, mem_cons_self, le_rfl, h, hin⟩

theorem through_of_walk (h : IsWalk E p u w) (hp : ∀ x ∈ p, P x) : Through E P u w := by
  induction p generalizing u with
  | nil => simp [IsWalk] at h
  | cons a p ih =>
    by_cases hn : p = []
    · subst hn
      obtain ⟨_, hu, hw⟩ := h
      simp only [head?_cons, getLast?_singleton, Option.some.injEq] at hu hw
      subst hu hw
      exact .refl (hp a (by simp))
    · obtain ⟨rfl, v, he, hv⟩ := (isWalk_cons hn).mp h
      exact .head he (hp a (by simp)) (ih hv fun x hx => hp x (by simp [hx]))

theorem walk_of_through (h : Through E P u w) : ∃ p, IsWalk E p u w ∧ ∀ x ∈ p, P x := by
  obtain ⟨hu, hr⟩ := h
  induction hr using head_induction_on with
  | refl => exact ⟨[w], by simp [IsWalk], by simpa using hu⟩
  | head hab _ ih =>
    obtain ⟨p, hw, hp⟩ := ih hab.2
    have hn : p ≠ [] := by rintro rfl; simp [IsWalk] at hw
    exact ⟨_ :: p, (isWalk_cons hn).mpr ⟨rfl, _, hab.1, hw⟩, by simpa using ⟨hu, hp⟩⟩

theorem exists_walk_iff_through : (∃ p, IsWalk E p u w ∧ ∀ x ∈ p, P x) ↔ Through E P u w :=
  ⟨fun ⟨_, hw, hp⟩ => through_of_walk hw hp, walk_of_through⟩

end

/-- Every walk from a vertex of `S` to `w` passes `v`. -/
def Dominates (E : V → V → Prop) (S : V → Prop) (v w : V) : Prop :=
  ∀ u, S u → ∀ p, IsWalk E p u w → v ∈ p

theorem dominates_iff {S : V → Prop} {v w : V} : Dominates E S v w ↔ ∀ u, S u → ¬ Through E (· ≠ v) u w := by
  refine forall₂_congr fun u _ => ?_
  rw [← exists_walk_iff_through]
  push Not
  constructor
  · exact fun h p hp => ⟨v, h p hp, rfl⟩
  · intro h p hp
    obtain ⟨x, hx, rfl⟩ := h p hp
    exact hx

end Spectra.Library
