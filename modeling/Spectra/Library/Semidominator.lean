import Spectra.Library.Flowgraph
import Mathlib.Order.WellFounded
import Mathlib.Order.Bounds.Basic

/-! Semidominators of a flowgraph whose vertices are their own depth-first numbers. -/
namespace Spectra.Library
open Relation ReflTransGen
variable {V : Type*} [LinearOrder V] {E : V → V → Prop} {r : V} {parent : V → V}

/-- Reflexive tree ancestry along parent pointers. The root's pointer is not read. -/
def Anc (r : V) (parent : V → V) : V → V → Prop :=
  ReflTransGen (fun a b => b ≠ r ∧ parent b = a)

omit [LinearOrder V] in
theorem Anc.total {a b w : V} (ha : Anc r parent a w) (hb : Anc r parent b w) :
    Anc r parent a b ∨ Anc r parent b a := by
  induction ha with
  | refl => exact .inr hb
  | @tail c w hac hcw ih =>
    rcases hb.cases_tail with rfl | ⟨e, hbe, hew⟩
    · exact .inl (.tail hac hcw)
    · obtain rfl : e = c := hew.2.symm.trans hcw.2
      exact ih hbe

/-- The laws of a depth-first spanning tree numbered in preorder: subtrees are
intervals, and an edge to a larger number runs down the tree. -/
structure DfsTree (E : V → V → Prop) (r : V) (parent : V → V) : Prop where
  parent_lt : ∀ {w}, w ≠ r → parent w < w
  parent_edge : ∀ {w}, w ≠ r → E (parent w) w
  interval : ∀ {c v w}, Anc r parent c v → c ≤ w → w ≤ v → Anc r parent c w
  forward : ∀ {v w}, E v w → v < w → Anc r parent v w

/-- `v` reaches `w` by a nonempty walk whose inner vertices are all above `w`. -/
def Semi (E : V → V → Prop) (v w : V) : Prop :=
  ∃ y, ReflTransGen (fun a b => E a b ∧ w < b) v y ∧ E y w

/-- The semidominator is the least such start. -/
def IsSdom (E : V → V → Prop) (s w : V) : Prop := IsLeast {v | Semi E v w} s

/-- Single-root dominance, as the absence of an avoiding walk. -/
def Dom (E : V → V → Prop) (r v w : V) : Prop := ¬ Through E (· ≠ v) r w

theorem Semi.of_edge {v w : V} (h : E v w) : Semi E v w := ⟨v, .refl, h⟩

/-- The immediate dominator: a strict dominator below every other one. -/
def IsIdom (E : V → V → Prop) (r d w : V) : Prop :=
  (Dom E r d w ∧ d ≠ w) ∧ ∀ z, Dom E r z w → z ≠ w → Dom E r z d

omit [LinearOrder V] in
theorem root_dom (w : V) : Dom E r r w := fun h => h.1 rfl

theorem IsSdom.unique {s t w : V} (h : IsSdom E s w) (h' : IsSdom E t w) : s = t :=
  IsLeast.unique h h'

theorem Semi.exists_isSdom [WellFoundedLT V] {v w : V} (h : Semi E v w) : ∃ s, IsSdom E s w :=
  ⟨_, WellFounded.min_mem wellFounded_lt {v | Semi E v w} ⟨v, h⟩, fun _ hx => WellFounded.min_le wellFounded_lt hx⟩

theorem anc_congr {p q : V → V} (hp : ∀ w, w ≠ r → p w < w) {a b : V}
    (h : ∀ k ≤ b, k ≠ r → p k = q k) : Anc r p a b ↔ Anc r q a b := by
  constructor <;> intro hab
  · induction hab with
    | refl => exact .refl
    | tail _ hbc ih =>
      obtain ⟨hne, rfl⟩ := hbc
      exact .tail (ih fun k hk => h k (hk.trans (hp _ hne).le)) ⟨hne, (h _ le_rfl hne).symm⟩
  · induction hab with
    | refl => exact .refl
    | tail _ hbc ih =>
      obtain ⟨hne, rfl⟩ := hbc
      have he := h _ le_rfl hne
      rw [← he] at ih
      exact .tail (ih fun k hk => h k (hk.trans (hp _ hne).le)) ⟨hne, rfl⟩

namespace DfsTree
variable (t : DfsTree E r parent)
include t

variable {a : V}

theorem anc_le {b : V} (h : Anc r parent a b) : a ≤ b := by
  induction h with
  | refl => exact le_rfl
  | tail _ hbc ih =>
    obtain ⟨hne, rfl⟩ := hbc
    exact ih.trans (t.parent_lt hne).le

variable {w : V}

omit [LinearOrder V] t in
theorem anc_parent (hw : w ≠ r) : Anc r parent (parent w) w := .single ⟨hw, rfl⟩

omit [LinearOrder V] t in
theorem anc_cases (h : Anc r parent a w) : a = w ∨ w ≠ r ∧ Anc r parent a (parent w) := by
  rcases h.cases_tail with rfl | ⟨c, hc, hne, rfl⟩
  · exact .inl rfl
  · exact .inr ⟨hne, hc⟩

omit [LinearOrder V] t in
theorem exists_child (h : Anc r parent a w) (hne : a ≠ w) : ∃ c, c ≠ r ∧ parent c = a ∧ Anc r parent c w := by
  rcases h.cases_head with rfl | ⟨c, ⟨hc, hp⟩, hcw⟩
  · exact absurd rfl hne
  · exact ⟨c, hc, hp, hcw⟩

theorem anc_of_le {u v : V} (hu : Anc r parent u w) (hv : Anc r parent v w) (h : u ≤ v) :
    Anc r parent u v := t.interval hu h (t.anc_le hv)

theorem root_anc [WellFoundedLT V] (w : V) : Anc r parent r w := by
  induction w using WellFoundedLT.induction with
  | ind w ih =>
    by_cases hw : w = r
    · exact hw ▸ .refl
    · exact .tail (ih _ (t.parent_lt hw)) ⟨hw, rfl⟩

theorem eq_of_parent_lt (h : Anc r parent a w) (hlt : parent w < a) : a = w := by
  rcases anc_cases h with rfl | ⟨_, ha⟩
  · rfl
  · exact absurd (t.anc_le ha) (not_le.mpr hlt)

theorem anc_through {P : V → Prop} {b : V} (h : Anc r parent a b)
    (hp : ∀ c, Anc r parent a c → Anc r parent c b → P c) : Through E P a b := by
  induction h with
  | refl => exact .refl (hp a .refl .refl)
  | @tail c d hac hcd ih =>
    have hd : Anc r parent c d := .single hcd
    obtain ⟨hne, rfl⟩ := hcd
    exact .tail (ih fun x hx hxc => hp x hx (hxc.trans hd)) (t.parent_edge hne)
      (hp _ (hac.trans hd) .refl)

theorem anc_of_through {x y : V} (h : Through E (x ≤ ·) x y) : Anc r parent x y := by
  obtain ⟨_, hr⟩ := h
  induction hr with
  | refl => exact .refl
  | @tail b c _ hbc ih =>
    rcases lt_or_ge b c with hlt | hge
    · exact ih.trans (t.forward hbc.1 hlt)
    · exact t.interval ih hbc.2 hge

/-- Every walk passes an ancestor of its end that is no larger than its start. -/
theorem exists_anc_on_walk {R : V → V → Prop} (hR : ∀ a b, R a b → E a b) {z y : V}
    (h : ReflTransGen R z y) : ∃ c ≤ z, ReflTransGen R c y ∧ Anc r parent c y := by
  induction h using head_induction_on with
  | refl => exact ⟨y, le_rfl, .refl, .refl⟩
  | @head z z' hzz hzy ih =>
    obtain ⟨c, hc, hcy, hanc⟩ := ih
    rcases le_or_gt c z with hle | hlt
    · exact ⟨c, hle, hcy, hanc⟩
    · have hzc := t.interval (t.forward (hR _ _ hzz) (hlt.trans_le hc)) hlt.le hc
      exact ⟨z, le_rfl, .head hzz hzy, hzc.trans hanc⟩

/-- Follow an edge and then a walk: the first ancestor of the end that is met
has the start of the edge as a semidominator candidate. -/
theorem exists_semi_on_walk {P : V → Prop} {x x' : V} (he : E x x') (h : Through E P x' w) :
    ∃ y, P y ∧ Anc r parent y w ∧ Semi E x y := by
  obtain ⟨y, hp, hy, hr⟩ := Through.exists_first (Q := fun c => Anc r parent c w) h .refl
  have key : ∀ z, ReflTransGen (fun a b => E a b ∧ ¬ Anc r parent a w) z y →
      z = y ∨ y < z ∧ ∃ e, ReflTransGen (fun a b => E a b ∧ y < b) z e ∧ E e y := by
    intro z hz
    induction hz using head_induction_on with
    | refl => exact .inl rfl
    | @head z z' hzz hzy ih =>
      have hlt : y < z := by
        by_contra hle
        obtain ⟨c, hc, hcy, hanc⟩ := t.exists_anc_on_walk (fun _ _ h => h.1) (.head hzz hzy)
        rcases hcy.cases_head with rfl | ⟨d, hcd, _⟩
        · exact hzz.2 (le_antisymm hc (not_lt.mp hle) ▸ hy)
        · exact hcd.2 (hanc.trans hy)
      rcases ih with rfl | ⟨hlt', e, hre, hey⟩
      · exact .inr ⟨hlt, z, .refl, hzz.1⟩
      · exact .inr ⟨hlt, e, .head ⟨hzz.1, hlt'⟩ hre, hey⟩
  refine ⟨y, hp, hy, ?_⟩
  rcases key x' hr with rfl | ⟨hlt, e, hre, hey⟩
  · exact .of_edge he
  · exact ⟨e, .head ⟨he, hlt⟩ hre, hey⟩

section
variable {s w : V} (hs : IsSdom E s w) (hw : w ≠ r)
include hs hw

theorem sdom_lt : s < w :=
  (hs.2 (.of_edge (t.parent_edge hw))).trans_lt (t.parent_lt hw)

theorem sdom_anc : Anc r parent s w := by
  have hlt := t.sdom_lt hs hw
  obtain ⟨y, hsy, hyw⟩ := hs.1
  have hin : Through E (s ≤ ·) s y :=
    ⟨le_rfl, mono (fun _ b h => ⟨h.1, (hlt.trans h.2).le⟩) _ _ hsy⟩
  exact t.anc_of_through (hin.tail hyw hlt.le)

end

theorem dom_of_anc {z s : V} (hz : Dom E r z w) (hzs : Anc r parent z s) (hsw : Anc r parent s w) : Dom E r z s := by
  rcases eq_or_ne z s with rfl | hne
  · exact fun h => h.last rfl
  · have hlt : z < s := lt_of_le_of_ne (t.anc_le hzs) hne
    exact fun h => hz (h.trans (t.anc_through hsw fun c hc _ => (hlt.trans_le (t.anc_le hc)).ne'))

section
variable [WellFoundedLT V] {w : V}

theorem dom_anc {v : V} (h : Dom E r v w) : Anc r parent v w := by
  by_contra hn
  refine h (t.anc_through (t.root_anc w) fun c _ hcw => ?_)
  rintro rfl
  exact hn hcw

/-- A walk down a branch to a semidominator candidate and on to its vertex. -/
theorem through_semi {v x y : V} (hx : ∀ c, Anc r parent c x → c ≠ v) (hs : Semi E x y)
    (hy : v ≤ y) (hne : v ≠ y) : Through E (· ≠ v) r y := by
  obtain ⟨e, hxe, hey⟩ := hs
  have hin : Through E (· ≠ v) x e :=
    ⟨hx x .refl, mono (fun _ b h => ⟨h.1, (hy.trans_lt h.2).ne'⟩) _ _ hxe⟩
  exact ((t.anc_through (t.root_anc x) fun c _ hc => hx c hc).trans hin).tail hey hne.symm

theorem dom_anc_sdom {d s : V} (hd : Dom E r d w) (hne : d ≠ w) (hs : IsSdom E s w) : Anc r parent d s := by
  by_contra hn
  refine hd (t.through_semi ?_ hs.1 (t.anc_le (t.dom_anc hd)) hne)
  rintro c hc rfl
  exact hn hc

/-- A walk that avoids an ancestor `z` of its end jumps over `z`: some `y` below `z`
on the branch has a semidominator candidate above `z`. -/
theorem exists_jump {z : V} (hz : Anc r parent z w) (h : Through E (· ≠ z) r w) :
    ∃ x y, x < z ∧ z < y ∧ Anc r parent y w ∧ Semi E x y := by
  have hzw : z < w := lt_of_le_of_ne (t.anc_le hz) h.last.symm
  rcases Through.exists_last (Q := (z < ·)) h hzw with hall | ⟨x, x', hx, hq, he, hw⟩
  · exact absurd hall.1.2 (not_lt.mpr (t.anc_le (t.root_anc z)))
  · obtain ⟨y, hy, hyw, hs⟩ := t.exists_semi_on_walk he hw
    exact ⟨x, y, lt_of_le_of_ne (not_lt.mp hq) hx.last, hy.2, hyw, hs⟩

theorem dom_sdom {s : V} (hw : w ≠ r) (hs : IsSdom E s w)
    (hmin : ∀ u q, s < u → Anc r parent u w → IsSdom E q u → s ≤ q) : Dom E r s w := by
  intro h
  obtain ⟨x, y, hx, hy, hyw, hsemi⟩ := t.exists_jump (t.sdom_anc hs hw) h
  obtain ⟨q, hq⟩ := hsemi.exists_isSdom
  exact absurd ((hmin y q hy hyw hq).trans (hq.2 hsemi)) (not_le.mpr hx)

omit [LinearOrder V] [WellFoundedLT V] t in
theorem isIdom_congr {u d : V} (h : ∀ z, Dom E r z u ∧ z ≠ u ↔ Dom E r z w ∧ z ≠ w)
    (hd : IsIdom E r d u) : IsIdom E r d w :=
  ⟨(h d).mp hd.1, fun z hz hne => hd.2 z ((h z).mpr ⟨hz, hne⟩).1 ((h z).mpr ⟨hz, hne⟩).2⟩

/-- When `u` has the least semidominator between `s` and `w`, the two vertices have
the same strict dominators. -/
theorem dom_iff_of_least {s u q : V} (hs : IsSdom E s w) (hsu : s < u) (huw : Anc r parent u w) (hq : IsSdom E q u)
    (hmin : ∀ u' q', s < u' → Anc r parent u' w → IsSdom E q' u' → q ≤ q') (z : V) :
    Dom E r z u ∧ z ≠ u ↔ Dom E r z w ∧ z ≠ w := by
  constructor
  · rintro ⟨hz, hne⟩
    have hzq := t.anc_le (t.dom_anc_sdom hz hne hq)
    have hzu := t.dom_anc hz
    have hlt : z < u := lt_of_le_of_ne (t.anc_le hzu) hne
    refine ⟨fun h => ?_, (hlt.trans_le (t.anc_le huw)).ne⟩
    obtain ⟨x, y, hx, hy, hyw, hsemi⟩ := t.exists_jump (hzu.trans huw) h
    obtain ⟨p, hp⟩ := hsemi.exists_isSdom
    rcases lt_or_ge s y with hsy | hys
    · exact absurd ((hzq.trans (hmin y p hsy hyw hp)).trans (hp.2 hsemi)) (not_le.mpr hx)
    · have hyu := t.anc_of_le hyw huw (hys.trans hsu.le)
      have hry : Through E (· ≠ z) r y :=
        t.through_semi (fun c hc => ((t.anc_le hc).trans_lt hx).ne) hsemi hy.le hy.ne
      exact hz (hry.trans (t.anc_through hyu fun c hc _ => (hy.trans_le (t.anc_le hc)).ne'))
  · rintro ⟨hz, hne⟩
    have hlt : z < u := (t.anc_le (t.dom_anc_sdom hz hne hs)).trans_lt hsu
    refine ⟨fun h => hz (h.trans (t.anc_through huw fun c hc _ => ?_)), hlt.ne⟩
    exact (hlt.trans_le (t.anc_le hc)).ne'

end

omit t in
/-- What a predecessor of `w` offers as a semidominator: itself when it is smaller,
else the semidominators met on its branch above `w`. -/
def Candidate (E : V → V → Prop) (r : V) (parent : V → V) (w x : V) : Prop :=
  ∃ v, E v w ∧ (v < w ∧ x = v ∨ ∃ u, w < u ∧ Anc r parent u v ∧ IsSdom E x u)

theorem semi_of_candidate {x : V} (h : Candidate E r parent w x) : Semi E x w := by
  obtain ⟨v, he, ⟨_, rfl⟩ | ⟨u, hwu, huv, hx⟩⟩ := h
  · exact .of_edge he
  · obtain ⟨y, hxy, hyu⟩ := hx.1
    have hup : Through E (w < ·) u v :=
      t.anc_through huv fun c hc _ => hwu.trans_le (t.anc_le hc)
    exact ⟨v, ((mono (fun _ _ h => ⟨h.1, hwu.trans h.2⟩) _ _ hxy).tail ⟨hyu, hwu⟩).trans hup.2, he⟩

theorem candidate_le_of_semi [WellFoundedLT V] {x : V} (hw : w ≠ r) (h : Semi E x w) :
    ∃ y ≤ x, Candidate E r parent w y := by
  rcases lt_or_ge x w with hlt | hge
  · obtain ⟨v, hxv, hvw⟩ := h
    rcases hxv.cases_head with rfl | ⟨x', hxx, hx'⟩
    · exact ⟨x, le_rfl, x, hvw, .inl ⟨hlt, rfl⟩⟩
    · obtain ⟨u, hwu, huv, hs⟩ := t.exists_semi_on_walk hxx.1 ⟨hxx.2, hx'⟩
      obtain ⟨q, hq⟩ := hs.exists_isSdom
      exact ⟨q, hq.2 hs, v, hvw, .inr ⟨u, hwu, huv, hq⟩⟩
  · have hp := t.parent_lt hw
    exact ⟨parent w, (hp.trans_le hge).le, parent w, t.parent_edge hw, .inl ⟨hp, rfl⟩⟩

theorem isSdom_of_isLeast_candidate [WellFoundedLT V] {s : V} (hw : w ≠ r)
    (h : IsLeast {x | Candidate E r parent w x} s) : IsSdom E s w := by
  refine ⟨t.semi_of_candidate h.1, fun x hx => ?_⟩
  obtain ⟨y, hyx, hy⟩ := t.candidate_le_of_semi hw hx
  exact (h.2 hy).trans hyx

theorem idom_lt [WellFoundedLT V] {d : V} (h : IsIdom E r d w) : d < w :=
  lt_of_le_of_ne (t.anc_le (t.dom_anc h.1.1)) h.1.2

theorem dom_iff_anc_idom [WellFoundedLT V] {idom : V → V}
    (hi : ∀ {w}, w ≠ r → IsIdom E r (idom w) w) {v : V} : Dom E r v w ↔ Anc r idom v w := by
  constructor
  · intro h
    induction w using WellFoundedLT.induction with
    | ind w ih =>
      rcases eq_or_ne v w with rfl | hvw
      · exact .refl
      · have hw : w ≠ r := by
          rintro rfl
          exact h (.refl (Ne.symm hvw))
        exact .tail (ih _ (t.idom_lt (hi hw)) ((hi hw).2 v h hvw)) ⟨hw, rfl⟩
  · intro h
    induction h with
    | refl => exact fun h => h.last rfl
    | tail _ hcw ih =>
      obtain ⟨hw, rfl⟩ := hcw
      intro hvw
      rcases hvw.avoids_or_hits (idom _) with ha | hb
      · exact (hi hw).1.1 (ha.mono fun _ h => h.2)
      · exact ih hb

end DfsTree
end Spectra.Library
