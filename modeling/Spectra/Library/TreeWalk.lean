import Spectra.Library.Semidominator
import Mathlib.Data.Fintype.Card

/-! Depth-first walks of a tree given by child lists. -/
namespace Spectra.Library.TreeWalk
open Relation List Fintype Prod
variable {V σ : Type*}

/-- The state of a walk and its frames: a vertex with the children still to be entered. -/
structure Walk (V σ : Type*) where
  state : σ
  stack : List (V × List V)

/-- One round: leave the top vertex when its children are used up, else enter the next one. -/
def step (kids : V → List V) (enter leave : V → σ → σ) (w : Walk V σ) : Walk V σ :=
  match w.stack with
  | [] => w
  | (d, []) :: rest => ⟨leave d w.state, rest⟩
  | (d, c :: cs) :: rest => ⟨enter c w.state, (c, kids c) :: (d, cs) :: rest⟩

section
variable {kids : V → List V} {enter leave : V → σ → σ} {s : σ} {d c : V} {cs : List V}
  {rest : List (V × List V)}

theorem step_leave : step kids enter leave ⟨s, (d, []) :: rest⟩ = ⟨leave d s, rest⟩ := rfl

theorem step_enter : step kids enter leave ⟨s, (d, c :: cs) :: rest⟩ =
    ⟨enter c s, (c, kids c) :: (d, cs) :: rest⟩ := rfl

end

/-- The child lists of the tree of the parent pointers, every vertex hanging below the root. -/
structure IsTree (r : V) (parent : V → V) (kids : V → List V) : Prop where
  mem_kids : ∀ {c d}, c ∈ kids d ↔ c ≠ r ∧ parent c = d
  nodup_kids : ∀ d, (kids d).Nodup
  root_anc : ∀ v, Anc r parent r v

/-- The vertices of a stack, from the top down to the root. -/
def IsBranch (r : V) (parent : V → V) : List V → Prop
  | [] => True
  | [d] => d = r
  | c :: d :: l => (c ≠ r ∧ parent c = d) ∧ IsBranch r parent (d :: l)

variable {r : V} {parent : V → V}

theorem IsBranch.tail {d : V} {l : List V} (h : IsBranch r parent (d :: l)) : IsBranch r parent l := by
  cases l with
  | nil => trivial
  | cons e l => exact h.2

theorem IsBranch.mem_iff {x d : V} {l : List V} (h : IsBranch r parent (d :: l)) : x ∈ d :: l ↔ Anc r parent x d := by
  induction l generalizing d with
  | nil =>
    obtain rfl : d = r := h
    rw [mem_singleton]
    constructor
    · rintro rfl
      exact .refl
    · intro hx
      rcases DfsTree.anc_cases hx with rfl | ⟨hne, _⟩
      · rfl
      · exact absurd rfl hne
  | cons e l ih =>
    obtain ⟨⟨hd, rfl⟩, h⟩ := h
    rw [mem_cons, ih h]
    constructor
    · rintro (rfl | hx)
      · exact .refl
      · exact .tail hx ⟨hd, rfl⟩
    · intro hx
      exact (DfsTree.anc_cases hx).imp_right And.right

/-- What holds between two rounds, `entered` being the vertices entered so far, latest first. -/
structure Midway (r : V) (parent : V → V) (entered : List V) (stack : List (V × List V)) :
    Prop where
  nodup : entered.Nodup
  root : r ∉ entered
  above : ∀ c ∈ entered, parent c = r ∨ parent c ∈ entered
  branch : IsBranch r parent (stack.map Prod.fst)
  distinct : (stack.map Prod.fst).Nodup
  opened : ∀ f ∈ stack, f.1 = r ∨ f.1 ∈ entered
  pending : ∀ f ∈ stack, f.2.Nodup ∧ ∀ c, c ∈ f.2 ↔ (c ≠ r ∧ parent c = f.1) ∧ c ∉ entered
  closed : ∀ d, d = r ∨ d ∈ entered → d ∉ stack.map Prod.fst →
    ∀ c, c ≠ r → parent c = d → c ∈ entered

section
variable {entered : List V} {d c : V} {cs : List V} {rest : List (V × List V)}

theorem Midway.leave (h : Midway r parent entered ((d, []) :: rest)) : Midway r parent entered rest where
  nodup := h.nodup
  root := h.root
  above := h.above
  branch := h.branch.tail
  distinct := (nodup_cons.mp h.distinct).2
  opened f hf := h.opened f (mem_cons_of_mem _ hf)
  pending f hf := h.pending f (mem_cons_of_mem _ hf)
  closed e he hnot c hc hp := by
    by_cases hed : e = d
    · subst hed
      by_contra hn
      exact not_mem_nil (((h.pending (e, []) (.head _)).2 c).mpr ⟨⟨hc, hp⟩, hn⟩)
    · exact h.closed e he (by simpa [hed] using hnot) c hc hp

section
variable (h : Midway r parent entered ((d, c :: cs) :: rest))
include h

theorem Midway.next : c ≠ r ∧ parent c = d ∧ c ∉ entered ∧ c ∉ cs := by
  obtain ⟨hnodup, hmem⟩ := h.pending _ mem_cons_self
  obtain ⟨⟨hc, hp⟩, hn⟩ := (hmem c).mp mem_cons_self
  exact ⟨hc, hp, hn, (nodup_cons.mp hnodup).1⟩

theorem Midway.mem_branch (x : V) : x ∈ d :: rest.map fst ↔ Anc r parent x c ∧ x ≠ c := by
  obtain ⟨hc, hp, hn, _⟩ := h.next
  constructor
  · intro hx
    refine ⟨.tail (h.branch.mem_iff.mp hx) ⟨hc, hp⟩, ?_⟩
    rintro rfl
    obtain ⟨f, hf, rfl⟩ := mem_map.mp (show x ∈ ((d, x :: cs) :: rest).map fst from hx)
    exact (h.opened f hf).elim hc hn
  · rintro ⟨hx, hne⟩
    have hanc := ((DfsTree.anc_cases hx).resolve_left hne).2
    rw [hp] at hanc
    exact h.branch.mem_iff.mpr hanc

theorem Midway.notMem_stack : c ∉ d :: rest.map fst :=
  fun hmem => ((h.mem_branch c).mp hmem).2 rfl

theorem Midway.opened_enter {e : V} (he : e ∈ d :: rest.map fst) : e = r ∨ e ∈ c :: entered := by
  obtain ⟨f, hf, rfl⟩ := mem_map.mp (show e ∈ ((d, c :: cs) :: rest).map fst from he)
  exact (h.opened f hf).imp_right (mem_cons_of_mem _)

end

theorem Midway.pending_new {kids : V → List V} (t : IsTree r parent kids)
    (h : Midway r parent entered ((d, c :: cs) :: rest)) :
    (kids c).Nodup ∧ ∀ x, x ∈ kids c ↔ (x ≠ r ∧ parent x = c) ∧ x ∉ c :: entered := by
  obtain ⟨hc, hp, hn, _⟩ := h.next
  refine ⟨t.nodup_kids c, fun x => ?_⟩
  rw [t.mem_kids]
  refine ⟨fun hx => ⟨hx, fun hmem => ?_⟩, And.left⟩
  rcases mem_cons.mp hmem with rfl | hmem
  · exact h.notMem_stack (hx.2.symm.trans hp ▸ (.head _))
  · have hab := h.above x hmem
    rw [hx.2] at hab
    exact hab.elim hc hn

theorem Midway.pending_top (h : Midway r parent entered ((d, c :: cs) :: rest)) :
    cs.Nodup ∧ ∀ x, x ∈ cs ↔ (x ≠ r ∧ parent x = d) ∧ x ∉ c :: entered := by
  obtain ⟨hnodup, hmem⟩ := h.pending _ mem_cons_self
  obtain ⟨hcs, hnodup⟩ := nodup_cons.mp hnodup
  refine ⟨hnodup, fun x => ?_⟩
  have hx := hmem x
  rw [mem_cons] at hx ⊢
  constructor
  · intro hxcs
    obtain ⟨hpar, hxn⟩ := hx.mp (.inr hxcs)
    refine ⟨hpar, ?_⟩
    rintro (rfl | hxe)
    · exact hcs hxcs
    · exact hxn hxe
  · rintro ⟨hpar, hxn⟩
    exact (hx.mpr ⟨hpar, fun he => hxn (.inr he)⟩).resolve_left fun he => hxn (.inl he)

theorem Midway.pending_rest (h : Midway r parent entered ((d, c :: cs) :: rest))
    {f : V × List V} (hf : f ∈ rest) : f.2.Nodup ∧ ∀ x, x ∈ f.2 ↔ (x ≠ r ∧ parent x = f.1) ∧ x ∉ c :: entered := by
  obtain ⟨_, hp, _, _⟩ := h.next
  obtain ⟨hnodup, hmem⟩ := h.pending f (.tail _ hf)
  refine ⟨hnodup, fun x => ?_⟩
  rw [hmem x, mem_cons, not_or]
  refine and_congr_right fun hpar => ⟨fun hxe => ⟨?_, hxe⟩, And.right⟩
  rintro rfl
  have hfd : f.1 = d := hpar.2.symm.trans hp
  exact (nodup_cons.mp h.distinct).1 (mem_map.mpr ⟨f, hf, hfd⟩)

theorem Midway.enter {kids : V → List V} (t : IsTree r parent kids)
    (h : Midway r parent entered ((d, c :: cs) :: rest)) :
    Midway r parent (c :: entered) ((c, kids c) :: (d, cs) :: rest) := by
  obtain ⟨hc, hp, hn, _⟩ := h.next
  refine ⟨nodup_cons.mpr ⟨hn, h.nodup⟩, ?_, ?_, ⟨⟨hc, hp⟩, h.branch⟩,
    nodup_cons.mpr ⟨h.notMem_stack, h.distinct⟩, ?_, ?_, ?_⟩
  · simpa [Ne.symm hc] using h.root
  · intro x hx
    rcases mem_cons.mp hx with rfl | hx
    · rw [hp]
      exact h.opened_enter mem_cons_self
    · exact (h.above x hx).imp_right (mem_cons_of_mem _)
  · intro f hf
    rcases mem_cons.mp hf with rfl | hf
    · exact .inr mem_cons_self
    · exact h.opened_enter (mem_map_of_mem hf)
  · intro f hf
    rcases mem_cons.mp hf with rfl | hf
    · exact h.pending_new t
    rcases mem_cons.mp hf with rfl | hf
    · exact h.pending_top
    · exact h.pending_rest hf
  · intro e he hnot x hx hpx
    have hec : e ≠ c := by
      rintro rfl
      exact hnot mem_cons_self
    have he' : e = r ∨ e ∈ entered := he.imp_right fun hm => (mem_cons.mp hm).resolve_left hec
    exact mem_cons_of_mem _
      (h.closed e he' (fun hm => hnot (.tail _ hm)) x hx hpx)

end

variable {kids : V → List V} {enter leave : V → σ → σ} {I : List V → List V → σ → Prop}

variable (r parent kids enter leave I) in
/-- A property of the vertices entered, the branch to the current vertex and the state that the
updates of the walk preserve. -/
structure Invariant : Prop where
  enter : ∀ {entered d path c s}, c ≠ r → parent c = d → c ∉ entered →
    (∀ x, x ∈ d :: path ↔ Anc r parent x c ∧ x ≠ c) → I entered (d :: path) s →
      I (c :: entered) (c :: d :: path) (enter c s)
  leave : ∀ {entered d path s}, I entered (d :: path) s → I entered path (leave d s)

variable [Fintype V]

theorem run_from (t : IsTree r parent kids) (hI : Invariant r parent enter leave I)
    (n : ℕ) {s : σ} {stack : List (V × List V)} {entered : List V}
    (h : Midway r parent entered stack) (hs : I entered (stack.map fst) s)
    (hn : 2 * (card V - 1 - entered.length) + stack.length ≤ n) :
    ∃ entered, Midway r parent entered [] ∧ I entered [] ((step kids enter leave)^[n] ⟨s, stack⟩).state := by
  induction n generalizing s stack entered with
  | zero =>
    obtain rfl : stack = [] := length_eq_zero_iff.mp (by omega)
    exact ⟨entered, h, hs⟩
  | succ n ih =>
    cases stack with
    | nil =>
      rw [Function.iterate_fixed rfl]
      exact ⟨entered, h, hs⟩
    | cons f rest =>
      rw [Function.iterate_succ_apply]
      obtain ⟨d, cs⟩ := f
      rw [length_cons] at hn
      cases cs with
      | nil =>
        exact ih h.leave (hI.leave hs) (by omega)
      | cons c cs =>
        obtain ⟨hc, hp, hce, _⟩ := h.next
        have h' := h.enter t
        have hlt : entered.length + 1 < card V := (nodup_cons.mpr ⟨h'.root, h'.nodup⟩).length_le_card
        refine ih h' (hI.enter hc hp hce h.mem_branch hs) ?_
        rw [length_cons, length_cons, length_cons]
        omega

/-- A walk from the root enters every other vertex once and ends with an empty stack. -/
theorem run_spec (t : IsTree r parent kids) (hI : Invariant r parent enter leave I) {s : σ}
    (hs : I [] [r] s) {n : ℕ} (hn : 2 * card V ≤ n + 1) :
    ∃ entered, entered.Nodup ∧ (∀ v, v ∈ entered ↔ v ≠ r) ∧
      I entered [] ((step kids enter leave)^[n] ⟨s, [(r, kids r)]⟩).state := by
  have h0 : Midway r parent [] [(r, kids r)] := by
    refine ⟨nodup_nil, not_mem_nil, by simp, rfl, by simp, by simp, ?_, ?_⟩
    · simp [t.nodup_kids, t.mem_kids]
    · simp
  have hcard : 0 < card V := card_pos_iff.mpr ⟨r⟩
  obtain ⟨entered, h, hI⟩ := run_from t hI n h0 hs (by simp; omega)
  refine ⟨entered, h.nodup, fun v => ⟨?_, fun hv => ?_⟩, hI⟩
  · rintro hv rfl
    exact h.root hv
  · have hin (x : V) (hx : Anc r parent r x) : x = r ∨ x ∈ entered := by
      induction hx with
      | refl => exact .inl rfl
      | tail _ hbc ih => exact .inr (h.closed _ ih not_mem_nil _ hbc.1 hbc.2)
    exact (hin v (t.root_anc v)).resolve_left hv

end Spectra.Library.TreeWalk
