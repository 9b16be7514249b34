import Spectra.Library.Flowgraph
import Mathlib.Data.Fintype.Card

/-! Breadth-first search that leaves at every vertex it reaches a pointer towards the sources. -/
namespace Spectra.Library.BreadthFirst
open List Function BreadthFirst
variable {V : Type*}

/-- What is known of a vertex: it is a source, or it was reached from `v`. -/
inductive Mark (V : Type*) where
  | unvisited
  | source
  | toward (v : V)
  deriving DecidableEq

/-- The settled vertices and the queue, in the order in which they were reached. -/
structure Search (V : Type*) where
  next : V → Mark V
  depth : V → ℕ
  done : List V
  pending : List V

open Search

def Search.order (s : Search V) : List V := s.done ++ s.pending

/-- Mark a vertex that was not visited before, and queue it. -/
def mark [DecidableEq V] (m : Mark V) (n : ℕ) (s : Search V) (u : V) : Search V :=
  if s.next u = .unvisited then
    { s with
      next := Function.update s.next u m
      depth := Function.update s.depth u n
      pending := s.pending ++ [u] }
  else s

def start [DecidableEq V] (sources : List V) : Search V :=
  sources.foldl (mark .source 0) ⟨fun _ => .unvisited, fun _ => 0, [], []⟩

/-- Settle the first vertex of the queue: everything next to it is reached. -/
def dequeue [DecidableEq V] (adj : V → List V) (s : Search V) : Search V :=
  match s.pending with
  | [] => s
  | v :: rest =>
    (adj v).foldl (mark (.toward v) (s.depth v + 1))
      { s with done := s.done ++ [v], pending := rest }

def trail (next : V → Mark V) : ℕ → V → List V
  | 0, _ => []
  | n + 1, u => u :: match next u with
    | .toward v => trail next n v
    | _ => []

/-- Nothing that was known is forgotten. -/
structure Extends (s s' : Search V) : Prop where
  next_eq : ∀ u, s.next u ≠ .unvisited → s'.next u = s.next u
  depth_eq : ∀ u, s.next u ≠ .unvisited → s'.depth u = s.depth u

theorem Extends.refl (s : Search V) : Extends s s := ⟨fun _ _ => rfl, fun _ _ => rfl⟩

theorem Extends.trans {s t u : Search V} (h : Extends s t) (h' : Extends t u) : Extends s u := by
  constructor
  · intro x hx
    rw [h'.next_eq x (h.next_eq x hx ▸ hx), h.next_eq x hx]
  · intro x hx
    rw [h'.depth_eq x (h.next_eq x hx ▸ hx), h.depth_eq x hx]

/-- Pointers lead to settled vertices one step nearer, and the queue is ordered by distance. -/
structure Linked (adj : V → List V) (sources : List V) (s : Search V) : Prop where
  visited : ∀ u, u ∈ s.order ↔ s.next u ≠ .unvisited
  nodup : s.order.Nodup
  source : ∀ u, s.next u = .source → u ∈ sources ∧ s.depth u = 0
  toward : ∀ u v, s.next u = .toward v → u ∈ adj v ∧ v ∈ s.done ∧ s.depth u = s.depth v + 1
  sorted : s.order.Pairwise fun a b => s.depth a ≤ s.depth b

/-- The mark and the distance `n` that a new vertex `u` may get. -/
inductive Fits (adj : V → List V) (sources : List V) (s : Search V) (u : V) : Mark V → ℕ → Prop
  | source : u ∈ sources → Fits adj sources s u .source 0
  | toward {v : V} : u ∈ adj v → v ∈ s.done → Fits adj sources s u (.toward v) (s.depth v + 1)

section
variable {adj : V → List V} {sources : List V} {s : Search V} {m : Mark V} {n : ℕ} {u : V}

theorem Fits.ne_unvisited (h : Fits adj sources s u m n) : m ≠ .unvisited := by
  rintro rfl
  cases h

theorem Linked.done_visited (h : Linked adj sources s) {v : V} (hv : v ∈ s.done) : s.next v ≠ .unvisited :=
  (h.visited v).mp (mem_append_left _ hv)

variable [DecidableEq V]

theorem mark_done : (mark m n s u).done = s.done := by
  rw [mark]
  split <;> rfl

theorem foldl_mark_done (us : List V) : (us.foldl (mark m n) s).done = s.done := by
  induction us generalizing s with
  | nil => rfl
  | cons u us ih => exact ih.trans mark_done

theorem start_done (sources : List V) : (start sources).done = [] := foldl_mark_done sources

theorem mark_extends : Extends s (mark m n s u) := by
  rw [mark]
  split
  · rename_i hu
    have hne {x : V} (hx : s.next x ≠ .unvisited) : x ≠ u := by
      rintro rfl
      exact hx hu
    exact ⟨fun x hx => update_of_ne (hne hx) _ _, fun x hx => update_of_ne (hne hx) _ _⟩
  · exact .refl s

theorem mark_visited (hm : m ≠ .unvisited) : (mark m n s u).next u ≠ .unvisited := by
  rw [mark]
  split
  · simpa using hm
  · assumption

section
variable (hu : s.next u = .unvisited)
include hu

theorem mark_order : (mark m n s u).order = s.order ++ [u] := by
  rw [mark, if_pos hu]
  exact (append_assoc _ _ _).symm

theorem mark_next (x : V) : (mark m n s u).next x = if x = u then m else s.next x := by
  rw [mark, if_pos hu]
  exact update_apply _ _ _ _

theorem mark_depth (x : V) : (mark m n s u).depth x = if x = u then n else s.depth x := by
  rw [mark, if_pos hu]
  exact update_apply _ _ _ _

variable (h : Linked adj sources s)
include h

omit [DecidableEq V] in
theorem Linked.ne_fresh {x : V} (hx : x ∈ s.order) : x ≠ u := by
  rintro rfl
  exact (h.visited x).mp hx hu

theorem Linked.depth_fresh {x : V} (hx : x ∈ s.order) : (mark m n s u).depth x = s.depth x := by
  rw [mark_depth hu, if_neg (h.ne_fresh hu hx)]

theorem Linked.mark_fresh (hf : Fits adj sources s u m n)
    (hn : ∀ x ∈ s.order, s.depth x ≤ n) : Linked adj sources (mark m n s u) := by
  refine ⟨fun x => ?_, ?_, fun x hx => ?_, fun x v hx => ?_, ?_⟩
  · rw [mark_order hu, mark_next hu, mem_append, h.visited]
    by_cases hxu : x = u
    · simp [hxu, hf.ne_unvisited]
    · simp [hxu]
  · rw [mark_order hu, nodup_append]
    refine ⟨h.nodup, nodup_singleton u, fun x hx y hy => ?_⟩
    rw [mem_singleton.mp hy]
    exact h.ne_fresh hu hx
  · rw [mark_next hu] at hx
    rw [mark_depth hu]
    by_cases hxu : x = u
    · rw [if_pos hxu] at hx ⊢
      subst hxu hx
      cases hf with
      | source hs => exact ⟨hs, rfl⟩
    · rw [if_neg hxu] at hx ⊢
      exact h.source x hx
  · rw [mark_next hu] at hx
    rw [mark_done]
    have hdone {w : V} (hw : w ∈ s.done) : (mark m n s u).depth w = s.depth w :=
      h.depth_fresh hu (mem_append_left _ hw)
    by_cases hxu : x = u
    · rw [if_pos hxu] at hx
      subst hxu hx
      cases hf with
      | toward hadj hv => exact ⟨hadj, hv, by rw [hdone hv, mark_depth hu, if_pos rfl]⟩
    · rw [if_neg hxu] at hx
      obtain ⟨hadj, hv, hd⟩ := h.toward x v hx
      exact ⟨hadj, hv, by rw [hdone hv, mark_depth hu, if_neg hxu, hd]⟩
  · rw [mark_order hu, pairwise_append]
    refine ⟨h.sorted.imp_of_mem fun ha hb hab => ?_, pairwise_singleton _ _, fun a ha b hb => ?_⟩
    · rwa [h.depth_fresh hu ha, h.depth_fresh hu hb]
    · rw [mem_singleton.mp hb, h.depth_fresh hu ha, mark_depth hu, if_pos rfl]
      exact hn a ha

end

theorem Linked.mark (h : Linked adj sources s) (hf : Fits adj sources s u m n)
    (hn : ∀ x ∈ s.order, s.depth x ≤ n) :
    Linked adj sources (mark m n s u) ∧ ∀ x ∈ (mark m n s u).order, (mark m n s u).depth x ≤ n := by
  by_cases hu : s.next u = .unvisited
  · refine ⟨h.mark_fresh hu hf hn, fun x hx => ?_⟩
    rw [mark_order hu, mem_append, mem_singleton] at hx
    rw [mark_depth hu]
    split
    · exact le_rfl
    · rename_i hxu
      exact hn x (hx.resolve_right hxu)
  · rw [BreadthFirst.mark, if_neg hu]
    exact ⟨h, hn⟩

theorem Fits.mark (h : Linked adj sources s) {x : V} {m' : Mark V} {n' : ℕ}
    (hf : Fits adj sources s x m n) : Fits adj sources (mark m' n' s u) x m n := by
  cases hf with
  | source hs => exact .source hs
  | toward hadj hv =>
    rw [← mark_extends.depth_eq _ (h.done_visited hv)]
    exact .toward hadj (by rwa [mark_done])

/-- What marking a list of vertices from one place does. -/
structure Marked (adj : V → List V) (sources us : List V) (n : ℕ) (s s' : Search V) : Prop where
  linked : Linked adj sources s'
  bound : ∀ x ∈ s'.order, s'.depth x ≤ n
  extends_start : Extends s s'
  visited_all : ∀ u ∈ us, s'.next u ≠ .unvisited

theorem Linked.markAll (h : Linked adj sources s) {us : List V}
    (hf : ∀ u ∈ us, Fits adj sources s u m n) (hn : ∀ x ∈ s.order, s.depth x ≤ n) :
    Marked adj sources us n s (us.foldl (BreadthFirst.mark m n) s) := by
  induction us generalizing s with
  | nil => exact ⟨h, hn, .refl s, by simp⟩
  | cons u us ih =>
    have hu := hf u mem_cons_self
    obtain ⟨hlinked, hbound⟩ := h.mark hu hn
    have := ih hlinked (fun x hx => (hf x (.tail _ hx)).mark h) hbound
    refine ⟨this.linked, this.bound, mark_extends.trans this.extends_start, fun x hx => ?_⟩
    rcases mem_cons.mp hx with rfl | hx
    · have hvis := mark_visited (s := s) (n := n) (u := x) hu.ne_unvisited
      rw [foldl_cons, this.extends_start.next_eq x hvis]
      exact hvis
    · exact this.visited_all x hx

end

section
variable {adj : V → List V} {sources : List V}

variable (adj sources) in
/-- Between two rounds: sources are marked, settled vertices have all neighbours reached, and the
queue spans at most two distances. -/
structure Inv (s : Search V) : Prop where
  linked : Linked adj sources s
  sources_marked : ∀ u ∈ sources, s.next u ≠ .unvisited ∧ s.depth u = 0
  closed : ∀ v ∈ s.done, ∀ u ∈ adj v, s.next u ≠ .unvisited ∧ s.depth u ≤ s.depth v + 1
  level : ∀ v rest, s.pending = v :: rest → ∀ u ∈ s.order, s.depth u ≤ s.depth v + 1

variable {s : Search V} {v : V} {rest : List V}

theorem Inv.settle (h : Inv adj sources s) (hp : s.pending = v :: rest) :
    Linked adj sources { s with done := s.done ++ [v], pending := rest } ∧
      ∀ x ∈ order { s with done := s.done ++ [v], pending := rest },
        s.depth x ≤ s.depth v + 1 := by
  have horder : order { s with done := s.done ++ [v], pending := rest } = s.order := by
    simp [order, hp]
  have hl := h.linked
  refine ⟨⟨?_, ?_, hl.source, fun x y hx => ?_, ?_⟩, ?_⟩
  · rw [horder]
    exact hl.visited
  · rw [horder]
    exact hl.nodup
  · obtain ⟨hadj, hy, hd⟩ := hl.toward x y hx
    exact ⟨hadj, mem_append_left _ hy, hd⟩
  · rw [horder]
    exact hl.sorted
  · rw [horder]
    exact h.level v rest hp

variable [DecidableEq V]

theorem inv_start : Inv adj sources (start sources) := by
  have h0 : Linked adj sources ⟨fun _ => .unvisited, fun _ => 0, [], []⟩ := by
    refine ⟨?_, ?_, ?_, ?_, ?_⟩ <;> simp [order]
  have h : Marked adj sources sources 0 _ (start sources) :=
    h0.markAll (fun _ hu => .source hu) (by simp)
  refine ⟨h.linked, fun u hu => ?_, fun v hv => ?_, fun v rest _ u hu => ?_⟩
  · have hvis := h.visited_all u hu
    exact ⟨hvis, Nat.le_zero.mp (h.bound u ((h.linked.visited u).mpr hvis))⟩
  · rw [start_done] at hv
    cases hv
  · exact (h.bound u hu).trans (Nat.zero_le _)

theorem Inv.marked (h : Inv adj sources s) (hp : s.pending = v :: rest) : Marked adj sources (adj v) (s.depth v + 1)
      { s with done := s.done ++ [v], pending := rest } (dequeue adj s) := by
  obtain ⟨hlinked, hbound⟩ := h.settle hp
  rw [dequeue, hp]
  refine hlinked.markAll (fun u hu => ?_) hbound
  exact .toward (s := { s with done := s.done ++ [v], pending := rest }) hu (by simp)

theorem dequeue_done (hp : s.pending = v :: rest) : (dequeue adj s).done = s.done ++ [v] := by
  rw [dequeue, hp]
  exact foldl_mark_done _

theorem Inv.extends_dequeue (h : Inv adj sources s) : Extends s (dequeue adj s) := by
  cases hp : s.pending with
  | nil =>
    rw [dequeue, hp]
    exact .refl s
  | cons v rest =>
    have := (h.marked hp).extends_start
    exact ⟨this.next_eq, this.depth_eq⟩

theorem Inv.next (h : Inv adj sources s) : Inv adj sources (dequeue adj s) := by
  cases hp : s.pending with
  | nil =>
    rw [dequeue, hp]
    exact h
  | cons v rest =>
    have hm := h.marked hp
    have hext := h.extends_dequeue
    have hvdone : v ∈ (dequeue adj s).done := by
      rw [dequeue_done hp]
      simp
    have hv : s.next v ≠ .unvisited := (h.linked.visited v).mp (by simp [order, hp])
    refine ⟨hm.linked, fun u hu => ?_, fun w hw u hu => ?_, fun w rest' hp' u hu => ?_⟩
    · obtain ⟨hvis, hd⟩ := h.sources_marked u hu
      rw [hext.next_eq u hvis, hext.depth_eq u hvis]
      exact ⟨hvis, hd⟩
    · rw [dequeue_done hp] at hw
      rcases mem_append.mp hw with hw | hw
      · obtain ⟨hvis, hd⟩ := h.closed w hw u hu
        rw [hext.next_eq u hvis, hext.depth_eq u hvis, hext.depth_eq w (h.linked.done_visited hw)]
        exact ⟨hvis, hd⟩
      · rw [mem_singleton.mp hw] at hu ⊢
        have hvis := hm.visited_all u hu
        rw [hext.depth_eq v hv]
        exact ⟨hvis, hm.bound u ((hm.linked.visited u).mpr hvis)⟩
    · have hle := (pairwise_append.mp hm.linked.sorted).2.2 v hvdone w (by simp [hp'])
      rw [hext.depth_eq v hv] at hle
      exact (hm.bound u hu).trans (Nat.succ_le_succ hle)

theorem inv_rounds (n : ℕ) : Inv adj sources ((dequeue adj)^[n] (start sources)) := by
  induction n with
  | zero => exact inv_start
  | succ n ih =>
    rw [iterate_succ_apply']
    exact ih.next

variable (adj sources) in
theorem rounds_length (n : ℕ) : ((dequeue adj)^[n] (start sources)).pending = [] ∨
    n ≤ ((dequeue adj)^[n] (start sources)).done.length := by
  induction n with
  | zero => exact .inr (Nat.zero_le _)
  | succ n ih =>
    rw [iterate_succ_apply']
    cases hp : ((dequeue adj)^[n] (start sources)).pending with
    | nil =>
      left
      rw [dequeue, hp]
      exact hp
    | cons v rest =>
      have hlen := ih.resolve_left (by simp [hp])
      rw [dequeue_done hp, length_append, length_singleton]
      omega

theorem Inv.rounds (h : Inv adj sources s) (n : ℕ) :
    Extends s ((dequeue adj)^[n] s) ∧ s.done <+: ((dequeue adj)^[n] s).done := by
  induction n generalizing s with
  | zero => exact ⟨.refl s, prefix_rfl⟩
  | succ n ih =>
    obtain ⟨hext, hpre⟩ := ih h.next
    refine ⟨h.extends_dequeue.trans hext, List.IsPrefix.trans ?_ hpre⟩
    cases hp : s.pending with
    | nil =>
      rw [dequeue, hp]
    | cons v rest =>
      rw [dequeue_done hp]
      exact prefix_append _ _

def search [Fintype V] (adj : V → List V) (sources : List V) : Search V :=
  (dequeue adj)^[Fintype.card V] (start sources)

variable (adj sources) in
theorem inv_search [Fintype V] : Inv adj sources (search adj sources) := inv_rounds _

variable (adj sources) in
theorem search_pending [Fintype V] : (search adj sources).pending = [] := by
  rcases rounds_length adj sources (Fintype.card V) with h | h
  · exact h
  · have hle := (inv_search adj sources).linked.nodup.length_le_card
    rw [Search.order, length_append] at hle
    exact length_eq_zero_iff.mp (by unfold search at hle ⊢; omega)

end

variable {adj : V → List V} {sources : List V} {s : Search V}

/-- The trail of a visited vertex ends in a source, each step one nearer. -/
theorem Linked.trail_walk (h : Linked adj sources s) {u : V} (hu : s.next u ≠ .unvisited) {n : ℕ}
    (hn : s.depth u < n) : (trail s.next n u).length = s.depth u + 1 ∧ ∃ t ∈ sources,
      IsWalk (fun a b => a ∈ adj b ∧ s.depth b < s.depth a) (trail s.next n u) u t := by
  induction n generalizing u with
  | zero => omega
  | succ n ih =>
    rw [trail]
    cases hm : s.next u with
    | unvisited => exact absurd hm hu
    | source =>
      obtain ⟨hs, hd⟩ := h.source u hm
      exact ⟨by simp [hd], u, hs, by simp [IsWalk]⟩
    | toward v =>
      obtain ⟨hadj, hv, hd⟩ := h.toward u v hm
      obtain ⟨hlen, t, ht, hwalk⟩ := ih (h.done_visited hv) (by omega)
      have hne : trail s.next n v ≠ [] := by
        rw [← length_pos_iff]
        omega
      refine ⟨by simp [hlen, hd], t, ht, (isWalk_cons hne).mpr ⟨rfl, v, ⟨hadj, by omega⟩, hwalk⟩⟩

theorem Linked.depth_lt_card [Fintype V] (h : Linked adj sources s) {u : V}
    (hu : s.next u ≠ .unvisited) : s.depth u < Fintype.card V := by
  obtain ⟨hlen, t, _, hwalk⟩ := h.trail_walk hu (Nat.lt_add_one _)
  have hchain : (trail s.next (s.depth u + 1) u).IsChain fun a b => s.depth b < s.depth a :=
    hwalk.1.imp fun _ _ hab => hab.2
  have hdec := isChain_iff_pairwise.mp hchain
  have hnodup : (trail s.next (s.depth u + 1) u).Nodup :=
    hdec.imp fun hab he => absurd hab (by simp [he])
  have hle := hnodup.length_le_card
  omega

theorem Linked.trail_extends {s' : Search V} (h : Linked adj sources s) (he : Extends s s') {u : V}
    (hu : s.next u ≠ .unvisited) (n : ℕ) : trail s'.next n u = trail s.next n u := by
  induction n generalizing u with
  | zero => rfl
  | succ n ih =>
    unfold trail
    rw [he.next_eq u hu]
    cases hm : s.next u with
    | unvisited | source => rfl
    | toward v =>
      dsimp only
      rw [ih (h.done_visited (h.toward u v hm).2.1)]

/-- Once the queue is empty, no walk to a source is shorter than the distance. -/
theorem Inv.depth_lt_length (h : Inv adj sources s) (hp : s.pending = []) {p : List V} {u t : V}
    (hwalk : IsWalk (fun a b => a ∈ adj b) p u t) (ht : t ∈ sources) :
    s.next u ≠ .unvisited ∧ s.depth u < p.length := by
  induction p generalizing u with
  | nil => simp [IsWalk] at hwalk
  | cons a p ih =>
    by_cases hne : p = []
    · subst hne
      obtain ⟨_, ha, hat⟩ := hwalk
      simp only [head?_cons, getLast?_singleton, Option.some.injEq] at ha hat
      subst ha hat
      obtain ⟨hvis, hd⟩ := h.sources_marked a ht
      exact ⟨hvis, by simp [hd]⟩
    · obtain ⟨rfl, v, hadj, hv⟩ := (isWalk_cons hne).mp hwalk
      obtain ⟨hvis, hlt⟩ := ih hv
      have hdone : v ∈ s.done := by
        have := (h.linked.visited v).mpr hvis
        rwa [order, hp, append_nil] at this
      obtain ⟨hvisa, hle⟩ := h.closed v hdone a hadj
      exact ⟨hvisa, by rw [length_cons]; omega⟩

end Spectra.Library.BreadthFirst
