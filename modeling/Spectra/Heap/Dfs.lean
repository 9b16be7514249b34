import Spectra.Library.Semidominator
import Spectra.Heap.ObjectGraph

/-! Depth-first preorder numbering of the objects reachable from the GC roots. -/
namespace Spectra.Heap
open Library List

/-- A stack entry: an object and the index in `out` of its next edge. -/
structure Frame (n : ℕ) where
  v : Fin n
  next : ℕ

structure DfsState (n : ℕ) where
  dfnum : Fin n → Option ℕ
  vertex : List (Option (Fin n))
  parent : List (Option ℕ)
  stack : List (Frame n)

open DfsState

def DfsState.start (n : ℕ) : DfsState n := ⟨fun _ => none, [none], [none], []⟩

variable (g : ObjectGraph)

def visit (s : DfsState g.len) (v : Fin g.len) (origin : Option ℕ) : DfsState g.len where
  dfnum := Function.update s.dfnum v (some s.vertex.length)
  vertex := s.vertex ++ [some v]
  parent := s.parent ++ [origin]
  stack := ⟨v, g.outStart v.castSucc⟩ :: s.stack

/-- One round of the inner loop: pop a finished frame, or follow its next edge. -/
def dfsStep (s : DfsState g.len) : DfsState g.len :=
  match s.stack with
  | [] => s
  | top :: rest =>
    if top.next = g.outStart top.v.succ then { s with stack := rest }
    else match g.out[top.next]? with
      | none => s
      | some w =>
        let s' := { s with stack := ⟨top.v, top.next + 1⟩ :: rest }
        if s.dfnum w = none then visit g s' w (s.dfnum top.v) else s'

def dfsDrain : ℕ → DfsState g.len → DfsState g.len
  | 0, s => s
  | fuel + 1, s => if s.stack.isEmpty then s else dfsDrain fuel (dfsStep g s)

/-- The outer loop's body. Every round of the inner loop uses up one edge or one frame. -/
def dfsRoot (s : DfsState g.len) (r : Fin g.len) : DfsState g.len :=
  if (s.dfnum r).isSome then s else dfsDrain g (g.out.length + g.len) (visit g s r (some 0))

def dfsPreorder : DfsState g.len := g.roots.foldl (dfsRoot g) (.start g.len)

namespace DfsState
variable {g} {s : DfsState g.len}

/-- The parent pointers as a function; positions without a pointer read 0. -/
def par (s : DfsState g.len) (k : ℕ) : ℕ := s.parent[k]?.join.getD 0

/-- The numbered graph: the super-root precedes every GC root. -/
def NumEdge (s : DfsState g.len) (a b : ℕ) : Prop :=
  ∃ v, s.vertex[b]? = some (some v) ∧
    (a = 0 ∧ v ∈ g.roots ∨ ∃ u, s.vertex[a]? = some (some u) ∧ g.Edge u v)

/-- The edges of a frame before its next one lead to numbered objects. -/
def Scanned (s : DfsState g.len) (f : Frame g.len) : Prop :=
  g.outStart f.v.castSucc ≤ f.next ∧ f.next ≤ g.outStart f.v.succ ∧
    ∀ i, g.outStart f.v.castSucc ≤ i → i < f.next → ∀ w, g.out[i]? = some w → ∃ j, s.dfnum w = some j

/-- What holds between two rounds. Objects on the stack have all later numbers below
them; objects off the stack have all their edges explored. -/
structure Inv (s : DfsState g.len) : Prop where
  length_eq : s.parent.length = s.vertex.length
  sentinel : s.vertex[0]? = some none
  dfnum_iff : ∀ v k, s.dfnum v = some k ↔ s.vertex[k]? = some (some v)
  total : ∀ k, 0 < k → k < s.vertex.length → ∃ v, s.vertex[k]? = some (some v)
  parent_spec : ∀ k v, s.vertex[k]? = some (some v) →
    ∃ p, s.parent[k]? = some (some p) ∧ p < k ∧ s.NumEdge p k
  interval : ∀ {c v w}, Anc 0 s.par c v → v < s.vertex.length → c ≤ w → w ≤ v →
    Anc 0 s.par c w
  stack_visited : ∀ v ∈ s.stack.map Frame.v, ∃ k, s.dfnum v = some k
  stack_desc : ∀ v ∈ s.stack.map Frame.v, ∀ k, s.dfnum v = some k →
    ∀ j, k ≤ j → j < s.vertex.length → Anc 0 s.par k j
  stack_order : (s.stack.map Frame.v).Pairwise
    (fun a b => ∀ i j, s.dfnum a = some i → s.dfnum b = some j → j < i)
  stack_next : ∀ f ∈ s.stack, s.Scanned f
  closed : ∀ v k, s.dfnum v = some k → v ∉ s.stack.map Frame.v → ∀ w ∈ g.Out v,
    ∃ j, s.dfnum w = some j ∧ (k < j → Anc 0 s.par k j)

theorem inv_start : (start g.len).Inv where
  length_eq := rfl
  sentinel := rfl
  dfnum_iff v k := by cases k <;> simp [start]
  total k h0 h1 := by simp [start] at h1; omega
  parent_spec k v h := by cases k <;> simp [start] at h
  interval h hv hc hw := by
    obtain rfl : _ = 0 := Nat.lt_one_iff.mp hv
    obtain rfl : _ = 0 := Nat.le_zero.mp hw
    exact h
  stack_visited v h := by simp [start] at h
  stack_desc v h := by simp [start] at h
  stack_order := .nil
  stack_next f h := by simp [start] at h
  closed v k h := by simp [start] at h

variable {k : ℕ} {v : Fin g.len}

theorem Scanned.advance {t : DfsState g.len} {f : Frame g.len} {w : Fin g.len} (h : s.Scanned f)
    (hlast : f.next ≠ g.outStart f.v.succ) (hw : g.out[f.next]? = some w)
    (hkept : ∀ {x j}, s.dfnum x = some j → t.dfnum x = some j) (hnum : ∃ j, t.dfnum w = some j) :
    t.Scanned ⟨f.v, f.next + 1⟩ := by
  refine ⟨h.1.trans (Nat.le_succ _), h.2.1.lt_of_ne hlast, fun i hi hi' x hx => ?_⟩
  rcases Nat.lt_succ_iff_lt_or_eq.mp hi' with hlt | rfl
  · exact (h.2.2 i hi hlt x hx).imp fun _ => hkept
  · obtain rfl : w = x := Option.some.inj (hw ▸ hx)
    exact hnum

namespace Inv

theorem num_lt (h : s.Inv) (hk : s.dfnum v = some k) :
    k < s.vertex.length := (List.getElem?_eq_some_iff.mp ((h.dfnum_iff v k).mp hk)).1

theorem length_pos (h : s.Inv) : 0 < s.vertex.length :=
  (List.getElem?_eq_some_iff.mp h.sentinel).1

theorem par_lt (h : s.Inv) (hk : k ≠ 0) : s.par k < k := by
  rw [par]
  by_cases hl : k < s.vertex.length
  · obtain ⟨v, hv⟩ := h.total k (Nat.pos_of_ne_zero hk) hl
    obtain ⟨p, hp, hlt, _⟩ := h.parent_spec k v hv
    simpa [hp] using hlt
  · rw [getElem?_eq_none (by rw [h.length_eq]; omega)]
    exact Nat.pos_of_ne_zero hk

theorem root_anc (h : s.Inv) (k : ℕ) : Anc 0 s.par 0 k := by
  induction k using Nat.strong_induction_on with
  | _ k ih =>
    by_cases hk : k = 0
    · exact hk ▸ .refl
    · exact .tail (ih _ (h.par_lt hk)) ⟨hk, rfl⟩

theorem setStack (h : s.Inv) (st : List (Frame g.len)) (hv : st.map Frame.v = s.stack.map Frame.v)
    (hn : ∀ f ∈ st, s.Scanned f) : Inv { s with stack := st } :=
  { h with
    stack_visited v hm := h.stack_visited v (hv ▸ hm)
    stack_desc v hm := h.stack_desc v (hv ▸ hm)
    stack_order := hv ▸ h.stack_order
    stack_next := hn
    closed v k hk hm := h.closed v k hk (hv ▸ hm) }

/-- Popping a frame whose edges are used up closes its object. -/
theorem pop (h : s.Inv) {top : Frame g.len} {rest : List (Frame g.len)}
    (hs : s.stack = top :: rest) (he : top.next = g.outStart top.v.succ) : Inv { s with stack := rest } :=
  { h with
    stack_visited v hv := h.stack_visited v (by rw [hs]; exact mem_cons_of_mem _ hv)
    stack_desc v hv := h.stack_desc v (by rw [hs]; exact mem_cons_of_mem _ hv)
    stack_order := by
      have := h.stack_order
      rw [hs] at this
      exact this.of_cons
    stack_next f hf := h.stack_next f (by rw [hs]; exact .tail _ hf)
    closed v k hk hv w hw := by
      by_cases hvt : v = top.v
      · subst hvt
        obtain ⟨i, hlo, hhi, hi⟩ := g.mem_Out.mp hw
        obtain ⟨_, _, hn⟩ := h.stack_next top (by simp [hs])
        obtain ⟨j, hj⟩ := hn i hlo (he ▸ hhi) w hi
        exact ⟨j, hj, fun hlt => h.stack_desc top.v (by simp [hs]) k hk j hlt.le (h.num_lt hj)⟩
      · exact h.closed v k hk (by simpa [hs, hvt] using hv) w hw }

section
variable {w : Fin g.len} {p : ℕ}

theorem par_visit (h : s.Inv) (hk : k ≠ s.vertex.length) : (visit g s w (some p)).par k = s.par k := by
  simp only [par, visit]
  rcases Nat.lt_or_gt_of_ne hk with hlt | hgt
  · rw [getElem?_append_left (by rw [h.length_eq]; exact hlt)]
  · rw [getElem?_eq_none (by simp [h.length_eq]; omega),
      getElem?_eq_none (by rw [h.length_eq]; omega)]

theorem par_visit_self (h : s.Inv) : (visit g s w (some p)).par s.vertex.length = p := by
  simp [par, visit, ← h.length_eq]

theorem anc_visit (h : s.Inv) {a b : ℕ} (hb : b < s.vertex.length) :
    Anc 0 (visit g s w (some p)).par a b ↔ Anc 0 s.par a b :=
  (anc_congr (fun _ => h.par_lt) fun _ hk _ => (h.par_visit (by omega)).symm).symm

theorem anc_visit_self (h : s.Inv) {a : ℕ} (hp : p < s.vertex.length) :
    Anc 0 (visit g s w (some p)).par a s.vertex.length ↔ a = s.vertex.length ∨ Anc 0 s.par a p := by
  constructor
  · intro ha
    rcases DfsTree.anc_cases ha with rfl | ⟨_, ha⟩
    · exact .inl rfl
    · rw [h.par_visit_self, h.anc_visit hp] at ha
      exact .inr ha
  · rintro (rfl | ha)
    · exact .refl
    · exact .tail ((h.anc_visit hp).mpr ha) ⟨h.length_pos.ne', h.par_visit_self⟩

variable {o : Option ℕ}

theorem vertex_visit :
    (visit g s w o).vertex[k]? = some (some v) ↔ s.vertex[k]? = some (some v) ∨ k = s.vertex.length ∧ w = v := by
  simp only [visit]
  rcases Nat.lt_trichotomy k s.vertex.length with hlt | rfl | hgt
  · rw [getElem?_append_left hlt]
    simp [hlt.ne]
  · simp
  · rw [getElem?_eq_none (by simp; omega), getElem?_eq_none (by omega)]
    simp [hgt.ne']

theorem dfnum_visit (hw : s.dfnum w = none) :
    (visit g s w o).dfnum v = some k ↔ s.dfnum v = some k ∨ k = s.vertex.length ∧ w = v := by
  simp only [visit, Function.update_apply]
  split
  · subst_vars
    simp [hw, eq_comm]
  · rename_i hne
    simp [Ne.symm hne]

theorem dfnum_of_visit (hw : s.dfnum w = none) (hv : ∃ j, s.dfnum v = some j)
    (hk : (visit g s w o).dfnum v = some k) : s.dfnum v = some k := by
  obtain ⟨j, hj⟩ := hv
  refine ((dfnum_visit hw).mp hk).resolve_right fun hnew => ?_
  rw [← hnew.2, hw] at hj
  cases hj

theorem numEdge_visit {a b : ℕ} (h : s.NumEdge a b) : (visit g s w o).NumEdge a b := by
  obtain ⟨v, hv, hr | ⟨u, hu, he⟩⟩ := h
  · exact ⟨v, vertex_visit.mpr (.inl hv), .inl hr⟩
  · exact ⟨v, vertex_visit.mpr (.inl hv), .inr ⟨u, vertex_visit.mpr (.inl hu), he⟩⟩

/-- Numbering a fresh object below number `p`, which must be the deepest stack number
(or 0 when the stack is empty). -/
theorem visit (h : s.Inv) (hw : s.dfnum w = none) (hp : p < s.vertex.length)
    (he : p = 0 ∧ w ∈ g.roots ∨ ∃ u, s.vertex[p]? = some (some u) ∧ g.Edge u w)
    (htop : ∀ v ∈ s.stack.map Frame.v, ∀ k, s.dfnum v = some k → k ≤ p)
    (hdesc : ∀ j, p ≤ j → j < s.vertex.length → Anc 0 s.par p j) : (visit g s w (some p)).Inv where
  length_eq := by simp [Heap.visit, h.length_eq]
  sentinel := by
    simp only [Heap.visit]
    rw [getElem?_append_left h.length_pos, h.sentinel]
  dfnum_iff v k := by rw [dfnum_visit hw, vertex_visit, h.dfnum_iff]
  total k h0 h1 := by
    simp only [Heap.visit, length_append] at h1
    rcases Nat.lt_succ_iff_lt_or_eq.mp h1 with hlt | rfl
    · obtain ⟨v, hv⟩ := h.total k h0 hlt
      exact ⟨v, vertex_visit.mpr (.inl hv)⟩
    · exact ⟨w, vertex_visit.mpr (.inr ⟨rfl, rfl⟩)⟩
  parent_spec k v hk := by
    rcases vertex_visit.mp hk with hk' | ⟨rfl, rfl⟩
    · obtain ⟨q, hq, hlt, hedge⟩ := h.parent_spec k v hk'
      refine ⟨q, ?_, hlt, numEdge_visit hedge⟩
      simp only [Heap.visit]
      rw [getElem?_append_left (List.getElem?_eq_some_iff.mp hq).1, hq]
    · refine ⟨p, by simp [Heap.visit, ← h.length_eq], hp, w, hk, ?_⟩
      rcases he with he | ⟨u, hu, he⟩
      · exact .inl he
      · exact .inr ⟨u, vertex_visit.mpr (.inl hu), he⟩
  interval {c v w'} hc hv hcw hwv := by
    simp only [Heap.visit, length_append, length_singleton] at hv
    rcases Nat.lt_succ_iff_lt_or_eq.mp hv with hlt | rfl
    · rw [h.anc_visit hlt] at hc
      rw [h.anc_visit (hwv.trans_lt hlt)]
      exact h.interval hc hlt hcw hwv
    · rcases Nat.lt_or_eq_of_le hwv with hlt | rfl
      · rcases (h.anc_visit_self hp).mp hc with rfl | hcp
        · omega
        · rw [h.anc_visit hlt]
          rcases Nat.le_total w' p with hle | hge
          · exact h.interval hcp hp hcw hle
          · exact hcp.trans (hdesc w' hge hlt)
      · exact hc
  stack_visited v hv := by
    rcases mem_cons.mp hv with rfl | hv
    · exact ⟨_, (dfnum_visit hw).mpr (.inr ⟨rfl, rfl⟩)⟩
    · obtain ⟨k, hk⟩ := h.stack_visited v hv
      exact ⟨k, (dfnum_visit hw).mpr (.inl hk)⟩
  stack_desc v hv k hk j hkj hj := by
    simp only [Heap.visit, length_append, length_singleton] at hj
    have hj' := Nat.lt_succ_iff_lt_or_eq.mp hj
    rcases (dfnum_visit hw).mp hk with hk' | ⟨rfl, rfl⟩
    · have hvs : v ∈ s.stack.map Frame.v := by
        rcases mem_cons.mp hv with rfl | hv
        · simp [hw] at hk'
        · exact hv
      rcases hj' with hlt | rfl
      · rw [h.anc_visit hlt]
        exact h.stack_desc v hvs k hk' j hkj hlt
      · exact (h.anc_visit_self hp).mpr
          (.inr (h.stack_desc v hvs k hk' p (htop v hvs k hk') hp))
    · obtain rfl : j = s.vertex.length := by omega
      exact .refl
  stack_order := by
    refine pairwise_cons.mpr ⟨fun b hb i j hi hj => ?_, ?_⟩
    · have hi' : i = s.vertex.length := by
        simpa [Heap.visit, eq_comm] using hi
      exact hi' ▸ h.num_lt (dfnum_of_visit hw (h.stack_visited b hb) hj)
    · refine h.stack_order.imp_of_mem fun {a b} ha hb hab i j hi hj => ?_
      exact hab i j (dfnum_of_visit hw (h.stack_visited a ha) hi)
        (dfnum_of_visit hw (h.stack_visited b hb) hj)
  stack_next f hf := by
    rcases mem_cons.mp hf with rfl | hf
    · exact ⟨le_rfl, g.outStart_mono Fin.castSucc_lt_succ.le, fun i hlo hhi => absurd hhi (not_lt.mpr hlo)⟩
    · exact (h.stack_next f hf).imp_right (.imp_right fun hn i hlo hhi x hx =>
        (hn i hlo hhi x hx).imp fun _ hj => (dfnum_visit hw).mpr (.inl hj))
  closed v k hk hv x hx := by
    have hvw : w ≠ v := by rintro rfl; exact hv (by simp [Heap.visit])
    have hk' : s.dfnum v = some k := by simpa [hvw] using (dfnum_visit hw).mp hk
    obtain ⟨j, hj, hanc⟩ := h.closed v k hk' (fun hm => hv (.tail _ hm)) x hx
    exact ⟨j, (dfnum_visit hw).mpr (.inl hj), fun hlt => (h.anc_visit (h.num_lt hj)).mpr (hanc hlt)⟩

end

theorem step (h : s.Inv) : (dfsStep g s).Inv := by
  rw [dfsStep]
  split
  · exact h
  · rename_i top rest hs
    split
    · rename_i he
      exact h.pop hs he
    · rename_i he
      split
      · exact h
      · rename_i w hw
        have htop := h.stack_next top (by simp [hs])
        obtain ⟨k, hk⟩ := h.stack_visited top.v (by simp [hs])
        have hrest : ∀ f ∈ rest, f ∈ s.stack := fun f hf => hs ▸ .tail _ hf
        split
        · rename_i hw0
          have hedge : g.Edge top.v w := g.mem_Out.mpr ⟨_, htop.1, htop.2.1.lt_of_ne he, hw⟩
          have hv := h.visit hw0 (h.num_lt hk) (.inr ⟨top.v, (h.dfnum_iff _ _).mp hk, hedge⟩)
            (fun v hv j hj => by
              have ho := h.stack_order
              rw [hs] at hv ho
              rcases mem_cons.mp hv with rfl | hv
              · exact (Option.some.inj (hk ▸ hj)).ge
              · exact ((pairwise_cons.mp ho).1 v hv k j hk hj).le)
            (h.stack_desc top.v (by simp [hs]) k hk)
          have hset := hv.setStack
            (⟨w, g.outStart w.castSucc⟩ :: ⟨top.v, top.next + 1⟩ :: rest)
            (by simp [Heap.visit, hs]) (by
              intro f hf
              rcases mem_cons.mp hf with rfl | hf
              · exact hv.stack_next _ (by simp [Heap.visit])
              · rcases mem_cons.mp hf with rfl | hf
                · exact htop.advance he hw (fun hj => (dfnum_visit hw0).mpr (.inl hj))
                    ⟨_, (dfnum_visit hw0).mpr (.inr ⟨rfl, rfl⟩)⟩
                · exact hv.stack_next f (.tail _ (hrest f hf)))
          rw [hk]
          exact hset
        · rename_i hw1
          refine h.setStack _ (by simp [hs]) fun f hf => ?_
          rcases mem_cons.mp hf with rfl | hf
          · exact htop.advance he hw (fun hj => hj) (Option.ne_none_iff_exists'.mp hw1)
          · exact h.stack_next f (hrest f hf)

end Inv

theorem dfnum_step (h : s.dfnum v = some k) : (dfsStep g s).dfnum v = some k := by
  rw [dfsStep]
  split
  · exact h
  · split
    · exact h
    · split
      · exact h
      · split
        · rename_i hw
          apply (Inv.dfnum_visit ?_).mpr (.inl ?_)
          · exact hw
          · exact h
        · exact h

theorem dfnum_drain {fuel : ℕ} (h : s.dfnum v = some k) : (dfsDrain g fuel s).dfnum v = some k := by
  induction fuel generalizing s with
  | zero => exact h
  | succ fuel ih =>
    rw [dfsDrain]
    split
    · exact h
    · exact ih (dfnum_step h)

def degree (v : Fin g.len) : ℕ := g.outStart v.succ - g.outStart v.castSucc

/-- Rounds left: one for each edge still to follow and one for each frame still to pop. -/
def work (s : DfsState g.len) : ℕ :=
  (∑ v, if s.dfnum v = none then degree v + 1 else 0) +
    (s.stack.map fun f => g.outStart f.v.succ - f.next + 1).sum

theorem unvisited_visit {w : Fin g.len} (hw : s.dfnum w = none) (o : Option ℕ) :
    (∑ v, if (visit g s w o).dfnum v = none then degree v + 1 else 0) + (degree w + 1) =
      ∑ v, if s.dfnum v = none then degree v + 1 else 0 := by
  rw [← Finset.sum_erase_add _ _ (Finset.mem_univ w),
    ← Finset.sum_erase_add (a := w) _ (fun v => if s.dfnum v = none then degree v + 1 else 0)
      (Finset.mem_univ w)]
  have hself : (visit g s w o).dfnum w = some s.vertex.length := Function.update_self ..
  have hrest (v : Fin g.len) (hv : v ∈ Finset.univ.erase w) :
      (visit g s w o).dfnum v = s.dfnum v := Function.update_of_ne (Finset.ne_of_mem_erase hv) ..
  rw [Finset.sum_congr rfl fun v hv => by rw [hrest v hv]]
  simp [hself, hw]

theorem work_visit {w : Fin g.len} (hw : s.dfnum w = none) (o : Option ℕ) : work (visit g s w o) = work s := by
  have h := unvisited_visit hw o
  unfold work
  rw [← h]
  simp only [visit, map_cons, sum_cons, degree]
  omega

theorem work_step (h : s.Inv) (hs : s.stack ≠ []) : work (dfsStep g s) < work s := by
  rw [dfsStep]
  split
  · rename_i he
    exact absurd he hs
  · rename_i top rest he
    obtain ⟨hlo, hhi, _⟩ := h.stack_next top (by simp [he])
    have hsum : (s.stack.map fun f => g.outStart f.v.succ - f.next + 1).sum =
        g.outStart top.v.succ - top.next + 1 +
          (rest.map fun f => g.outStart f.v.succ - f.next + 1).sum := by
      rw [he, map_cons, sum_cons]
    split
    · simp only [work]
      omega
    · have hl := g.outStart_last ▸ g.outStart_mono (Fin.le_last top.v.succ)
      split
      · rename_i hnone
        have := getElem?_eq_none_iff.mp hnone
        omega
      · have hadv : work { s with stack := ⟨top.v, top.next + 1⟩ :: rest } < work s := by
          simp only [work, map_cons, sum_cons]
          omega
        split
        · rename_i hw
          rw [work_visit (by exact hw)]
          exact hadv
        · exact hadv

theorem sum_degree {n : ℕ} (f : Fin (n + 1) → ℕ) (hf : Monotone f) :
    ∑ v : Fin n, (f v.succ - f v.castSucc) ≤ f (Fin.last n) := by
  induction n with
  | zero => simp
  | succ n ih =>
    rw [Fin.sum_univ_castSucc]
    have h1 := ih (fun i => f i.castSucc) (hf.comp Fin.strictMono_castSucc.monotone)
    have h2 := hf (Fin.castSucc_lt_succ (i := Fin.last n)).le
    simp only [Fin.succ_castSucc, Fin.succ_last, Nat.succ_eq_add_one] at h2 ⊢
    omega

theorem work_le (hs : s.stack = []) : work s ≤ g.out.length + g.len := by
  have hsum := sum_degree g.outStart g.outStart_mono
  have hle : (∑ v, if s.dfnum v = none then degree v + 1 else 0) ≤
      ∑ v : Fin g.len, (degree v + 1) :=
    Finset.sum_le_sum fun v _ => by split <;> omega
  rw [Finset.sum_add_distrib] at hle
  simp only [Finset.sum_const, Finset.card_univ, Fintype.card_fin, smul_eq_mul, degree] at hle
  rw [g.outStart_last] at hsum
  simp only [work, hs, map_nil, sum_nil, degree]
  omega

theorem drain_spec {fuel : ℕ} (h : s.Inv) (hf : work s ≤ fuel) :
    (dfsDrain g fuel s).Inv ∧ (dfsDrain g fuel s).stack = [] := by
  induction fuel generalizing s with
  | zero =>
    refine ⟨h, ?_⟩
    by_contra hs
    have := work_step h hs
    omega
  | succ fuel ih =>
    rw [dfsDrain]
    split
    · rename_i hs
      exact ⟨h, isEmpty_iff.mp hs⟩
    · rename_i hs
      have := work_step h fun he => hs (by simp [he])
      exact ih h.step (by omega)

theorem root_spec {r : Fin g.len} (h : s.Inv) (hs : s.stack = []) (hr : r ∈ g.roots) :
    (dfsRoot g s r).Inv ∧ (dfsRoot g s r).stack = [] ∧ (∃ k, (dfsRoot g s r).dfnum r = some k) ∧
      ∀ v k, s.dfnum v = some k → (dfsRoot g s r).dfnum v = some k := by
  rw [dfsRoot]
  split
  · rename_i hv
    exact ⟨h, hs, Option.isSome_iff_exists.mp hv, fun _ _ hk => hk⟩
  · rename_i hv
    have hv0 : s.dfnum r = none := by simpa using hv
    have hi := h.visit hv0 h.length_pos (.inl ⟨rfl, hr⟩) (by simp [hs]) fun j _ _ => h.root_anc j
    obtain ⟨h1, h2⟩ := drain_spec hi ((work_visit hv0 _).le.trans (work_le hs))
    exact ⟨h1, h2, ⟨_, dfnum_drain ((Inv.dfnum_visit hv0).mpr (.inr ⟨rfl, rfl⟩))⟩,
      fun v k hk => dfnum_drain ((Inv.dfnum_visit hv0).mpr (.inl hk))⟩

theorem roots_spec {l : List (Fin g.len)} (h : s.Inv) (hs : s.stack = []) (hl : ∀ r ∈ l, r ∈ g.roots) :
    (l.foldl (dfsRoot g) s).Inv ∧ (l.foldl (dfsRoot g) s).stack = [] ∧
      (∀ r ∈ l, ∃ k, (l.foldl (dfsRoot g) s).dfnum r = some k) ∧
      ∀ v k, s.dfnum v = some k → (l.foldl (dfsRoot g) s).dfnum v = some k := by
  induction l generalizing s with
  | nil => exact ⟨h, hs, by simp, fun _ _ hk => hk⟩
  | cons r l ih =>
    obtain ⟨h1, h2, ⟨k, hk⟩, h4⟩ := root_spec h hs (hl r (by simp))
    obtain ⟨i1, i2, i3, i4⟩ := ih h1 h2 fun x hx => hl x (by simp [hx])
    refine ⟨i1, i2, fun x hx => ?_, fun v j hj => i4 v j (h4 v j hj)⟩
    rcases mem_cons.mp hx with rfl | hx
    · exact ⟨k, i4 _ _ hk⟩
    · exact i3 x hx

end DfsState

theorem dfsPreorder_inv : (dfsPreorder g).Inv :=
  (roots_spec inv_start rfl fun _ h => h).1

theorem dfsPreorder_stack : (dfsPreorder g).stack = [] :=
  (roots_spec inv_start rfl fun _ h => h).2.1

theorem dfsPreorder_root {r : Fin g.len} (hr : r ∈ g.roots) : ∃ k, (dfsPreorder g).dfnum r = some k :=
  (roots_spec inv_start rfl fun _ h => h).2.2.1 r hr

end Spectra.Heap
