import Mathlib.Data.List.TakeWhile
import Spectra.Heap.DominatorTree
import Spectra.Heap.ParsedGraph
import Spectra.Library.BreadthFirst

/-! Reference paths from GC roots. -/
namespace Spectra.Heap
open Library BreadthFirst List ObjectGraph Search

/-- One object on a reference path. -/
structure PathStep where
  id : ℕ
  className : String
  deriving DecidableEq, Repr

/-- A reference chain from a GC root to a target, with the reasons why its first object is a root. -/
structure RootPath (len : ℕ) where
  roots : List (GCRoot len)
  steps : List PathStep
  deriving DecidableEq, Repr

namespace ObjectGraph
variable (g : ObjectGraph)

/-- `sort.Search` for the first record that is not before object `i`, then the records of `i`. -/
def RootsOf (i : Fin g.len) : List (GCRoot g.len) :=
  (g.gcRoots.dropWhile fun r => decide (r.object < i)).takeWhile fun r => decide (r.object = i)

/-- The offsets of `predecessors`: references are counted in the flat list. -/
def predStart : Fin (g.len + 1) → ℕ := Csr.offsets (g.out.map fun w => (w, ()))

/-- The (to, from) pairs that `predecessors` fills in, object by object. -/
def reversed : List (Fin g.len × Fin g.len) :=
  (List.finRange g.len).flatMap fun v => (g.Out v).map fun w => (w, v)

def preds : List (Fin g.len) :=
  if h : 0 < g.len then
    (g.reversed.foldl Csr.Fill.add ⟨List.replicate g.out.length ⟨0, h⟩, fun k => g.predStart k.castSucc⟩).items
  else []

def predecessors (v : Fin g.len) : List (Fin g.len) := Csr.slice g.predStart g.preds v

def pathStep (v : Fin g.len) : PathStep := ⟨g.ids v, g.DisplayName v⟩

/-- The objects from `v` along `next`; no trail is longer than there are objects. -/
def pathFrom (v : Fin g.len) (next : Fin g.len → Mark (Fin g.len)) (roots : List (GCRoot g.len)) :
    RootPath g.len :=
  ⟨roots, (trail next g.len v).map g.pathStep⟩

/-- The variables of the search; the queue keeps what was taken from it. -/
structure PathSearch where
  next : Fin g.len → Mark (Fin g.len)
  queue : List (Fin g.len)
  head : ℕ
  paths : List (RootPath g.len)

variable {g}

/-- Set an unvisited object's `next` and append it to the queue. -/
def PathSearch.enqueue (m : Mark (Fin g.len)) (s : g.PathSearch) (u : Fin g.len) : g.PathSearch :=
  if s.next u = .unvisited then
    { s with next := Function.update s.next u m, queue := s.queue ++ [u] }
  else s

def PathSearch.step (s : g.PathSearch) : g.PathSearch :=
  match s.queue[s.head]? with
  | none => s
  | some v =>
    if g.RootsOf v ≠ [] then
      { s with paths := s.paths ++ [g.pathFrom v s.next (g.RootsOf v)], head := s.head + 1 }
    else
      let s := (g.predecessors v).foldl (PathSearch.enqueue (.toward v)) s
      { s with head := s.head + 1 }

def PathSearch.loop (maxPaths : ℤ) : ℕ → g.PathSearch → g.PathSearch
  | 0, s => s
  | fuel + 1, s =>
    if s.head < s.queue.length ∧ s.paths.length < maxPaths then loop maxPaths fuel s.step else s

variable (g)

/-- Up to `maxPaths` shortest paths from distinct GC roots to any of the targets. Every object is
queued at most once: `g.len` rounds are enough. -/
def PathsToGCRoots (targets : List (Fin g.len)) (maxPaths : ℤ) : List (RootPath g.len) :=
  if maxPaths ≤ 0 ∨ targets = [] then []
  else
    (PathSearch.loop maxPaths g.len (targets.foldl (PathSearch.enqueue .source) ⟨fun _ => .unvisited, [], 0, []⟩)).paths

end ObjectGraph

section
variable {g : ObjectGraph} (hg : g.WellFormed)
include hg

theorem reversed_fst : (g.out.map fun w => (w, ())).map Prod.fst = g.reversed.map Prod.fst := by
  rw [reversed, map_flatMap, ← Csr.flatMap_slice hg.outStart_zero g.outStart_mono g.outStart_last]
  simp [Out, Function.comp_def]

private theorem mem_predecessors {u v : Fin g.len} : u ∈ g.predecessors v ↔ g.Edge u v := by
  have hstart : g.predStart = Csr.offsets g.reversed := Csr.offsets_congr (reversed_fst hg)
  have hlen : g.out.length = g.reversed.length := by
    have := congrArg length (reversed_fst hg)
    simpa using this
  have hpos : 0 < g.len := Nat.pos_of_ne_zero fun h => absurd v.isLt (by omega)
  have hpreds : g.preds = Csr.items ⟨0, hpos⟩ g.reversed := by
    rw [preds, dif_pos hpos, hstart, Csr.items, Csr.offsets_last, hlen]
  rw [predecessors, hstart, hpreds, Csr.slice_items, Csr.mem_row]
  simp [reversed, Edge]

theorem rootsOf_ne_nil {i : Fin g.len} : g.RootsOf i ≠ [] ↔ i ∈ g.roots := by
  rw [hg.mem_roots, RootsOf]
  constructor
  · intro h
    obtain ⟨r, hr⟩ := exists_mem_of_ne_nil _ h
    have hobj : r.object = i := by simpa using mem_takeWhile_imp hr
    exact ⟨r, (dropWhile_sublist _).subset ((takeWhile_sublist _).subset hr), hobj⟩
  · rintro ⟨r, hr, rfl⟩
    have hdrop : r ∈ g.gcRoots.dropWhile fun a => decide (a.object < r.object) := by
      rw [← takeWhile_append_dropWhile (p := fun a => decide (a.object < r.object)) (l := g.gcRoots)] at hr
      refine (mem_append.mp hr).resolve_left fun htake => ?_
      simpa using mem_takeWhile_imp htake
    have hsorted := hg.gcRoots_sorted.sublist
      (dropWhile_sublist fun a => decide (a.object < r.object))
    cases hd : g.gcRoots.dropWhile fun a => decide (a.object < r.object) with
    | nil =>
      rw [hd] at hdrop
      cases hdrop
    | cons a rest =>
      have hge : ¬ a.object < r.object := by
        have := head?_dropWhile_not (fun a => decide (a.object < r.object)) g.gcRoots
        rw [hd] at this
        simpa using this
      rw [hd] at hdrop hsorted
      have hle : a.object ≤ r.object := by
        rcases mem_cons.mp hdrop with rfl | hmem
        · exact le_rfl
        · exact (pairwise_cons.mp hsorted).1 r hmem
      simp [le_antisymm hle (not_lt.mp hge)]

end

section
variable {g : ObjectGraph}

variable (g) in
/-- The objects that the search goes on to from `v`: none from a root. -/
def expand (v : Fin g.len) : List (Fin g.len) := if g.RootsOf v ≠ [] then [] else g.predecessors v

variable (g) in
def rooted (v : Fin g.len) : Bool := decide (g.RootsOf v ≠ [])

/-- The queue of the loop is that of the library's search, cut at `head`, and every settled root
has its path. -/
structure Mirrors (s : g.PathSearch) (t : Search (Fin g.len)) : Prop where
  next_eq : s.next = t.next
  queue_eq : s.queue = t.order
  head_eq : s.head = t.done.length
  paths_eq : s.paths = (t.done.filter (rooted g)).map fun v => g.pathFrom v t.next (g.RootsOf v)

section
variable {s : g.PathSearch} {t : Search (Fin g.len)} (hnext : s.next = t.next) (hqueue : s.queue = t.order)
include hnext hqueue

private theorem enqueue_mark (m : Mark (Fin g.len)) (n : ℕ) (u : Fin g.len) :
    (s.enqueue m u).next = (mark m n t u).next ∧ (s.enqueue m u).queue = (mark m n t u).order ∧
      (s.enqueue m u).head = s.head ∧ (s.enqueue m u).paths = s.paths := by
  unfold ObjectGraph.PathSearch.enqueue mark
  rw [hnext]
  split
  · simp [order, hqueue]
  · exact ⟨hnext, hqueue, rfl, rfl⟩

theorem enqueue_markAll (m : Mark (Fin g.len)) (n : ℕ) (us : List (Fin g.len)) :
    (us.foldl (ObjectGraph.PathSearch.enqueue m) s).next = (us.foldl (mark m n) t).next ∧
      (us.foldl (ObjectGraph.PathSearch.enqueue m) s).queue = (us.foldl (mark m n) t).order ∧
      (us.foldl (ObjectGraph.PathSearch.enqueue m) s).head = s.head ∧
      (us.foldl (ObjectGraph.PathSearch.enqueue m) s).paths = s.paths := by
  induction us generalizing s t with
  | nil => exact ⟨hnext, hqueue, rfl, rfl⟩
  | cons u us ih =>
    obtain ⟨hn, hq, hh, hp⟩ := enqueue_mark hnext hqueue m n u
    obtain ⟨hn', hq', hh', hp'⟩ := ih hn hq
    exact ⟨hn', hq', hh'.trans hh, hp'.trans hp⟩

end

variable {targets : List (Fin g.len)} {s : g.PathSearch} {t : Search (Fin g.len)}

theorem mirrors_start : Mirrors (targets.foldl (ObjectGraph.PathSearch.enqueue .source)
    (⟨fun _ => .unvisited, [], 0, []⟩ : g.PathSearch)) (start targets) := by
  obtain ⟨hn, hq, hh, hp⟩ := enqueue_markAll (g := g) (s := ⟨fun _ => .unvisited, [], 0, []⟩)
    (t := ⟨fun _ => .unvisited, fun _ => 0, [], []⟩) rfl rfl .source 0 targets
  refine ⟨hn, hq, hh.trans ?_, hp.trans ?_⟩
  · rw [start_done, length_nil]
  · rw [start_done, filter_nil, map_nil]

theorem paths_extends {t' : Search (Fin g.len)} (ht : Inv (expand g) targets t) (he : Extends t t') :
    ((t.done.filter (rooted g)).map fun v => g.pathFrom v t'.next (g.RootsOf v)) =
      (t.done.filter (rooted g)).map fun v => g.pathFrom v t.next (g.RootsOf v) := by
  refine map_congr_left fun v hv => ?_
  unfold pathFrom
  rw [ht.linked.trail_extends he (ht.linked.done_visited (mem_filter.mp hv).1)]

variable {v : Fin g.len} {rest : List (Fin g.len)}

theorem Mirrors.step (h : Mirrors s t) (ht : Inv (expand g) targets t)
    (hp : t.pending = v :: rest) : Mirrors s.step (dequeue (expand g) t) := by
  have hget : s.queue[s.head]? = some v := by
    rw [h.queue_eq, h.head_eq, order, hp]
    simp
  have hdone : (dequeue (expand g) t).done = t.done ++ [v] := dequeue_done hp
  have hpaths := paths_extends ht ht.extends_dequeue
  rw [ObjectGraph.PathSearch.step, hget]
  by_cases hroot : g.RootsOf v ≠ []
  · have hnext : dequeue (expand g) t = { t with done := t.done ++ [v], pending := rest } := by
      simp [dequeue, hp, expand, hroot]
    dsimp only
    rw [if_pos hroot, hnext]
    refine ⟨h.next_eq, ?_, ?_, ?_⟩
    · simp [h.queue_eq, order, hp]
    · simp [h.head_eq]
    · simp [h.paths_eq, h.next_eq, rooted, hroot]
  · have hnext : dequeue (expand g) t = (g.predecessors v).foldl (mark (.toward v) (t.depth v + 1))
        { t with done := t.done ++ [v], pending := rest } := by
      simp [dequeue, hp, expand, if_neg hroot]
    obtain ⟨hn, hq, hh, hps⟩ := enqueue_markAll (s := s)
      (t := { t with done := t.done ++ [v], pending := rest }) h.next_eq
      (by simp [h.queue_eq, order, hp]) (.toward v) (t.depth v + 1) (g.predecessors v)
    rw [← hnext] at hn hq
    dsimp only
    rw [if_neg hroot]
    refine ⟨hn, hq, ?_, ?_⟩
    · rw [hdone, length_append, length_singleton, ← h.head_eq, hh]
    · have hfilter : [v].filter (rooted g) = [] := by simp [rooted, hroot]
      rw [hdone, filter_append, hfilter, append_nil, hpaths, hps, h.paths_eq]

/-- What a search without a limit returns. -/
def allPaths (g : ObjectGraph) (targets : List (Fin g.len)) : List (RootPath g.len) :=
  ((search (expand g) targets).done.filter (rooted g)).map fun v =>
    g.pathFrom v (search (expand g) targets).next (g.RootsOf v)

theorem Mirrors.paths_within (h : Mirrors s t) (ht : Inv (expand g) targets t) {n : ℕ}
    (hn : (dequeue (expand g))^[n] t = search (expand g) targets) : s.paths <+: allPaths g targets := by
  obtain ⟨hext, hpre⟩ := ht.rounds n
  rw [hn] at hext hpre
  rw [h.paths_eq, ← paths_extends ht hext]
  exact (hpre.filter _).map _

variable {maxPaths : ℤ}

theorem Mirrors.paths_all (h : Mirrors s t) (ht : t = search (expand g) targets)
    (hle : s.paths.length ≤ maxPaths) : s.paths = (allPaths g targets).take maxPaths.toNat := by
  subst ht
  have hall : allPaths g targets = s.paths := h.paths_eq.symm
  rw [hall, take_of_length_le (by omega)]

theorem Mirrors.length_step (h : Mirrors s t) (ht : Inv (expand g) targets t)
    (hp : t.pending = v :: rest) : s.step.paths.length ≤ s.paths.length + 1 := by
  have hdone : (dequeue (expand g) t).done = t.done ++ [v] := dequeue_done hp
  have hone := length_filter_le (rooted g) [v]
  rw [(h.step ht hp).paths_eq, h.paths_eq, length_map, length_map, hdone, filter_append, length_append]
  exact Nat.add_le_add_left hone _

theorem Mirrors.loop {n : ℕ} (h : Mirrors s t) (ht : Inv (expand g) targets t)
    (hn : (dequeue (expand g))^[n] t = search (expand g) targets) (hle : s.paths.length ≤ maxPaths) :
    (ObjectGraph.PathSearch.loop maxPaths n s).paths = (allPaths g targets).take maxPaths.toNat := by
  induction n generalizing s t with
  | zero => exact h.paths_all hn hle
  | succ n ih =>
    rw [ObjectGraph.PathSearch.loop]
    have hqueue : s.queue.length = t.done.length + t.pending.length := by
      rw [h.queue_eq, order, length_append]
    cases hp : t.pending with
    | nil =>
      have hend : ¬ s.head < s.queue.length := by
        rw [hqueue, h.head_eq, hp, length_nil]
        omega
      have hfix : dequeue (expand g) t = t := by rw [dequeue, hp]
      rw [Function.iterate_fixed hfix] at hn
      rw [if_neg fun hc => hend hc.1]
      exact h.paths_all hn hle
    | cons v rest =>
      have hhead : s.head < s.queue.length := by
        rw [hqueue, h.head_eq, hp, length_cons]
        omega
      by_cases hmax : s.paths.length < maxPaths
      · have hstep := h.length_step ht hp
        rw [if_pos ⟨hhead, hmax⟩]
        exact ih (h.step ht hp) ht.next hn (by omega)
      · rw [if_neg fun hc => hmax hc.2]
        have htake := prefix_iff_eq_take.mp (h.paths_within ht hn)
        rwa [show s.paths.length = maxPaths.toNat by omega] at htake

private theorem pathsToGCRoots_eq (g : ObjectGraph) (targets : List (Fin g.len)) (hmax : 1 ≤ maxPaths) :
    g.PathsToGCRoots targets maxPaths = (allPaths g targets).take maxPaths.toNat := by
  rw [PathsToGCRoots]
  split
  · rename_i hc
    obtain rfl : targets = [] := hc.resolve_left (by omega)
    have hall : allPaths g [] = [] := by
      have hfix : dequeue (expand g) (start []) = start [] := rfl
      simp only [allPaths, search, Function.iterate_fixed hfix]
      rfl
    rw [hall, take_nil]
  · refine mirrors_start.loop inv_start ?_ ?_
    · rw [search, Fintype.card_fin]
    · rw [mirrors_start.paths_eq, start_done]
      simp
      omega

end
/-- A reference chain from the GC root `r` to a target with no other GC root on it. -/
structure ObjectGraph.IsRootChain (g : ObjectGraph) (targets : List (Fin g.len)) (r : Fin g.len)
    (p : List (Fin g.len)) : Prop where
  root : r ∈ g.roots
  walk : ∃ t ∈ targets, IsWalk g.Edge p r t
  only : ∀ x ∈ p, x ∈ g.roots → x = r

section
variable {g : ObjectGraph} (hg : g.WellFormed)
include hg

variable {p : List (Fin g.len)}

theorem expand_walk {u t : Fin g.len} :
    IsWalk (fun a b => a ∈ expand g b) p u t ↔ IsWalk g.Edge p u t ∧ ∀ x ∈ p.tail, x ∉ g.roots := by
  rw [← isWalk_and]
  refine iff_of_eq (congrArg (fun E => IsWalk E p u t) ?_)
  funext a b
  rw [expand]
  by_cases hb : g.RootsOf b ≠ []
  · simp [hb, (rootsOf_ne_nil hg).mp hb]
  · simp [hb, mt (rootsOf_ne_nil hg).mpr hb, mem_predecessors hg]

variable {targets : List (Fin g.len)}

/-- The trail of a settled root is a chain, and no chain from that root is shorter. -/
theorem trail_chain {v : Fin g.len} (hv : v ∈ (search (expand g) targets).done) (hroot : v ∈ g.roots) :
    (trail (search (expand g) targets).next g.len v).length =
      (search (expand g) targets).depth v + 1 ∧
    g.IsRootChain targets v (trail (search (expand g) targets).next g.len v) ∧
    ∀ p, g.IsRootChain targets v p → (search (expand g) targets).depth v + 1 ≤ p.length := by
  have hinv := inv_search (expand g) targets
  have hvis := hinv.linked.done_visited hv
  have hlt : (search (expand g) targets).depth v < g.len := by
    simpa using hinv.linked.depth_lt_card hvis
  obtain ⟨hlen, t, ht, hwalk⟩ := hinv.linked.trail_walk hvis hlt
  have hexpand : IsWalk (fun a b => a ∈ expand g b)
      (trail (search (expand g) targets).next g.len v) v t :=
    ⟨hwalk.1.imp fun _ _ hab => hab.1, hwalk.2⟩
  obtain ⟨hedges, htail⟩ := (expand_walk hg).mp hexpand
  refine ⟨hlen, ⟨hroot, ⟨t, ht, hedges⟩, fun x hx hxr => ?_⟩, fun p hp => ?_⟩
  · by_contra hne
    refine htail x ?_ hxr
    cases htr : trail (search (expand g) targets).next g.len v with
    | nil => simp [htr] at hlen
    | cons a q =>
      rw [htr] at hx hedges
      obtain rfl : a = v := Option.some.inj hedges.2.1
      exact (mem_cons.mp hx).resolve_left hne
  · obtain ⟨t', ht', hp'⟩ := hp.walk
    obtain ⟨r, q, hr, hmem, hle, hq, hqtail⟩ := hp'.exists_last
      (Q := (· ∈ g.roots)) ⟨v, mem_of_head? hp'.2.1, hroot⟩
    obtain rfl : r = v := hp.only r hmem hr
    have := (hinv.depth_lt_length (search_pending _ _) ((expand_walk hg).mpr ⟨hq, hqtail⟩) ht').2
    omega

/-- A walk from a root to a target has a root on it that the search settles. -/
theorem exists_settled {u t : Fin g.len} (hp : IsWalk g.Edge p u t) (hu : u ∈ g.roots)
    (ht : t ∈ targets) : ∃ r ∈ p, r ∈ g.roots ∧ r ∈ (search (expand g) targets).done := by
  obtain ⟨r, q, hr, hmem, _, hq, hqtail⟩ := hp.exists_last
    (Q := (· ∈ g.roots)) ⟨u, mem_of_head? hp.2.1, hu⟩
  have hinv := inv_search (expand g) targets
  have hvis := (hinv.depth_lt_length (search_pending _ _) ((expand_walk hg).mpr ⟨hq, hqtail⟩) ht).1
  refine ⟨r, hmem, hr, ?_⟩
  have horder := (hinv.linked.visited r).mpr hvis
  rwa [order, search_pending, append_nil] at horder

omit hg in
variable (g targets) in
/-- The GC roots that the search settles, nearest first. -/
def settledRoots : List (Fin g.len) := (search (expand g) targets).done.filter (rooted g)

theorem mem_settledRoots {v : Fin g.len} :
    v ∈ settledRoots g targets ↔ v ∈ (search (expand g) targets).done ∧ v ∈ g.roots := by
  simp [settledRoots, rooted, rootsOf_ne_nil hg]

omit hg in
private theorem nodup_settledRoots : (settledRoots g targets).Nodup :=
  (nodup_append.mp (inv_search (expand g) targets).linked.nodup).1.filter _

private theorem sorted_settledRoots : (settledRoots g targets).Pairwise fun a b =>
    (trail (search (expand g) targets).next g.len a).length ≤
      (trail (search (expand g) targets).next g.len b).length := by
  have hsorted := (pairwise_append.mp (inv_search (expand g) targets).linked.sorted).1
  refine (hsorted.filter (rooted g)).imp_of_mem fun ha hb hab => ?_
  obtain ⟨hdonea, hroota⟩ := (mem_settledRoots hg).mp ha
  obtain ⟨hdoneb, hrootb⟩ := (mem_settledRoots hg).mp hb
  rw [(trail_chain hg hdonea hroota).1, (trail_chain hg hdoneb hrootb).1]
  exact Nat.succ_le_succ hab

private theorem mem_settledRoots_of_chain {r : Fin g.len} (hp : g.IsRootChain targets r p) :
    r ∈ settledRoots g targets := by
  obtain ⟨t, ht, hwalk⟩ := hp.walk
  obtain ⟨r', hmem, hr', hdone⟩ := exists_settled hg hwalk hp.root ht
  obtain rfl : r' = r := hp.only r' hmem hr'
  exact (mem_settledRoots hg).mpr ⟨hdone, hr'⟩

private theorem settledRoots_ne_nil_iff : settledRoots g targets ≠ [] ↔ ∃ t ∈ targets, g.ReachableFromRoot t := by
  constructor
  · intro hne
    obtain ⟨v, hv⟩ := exists_mem_of_ne_nil _ hne
    obtain ⟨hdone, hroot⟩ := (mem_settledRoots hg).mp hv
    obtain ⟨t, ht, hwalk⟩ := (trail_chain hg hdone hroot).2.1.walk
    exact ⟨t, ht, v, hroot, _, hwalk⟩
  · rintro ⟨t, ht, r, hr, p, hp⟩
    obtain ⟨r', _, hr', hdone⟩ := exists_settled hg hp hr ht
    exact ne_nil_of_mem ((mem_settledRoots hg).mpr ⟨hdone, hr'⟩)

omit hg in
theorem pathsToGCRoots_eq_map {maxPaths : ℤ} (hmax : 1 ≤ maxPaths) :
    g.PathsToGCRoots targets maxPaths = ((settledRoots g targets).take maxPaths.toNat).map
      fun v => g.pathFrom v (search (expand g) targets).next (g.RootsOf v) := by
  rw [pathsToGCRoots_eq g targets hmax, map_take]
  rfl

end

/-- The paths are shortest chains from distinct GC roots, shortest first, and all of them unless
`maxPaths` cuts the list. -/
theorem pathsToGCRoots_shortest (g : ObjectGraph) :
    (∀ lim sort bs, parseObjectGraph lim sort bs = .ok g → g.WellFormed) ∧
    (g.WellFormed → ∀ (targets : List (Fin g.len)) (maxPaths : ℤ), 1 ≤ maxPaths →
      (∃ chains : List (Fin g.len × List (Fin g.len)),
        g.PathsToGCRoots targets maxPaths =
          chains.map (fun c => ⟨g.RootsOf c.1, c.2.map g.pathStep⟩) ∧
        (∀ c ∈ chains, g.IsRootChain targets c.1 c.2 ∧
          ∀ p, g.IsRootChain targets c.1 p → c.2.length ≤ p.length) ∧
        (chains.map Prod.fst).Nodup ∧
        chains.Pairwise (fun a b => a.2.length ≤ b.2.length) ∧
        (chains.length < maxPaths →
          ∀ r p, g.IsRootChain targets r p → r ∈ chains.map Prod.fst)) ∧
      (g.PathsToGCRoots targets maxPaths ≠ [] ↔ ∃ t ∈ targets, g.ReachableFromRoot t)) := by
  refine ⟨fun _ _ _ => wellFormed_of_parseObjectGraph, fun hg targets maxPaths hmax => ?_⟩
  let chain (v : Fin g.len) := (v, trail (search (expand g) targets).next g.len v)
  have hfst : (((settledRoots g targets).take maxPaths.toNat).map chain).map Prod.fst =
      (settledRoots g targets).take maxPaths.toNat := by
    rw [map_map]
    exact map_id _
  refine ⟨⟨((settledRoots g targets).take maxPaths.toNat).map chain, ?_, ?_, ?_, ?_, ?_⟩, ?_⟩
  · rw [pathsToGCRoots_eq_map hmax, map_map]
    rfl
  · intro c hc
    obtain ⟨v, hv, rfl⟩ := mem_map.mp hc
    obtain ⟨hdone, hroot⟩ := (mem_settledRoots hg).mp (mem_of_mem_take hv)
    obtain ⟨hlen, hchain, hshort⟩ := trail_chain hg hdone hroot
    exact ⟨hchain, fun p hp => hlen.trans_le (hshort p hp)⟩
  · rw [hfst]
    exact nodup_settledRoots.sublist (take_sublist _ _)
  · rw [pairwise_map]
    exact (sorted_settledRoots hg).sublist (take_sublist _ _)
  · intro hlt r p hp
    have htake : (settledRoots g targets).take maxPaths.toNat = settledRoots g targets := by
      rw [length_map, length_take] at hlt
      exact take_of_length_le (by omega)
    rw [hfst, htake]
    exact mem_settledRoots_of_chain hg hp
  · rw [← settledRoots_ne_nil_iff hg, pathsToGCRoots_eq_map hmax, Ne, map_eq_nil_iff, take_eq_nil_iff]
    exact not_congr (or_iff_right (by omega))

/-- The one path to the leaf of the list, of which there is no other. -/
theorem pathsToGCRoots_listGraph :
    listGraph.PathsToGCRoots [(4 : Fin 5)] 3 = [⟨[⟨(0 : Fin 5), .jniGlobal, 0⟩],
      [⟨1, "Holder"⟩, ⟨2, "Node"⟩, ⟨3, "Node"⟩, ⟨4, "Node"⟩, ⟨5, "Leaf"⟩]⟩] ∧
    ∃ chains : List (Fin listGraph.len × List (Fin listGraph.len)), chains.length = 1 ∧
      ∀ r p, listGraph.IsRootChain [(4 : Fin 5)] r p → r ∈ chains.map Prod.fst := by
  refine (and_iff_left_of_imp fun hpaths => ?_).mpr (by decide +kernel)
  obtain ⟨⟨chains, heq, _, _, _, hall⟩, _⟩ :=
    (pathsToGCRoots_shortest listGraph).2 listGraph_wellFormed [(4 : Fin 5)] 3 (by decide)
  have hlen : chains.length = 1 := by
    have := congrArg length (heq.symm.trans hpaths)
    simpa using this
  exact ⟨chains, hlen, hall (by rw [hlen]; decide)⟩

end Spectra.Heap
