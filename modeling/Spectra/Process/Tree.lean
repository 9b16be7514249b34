import Spectra.Library.ParentWalk
import Spectra.Library.Rows

/-! The parent-child views of a process table, which may have cycles. -/
namespace Spectra.Process
open Library ParentWalk Relation List Function
open Std (ExtTreeMap)

structure Info where
  pid : ℤ
  ppid : ℤ
  command : String := ""
  fullCommandLine : String := ""
  rssKiB : ℤ := 0
  startTime : Option ℤ := none
  appPath : String := ""
deriving DecidableEq

def byPID (procs : List Info) : ExtTreeMap ℤ Info := .ofList (procs.map fun p => (p.pid, p))

/-- Each inner loop adds the ancestors it comes to; `none` if one of them runs out of fuel. -/
def scopeTreeProcesses (fuel : ℕ) (procs : List Info) : Option (List Info) :=
  let table := byPID procs
  let matched := procs.filter (·.appPath ≠ "")
  (matched.mapM fun p => walkUntil (fun q => table[q.ppid]?) (·.pid = p.pid) fuel table[p.ppid]?).map
    fun walks => procs.filter (·.pid ∈ (matched ++ walks.flatten).map Info.pid)

/-- The nodes that `BuildTree` has allocated, by the PID they stand for. -/
structure TreeNodes where
  roots : List ℤ
  children : ExtTreeMap ℤ (List ℤ)

def parentNode (nodes : ExtTreeMap ℤ Info) (p : Info) : Option Info :=
  if p.ppid ≠ p.pid then nodes[p.ppid]? else none

def addNode (nodes : ExtTreeMap ℤ Info) (t : TreeNodes) (p : Info) : TreeNodes :=
  match parentNode nodes p with
  | some parent =>
    { t with children := t.children.alter parent.pid fun old => some (old.getD [] ++ [p.pid]) }
  | none => { t with roots := t.roots ++ [p.pid] }

def buildTree (procs : List Info) : TreeNodes := procs.foldl (addNode (byPID procs)) ⟨[], ∅⟩

/-- The nodes at one depth of the forest below the roots, one entry for each place. -/
def TreeNodes.level (t : TreeNodes) : ℕ → List ℤ
  | 0 => t.roots
  | n + 1 => (t.level n).flatMap fun k => t.children[k]?.getD []

variable {procs : List Info} {p q : Info}

def Parent (procs : List Info) (p q : Info) : Prop := q ∈ procs ∧ q.pid = p.ppid

def Ancestor (procs : List Info) : Info → Info → Prop := TransGen (Parent procs)

def ProperParent (procs : List Info) (p q : Info) : Prop := Parent procs p q ∧ p.ppid ≠ p.pid

theorem isSome_mapM {α β : Type*} {f : α → Option β} {l : List α} : (l.mapM f).isSome ↔ ∀ a ∈ l, (f a).isSome := by
  induction l with
  | nil => simp
  | cons a l ih =>
    rw [forall_mem_cons, ← ih, mapM_cons]
    cases f a <;> cases l.mapM f <;> simp

private theorem mem_flatten_mapM {α β : Type*} {f : α → Option (List β)} {l : List α} {r : List (List β)}
    (h : l.mapM f = some r) (b : β) : b ∈ r.flatten ↔ ∃ a ∈ l, ∃ w ∈ f a, b ∈ w := by
  induction l generalizing r with
  | nil =>
    cases h
    simp
  | cons a l ih =>
    rw [mapM_cons] at h
    obtain ⟨w, hw, h⟩ := Option.bind_eq_some_iff.mp h
    obtain ⟨ws, hws, h⟩ := Option.bind_eq_some_iff.mp h
    cases h
    simp [ih hws, hw]

private theorem exists_bound {α : Type*} {l : List α} {P : α → ℕ → Prop} :
    (∃ b, ∀ a ∈ l, ∃ n < b, P a n) ↔ ∀ a ∈ l, ∃ n, P a n := by
  refine ⟨fun ⟨b, h⟩ a ha => (h a ha).imp fun _ => And.right, fun h => ?_⟩
  induction l with
  | nil => simp
  | cons a l ih =>
    obtain ⟨⟨n, hn⟩, hl⟩ := forall_mem_cons.mp h
    obtain ⟨b, hb⟩ := ih hl
    refine ⟨max (n + 1) b, forall_mem_cons.mpr ⟨⟨n, by omega, hn⟩, fun x hx => ?_⟩⟩
    obtain ⟨m, hm, hP⟩ := hb x hx
    exact ⟨m, by omega, hP⟩

section
variable (hpids : (procs.map Info.pid).Nodup)
include hpids

theorem getElem?_byPID {k : ℤ} : (byPID procs)[k]? = some p ↔ p ∈ procs ∧ p.pid = k := by
  rw [byPID, getElem?_ofList_iff (by simpa [comp_def] using hpids)]
  grind

theorem eq_of_pid (hp : p ∈ procs) (hq : q ∈ procs) (h : p.pid = q.pid) : p = q :=
  inj_on_of_nodup_map hpids hp hq h

theorem above_byPID : Above (fun p => (byPID procs)[p.ppid]?) p q ↔ Ancestor procs p q := by
  simp only [Above, getElem?_byPID hpids]
  rfl

omit hpids in
theorem Ancestor.mem (h : Ancestor procs p q) : q ∈ procs := by
  cases h with
  | single h | tail _ h => exact h.1

/-- A scoped tree is computed exactly if every cycle of parents above a matched process goes
through that process; it then has the matched processes and their ancestors. -/
theorem scopeTreeProcesses_spec :
    ((∃ fuel, (scopeTreeProcesses fuel procs).isSome) ↔ ∀ p ∈ procs, p.appPath ≠ "" →
      ∀ q, Ancestor procs p q → Ancestor procs q q → Ancestor procs q p) ∧
    ∀ fuel out, scopeTreeProcesses fuel procs = some out → ∃ keep : Info → Bool,
      out = procs.filter keep ∧ ∀ x ∈ procs, keep x ↔
        x.appPath ≠ "" ∨ ∃ p ∈ procs, p.appPath ≠ "" ∧ Ancestor procs p x := by
  have hstop {p q : Info} (hp : p ∈ procs) (hq : Above (fun q => (byPID procs)[q.ppid]?) p q) :
      decide (q.pid = p.pid) = true → q = p :=
    fun h => eq_of_pid hpids ((above_byPID hpids).mp hq).mem hp (of_decide_eq_true h)
  constructor
  · simp only [scopeTreeProcesses, Option.isSome_map, isSome_mapM, isSome_walkUntil]
    rw [exists_bound]
    simp only [mem_filter, and_imp, ne_eq, decide_not, Bool.not_eq_true', decide_eq_false_iff_not]
    refine forall_congr' fun p => forall_congr' fun hp => forall_congr' fun _ => ?_
    have hends := ends_iff (p := p) procs.finite_toSet
      fun a b (h : (byPID procs)[a.ppid]? = some b) => ((getElem?_byPID hpids).mp h).1
    simp only [above_byPID hpids] at hends
    rw [← hends]
    refine exists_congr fun n => ?_
    change (∀ q, (up fun q => (byPID procs)[q.ppid]?)^[n + 1] (some p) = some q → _) ↔ _
    cases hq : (up fun q => (byPID procs)[q.ppid]?)^[n + 1] (some p) with
    | none => simp
    | some q =>
      simp only [Option.some.injEq, forall_eq', reduceCtorEq, false_or]
      exact ⟨hstop hp (above_iff.mpr ⟨n, hq⟩), fun h => by simp [h]⟩
  · intro fuel out h
    obtain ⟨walks, hwalks, rfl⟩ := Option.map_eq_some_iff.mp h
    have hmatched {y : Info} : y ∈ procs.filter (·.appPath ≠ "") ↔ y ∈ procs ∧ y.appPath ≠ "" := by
      simp
    have hkept (y : Info) : y ∈ procs.filter (·.appPath ≠ "") ++ walks.flatten ↔ y ∈ procs ∧
        (y.appPath ≠ "" ∨ ∃ p ∈ procs, p.appPath ≠ "" ∧ Ancestor procs p y) := by
      rw [mem_append, mem_flatten_mapM hwalks, hmatched]
      constructor
      · rintro (hy | ⟨p, hp, w, hw, hy⟩)
        · exact ⟨hy.1, .inl hy.2⟩
        · obtain ⟨hp, happ⟩ := hmatched.mp hp
          rcases (mem_walkUntil (fun _ => hstop hp) hw).mp (.inr hy) with rfl | ha
          · exact ⟨hp, .inl happ⟩
          · have ha := (above_byPID hpids).mp ha
            exact ⟨ha.mem, .inr ⟨p, hp, happ, ha⟩⟩
      · rintro ⟨hy, happ | ⟨p, hp, happ, ha⟩⟩
        · exact .inl ⟨hy, happ⟩
        · obtain ⟨w, hw⟩ := Option.isSome_iff_exists.mp
            (isSome_mapM.mp (Option.isSome_iff_exists.mpr ⟨_, hwalks⟩) p (hmatched.mpr ⟨hp, happ⟩))
          rcases (mem_walkUntil (fun _ => hstop hp) hw).mpr (.inr ((above_byPID hpids).mpr ha)) with
            rfl | hy
          · exact .inl ⟨hp, happ⟩
          · exact .inr ⟨p, hmatched.mpr ⟨hp, happ⟩, w, hw, hy⟩
    refine ⟨_, rfl, fun x hx => ?_⟩
    rw [decide_eq_true_eq, mem_map]
    constructor
    · rintro ⟨y, hy, heq⟩
      obtain ⟨hy, happ⟩ := (hkept y).mp hy
      exact eq_of_pid hpids hy hx heq ▸ happ
    · exact fun happ => ⟨x, (hkept x).mpr ⟨hx, happ⟩, rfl⟩

omit hpids in
theorem foldl_addNode (nodes : ExtTreeMap ℤ Info) (l : List Info) (t : TreeNodes) :
    (l.foldl (addNode nodes) t).roots =
      t.roots ++ (l.filter fun p => (parentNode nodes p).isNone).map Info.pid ∧
    ∀ k : ℤ, (l.foldl (addNode nodes) t).children[k]?.getD [] = t.children[k]?.getD [] ++
      (l.filter fun p => (parentNode nodes p).any (·.pid = k)).map Info.pid := by
  induction l generalizing t with
  | nil => simp
  | cons p l ih =>
    rw [foldl_cons, (ih _).1]
    simp only [(ih _).2, addNode]
    cases h : parentNode nodes p with
    | none => simp [h]
    | some q =>
      refine ⟨by simp [h], fun k => ?_⟩
      by_cases hk : q.pid = k
      · subst hk
        simp [h]
      · simp [h, hk, getElem?_alter_eq]

omit hpids in
theorem children_buildTree (k : ℤ) : (buildTree procs).children[k]?.getD [] =
    (procs.filter fun p => (parentNode (byPID procs) p).any (·.pid = k)).map Info.pid := by
  simpa [buildTree] using (foldl_addNode (byPID procs) procs ⟨[], ∅⟩).2 k

theorem parentNode_eq_some : parentNode (byPID procs) p = some q ↔ ProperParent procs p q := by
  rw [parentNode, Option.ite_none_right_eq_some, getElem?_byPID hpids, and_comm]
  rfl

theorem count_filter (hp : p ∈ procs) (f : Info → Bool) :
    ((procs.filter f).map Info.pid).count p.pid = if f p then 1 else 0 := by
  rw [((filter_sublist.map Info.pid).nodup hpids).count]
  refine if_congr ?_ rfl rfl
  rw [mem_map]
  constructor
  · rintro ⟨q, hq, heq⟩
    obtain ⟨hq, hf⟩ := mem_filter.mp hq
    exact eq_of_pid hpids hq hp heq ▸ hf
  · exact fun hf => ⟨p, mem_filter.mpr ⟨hp, hf⟩, rfl⟩

/-- A process is at depth `n`, and once, if the walk to its parents ends after `n` steps. -/
theorem count_level (hp : p ∈ procs) (n : ℕ) : ((buildTree procs).level n).count p.pid =
    if ((up (parentNode (byPID procs)))^[n] (some p)).isSome &&
      ((up (parentNode (byPID procs)))^[n + 1] (some p)).isNone then 1 else 0 := by
  induction n generalizing p with
  | zero =>
    rw [TreeNodes.level, buildTree, (foldl_addNode ..).1]
    exact count_filter hpids hp _
  | succ n ih =>
    have hsucc : ((buildTree procs).level (n + 1)).count p.pid = (parentNode (byPID procs) p).elim 0
        fun q => ((buildTree procs).level n).count q.pid := by
      rw [TreeNodes.level, count_flatMap]
      generalize (buildTree procs).level n = l
      induction l with
      | nil => cases parentNode (byPID procs) p <;> rfl
      | cons k l ih =>
        rw [map_cons, sum_cons, ih, comp, children_buildTree, count_filter hpids hp]
        cases parentNode (byPID procs) p with
        | none => rfl
        | some q =>
          simp only [Option.any_some, Option.elim_some, count_cons, beq_iff_eq, decide_eq_true_eq,
            Nat.add_comm, eq_comm (a := k)]
    rw [hsucc, iterate_succ_apply, iterate_succ_apply, up, Option.bind_some]
    cases hq : parentNode (byPID procs) p with
    | none => rw [iterate_up_none]; rfl
    | some q => exact ih ((parentNode_eq_some hpids).mp hq).1.1

/-- The tree shows every process exactly once if and only if no process is above itself; its
edges lead from a process to those that have its PID as their PPID. -/
theorem buildTree_spec :
    ((∀ p ∈ procs, ∃ n, ((buildTree procs).level n).count p.pid = 1 ∧
      ∀ m ≠ n, p.pid ∉ (buildTree procs).level m) ↔
        ∀ p ∈ procs, ¬ TransGen (ProperParent procs) p p) ∧
    ∀ k, ∀ c ∈ (buildTree procs).children[k]?.getD [],
      ∃ p q, ProperParent procs p q ∧ p ∈ procs ∧ p.pid = c ∧ q.pid = k := by
  have habove (p q : Info) : TransGen (ProperParent procs) p q ↔
      Above (parentNode (byPID procs)) p q := by
    simp [Above, parentNode_eq_some hpids]
  simp only [habove]
  refine ⟨⟨fun h p hp hcycle => ?_, fun h p hp => ?_⟩, fun k c hc => ?_⟩
  · obtain ⟨n, hn, -⟩ := h p hp
    have hsome := iterate_ne_none hcycle (n + 1)
    simp [count_level hpids hp, hsome, -iterate_succ] at hn
  · have hmem (a b : Info) (hab : parentNode (byPID procs) a = some b) : b ∈ procs :=
      ((parentNode_eq_some hpids).mp hab).1.1
    have hends : ∃ n, (up (parentNode (byPID procs)))^[n] (some p) = none := by
      obtain ⟨n, hn | hn⟩ := (ends_iff (p := p) procs.finite_toSet hmem).mpr fun q _ hq => by
        obtain ⟨c, -, hc⟩ := TransGen.tail'_iff.mp hq
        exact absurd hq (h q (hmem c q hc))
      · exact ⟨n + 1, hn⟩
      · exact absurd (above_iff.mpr ⟨n, hn⟩) (h p hp)
    have hspec := Nat.find_spec hends
    obtain ⟨n, hn⟩ : ∃ n, Nat.find hends = n + 1 := by
      refine Nat.exists_eq_succ_of_ne_zero fun h0 => ?_
      rw [h0] at hspec
      cases hspec
    have hlast : (up (parentNode (byPID procs)))^[n + 1] (some p) = none := hn ▸ hspec
    have hbefore {m : ℕ} (hm : m ≤ n) : (up (parentNode (byPID procs)))^[m] (some p) ≠ none :=
      Nat.find_min hends (by omega)
    refine ⟨n, ?_, fun m hm => ?_⟩
    · simp [count_level hpids hp, hlast, Option.isSome_iff_ne_none, hbefore le_rfl]
    · rw [← count_eq_zero, count_level hpids hp]
      rcases Nat.lt_or_gt_of_ne hm with hm | hm
      · simp [hbefore hm, -iterate_succ]
      · simp [iterate_none_of_le hlast hm]
  · rw [children_buildTree, mem_map] at hc
    obtain ⟨p, hp, rfl⟩ := hc
    obtain ⟨hp, hany⟩ := mem_filter.mp hp
    cases hq : parentNode (byPID procs) p with
    | none => simp [hq] at hany
    | some q => exact ⟨p, q, (parentNode_eq_some hpids).mp hq, hp, rfl, by simpa [hq] using hany⟩

end

def launchdTable : List Info := [{ pid := 1, ppid := 0 }, { pid := 9, ppid := 1, appPath := "A.app" }]

theorem scopeTreeProcesses_launchd : (scopeTreeProcesses 2 launchdTable).isSome ∧
    ∀ p ∈ launchdTable, p.appPath ≠ "" → ∀ q, Ancestor launchdTable p q →
      Ancestor launchdTable q q → Ancestor launchdTable q p :=
  ⟨by decide +kernel, (scopeTreeProcesses_spec (by decide)).1.mp ⟨2, by decide +kernel⟩⟩

theorem buildTree_launchd : 9 ∈ (buildTree launchdTable).level 1 ∧
    ∃ p q, ProperParent launchdTable p q ∧ p ∈ launchdTable ∧ p.pid = 9 ∧ q.pid = 1 :=
  ⟨by decide +kernel, (buildTree_spec (by decide)).2 1 9 (by decide +kernel)⟩

def cyclicTable : List Info :=
  [{ pid := 1, ppid := 2, appPath := "A.app" }, { pid := 2, ppid := 3 }, { pid := 3, ppid := 2 }]

/-- A matched process above a cycle of others: the loop over its ancestors does not end. -/
theorem scopeTreeProcesses_loops :
    (cyclicTable.map Info.pid).Nodup ∧ ∀ fuel, scopeTreeProcesses fuel cyclicTable = none := by
  have hwalk (fuel : ℕ) : ∀ q ∈ [({ pid := 2, ppid := 3 } : Info), { pid := 3, ppid := 2 }],
      walkUntil (fun q => (byPID cyclicTable)[q.ppid]?) (·.pid = 1) fuel (some q) = none := by
    induction fuel with
    | zero => exact fun _ _ => rfl
    | succ fuel ih =>
      exact forall_mem_cons.mpr ⟨Option.map_eq_none_iff.mpr (ih _ (.tail _ (.head _))),
        forall_mem_singleton.mpr (Option.map_eq_none_iff.mpr (ih _ (.head _)))⟩
  refine ⟨by decide, fun fuel => ?_⟩
  change Option.map _ (Option.bind (walkUntil _ _ fuel (some _)) _) = none
  rw [hwalk fuel _ (.head _)]
  rfl

/-- Two processes that are each other's parent are both lost. -/
theorem buildTree_loses :
    let procs : List Info := [{ pid := 1, ppid := 2 }, { pid := 2, ppid := 1 }]
    (procs.map Info.pid).Nodup ∧ ∀ p ∈ procs, ∀ n, p.pid ∉ (buildTree procs).level n := by
  refine ⟨by decide, fun p _ n => ?_⟩
  have hempty : (buildTree [{ pid := 1, ppid := 2 }, { pid := 2, ppid := 1 }]).level n = [] := by
    induction n with
    | zero => rfl
    | succ n ih => rw [TreeNodes.level, ih, flatMap_nil]
  exact hempty ▸ not_mem_nil

end Spectra.Process
