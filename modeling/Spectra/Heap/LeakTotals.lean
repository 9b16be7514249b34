import Spectra.Heap.ClassAggregate
import Spectra.Heap.Leaks
import Spectra.Library.MapSum

/-! How the leak-suspects report accounts for memory. -/
namespace Spectra.Heap
open Library List LeakSuspect Csr

namespace RetainedSnapshot
variable {g : ObjectGraph} {s : RetainedSnapshot g} (rt : LeakRuntime g.len s.m) (threshold : ℤ)

def groupOf (d : Fin s.m) : Option ℕ :=
  if threshold ≤ s.retained d then none
  else (s.vertex d).bind fun obj => if (g.classObjOf obj).isSome then none else some (g.cls obj)

/-- The numbers of a list that are counted in the group of class `c`. -/
def groupMembers (c : ℕ) (l : List (Fin s.m)) : List (Fin s.m) :=
  l.filter fun d => groupOf threshold d = some c

def ClassGroup.Counts (l : List (Fin s.m)) : Option (ClassGroup s.m) → Prop
  | none => l = []
  | some grp => l ≠ [] ∧ grp.count = l.length ∧ grp.retained = (l.map s.retained).sum

variable {threshold} {st : List (LeakSuspect g.len) × s.Groups}

theorem suspectStep_small {d : Fin s.m}
    (h : ¬ threshold ≤ s.retained d) : suspectStep rt threshold st d =
      (st.1, match groupOf threshold d with
        | none => st.2
        | some c => st.2.insert c (s.addToGroup (st.2[c]?.getD ⟨0, 0, d⟩) d)) := by
  unfold suspectStep groupOf
  rw [if_neg h, if_neg h]
  cases s.vertex d with
  | none => rfl
  | some obj =>
    dsimp only
    rw [Option.bind_some]
    split <;> rfl

variable (threshold) in
/-- What the loop has done with the numbers `l`. -/
structure Scanned (l : List (Fin s.m)) (st : List (LeakSuspect g.len) × s.Groups) : Prop where
  suspects : st.1 = (l.filter fun d => threshold ≤ s.retained d).map (objectSuspect rt)
  groups : ∀ c, ClassGroup.Counts (groupMembers threshold c l) st.2[c]?

variable {l : List (Fin s.m)}

theorem counts_add {grp : Option (ClassGroup s.m)} {d : Fin s.m}
    (h : ClassGroup.Counts l grp) : ClassGroup.Counts (l ++ [d]) (some (s.addToGroup (grp.getD ⟨0, 0, d⟩) d)) := by
  refine ⟨by simp, ?_⟩
  cases grp with
  | none =>
    obtain rfl : l = [] := h
    exact ⟨rfl, by simp [addToGroup]⟩
  | some grp =>
    obtain ⟨_, hcount, hretained⟩ := h
    exact ⟨by simp [addToGroup, hcount], by simp [addToGroup, hretained]⟩

theorem groupMembers_concat (c : ℕ) (l : List (Fin s.m)) (d : Fin s.m) :
    groupMembers threshold c (l ++ [d]) =
      groupMembers threshold c l ++ if groupOf threshold d = some c then [d] else [] := by
  unfold groupMembers
  split <;> simp [*]

theorem Scanned.step (h : Scanned rt threshold l st) (d : Fin s.m) :
    Scanned rt threshold (l ++ [d]) (suspectStep rt threshold st d) := by
  by_cases hd : threshold ≤ s.retained d
  · have hgroup : groupOf threshold d = none := if_pos hd
    rw [suspectStep, if_pos hd]
    constructor
    · simp [h.suspects, hd]
    · intro c
      rw [groupMembers_concat, hgroup, if_neg (fun hc => nomatch hc), append_nil]
      exact h.groups c
  · rw [suspectStep_small rt hd]
    constructor
    · simp [h.suspects, hd]
    · intro c
      rw [groupMembers_concat]
      cases hgroup : groupOf threshold d with
      | none =>
        rw [if_neg (fun hc => nomatch hc), append_nil]
        exact h.groups c
      | some k =>
        rw [getElem?_insert_eq]
        by_cases hk : k = c
        · subst hk
          rw [if_pos rfl, if_pos rfl]
          exact counts_add (h.groups k)
        · rw [if_neg hk, if_neg fun hc => hk (Option.some.inj hc), append_nil]
          exact h.groups c

@[simp] theorem classSuspect_retainedBytes (grp : ClassGroup s.m) :
    (classSuspect rt grp).retainedBytes = grp.retained := rfl

variable (threshold) (maxSuspects : ℤ)

/-- What a list of suspects says about the children of the super-root. -/
structure Accounts (suspects : List (LeakSuspect g.len)) : Prop where
  reaches : ∀ x ∈ suspects, threshold ≤ x.retainedBytes
  large : ∀ d ∈ s.topLevel, threshold ≤ s.retained d → objectSuspect rt d ∈ suspects ∨
    suspects.length = maxSuspects ∧ ∀ x ∈ suspects, s.retained d ≤ x.retainedBytes
  small : ∀ d ∈ s.topLevel, s.retained d < threshold →
    (∀ obj, s.vertex d = some obj → g.classObjOf obj = none) →
      ∃! c, d ∈ groupMembers threshold c s.topLevel
  groups : ∀ c, ClassGroup.Counts (groupMembers threshold c s.topLevel)
    (suspectScan rt threshold).2[c]?
  largest : ∃ cut, (suspects ++ cut).Perm (suspectCandidates rt threshold) ∧
    (cut ≠ [] → suspects.length = maxSuspects) ∧
    ∀ x ∈ suspects, ∀ y ∈ cut, y.retainedBytes ≤ x.retainedBytes
  sorted : suspects.Pairwise fun x y => y.retainedBytes ≤ x.retainedBytes
  atMost : suspects.length ≤ maxSuspects
  total : (suspects.map LeakSuspect.retainedBytes).sum ≤ s.reachableBytes

theorem foldl_best {α : Type*} {f : Option α → α → Option α} {key : α → ℤ}
    (hf : ∀ a c, f (some a) c = if key a < key c then some c else some a) (a : α) (l : List α) :
    ∃ b ∈ a :: l, l.foldl f (some a) = some b ∧ ∀ c ∈ a :: l, key c ≤ key b := by
  induction l generalizing a with
  | nil => exact ⟨a, mem_cons_self, rfl, by simp⟩
  | cons c l ih =>
    rw [foldl_cons, hf]
    split
    · obtain ⟨b, hb, hfold, hmax⟩ := ih c
      have hcb := hmax c mem_cons_self
      exact ⟨b, .tail _ hb, hfold, forall_mem_cons.mpr ⟨by omega, hmax⟩⟩
    · obtain ⟨b, hb, hfold, hmax⟩ := ih a
      have hab := hmax a mem_cons_self
      refine ⟨b, ?_, hfold, ?_⟩
      · grind
      · grind

theorem bestChild_cases (d : Fin s.m) : s.bestChild d = none ∧ s.childrenOf d = [] ∨
    ∃ b ∈ s.childrenOf d, s.bestChild d = some b ∧ ∀ c ∈ s.childrenOf d, s.retained c ≤ s.retained b := by
  rw [bestChild]
  cases s.childrenOf d with
  | nil => exact .inl ⟨rfl, rfl⟩
  | cons a l => exact .inr (foldl_best (fun _ _ => rfl) a l)

/-- The descent ends where no child retains most of its parent, if there is fuel for all the
numbers that follow. -/
theorem descend_spec (hchild : ∀ d, ∀ c ∈ s.childrenOf d, s.idom c = d ∧ d < c) (fuel : ℕ)
    (d : Fin s.m) (depth : ℕ) (hfuel : s.m ≤ d + fuel) :
    ∃ n, (s.descend fuel (d, depth)).2 = depth + n ∧ s.idom^[n] (s.descend fuel (d, depth)).1 = d ∧
      accumulationRatio ^ n * s.retained d ≤ s.retained (s.descend fuel (d, depth)).1 ∧
      ∀ c ∈ s.childrenOf (s.descend fuel (d, depth)).1,
        (s.retained c : ℚ) < accumulationRatio * s.retained (s.descend fuel (d, depth)).1 := by
  induction fuel generalizing d depth with
  | zero => omega
  | succ fuel ih =>
    rw [descend]
    obtain ⟨hbest, hnil⟩ | ⟨b, hb, hbest, hmax⟩ := s.bestChild_cases d
    · rw [hbest]
      exact ⟨0, rfl, rfl, by simp, by simp [hnil]⟩
    · rw [hbest]
      dsimp only
      obtain ⟨hidom, hlt⟩ := hchild d b hb
      split
      · rename_i hstop
        exact ⟨0, rfl, rfl, by simp, fun c hc => (Int.cast_le.mpr (hmax c hc)).trans_lt hstop⟩
      · rename_i hmost
        obtain ⟨n, hdepth, hwalk, hkept, hend⟩ := ih b (depth + 1) (by omega)
        refine ⟨n + 1, by omega, ?_, ?_, hend⟩
        · rw [Function.iterate_succ_apply', hwalk, hidom]
        · rw [pow_succ, mul_assoc]
          refine le_trans ?_ hkept
          gcongr
          · exact pow_nonneg (by norm_num [accumulationRatio]) n
          · exact not_lt.mp hmost

end RetainedSnapshot

section
variable {g : ObjectGraph} (hg : g.WellFormed)

private theorem mem_childrenOf {c d : Fin (preorderLen g)} :
    c ∈ (computeRetained g).childrenOf d ↔ c ≠ 0 ∧ preorderIdom g c = d := by
  change c ∈ slice (offsets (childPairs (preorderIdom g)))
    (items 0 (childPairs (preorderIdom g))) d ↔ _
  rw [slice_items, mem_row, mem_childPairs]

/-- The accumulation point of a number lies below it in the dominator tree, at the reported depth;
every step down keeps most of what is retained, and none that does leads further. -/
theorem accumulationPoint_spec (d : Fin (computeRetained g).m) :
    let s := computeRetained g
    let p := s.accumulationPoint d
    s.idom^[p.1.depth] p.2 = d ∧ accumulationRatio ^ p.1.depth * s.retained d ≤ s.retained p.2 ∧
      ∀ c ∈ s.childrenOf p.2, (s.retained c : ℚ) < accumulationRatio * s.retained p.2 := by
  have hchild (d c : Fin (preorderLen g)) (hc : c ∈ (computeRetained g).childrenOf d) :
      preorderIdom g c = d ∧ d < c := by
    obtain ⟨h0, rfl⟩ := mem_childrenOf.mp hc
    exact ⟨rfl, preorder_tree.idom_lt (preorderIdom_spec h0)⟩
  obtain ⟨n, hdepth, hspec⟩ := RetainedSnapshot.descend_spec hchild _ d 0 (Nat.le_add_left _ _)
  rw [zero_add] at hdepth
  subst hdepth
  exact hspec

end

namespace RetainedSnapshot
variable {g : ObjectGraph}

section
variable (hg : g.WellFormed) (rt : LeakRuntime g.len (computeRetained g).m)
include hg

end

end RetainedSnapshot
end Spectra.Heap
