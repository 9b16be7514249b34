import Spectra.Library.GoRuntime
import Mathlib.Data.Prod.Lex

/-! Differences of two finite maps, in the order in which `range` gives their entries. -/
namespace Spectra.Library
open List
open Std (ExtTreeMap TransOrd LawfulEqOrd)

instance lawfulEqOrd_lex {α β : Type*} [Ord α] [Ord β] [LawfulEqOrd α] [LawfulEqOrd β] :
    LawfulEqOrd (α ×ₗ β) where
  compare_self := by
    intro x
    simp [Prod.Lex.compare_def, compareLex, compareOn]
  eq_of_compare := by
    intro x y h
    simp only [Prod.Lex.compare_def, compareLex, compareOn, Ordering.then_eq_eq, LawfulEqOrd.compare_eq_iff_eq] at h
    exact congrArg toLex (Prod.ext h.1 h.2)

section

variable {K V C : Type*} [Ord K] [TransOrd K]

/-- The loop over the entries of `a`: what `b` has lost, and what both have. -/
def lossLoop (range : MapRange K V) (both : K → V → V → List C) (removed : K → V → C)
    (a b : ExtTreeMap K V) : List C :=
  (range.order a).flatMap fun e =>
    match (b[e.1]? : Option V) with
    | none => [removed e.1 e.2]
    | some vb => both e.1 e.2 vb

/-- The loop over the entries of `b`: what `a` did not have. -/
def gainLoop (range : MapRange K V) (added : K → V → C) (a b : ExtTreeMap K V) : List C :=
  (range.order b).flatMap fun e =>
    match (a[e.1]? : Option V) with
    | none => [added e.1 e.2]
    | some _ => []

def keyedDiff (rangeA rangeB : MapRange K V) (both : K → V → V → List C) (removed added : K → V → C)
    (a b : ExtTreeMap K V) : List C :=
  lossLoop rangeA both removed a b ++ gainLoop rangeB added a b

/-- The entries of `a` whose key `b` does not have. -/
def missing (range : MapRange K V) (a b : ExtTreeMap K V) : List (K × V) :=
  (range.order a).filter fun e => b[e.1]?.isNone

/-- The keys that both have, with both values. -/
def shared (range : MapRange K V) (a b : ExtTreeMap K V) : List (K × V × V) :=
  (range.order a).filterMap fun e => b[e.1]?.map fun vb => (e.1, e.2, vb)

variable (both : K → V → V → List C) (removed added : K → V → C)

theorem lossLoop_perm (range : MapRange K V) (a b : ExtTreeMap K V) :
    (lossLoop range both removed a b).Perm
      (((shared range a b).flatMap fun e => both e.1 e.2.1 e.2.2) ++
        (missing range a b).map fun e => removed e.1 e.2) := by
  rw [lossLoop, shared, missing]
  induction range.order a with
  | nil => exact .refl _
  | cons e entries ih =>
    rw [flatMap_cons, filterMap_cons, filter_cons]
    cases h : b[e.1]? with
    | none =>
      exact (ih.cons _).trans perm_middle.symm
    | some vb =>
      simp only [Option.map_some, flatMap_cons, append_assoc]
      exact ih.append_left _

theorem gainLoop_eq (range : MapRange K V) (a b : ExtTreeMap K V) :
    gainLoop range added a b = (missing range b a).map fun e => added e.1 e.2 := by
  rw [gainLoop, missing]
  induction range.order b with
  | nil => rfl
  | cons e entries ih =>
    rw [flatMap_cons, filter_cons, ih]
    cases h : a[e.1]? <;> simp

theorem missing_perm (range range' : MapRange K V) (a b : ExtTreeMap K V) :
    (missing range a b).Perm (missing range' a b) :=
  ((range.perm a).trans (range'.perm a).symm).filter _

variable [LawfulEqOrd K] {range : MapRange K V} {a b : ExtTreeMap K V}

theorem mem_shared {k : K} {v w : V} : (k, v, w) ∈ shared range a b ↔ a[k]? = some v ∧ b[k]? = some w := by
  rw [shared, mem_filterMap]
  constructor
  · intro h
    obtain ⟨e, he, heq⟩ := h
    obtain ⟨vb, hvb, heq⟩ := Option.map_eq_some_iff.mp heq
    cases heq
    exact ⟨range.mem_order.mp he, hvb⟩
  · intro h
    exact ⟨(k, v), range.mem_order.mpr h.1, by rw [h.2]; rfl⟩

theorem nodup_shared (range : MapRange K V) (a b : ExtTreeMap K V) : (shared range a b).Nodup := by
  have hkeys : ((shared range a b).map Prod.fst).Sublist ((range.order a).map Prod.fst) := by
    rw [shared]
    induction range.order a with
    | nil => exact .slnil
    | cons e entries ih =>
      rw [filterMap_cons]
      cases b[e.1]? with
      | none => exact ih.cons _
      | some vb => exact ih.cons_cons _
  exact ((range.nodup_keys a).sublist hkeys).of_map _

theorem shared_swap_perm (range range' : MapRange K V) (a b : ExtTreeMap K V) :
    (shared range b a).Perm ((shared range' a b).map fun e => (e.1, e.2.2, e.2.1)) := by
  have hinj : Function.Injective fun e : K × V × V => (e.1, e.2.2, e.2.1) := by
    intro x y h
    simp only [Prod.mk.injEq] at h
    exact Prod.ext h.1 (Prod.ext h.2.2 h.2.1)
  refine (perm_ext_iff_of_nodup (nodup_shared range b a) ((nodup_shared range' a b).map hinj)).mpr fun e => ?_
  obtain ⟨k, v, w⟩ := e
  rw [mem_shared, mem_map]
  constructor
  · intro h
    exact ⟨(k, w, v), mem_shared.mpr h.symm, rfl⟩
  · intro h
    obtain ⟨e, he, heq⟩ := h
    cases heq
    exact (mem_shared.mp he).symm

variable {both removed added}

/-- The difference the other way round has the reversed changes. -/
theorem keyedDiff_reverse_perm {inverse : C → C} (hremoved : ∀ k v, inverse (removed k v) = added k v)
    (hadded : ∀ k v, inverse (added k v) = removed k v) (hboth : ∀ k v w, (both k v w).map inverse = both k w v)
    (rangeA rangeB rangeA' rangeB' : MapRange K V) (a b : ExtTreeMap K V) :
    (keyedDiff rangeB' rangeA' both removed added b a).Perm
      ((keyedDiff rangeA rangeB both removed added a b).map inverse) := by
  have hback : (lossLoop rangeB' both removed b a).Perm
      (((shared rangeA a b).flatMap fun e => (both e.1 e.2.1 e.2.2).map inverse) ++
        (gainLoop rangeB added a b).map inverse) := by
    rw [gainLoop_eq, map_map]
    refine (lossLoop_perm both removed rangeB' b a).trans (.append ?_ ?_)
    · refine ((shared_swap_perm rangeB' rangeA a b).flatMap_right _).trans (.of_eq ?_)
      rw [flatMap_map]
      exact flatMap_congr fun e _ => (hboth _ _ _).symm
    · refine ((missing_perm rangeB' rangeB b a).map _).trans (.of_eq ?_)
      exact map_congr_left fun e _ => (hadded e.1 e.2).symm
  have hforth : ((lossLoop rangeA both removed a b).map inverse).Perm
      (((shared rangeA a b).flatMap fun e => (both e.1 e.2.1 e.2.2).map inverse) ++
        gainLoop rangeA' added b a) := by
    refine ((lossLoop_perm both removed rangeA a b).map inverse).trans ?_
    rw [map_append, map_flatMap, map_map, gainLoop_eq]
    refine .append_left _ (((missing_perm rangeA rangeA' a b).map _).trans (.of_eq ?_))
    exact map_congr_left fun e _ => hremoved e.1 e.2
  rw [keyedDiff, keyedDiff, map_append]
  refine (hback.append_right _).trans ?_
  refine .trans ?_ (hforth.symm.append_right _)
  rw [append_assoc, append_assoc]
  exact perm_append_comm.append_left _

theorem mem_lossLoop {c : C} :
    c ∈ lossLoop range both removed a b ↔
      (∃ k v, a[k]? = some v ∧ b[k]? = none ∧ c = removed k v) ∨
      ∃ k v w, a[k]? = some v ∧ b[k]? = some w ∧ c ∈ both k v w := by
  rw [lossLoop, mem_flatMap]
  constructor
  · intro h
    obtain ⟨e, he, hc⟩ := h
    have ha := range.mem_order.mp he
    cases hb : b[e.1]? with
    | none =>
      rw [hb] at hc
      exact .inl ⟨e.1, e.2, ha, hb, mem_singleton.mp hc⟩
    | some vb =>
      rw [hb] at hc
      exact .inr ⟨e.1, e.2, vb, ha, hb, hc⟩
  · intro h
    obtain ⟨k, v, ha, hb, rfl⟩ | ⟨k, v, w, ha, hb, hc⟩ := h
    · exact ⟨(k, v), range.mem_order.mpr ha, by simp [hb]⟩
    · exact ⟨(k, v), range.mem_order.mpr ha, by simpa [hb] using hc⟩

theorem mem_gainLoop {c : C} : c ∈ gainLoop range added a b ↔ ∃ k w, a[k]? = none ∧ b[k]? = some w ∧ c = added k w := by
  rw [gainLoop_eq, mem_map]
  constructor
  · intro h
    obtain ⟨e, he, rfl⟩ := h
    obtain ⟨hmem, hnone⟩ := mem_filter.mp he
    exact ⟨e.1, e.2, Option.isNone_iff_eq_none.mp hnone, range.mem_order.mp hmem, rfl⟩
  · intro h
    obtain ⟨k, w, ha, hb, rfl⟩ := h
    exact ⟨(k, w), mem_filter.mpr ⟨range.mem_order.mpr hb, by simp [ha]⟩, rfl⟩

variable {α : Type*}

/-- How the changes of a difference act on a view: `look` is what the view shows of an entry. -/
structure Acts (both : K → V → V → List C) (removed added : K → V → C) (look : Option V → α)
    (edit : C → K × α) : Prop where
  edit_removed : ∀ k v, edit (removed k v) = (k, look none)
  edit_added : ∀ k w, edit (added k w) = (k, look (some w))
  edit_both : ∀ k v w, ∀ c ∈ both k v w, edit c = (k, look (some w))
  unchanged : ∀ k v w, both k v w = [] ↔ look (some v) = look (some w)
  absent : ∀ v, look none ≠ look (some v)

variable {look : Option V → α} {edit : C → K × α}

theorem Acts.edit_eq (h : Acts both removed added look edit) {rangeA rangeB : MapRange K V}
    {c : C} (hc : c ∈ keyedDiff rangeA rangeB both removed added a b) : (edit c).2 = look b[(edit c).1]? := by
  rw [keyedDiff, mem_append, mem_lossLoop, mem_gainLoop] at hc
  obtain (⟨k, v, -, hb, rfl⟩ | ⟨k, v, w, -, hb, hc⟩) | ⟨k, w, -, hb, rfl⟩ := hc
  · rw [h.edit_removed, hb]
  · rw [h.edit_both k v w c hc, hb]
  · rw [h.edit_added, hb]

/-- A key at which the views differ has a change. -/
theorem Acts.exists_change (h : Acts both removed added look edit) (rangeA rangeB : MapRange K V)
    {k : K} (hk : look a[k]? ≠ look b[k]?) : ∃ c ∈ keyedDiff rangeA rangeB both removed added a b, (edit c).1 = k := by
  rw [keyedDiff]
  simp only [mem_append, mem_lossLoop, mem_gainLoop]
  cases ha : a[k]? with
  | none =>
    cases hb : b[k]? with
    | none => exact absurd (by rw [ha, hb]) hk
    | some w => exact ⟨added k w, .inr ⟨k, w, ha, hb, rfl⟩, by rw [h.edit_added]⟩
  | some v =>
    cases hb : b[k]? with
    | none => exact ⟨removed k v, .inl (.inl ⟨k, v, ha, hb, rfl⟩), by rw [h.edit_removed]⟩
    | some w =>
      rw [ha, hb] at hk
      obtain ⟨c, hc⟩ := exists_mem_of_ne_nil _ fun hnil => hk ((h.unchanged k v w).mp hnil)
      exact ⟨c, .inl (.inr ⟨k, v, w, ha, hb, hc⟩), by rw [h.edit_both k v w c hc]⟩

end

variable {K α : Type*} [DecidableEq K]

/-- A view with some of its values replaced, one after the other. -/
def patch (view : K → α) : List (K × α) → K → α
  | [] => view
  | e :: edits => patch (Function.update view e.1 e.2) edits

theorem patch_eq {view target : K → α} {edits : List (K × α)} (hedits : ∀ e ∈ edits, e.2 = target e.1)
    (hrest : ∀ k, (∀ e ∈ edits, e.1 ≠ k) → view k = target k) : patch view edits = target := by
  induction edits generalizing view with
  | nil => exact funext fun k => hrest k nofun
  | cons e edits ih =>
    obtain ⟨he, hedits⟩ := forall_mem_cons.mp hedits
    refine ih hedits fun k hk => ?_
    by_cases hkey : k = e.1
    · rw [hkey, Function.update_self, he]
    · rw [Function.update_of_ne hkey]
      exact hrest k (forall_mem_cons.mpr ⟨Ne.symm hkey, hk⟩)

variable {V C : Type*} [Ord K] [TransOrd K] [LawfulEqOrd K]
  {both : K → V → V → List C} {removed added : K → V → C} {look : Option V → α} {edit : C → K × α}

/-- The map that a loop fills from a list holds the last entry of each key. -/
theorem getElem?_foldl_insert {β : Type*} (key : β → K) (value : β → V) (l : List β) (k : K) :
    (l.foldl (fun m x => m.insert (key x) (value x)) (∅ : ExtTreeMap K V))[k]? =
      (l.reverse.find? fun x => key x = k).map value := by
  induction l using reverseRecOn with
  | nil => rfl
  | append_singleton l x ih =>
    rw [foldl_append, foldl_cons, foldl_nil, getElem?_insert_eq, ih, reverse_concat, find?_cons]
    by_cases hx : key x = k <;> simp [hx]

variable (h : Acts both removed added look edit) (rangeA rangeB : MapRange K V) (a b : ExtTreeMap K V)
include h

theorem Acts.patch_keyedDiff :
    patch (fun k : K => look a[k]?) ((keyedDiff rangeA rangeB both removed added a b).map edit) =
      fun k : K => look b[k]? := by
  refine patch_eq (fun e he => ?_) fun k hk => ?_
  · obtain ⟨c, hc, rfl⟩ := mem_map.mp he
    exact h.edit_eq hc
  · by_contra hne
    obtain ⟨c, hc, hkey⟩ := h.exists_change rangeA rangeB hne
    exact hk (edit c) (mem_map_of_mem hc) hkey

/-- There are no changes exactly if the views are equal. -/
theorem Acts.keyedDiff_eq_nil_iff :
    keyedDiff rangeA rangeB both removed added a b = [] ↔ (fun k : K => look a[k]?) = fun k : K => look b[k]? := by
  constructor
  · intro hnil
    have hpatch := h.patch_keyedDiff rangeA rangeB a b
    rwa [hnil] at hpatch
  · intro heq
    refine eq_nil_iff_forall_not_mem.mpr fun c hc => ?_
    rw [keyedDiff, mem_append, mem_lossLoop, mem_gainLoop] at hc
    obtain (⟨k, v, ha, hb, -⟩ | ⟨k, v, w, ha, hb, hc⟩) | ⟨k, w, ha, hb, -⟩ := hc
    · have hk := congrFun heq k
      rw [ha, hb] at hk
      exact h.absent v hk.symm
    · have hk := congrFun heq k
      rw [ha, hb] at hk
      rw [(h.unchanged k v w).mpr hk] at hc
      exact nomatch hc
    · have hk := congrFun heq k
      rw [ha, hb] at hk
      exact h.absent w hk

end Spectra.Library
