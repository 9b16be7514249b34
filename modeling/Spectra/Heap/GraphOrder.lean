import Spectra.Heap.GraphComplete

/-! The graph does not depend on the order of the sub-records. -/
namespace Spectra.Heap
open Library List Std.ExtTreeMap

def Super (T : IdMap ClassLayout) (c d : ℕ) : Prop := ∃ l, T[c]? = some l ∧ l.superID = d

def Acyclic (T : IdMap ClassLayout) : Prop := ∀ c, ¬ Relation.TransGen (Super T) c c

section
variable {w : IdSize} {fields : List UInt8} {T all : IdMap ClassLayout}

/-- The classes a walk has passed, which are distinct because there is no cycle, leave room for
the next one. -/
structure Passed (T all : IdMap ClassLayout) (visited : List ℕ) (c room : ℕ) : Prop where
  nodup : visited.Nodup
  known : ∀ v ∈ visited, T[v]? ≠ none
  above : ∀ v ∈ visited, Relation.TransGen (Super all) v c
  room : visited.length + room = T.size + 1

section
variable {visited : List ℕ} {c room : ℕ}

theorem Passed.pos (h : Passed T all visited c room) : ∃ n, room = n + 1 := by
  have hsub : visited ⊆ T.toList.map Prod.fst := by
    intro v hv
    obtain ⟨l, hl⟩ := Option.ne_none_iff_exists'.mp (h.known v hv)
    exact mem_map.mpr ⟨(v, l), mem_toList_iff_getElem?_eq_some.mpr hl, rfl⟩
  have := (subperm_of_subset h.nodup hsub).length_le
  rw [length_map, length_toList] at this
  have := h.room
  exact ⟨room - 1, by omega⟩

theorem Passed.next {l : ClassLayout} (h : Passed T all visited c (room + 1))
    (hacyclic : Acyclic all) (hT : T[c]? = some l) (hall : all[c]? = some l) :
    Passed T all (c :: visited) l.superID room where
  nodup := nodup_cons.mpr ⟨fun hmem => hacyclic c (h.above c hmem), h.nodup⟩
  known v hv := by
    rcases mem_cons.mp hv with rfl | hv
    · rw [hT]
      exact Option.some_ne_none l
    · exact h.known v hv
  above v hv := by
    have hstep : Super all c l.superID := ⟨l, hall, rfl⟩
    rcases mem_cons.mp hv with rfl | hv
    · exact .single hstep
    · exact (h.above v hv).tail hstep
  room := by
    have := h.room
    rw [length_cons]
    omega

private theorem chainRefs_mono (hacyclic : Acyclic all)
    (hsub : ∀ (c : ℕ) (l : ClassLayout), T[c]? = some l → all[c]? = some l) {room' offset : ℕ}
    {out : List ℕ} (hT : Passed T all visited c room) (hall : Passed all all visited c room')
    (hdone : (chainRefs w T fields room c offset out).2 = true) :
    chainRefs w all fields room' c offset out = chainRefs w T fields room c offset out := by
  induction room generalizing room' c offset out visited with
  | zero =>
    obtain ⟨n, hn⟩ := hT.pos
    cases hn
  | succ room ih =>
    obtain ⟨room', rfl⟩ := hall.pos
    unfold chainRefs at hdone ⊢
    by_cases hc : c = 0
    · rw [if_pos hc, if_pos hc]
    · rw [if_neg hc] at hdone ⊢
      rw [if_neg hc]
      cases hl : T[c]? with
      | none =>
        rw [hl] at hdone
        cases hdone
      | some l =>
        rw [hl] at hdone
        rw [hsub c l hl]
        dsimp only at hdone ⊢
        cases hf : fieldRefs w fields l.fieldTypes offset out with
        | error out' => rfl
        | ok r =>
          rw [hf] at hdone
          exact ih (hT.next hacyclic hl (hsub c l hl))
            (hall.next hacyclic (hsub c l hl) (hsub c l hl)) hdone

end

theorem instanceRefs_mono (hacyclic : Acyclic all)
    (hsub : ∀ (c : ℕ) (l : ClassLayout), T[c]? = some l → all[c]? = some l) {c : ℕ}
    (hdone : (instanceRefs w T c fields).2 = true) : instanceRefs w all c fields = instanceRefs w T c fields :=
  chainRefs_mono hacyclic hsub ⟨nodup_nil, by simp, by simp, by simp⟩
    ⟨nodup_nil, by simp, by simp, by simp⟩ hdone

end

/-- The object of a sub-record, from the layouts of the whole dump. -/
def SubRecord.lastNode (w : IdSize) (all : IdMap ClassLayout) : SubRecord → Option Node
  | .instanceDump objID classID fields =>
    some (resolveNode w all classID fields ⟨objID, ⟨classID, 0⟩, fields.length, []⟩)
  | r => r.node w all

open SubRecord

variable {w : IdSize}

/-- No object id is dumped twice, and so no class has two CLASS_DUMPs. -/
def DistinctIDs (subs : List SubRecord) : Prop := (subs.filterMap SubRecord.objectID).Nodup

instance (subs : List SubRecord) : Decidable (DistinctIDs subs) :=
  inferInstanceAs (Decidable (List.Nodup _))

private theorem length_classDumpsOf_le_count (c : ℕ) (subs : List SubRecord) :
    (classDumpsOf c subs).length ≤ (subs.filterMap objectID).count c := by
  induction subs with
  | nil => exact Nat.zero_le _
  | cons r subs ih =>
    cases r with
    | classDump id superID loaderID instSize refs types =>
      by_cases hid : id = c
      · simpa [classDumpsOf, objectID, hid] using ih
      · simpa [classDumpsOf, objectID, hid] using ih
    | root kind objID serial | heapDumpInfo => exact ih
    | instanceDump id d fields | objectArrayDump id d elems | primArrayDump id numElems elemType =>
      exact ih.trans (by exact count_le_count_cons)

section
variable {subs : List SubRecord} (h : DistinctIDs subs)
include h

theorem DistinctIDs.classDumps (c : ℕ) : (classDumpsOf c subs).length ≤ 1 :=
  (length_classDumpsOf_le_count c subs).trans (nodup_iff_count_le_one.mp h c)

theorem DistinctIDs.perm {subs' : List SubRecord} (hperm : subs.Perm subs') : DistinctIDs subs' :=
  (hperm.filterMap _).nodup_iff.mp h

theorem layoutsOf_perm {subs' : List SubRecord} (hperm : subs.Perm subs') : layoutsOf subs = layoutsOf subs' := by
  apply Std.ExtTreeMap.ext_getElem?
  intro c
  rw [getElem?_layoutsOf, getElem?_layoutsOf]
  have hdumps : (classDumpsOf c subs).Perm (classDumpsOf c subs') := hperm.filterMap _
  have hlen := h.classDumps c
  cases hd : classDumpsOf c subs with
  | nil =>
    rw [hd] at hdumps
    rw [hdumps.nil_eq]
  | cons l ls =>
    rw [hd] at hdumps hlen
    obtain rfl : ls = [] := length_eq_zero_iff.mp (by simpa using hlen)
    rw [singleton_perm.mp hdumps]

end

theorem layoutsOf_known {pre post : List SubRecord} (h : DistinctIDs (pre ++ post))
    (c : ℕ) (l : ClassLayout) (hl : (layoutsOf pre)[c]? = some l) : (layoutsOf (pre ++ post))[c]? = some l := by
  refine layout_of_one (le_antisymm (h.classDumps c) ?_) hl
  rw [getElem?_layoutsOf] at hl
  refine length_pos_iff_exists_mem.mpr ⟨l, ?_⟩
  rw [classDumpsOf, filterMap_append]
  exact mem_append_left _ (mem_of_getLast? hl)

/-- An instance resolved when it was read is resolved as at the end. -/
theorem finalNode_eq_lastNode {pre post : List SubRecord} {r : SubRecord}
    (hids : DistinctIDs (pre ++ r :: post)) (hacyclic : Acyclic (layoutsOf (pre ++ r :: post))) :
    r.finalNode w (layoutsOf (pre ++ r :: post)) (layoutsOf pre) = r.lastNode w (layoutsOf (pre ++ r :: post)) := by
  cases r with
  | instanceDump objID c fields =>
    cases hl : settled w (layoutsOf pre) c fields with
    | some l =>
      obtain ⟨hlayout, hdone⟩ := Option.filter_eq_some_iff.mp hl
      rw [finalNode_settled hl, lastNode, resolveNode, layoutsOf_known hids c l hlayout]
      rw [instanceRefs_mono hacyclic (layoutsOf_known hids) hdone]
    | none => rw [finalNode_deferred hl, lastNode]
  | _ => rfl

private theorem finalNodes_eq_aux {pre subs all : List SubRecord} (hall : pre ++ subs = all)
    (hids : DistinctIDs all) (hacyclic : Acyclic (layoutsOf all)) :
    finalNodes w (layoutsOf all) (layoutsOf pre) subs = subs.filterMap (lastNode w (layoutsOf all)) := by
  induction subs generalizing pre with
  | nil => rfl
  | cons r subs ih =>
    rw [finalNodes, addLayout_layoutsOf, ih (by rw [append_assoc]; exact hall),
      filterMap_cons]
    subst hall
    rw [finalNode_eq_lastNode hids hacyclic]
    cases r.lastNode w (layoutsOf (pre ++ r :: subs)) <;> rfl

theorem finalNodes_eq {subs : List SubRecord} (hids : DistinctIDs subs) (hacyclic : Acyclic (layoutsOf subs)) :
    finalNodes w (layoutsOf subs) ∅ subs = subs.filterMap (lastNode w (layoutsOf subs)) :=
  finalNodes_eq_aux (nil_append subs) hids hacyclic

/-- Which instances are left unresolved does not depend on the order either. -/
theorem countP_readPending {pre subs all : List SubRecord} (hall : pre ++ subs = all) (hids : DistinctIDs all) (n : ℕ) :
    (readPending w (layoutsOf pre) n subs).countP
        (fun inst => (layoutsOf all)[inst.classID]?.isNone) =
      subs.countP fun
        | .instanceDump _ c _ => (layoutsOf all)[c]?.isNone
        | _ => false := by
  induction subs generalizing pre n with
  | nil => rfl
  | cons r subs ih =>
    rw [readPending, countP_append, addLayout_layoutsOf, ih (by rw [append_assoc]; exact hall), countP_cons]
    rw [Nat.add_comm]
    congr 1
    cases r with
    | instanceDump objID c fields =>
      cases hl : settled w (layoutsOf pre) c fields with
      | some l =>
        subst hall
        simp only [deferred, hl, layoutsOf_known hids c l (Option.filter_eq_some_iff.mp hl).1]
        rfl
      | none =>
        simp only [deferred, hl]
        exact countP_singleton
    | _ => rfl

end Spectra.Heap
