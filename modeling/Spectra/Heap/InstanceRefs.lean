import Spectra.Heap.GraphReading

/-! The references of an instance as the class layouts give them. -/
namespace Spectra.Heap
open Library List Reader

def objectFields (w : IdSize) : List UInt8 → List UInt8 → List ℕ
  | [], _ => []
  | typ :: types, data =>
    if data.length < hprofTypeSize typ w then []
    else
      (if typ = hprofTypeObject then [Reader.bigEndian (data.take (hprofTypeSize typ w))] else []) ++
        objectFields w types (data.drop (hprofTypeSize typ w))

/-- The layouts of a class and its superclasses, where all of them are known. -/
inductive Chain (L : ℕ → Option ClassLayout) : ℕ → List ClassLayout → Prop
  | root : Chain L 0 []
  | cls {c : ℕ} {l : ClassLayout} {ls : List ClassLayout} :
      c ≠ 0 → L c = some l → Chain L l.superID ls → Chain L c (l :: ls)

open Chain

def Chain.classes (c : ℕ) : List ClassLayout → List ℕ
  | [] => []
  | l :: ls => c :: Chain.classes l.superID ls

section
variable {L : ℕ → Option ClassLayout} {c : ℕ} {ls : List ClassLayout} (h : Chain L c ls)
include h

theorem Chain.unique {ls' : List ClassLayout} (h' : Chain L c ls') : ls = ls' := by
  induction h generalizing ls' with
  | root =>
    cases h' with
    | root => rfl
    | cls hne _ _ => exact absurd rfl hne
  | cls hne hl _ ih =>
    cases h' with
    | root => exact absurd rfl hne
    | cls _ hl' htail =>
      obtain rfl := Option.some.inj (hl.symm.trans hl')
      rw [ih htail]

theorem Chain.of_mem {d : ℕ} (hd : d ∈ classes c ls) :
    ∃ ls', Chain L d ls' ∧ ls'.length ≤ ls.length := by
  induction h with
  | root => cases hd
  | cls hne hl htail ih =>
    rcases mem_cons.mp hd with rfl | hd
    · exact ⟨_, .cls hne hl htail, le_rfl⟩
    · obtain ⟨ls', hls', hlen⟩ := ih hd
      exact ⟨ls', hls', hlen.trans (Nat.le_succ _)⟩

theorem Chain.nodup : (classes c ls).Nodup := by
  induction h with
  | root => exact nodup_nil
  | @cls c l ls hne hl htail ih =>
    refine nodup_cons.mpr ⟨fun hmem => ?_, ih⟩
    obtain ⟨ls', hls', hlen⟩ := htail.of_mem hmem
    rw [hls'.unique (.cls hne hl htail)] at hlen
    exact absurd hlen (by simp)

theorem Chain.known {d : ℕ} (hd : d ∈ classes c ls) : ∃ l, L d = some l := by
  induction h with
  | root => cases hd
  | cls hne hl htail ih =>
    rcases mem_cons.mp hd with rfl | hd
    · exact ⟨_, hl⟩
    · exact ih hd

end

variable {w : IdSize} {fields : List UInt8}

private theorem fieldRefs_eq (types : List UInt8) {offset : ℕ} (hoff : offset ≤ fields.length) (out : List ℕ) :
    (∃ o, o ≤ fields.length ∧ fieldRefs w fields types offset out =
        .ok (o, out ++ objectFields w types (fields.drop offset)) ∧
        ∀ more, objectFields w (types ++ more) (fields.drop offset) =
          objectFields w types (fields.drop offset) ++ objectFields w more (fields.drop o)) ∨
      (fieldRefs w fields types offset out =
        .error (out ++ objectFields w types (fields.drop offset)) ∧
        ∀ more, objectFields w (types ++ more) (fields.drop offset) = objectFields w types (fields.drop offset)) := by
  induction types generalizing offset out with
  | nil => exact .inl ⟨offset, hoff, by simp [fieldRefs, objectFields], fun _ => rfl⟩
  | cons typ types ih =>
    have hlen : (fields.drop offset).length = fields.length - offset := length_drop
    by_cases hshort : fields.length < offset + hprofTypeSize typ w
    · have hdata : (fields.drop offset).length < hprofTypeSize typ w := by omega
      have hnil (more : List UInt8) : objectFields w (typ :: more) (fields.drop offset) = [] := by
        rw [objectFields, if_pos hdata]
      refine .inr ⟨?_, fun more => ?_⟩
      · rw [fieldRefs, if_pos hshort, hnil, append_nil]
      · rw [cons_append, hnil, hnil]
    · have hdata : ¬ (fields.drop offset).length < hprofTypeSize typ w := by omega
      obtain ⟨x, hx⟩ : ∃ x, bigEndian ((fields.drop offset).take (hprofTypeSize typ w)) = x := ⟨_, rfl⟩
      have hstep (more : List UInt8) : objectFields w (typ :: more) (fields.drop offset) =
          (if typ = hprofTypeObject then [x] else []) ++
          objectFields w more (fields.drop (offset + hprofTypeSize typ w)) := by
        rw [objectFields, if_neg hdata, drop_drop, hx]
      have hout (z : List ℕ) : (if typ = hprofTypeObject then out ++ [x] else out) ++ z =
          out ++ ((if typ = hprofTypeObject then [x] else []) ++ z) := by
        split <;> simp
      have hrec : fieldRefs w fields (typ :: types) offset out =
          fieldRefs w fields types (offset + hprofTypeSize typ w)
            (if typ = hprofTypeObject then out ++ [x] else out) := by
        rw [fieldRefs, if_neg hshort, hx]
      rw [hrec]
      obtain ⟨o, ho, heq, hmore⟩ | ⟨heq, hmore⟩ := ih (not_lt.mp hshort)
          (if typ = hprofTypeObject then out ++ [x] else out)
      · refine .inl ⟨o, ho, ?_, fun more => ?_⟩
        · rw [heq, hout, hstep]
        · rw [cons_append, hstep, hmore, hstep, append_assoc]
      · refine .inr ⟨?_, fun more => ?_⟩
        · rw [heq, hout, hstep]
        · rw [cons_append, hstep, hmore, hstep]

variable {T : IdMap ClassLayout} {L : ℕ → Option ClassLayout} {c : ℕ} {ls : List ClassLayout}

/-- The walk over the superclasses, in a table that knows some of the chain: it reads all of the
data that the chain covers, unless it meets a class the table does not know. -/
theorem chainRefs_eq (h : Chain L c ls) (hsub : ∀ d ∈ classes c ls, ∀ l, T[d]? = some l → L d = some l)
    {room : ℕ} (hroom : ((classes c ls).filter fun d => T[d]?.isSome).length < room)
    {offset : ℕ} (hoff : offset ≤ fields.length) (out : List ℕ) :
    chainRefs w T fields room c offset out =
        (out ++ objectFields w (ls.flatMap ClassLayout.fieldTypes) (fields.drop offset), true) ∨
      (chainRefs w T fields room c offset out).2 = false ∧ ∃ d ∈ classes c ls, T[d]? = none := by
  induction h generalizing room offset out with
  | root =>
    unfold chainRefs
    simp [objectFields]
  | @cls c l ls hne hl htail ih =>
    obtain ⟨room, rfl⟩ : ∃ n, room = n + 1 := ⟨room - 1, by omega⟩
    rw [chainRefs, if_neg hne]
    cases hT : T[c]? with
    | none => exact .inr ⟨rfl, c, mem_cons_self, hT⟩
    | some l' =>
      obtain rfl := Option.some.inj ((hsub c (.head _) l' hT).symm.trans hl)
      have hroom' : ((classes l'.superID ls).filter fun d => T[d]?.isSome).length < room := by
        rw [classes, filter_cons_of_pos (by simp [hT]), length_cons] at hroom
        omega
      have htails := fun d hd => hsub d (.tail _ hd)
      obtain ⟨o, ho, heq, hmore⟩ | ⟨heq, hmore⟩ := fieldRefs_eq (w := w) l'.fieldTypes hoff out
      · simp only [heq]
        obtain hw | ⟨hw, d, hd, hdT⟩ := ih htails hroom' ho (out ++ objectFields w l'.fieldTypes (fields.drop offset))
        · left
          rw [hw, flatMap_cons, hmore, append_assoc]
        · exact .inr ⟨hw, d, .tail _ hd, hdT⟩
      · left
        simp only [heq]
        rw [flatMap_cons, hmore]

private theorem known_le_size {cs : List ℕ} (h : cs.Nodup) : (cs.filter fun d => T[d]?.isSome).length ≤ T.size := by
  have hsub : (cs.filter fun d => T[d]?.isSome) ⊆ T.toList.map Prod.fst := by
    intro d hd
    obtain ⟨l, hl⟩ := Option.isSome_iff_exists.mp (mem_filter.mp hd).2
    exact mem_map.mpr ⟨(d, l), Std.ExtTreeMap.mem_toList_iff_getElem?_eq_some.mpr hl, rfl⟩
  have := (subperm_of_subset (h.filter _) hsub).length_le
  rwa [length_map, Std.ExtTreeMap.length_toList] at this

theorem instanceRefs_of_chain (h : Chain L c ls) (hsub : ∀ d ∈ classes c ls, ∀ l, T[d]? = some l → L d = some l)
    (hdone : (instanceRefs w T c fields).2 = true ∨ ∀ d ∈ classes c ls, T[d]? ≠ none) :
    instanceRefs w T c fields = (c :: objectFields w (ls.flatMap ClassLayout.fieldTypes) fields, true) := by
  have hroom := Nat.lt_succ_of_le (known_le_size (T := T) h.nodup)
  obtain heq | ⟨hfalse, d, hd, hdT⟩ := chainRefs_eq (w := w) h hsub hroom
    (Nat.zero_le fields.length) [c]
  · exact heq
  · rcases hdone with hdone | hdone
    · exact absurd (hdone.symm.trans hfalse) (by decide)
    · exact absurd hdT (hdone d hd)

end Spectra.Heap
