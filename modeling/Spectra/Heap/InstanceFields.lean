import Spectra.Heap.InstanceRefs

/-! Field data written by the class layouts are read back by `instanceRefs`. -/
namespace Spectra.Heap
open Library List

/-- The value of a field of some type, as wide as the type. -/
structure FieldValue (w : IdSize) where
  typ : UInt8
  value : ℕ
  fits : value < 256 ^ hprofTypeSize typ w

namespace FieldValue
variable {w : IdSize}

def bytes (v : FieldValue w) : List UInt8 :=
  Reader.bigEndianBytes (hprofTypeSize v.typ w) v.value

def data (vs : List (FieldValue w)) : List UInt8 := vs.flatMap bytes

def objects (vs : List (FieldValue w)) : List ℕ :=
  (vs.filter fun v => v.typ = hprofTypeObject).map value

theorem objectFields_data (vs : List (FieldValue w)) : objectFields w (vs.map typ) (data vs) = objects vs := by
  induction vs with
  | nil => rfl
  | cons v vs ih =>
    have hlen : v.bytes.length = hprofTypeSize v.typ w := Reader.length_bigEndianBytes _ _
    have hdata : data (v :: vs) = v.bytes ++ data vs := flatMap_cons
    have hvalue : Reader.bigEndian v.bytes = v.value := Reader.bigEndian_bigEndianBytes v.fits
    rw [map_cons, objectFields, hdata, ← hlen, take_left, drop_left, ih, hvalue, objects, objects]
    by_cases ht : v.typ = hprofTypeObject
    · simp [ht]
    · simp [ht]

end FieldValue

/-- What a run of Go code has come to. -/
inductive Outcome (α : Type) where
  | returns (x : α)
  | panics
  | runs
  deriving DecidableEq

/-- The expression `b[lo:hi]`; none is a panic. -/
def sliceOf (b : List UInt8) (lo hi : ℕ) : Option (List UInt8) :=
  if lo ≤ hi ∧ hi ≤ b.length then some ((b.drop lo).take (hi - lo)) else none

def readID (w : IdSize) (b : List UInt8) : Option ℕ := (sliceOf b 0 w.bytes).map Reader.bigEndian

/-- The inner loop of `instanceRefs` with its slice expressions; none is a panic. -/
def fieldRounds (w : IdSize) (fields : List UInt8) :
    List UInt8 → ℕ → List ℕ → Option (Except (List ℕ) (ℕ × List ℕ))
  | [], offset, out => some (.ok (offset, out))
  | typ :: types, offset, out =>
    let size := hprofTypeSize typ w
    if fields.length < offset + size then some (.error out)
    else if typ = hprofTypeObject then do
      let b ← sliceOf fields offset (offset + size)
      let id ← readID w b
      fieldRounds w fields types (offset + size) (out ++ [id])
    else fieldRounds w fields types (offset + size) out

/-- The outer loop of `instanceRefs` with its counter, cut off after some rounds. -/
def chainRounds (w : IdSize) (layouts : IdMap ClassLayout) (fields : List UInt8) :
    ℕ → ℕ → ℕ → ℕ → List ℕ → Outcome (List ℕ × Bool)
  | 0, _, _, _, _ => .runs
  | rounds + 1, depth, c, offset, out =>
    if c = 0 then .returns (out, true)
    else if layouts.size < depth then .returns (out, true)
    else
      match layouts[c]? with
      | none => .returns (out, false)
      | some layout =>
        match fieldRounds w fields layout.fieldTypes offset out with
        | none => .panics
        | some (.error out) => .returns (out, true)
        | some (.ok (offset, out)) =>
          chainRounds w layouts fields rounds (depth + 1) layout.superID offset out

def instanceRefsRounds (w : IdSize) (layouts : IdMap ClassLayout) (classID : ℕ)
    (fields : List UInt8) (rounds : ℕ) : Outcome (List ℕ × Bool) :=
  chainRounds w layouts fields rounds 0 classID 0 [classID]

section
variable {w : IdSize} {layouts : IdMap ClassLayout} {fields : List UInt8}

theorem sliceOf_eq {lo n : ℕ} (h : lo + n ≤ fields.length) :
    sliceOf fields lo (lo + n) = some ((fields.drop lo).take n) := by
  rw [sliceOf, if_pos ⟨Nat.le_add_right _ _, h⟩, Nat.add_sub_cancel_left]

private theorem readID_eq {b : List UInt8} (h : b.length = w.bytes) : readID w b = some (Reader.bigEndian b) := by
  have hs := @sliceOf_eq b 0 w.bytes (by omega)
  rw [Nat.zero_add, drop_zero, take_of_length_le h.le] at hs
  rw [readID, hs]
  rfl

private theorem fieldRounds_eq (types : List UInt8) (offset : ℕ) (out : List ℕ) :
    fieldRounds w fields types offset out = some (fieldRefs w fields types offset out) := by
  induction types generalizing offset out with
  | nil => rfl
  | cons typ types ih =>
    by_cases hshort : fields.length < offset + hprofTypeSize typ w
    · rw [fieldRounds, fieldRefs, if_pos hshort, if_pos hshort]
    · rw [fieldRounds, fieldRefs, if_neg hshort, if_neg hshort]
      by_cases ht : typ = hprofTypeObject
      · have hsize : hprofTypeSize typ w = w.bytes := by rw [ht, hprofTypeSize, if_pos rfl]
        have hlen : ((fields.drop offset).take (hprofTypeSize typ w)).length = w.bytes := by
          rw [length_take, length_drop]
          omega
        rw [if_pos ht, if_pos ht, sliceOf_eq (not_lt.mp hshort), Option.bind_eq_bind,
          Option.bind_some, readID_eq hlen, Option.bind_eq_bind, Option.bind_some, ih]
      · rw [if_neg ht, if_neg ht, ih]

private theorem chainRounds_eq (room : ℕ) {depth : ℕ} (h : depth + room = layouts.size + 1)
    (c offset : ℕ) (out : List ℕ) :
    chainRounds w layouts fields (room + 1) depth c offset out =
      .returns (chainRefs w layouts fields room c offset out) := by
  induction room generalizing depth c offset out with
  | zero =>
    unfold chainRounds chainRefs
    rw [if_pos (show layouts.size < depth by omega)]
    split <;> rfl
  | succ room ih =>
    rw [chainRounds, chainRefs, if_neg (show ¬ layouts.size < depth by omega)]
    by_cases hc : c = 0
    · rw [if_pos hc, if_pos hc]
    · rw [if_neg hc, if_neg hc]
      cases layouts[c]? with
      | none => rfl
      | some layout =>
        simp only [fieldRounds_eq]
        cases fieldRefs w fields layout.fieldTypes offset out with
        | error out => rfl
        | ok r => exact ih (by omega) _ _ _

end

/-- An instance of a class whose superclasses are all known is read as it was written. On any
table and any field data the loops end, and no slice is taken outside the data. -/
theorem instanceRefs_follows_layout (w : IdSize) (layouts : IdMap ClassLayout) {classID : ℕ}
    {chain : List ClassLayout} (hchain : Chain (fun c => layouts[c]?) classID chain) (vs : List (FieldValue w))
    (hvs : vs.map FieldValue.typ = chain.flatMap ClassLayout.fieldTypes) :
    instanceRefs w layouts classID (FieldValue.data vs) =
        (classID :: FieldValue.objects vs, true) ∧
      ∀ (c : ℕ) (fields : List UInt8), ∃ rounds,
        instanceRefsRounds w layouts c fields rounds = .returns (instanceRefs w layouts c fields) := by
  constructor
  · have hknown : ∀ d ∈ Chain.classes classID chain, layouts[d]? ≠ none := by
      intro d hd hnone
      obtain ⟨l, hl⟩ := hchain.known hd
      exact absurd (hl.symm.trans hnone) (by simp)
    rw [instanceRefs_of_chain hchain (fun _ _ _ h => h) (.inr hknown), ← hvs, FieldValue.objectFields_data]
  · intro c fields
    exact ⟨layouts.size + 2, chainRounds_eq (layouts.size + 1) (by omega) c 0 [c]⟩

def nodeLayout : ClassLayout := ⟨2, [hprofTypeObject, hprofTypeInt], 16⟩

def baseLayout : ClassLayout := ⟨0, [hprofTypeObject], 8⟩

def nodeLayouts : IdMap ClassLayout :=
  (∅ : IdMap ClassLayout).insert 1 nodeLayout |>.insert 2 baseLayout

def nodeFields : List (FieldValue .four) :=
  [⟨hprofTypeObject, 7, by decide⟩, ⟨hprofTypeInt, 300, by decide⟩, ⟨hprofTypeObject, 9, by decide⟩]

private theorem nodeLayouts_chain : Chain (fun c => nodeLayouts[c]?) 1 [nodeLayout, baseLayout] := by
  have hbase : nodeLayouts[2]? = some baseLayout := by
    rw [nodeLayouts, getElem?_insert_eq, if_pos rfl]
  have hnode : nodeLayouts[1]? = some nodeLayout := by
    rw [nodeLayouts, getElem?_insert_eq, if_neg (by decide), getElem?_insert_eq, if_pos rfl]
  exact .cls (by decide) hnode (.cls (by decide) hbase .root)

theorem instanceRefs_nodeFields :
    FieldValue.data nodeFields = [0, 0, 0, 7, 0, 0, 1, 44, 0, 0, 0, 9] ∧
      instanceRefs .four nodeLayouts 1 (FieldValue.data nodeFields) = ([1, 7, 9], true) :=
  ⟨by decide, (instanceRefs_follows_layout .four nodeLayouts nodeLayouts_chain nodeFields rfl).1⟩

end Spectra.Heap
