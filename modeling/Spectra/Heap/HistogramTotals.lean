import Spectra.Library.MapSum
import Spectra.Heap.HprofRecords

/-! The totals of the histogram, from the sub-records of the dump. -/
namespace Spectra.Heap
open Library ClassEntry

/-- A sum over sub-records by kind: instances by class, arrays by length and element type. -/
def SubRecord.tally (inst array : ℕ → ℤ) (prim : ℕ → UInt8 → ℤ) : SubRecord → ℤ
  | .instanceDump _ classID _ => inst classID
  | .objectArrayDump _ _ elems => array elems.length
  | .primArrayDump _ numElems elemType => prim numElems elemType
  | _ => 0

open SubRecord

def arraySize (w : IdSize) (numElems : ℕ) : ℤ := hprofArrayHeaderBytes + numElems * w.bytes

def primArraySize (w : IdSize) (numElems : ℕ) (elemType : UInt8) : ℤ :=
  hprofArrayHeaderBytes + numElems * hprofTypeSize elemType w

/-- The shallow size of an object; `instSize` is the size of the instances of a class. -/
def SubRecord.size (w : IdSize) (instSize : ℕ → ℤ) : SubRecord → ℤ :=
  SubRecord.tally instSize (arraySize w) (primArraySize w)

def SubRecord.instances : SubRecord → ℤ :=
  SubRecord.tally (fun _ => 1) (fun _ => 1) (fun _ _ => 1)

theorem sum_tally (inst array : ℕ → ℤ) (prim : ℕ → UInt8 → ℤ) (subs : List SubRecord) :
    (subs.map (tally inst array prim)).sum =
      (subs.map (tally inst 0 0)).sum + (subs.map (tally 0 array 0)).sum + (subs.map (tally 0 0 prim)).sum := by
  rw [← List.sum_map_add, ← List.sum_map_add]
  congr 2
  funext r
  cases r <;> simp [tally]

/-- The maps of the state count the sub-records read so far. -/
structure HprofState.Tallied (w : IdSize) (subs : List SubRecord) (st : HprofState) : Prop where
  instCount : ∀ f, weigh f st.instCount = (subs.map (SubRecord.tally f 0 0)).sum
  arrayCount : weigh (fun _ => 1) st.arrayCount =
    (subs.map (SubRecord.tally 0 (fun _ => 1) 0)).sum
  arrayBytes : weigh (fun _ => 1) st.arrayBytes =
    (subs.map (SubRecord.tally 0 (arraySize w) 0)).sum
  arrayKeys : ∀ k : ℕ, st.arrayCount.contains k = st.arrayBytes.contains k
  primCount : weigh (fun _ => 1) st.primCount =
    (subs.map (SubRecord.tally 0 0 fun _ _ => 1)).sum
  primBytes : weigh (fun _ => 1) st.primBytes =
    (subs.map (SubRecord.tally 0 0 (primArraySize w))).sum
  primKeys : ∀ k : UInt8, st.primCount.contains k = st.primBytes.contains k

namespace HprofState
variable {w : IdSize} {subs : List SubRecord} {st : HprofState}

theorem weigh_concat {K : Type} [Ord K] [Std.TransOrd K] {f : K → ℤ}
    {m m' : Std.ExtTreeMap K ℤ} {δ : SubRecord → ℤ} {r : SubRecord}
    (h : weigh f m = (subs.map δ).sum) (hstep : weigh f m' = weigh f m + δ r) :
    weigh f m' = ((subs ++ [r]).map δ).sum := by
  rw [hstep, h]
  simp

theorem Tallied.apply (h : st.Tallied w subs) (r : SubRecord) : (st.apply w r).Tallied w (subs ++ [r]) where
  instCount f := weigh_concat (h.instCount f) <| by
    cases r <;> simp [HprofState.apply, tally, weigh_addAt]
  arrayCount := weigh_concat h.arrayCount <| by
    cases r <;> simp [HprofState.apply, tally, weigh_addAt]
  arrayBytes := weigh_concat h.arrayBytes <| by
    cases r <;> simp [HprofState.apply, tally, weigh_addAt, arraySize]
  arrayKeys k := by
    cases r <;> simp [HprofState.apply, contains_addAt, h.arrayKeys]
  primCount := weigh_concat h.primCount <| by
    cases r <;> simp [HprofState.apply, tally, weigh_addAt]
  primBytes := weigh_concat h.primBytes <| by
    cases r <;> simp [HprofState.apply, tally, weigh_addAt, primArraySize]
  primKeys k := by
    cases r <;> simp [HprofState.apply, contains_addAt, h.primKeys]

theorem tallied_records (w : IdSize) (records : List Record) :
    (records.foldl (HprofState.applyRecord w) newHPROFState).Tallied w (records.flatMap Record.subRecords) := by
  refine HprofState.foldl_inv w (HprofState.Tallied w) ?_ ?_ records
    ⟨weigh_empty, weigh_empty _, weigh_empty _, fun _ => rfl, weigh_empty _, weigh_empty _, fun _ => rfl⟩
  · exact fun _ _ _ _ h => ⟨h.1, h.2, h.3, h.4, h.5, h.6, h.7⟩
  · exact fun _ _ r h => h.apply r

theorem foldl_total (entries : List ClassEntry) (total : ClassEntry) :
    let total' := entries.foldl (fun total e =>
      { total with instances := total.instances + e.instances, bytes := total.bytes + e.bytes })
      total
    total'.instances = total.instances + (entries.map ClassEntry.instances).sum ∧
      total'.bytes = total.bytes + (entries.map bytes).sum := by
  induction entries generalizing total with
  | nil => simp
  | cons e entries ih =>
    obtain ⟨hi, hb⟩ := ih { total with
      instances := total.instances + e.instances, bytes := total.bytes + e.bytes }
    constructor
    · rw [List.map_cons, List.sum_cons, ← add_assoc]
      exact hi
    · rw [List.map_cons, List.sum_cons, ← add_assoc]
      exact hb

theorem map_mapIdx {β : Type} (f : ClassEntry → β) (g : ℕ → ClassEntry → ClassEntry)
    (h : ∀ i e, f (g i e) = f e) (entries : List ClassEntry) : (entries.mapIdx g).map f = entries.map f := by
  apply List.ext_getElem
  · simp
  · simp [h]

variable (rt : HistogramRuntime) (st : HprofState)

theorem buildHistogram_total :
    (st.buildHistogram rt).total.instances =
        ((st.buildHistogram rt).entries.map ClassEntry.instances).sum ∧
      (st.buildHistogram rt).total.bytes = ((st.buildHistogram rt).entries.map bytes).sum := by
  obtain ⟨hi, hb⟩ := foldl_total (st.buildHistogram rt).entries ⟨0, 0, 0, "Total", ""⟩
  exact ⟨hi.trans (zero_add _), hb.trans (zero_add _)⟩

theorem total_eq :
    (st.buildHistogram rt).total.instances =
        ((st.histogramEntries rt).map ClassEntry.instances).sum ∧
      (st.buildHistogram rt).total.bytes = ((st.histogramEntries rt).map bytes).sum := by
  obtain ⟨hi, hb⟩ := buildHistogram_total rt st
  have hperm := rt.sort.perm (st.histogramEntries rt)
  constructor
  · rw [hi, buildHistogram, map_mapIdx _ _ (by intros; rfl)]
    exact (hperm.map _).sum_eq
  · rw [hb, buildHistogram, map_mapIdx _ _ (by intros; rfl)]
    exact (hperm.map _).sum_eq

variable {st} (h : st.Tallied w subs)
include h

theorem Tallied.total_instances :
    (st.buildHistogram rt).total.instances = (subs.map SubRecord.instances).sum := by
  rw [(total_eq rt st).1, SubRecord.instances, sum_tally, ← h.arrayCount, ← h.primCount,
    show (subs.map (tally (fun _ => 1) 0 0)).sum = _ from (h.instCount _).symm]
  simp [histogramEntries, Function.comp_def, sum_range, weigh, add_assoc]

theorem Tallied.total_bytes :
    (st.buildHistogram rt).total.bytes = (subs.map (size w fun c => (st.classInstSize[c]?.getD 0 : ℕ))).sum := by
  rw [(total_eq rt st).2, size, sum_tally, ← h.arrayBytes, ← h.primBytes,
    ← sum_other h.arrayKeys, ← sum_other h.primKeys, ← h.instCount]
  simp [histogramEntries, Function.comp_def, sum_range, weigh, add_assoc]

end HprofState
end Spectra.Heap
