import Spectra.Heap.Analysis
import Spectra.Heap.HistogramTotals
import Spectra.Library.LastRecord

/-! A comparison of two histograms has the difference of their totals. -/
namespace Spectra.Heap
open Library Reader List HeapRecord Histogram

namespace DefaultAnalyzer

section
variable {put : PairMap → HeapRecord → PairMap} {side : RecordPair → Option HeapRecord}

theorem foldl_put (hput : ∀ (m : PairMap) r (k : String), (put m r)[k]?.bind side =
      if r.identity = k then some r else m[k]?.bind side)
    {m : PairMap} (hm : ∀ k : String, m[k]?.bind side = none) (rs : List HeapRecord) (k : String) :
    (rs.foldl put m)[k]?.bind side = lastOf identity rs k := by
  induction rs using reverseRecOn with
  | nil => exact hm k
  | append_singleton rs r ih =>
    rw [foldl_append, foldl_cons, foldl_nil, hput, lastOf_concat, ih]

theorem foldl_keep (hput : ∀ (m : PairMap) r (k : String), (put m r)[k]?.bind side =
      m[k]?.bind side)
    (m : PairMap) (rs : List HeapRecord) (k : String) : (rs.foldl put m)[k]?.bind side = m[k]?.bind side := by
  induction rs generalizing m with
  | nil => rfl
  | cons r rs ih => rw [foldl_cons, ih, hput]

end

variable (before after : List HeapRecord) (k : String)

private theorem byID_before :
    (byID before after)[k]?.bind RecordPair.before = lastOf identity before k := by
  rw [byID, foldl_keep]
  · refine foldl_put ?_ (fun k => by simp) before k
    intro m r k
    rw [putBefore, getElem?_alter_eq]
    split <;> rfl
  · intro m r k
    rw [putAfter, getElem?_alter_eq]
    split
    · rename_i hk
      rw [hk]
      cases m[k]? <;> rfl
    · rfl

private theorem byID_after : (byID before after)[k]?.bind RecordPair.after = lastOf identity after k := by
  refine foldl_put ?_ ?_ after k
  · intro m r k
    rw [putAfter, getElem?_alter_eq]
    split <;> rfl
  · intro k
    rw [foldl_keep]
    · simp
    · intro m r k
      rw [putBefore, getElem?_alter_eq]
      split
      · rename_i hk
        rw [hk]
        cases m[k]? <;> rfl
      · rfl

theorem sum_side {m : PairMap} {side : RecordPair → Option HeapRecord} {rs : List HeapRecord}
    (h : ∀ k : String, m[k]?.bind side = lastOf identity rs k)
    (range : MapRange String RecordPair) (f : HeapRecord → ℤ) :
    ((range.order m).map fun x => (side x.2).elim 0 f).sum = ((lasts identity rs).map f).sum := by
  rw [← sum_lastOf f (range.nodup_keys m), map_map]
  · refine congrArg sum (map_congr_left ?_)
    rintro ⟨k, p⟩ hx
    have hp : m[k]?.bind side = side p := by
      rw [range.mem_order.mp hx]
      rfl
    rw [Function.comp_apply, ← h, hp]
  · intro r hr
    have hsome : m[r.identity]?.bind side ≠ none := by
      rw [h, Ne, lastOf_eq_none, not_not]
      exact mem_map_of_mem hr
    cases hp : m[r.identity]? with
    | none =>
      rw [hp] at hsome
      exact absurd rfl hsome
    | some p => exact mem_map.mpr ⟨(r.identity, p), range.mem_order.mpr hp, rfl⟩

theorem sum_sub (l : List (String × RecordPair)) (f g : String × RecordPair → ℤ) :
    (l.map fun x => f x - g x).sum = (l.map f).sum - (l.map g).sum := by
  induction l with
  | nil => rfl
  | cons x l ih =>
    rw [map_cons, map_cons, map_cons, sum_cons, sum_cons, sum_cons]
    omega

/-- What a comparison sums up to: the records that are the last of their identity. -/
theorem sum_compare {rt : CompareRuntime} {before after : HeapSnapshot} {deltas : List Delta}
    (h : Compare rt (some before) (some after) = .ok deltas) :
    (deltas.map Delta.deltaBytes).sum =
        ((lasts identity after.records).map shallowBytes).sum -
          ((lasts identity before.records).map shallowBytes).sum ∧
      (deltas.map Delta.deltaCount).sum =
        ((lasts identity after.records).map liveCount).sum - ((lasts identity before.records).map liveCount).sum := by
  cases h
  have hside (f : HeapRecord → ℤ) := And.intro
    (sum_side (byID_before before.records after.records) rt.range f)
    (sum_side (byID_after before.records after.records) rt.range f)
  constructor
  · rw [((rt.sort.perm _).map _).sum_eq, map_map, ← (hside shallowBytes).1, ← (hside shallowBytes).2, ← sum_sub]
    rfl
  · rw [((rt.sort.perm _).map _).sum_eq, map_map, ← (hside liveCount).1, ← (hside liveCount).2, ← sum_sub]
    rfl

end DefaultAnalyzer

namespace HprofState
variable {w : IdSize} {st : HprofState}

/-- Only classes and types with objects are counted. -/
structure Positive (st : HprofState) : Prop where
  inst : ∀ (k : ℕ) v, st.instCount[k]? = some v → 0 < v
  array : ∀ (k : ℕ) v, st.arrayCount[k]? = some v → 0 < v
  prim : ∀ (k : UInt8) v, st.primCount[k]? = some v → 0 < v

theorem positive_addAt {K : Type} [Ord K] [Std.TransOrd K] [Std.LawfulEqOrd K]
    [DecidableEq K] {m : Std.ExtTreeMap K ℤ} (h : ∀ (k : K) (v : ℤ), m[k]? = some v → 0 < v)
    (a k : K) (v : ℤ) (hv : (addAt m a 1)[k]? = some v) : 0 < v := by
  rw [addAt, getElem?_alter_eq] at hv
  split at hv
  · cases hv
    cases ha : m[a]? with
    | none => decide
    | some x =>
      have := h a x ha
      simp only [Option.getD_some]
      omega
  · exact h k v hv

theorem positive_subRecord (h : st.Positive) (tag : UInt8) : Ensures Positive (readHeapSubRecord w tag st) := by
  rw [readHeapSubRecord]
  split
  · exact .bind fun _ => .pure h
  · apply Ensures.ite
    · refine .bind fun _ => .bind fun _ => .bind fun _ => ?_
      refine .bind fun _ => .bind fun _ => .bind fun _ => ?_
      exact .bind fun _ => .pure ⟨h.1, h.2, h.3⟩
    apply Ensures.ite
    · refine .bind fun _ => .bind fun _ => .bind fun c => ?_
      refine .bind fun _ => .bind fun _ => ?_
      exact .pure ⟨positive_addAt h.inst c, h.array, h.prim⟩
    apply Ensures.ite
    · refine .bind fun _ => .bind fun _ => .bind fun _ => ?_
      refine .bind fun c => .bind fun _ => ?_
      exact .pure ⟨h.inst, positive_addAt h.array c, h.prim⟩
    apply Ensures.ite
    · refine .bind fun _ => .bind fun _ => .bind fun _ => ?_
      refine .bind fun t => .bind fun _ => ?_
      exact .pure ⟨h.inst, h.array, positive_addAt h.prim t⟩
    exact .fail

theorem positive_record (h : st.Positive) (tag : UInt8) (length : ℕ) :
    Ensures Positive (readHPROFRecord w tag length st) := by
  apply Ensures.ite
  · refine .bind fun _ => ?_
    dsimp only
    split
    · exact .fail
    · split
      · exact .fail
      · exact .bind fun _ => .pure ⟨h.1, h.2, h.3⟩
  apply Ensures.ite
  · refine .bind fun _ => .bind fun _ => .bind fun _ => ?_
    exact .bind fun _ => .pure ⟨h.1, h.2, h.3⟩
  apply Ensures.ite
  · exact .limited (.untilEof (fun tag _ h => positive_subRecord h tag) h)
  exact .bind fun _ => .pure h

theorem positive_readHPROF : Ensures Positive readHPROF := by
  refine .bind fun w => .untilEof ?_ ⟨by simp [newHPROFState], by simp [newHPROFState], by simp [newHPROFState]⟩
  intro tag st h
  exact .bind fun _ => .bind fun length => positive_record h tag length

theorem of_mem_entries {rt : HistogramRuntime} {e : ClassEntry} (he : e ∈ (st.buildHistogram rt).entries) :
    ∃ e' ∈ st.histogramEntries rt, e.instances = e'.instances ∧ e.moduleName = e'.moduleName := by
  obtain ⟨i, hi, rfl⟩ := mem_mapIdx.mp he
  exact ⟨_, rt.sort.mem_sort.mp (getElem_mem hi), rfl, rfl⟩

end HprofState

namespace Histogram

def DistinctNames (h : Histogram) : Prop := (h.entries.map ClassEntry.className).Nodup

/-- What `ParseHPROF` returns. -/
structure Parsed (h : Histogram) : Prop where
  instances : h.total.instances = (h.snapshot.records.map HeapRecord.liveCount).sum
  bytes : h.total.bytes = (h.snapshot.records.map HeapRecord.shallowBytes).sum
  positive : ∀ r ∈ h.snapshot.records, 0 < r.liveCount
  names : h.snapshot.records.map HeapRecord.identity = h.entries.map ClassEntry.className

theorem parsed {rt : HistogramRuntime} {bs : List UInt8} {h : Histogram}
    (hp : parseHPROF rt bs = .ok h) : h.Parsed := by
  cases hrun : readHPROF.run bs with
  | error e =>
    rw [parseHPROF, hrun] at hp
    cases hp
  | ok r =>
    obtain ⟨st, rest⟩ := r
    have hst := HprofState.positive_readHPROF bs st rest hrun
    rw [parseHPROF, hrun] at hp
    cases hp
    obtain ⟨hi, hb⟩ := HprofState.buildHistogram_total rt st
    have hentry (e : ClassEntry) (he : e ∈ (st.buildHistogram rt).entries) :
        0 < e.instances ∧ e.moduleName = "" := by
      obtain ⟨e', he', hinst, hmod⟩ := HprofState.of_mem_entries he
      rw [hinst, hmod]
      rcases mem_append.mp he' with he' | he'
      · rcases mem_append.mp he' with he' | he'
        · obtain ⟨⟨k, v⟩, hx, rfl⟩ := mem_map.mp he'
          exact ⟨hst.inst k v (rt.classes.mem_order.mp hx), rfl⟩
        · obtain ⟨⟨k, v⟩, hx, rfl⟩ := mem_map.mp he'
          exact ⟨hst.array k v (rt.classes.mem_order.mp hx), rfl⟩
      · obtain ⟨⟨k, v⟩, hx, rfl⟩ := mem_map.mp he'
        exact ⟨hst.prim k v (rt.prims.mem_order.mp hx), rfl⟩
    refine ⟨?_, ?_, ?_, ?_⟩
    · rw [hi, snapshot, map_map]
      rfl
    · rw [hb, snapshot, map_map]
      rfl
    · intro r hr
      obtain ⟨e, he, rfl⟩ := mem_map.mp hr
      exact (hentry e he).1
    · rw [snapshot, map_map]
      refine map_congr_left fun e he => ?_
      change e.Identity = e.className
      rw [ClassEntry.Identity, if_pos (hentry e he).2]

/-- The changes sum up to the difference of the totals. -/
def Conserved (before after : Histogram) (deltas : List Delta) : Prop :=
  (deltas.map Delta.deltaBytes).sum = after.total.bytes - before.total.bytes ∧
    (deltas.map Delta.deltaCount).sum = after.total.instances - before.total.instances

end Histogram

open DefaultAnalyzer in
/-- A comparison of two parsed histograms conserves bytes and instances if neither has a class
name twice. If only one of them has, instances are lost. -/
theorem compare_conserves_distinct_names {rt rt' : HistogramRuntime} {bs bs' : List UInt8}
    {before after : Histogram} (hb : parseHPROF rt bs = .ok before)
    (ha : parseHPROF rt' bs' = .ok after) (crt : CompareRuntime) :
    ∃ deltas, Compare crt (some before.snapshot) (some after.snapshot) = .ok deltas ∧
      (before.DistinctNames ∧ after.DistinctNames → before.Conserved after deltas) ∧
      (before.Conserved after deltas → (before.DistinctNames ↔ after.DistinctNames)) := by
  have hb := parsed hb
  have ha := parsed ha
  refine ⟨_, rfl, ?_, ?_⟩
  · rintro ⟨hbn, han⟩
    obtain ⟨hbytes, hcount⟩ := @sum_compare crt before.snapshot after.snapshot _ rfl
    rw [DistinctNames, ← hb.names] at hbn
    rw [DistinctNames, ← ha.names] at han
    rw [lasts_eq_self hbn, lasts_eq_self han] at hbytes hcount
    exact ⟨by rw [hbytes, ha.bytes, hb.bytes], by rw [hcount, ha.instances, hb.instances]⟩
  · rintro ⟨-, hsum⟩
    obtain ⟨-, hcount⟩ := @sum_compare crt before.snapshot after.snapshot _ rfl
    rw [hsum, ha.instances, hb.instances] at hcount
    rw [DistinctNames, DistinctNames, ← hb.names, ← ha.names]
    constructor
    · intro hbn
      by_contra han
      have hlt := sum_lasts_lt ha.positive han
      rw [lasts_eq_self hbn] at hcount
      omega
    · intro han
      by_contra hbn
      have hlt := sum_lasts_lt hb.positive hbn
      rw [lasts_eq_self han] at hcount
      omega

/-- Classes with one instance of 24 and of 16 bytes; the first is named `A`, the second by the given
id. -/
def twoClassDump (nameID : ℕ) : List UInt8 :=
  emptyDump ++ recordBytes 0x01 (bigEndianBytes 4 100 ++ [0x41]) ++
    recordBytes 0x01 (bigEndianBytes 4 101 ++ [0x42]) ++
    recordBytes 0x02 (bigEndianBytes 4 1 ++ bigEndianBytes 4 1 ++ bigEndianBytes 8 100) ++
    recordBytes 0x02 (bigEndianBytes 4 2 ++ bigEndianBytes 4 2 ++ bigEndianBytes 8 nameID) ++
    recordBytes 0x1C (classDumpBytes 1 24 [] ++ classDumpBytes 2 16 [] ++
      instanceDumpBytes 10 1 [] ++ instanceDumpBytes 11 2 [])

def emptyHistogram : Histogram := ⟨[], ⟨0, 0, 0, "Total", ""⟩, []⟩

def twoClassHistogram (name : String) : Histogram :=
  ⟨[⟨1, 1, 24, "A", ""⟩, ⟨2, 1, 16, name, ""⟩], ⟨0, 2, 40, "Total", ""⟩, []⟩

theorem parse_emptyDump : parseHPROF default emptyDump = .ok emptyHistogram := by
  decide +kernel

theorem parse_twoNames : parseHPROF default (twoClassDump 101) = .ok (twoClassHistogram "B") := by
  decide +kernel

open DefaultAnalyzer in
theorem compare_conserves_twoClassDump :
    ∃ before after deltas, parseHPROF default emptyDump = .ok before ∧
      parseHPROF default (twoClassDump 101) = .ok after ∧
      Compare default (some before.snapshot) (some after.snapshot) = .ok deltas ∧ before.Conserved after deltas := by
  obtain ⟨deltas, hok, hsum, -⟩ :=
    compare_conserves_distinct_names parse_emptyDump parse_twoNames default
  have hnames : (["A", "B"] : List String).Nodup := by decide
  exact ⟨_, _, deltas, parse_emptyDump, parse_twoNames, hok, hsum ⟨nodup_nil, hnames⟩⟩

open DefaultAnalyzer in
/-- Of two classes of one name only the smaller is compared. -/
theorem compare_loses_same_name :
    ∃ before after deltas, parseHPROF default emptyDump = .ok before ∧
      parseHPROF default (twoClassDump 100) = .ok after ∧
      Compare default (some before.snapshot) (some after.snapshot) = .ok deltas ∧
      (deltas.map Delta.deltaBytes).sum = 16 ∧
      after.total.bytes - before.total.bytes = 40 ∧
      (deltas.map Delta.deltaCount).sum = 1 ∧ after.total.instances - before.total.instances = 2 :=
  ⟨emptyHistogram, twoClassHistogram "A", [⟨"A", "A", .jvm, 0, 1, 1, 0, 16, 16⟩], parse_emptyDump,
    by decide +kernel, by decide +kernel, by decide, by decide, by decide, by decide⟩

end Spectra.Heap
