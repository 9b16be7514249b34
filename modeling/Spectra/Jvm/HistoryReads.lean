import Spectra.Jvm.HistoryStore

/-! What the window of a JVM holds, row by row. -/
namespace Spectra.Jvm
open Library List
open Std (ExtTreeMap)

namespace Call

theorem sampleOf_spec {call : Call} {j : Info} {sm : JVMSample} (h : call.sampleOf j = some sm) :
    sm.pid = j.pid ∧ sm.sampledAt = call.sampleTime ∧ sm.procStart = call.snap.startOf j.pid ∧
      (sm.nmtOnly = true → sm.nmtCommittedKiB ≠ ∅ ∧
        sm = ⟨sm.pid, sm.procStart, sm.sampledAt, 0, 0, 0, 0, sm.nmtCommittedKiB, true⟩) := by
  obtain ⟨base, hbase, rfl⟩ := Option.map_eq_some_iff.mp h
  rcases Option.or_eq_some_iff.mp hbase with hgc | ⟨_, honly⟩
  · obtain ⟨gc, _, rfl⟩ := Option.map_eq_some_iff.mp hgc
    exact ⟨rfl, rfl, rfl, fun h => nomatch h⟩
  · rw [nmtSampleFrom] at honly
    split at honly
    · cases honly
    · rename_i hnot
      cases honly
      exact ⟨rfl, rfl, rfl, fun _ => ⟨fun hempty => hnot (.inr hempty), rfl⟩⟩

theorem mem_current {call : Call} {sm : JVMSample} (h : sm ∈ call.current) :
    ∃ j ∈ call.snap.jvms, call.sampleOf j = some sm :=
  mem_filterMap.mp h

end Call

namespace HistoryDB
variable {Text : Type} {codec : Codec Text} (db : HistoryDB codec) (pid procStart : ℤ)

/-- The categories stored for a process at an instant, if any. -/
def categoriesAt (a : ℤ) : Categories :=
  (db.nmtSamples[(toLex (pid, a) : PairKey)]?.bind fun row => codec.decode row.committedJSON).getD ∅

theorem mem_lifetimeRows (a : ℤ) (row : GCRow) : (a, row) ∈ db.lifetimeRows pid procStart ↔
    db.jvmSamples[(toLex (pid, a) : PairKey)]? = some row ∧ InRange procStart row.procStartUnix := by
  rw [lifetimeRows, mem_selectRows, decide_eq_true_eq]

theorem mem_nmtOnlyRows (a : ℤ) (row : NMTRow Text) : (a, row) ∈ db.nmtOnlyRows pid procStart ↔
    db.nmtSamples[(toLex (pid, a) : PairKey)]? = some row ∧ InRange procStart row.procStartUnix ∧
      a ∉ (db.lifetimeRows pid procStart).map Prod.fst := by
  rw [nmtOnlyRows, mem_selectRows, decide_eq_true_eq]

theorem getElem?_nmtByAt {lo hi a : ℤ} (hlo : lo ≤ a) (hhi : a ≤ hi) :
    (db.nmtByAt pid lo hi)[a]?.getD ∅ = db.categoriesAt pid a := by
  have hnodup : (((selectRows db.nmtSamples pid fun a _ => lo ≤ a ∧ a ≤ hi).filterMap fun row =>
      (codec.decode row.2.committedJSON).map (row.1, ·)).map Prod.fst).Nodup := by
    rw [List.Nodup, pairwise_map]
    refine List.Pairwise.filterMap _ ?_ (pairwise_map.mp (nodup_selectRows db.nmtSamples pid _))
    intro e e' hne x hx x' hx'
    obtain ⟨_, _, rfl⟩ := Option.map_eq_some_iff.mp hx
    obtain ⟨_, _, rfl⟩ := Option.map_eq_some_iff.mp hx'
    exact hne
  have hiff (cats : Categories) : (db.nmtByAt pid lo hi)[a]? = some cats ↔
      (db.nmtSamples[(toLex (pid, a) : PairKey)]?.bind fun row => codec.decode row.committedJSON) =
        some cats := by
    rw [nmtByAt, getElem?_ofList_iff hnodup, mem_filterMap, Option.bind_eq_some_iff]
    constructor
    · rintro ⟨⟨a', row⟩, hmem, hsome⟩
      obtain ⟨_, hdecode, heq⟩ := Option.map_eq_some_iff.mp hsome
      obtain ⟨rfl, rfl⟩ := Prod.mk.inj heq
      exact ⟨row, ((mem_selectRows _ _ _ _ _).mp hmem).1, hdecode⟩
    · rintro ⟨row, hrow, hdecode⟩
      refine ⟨(a, row), (mem_selectRows _ _ _ _ _).mpr ⟨hrow, by simp [hlo, hhi]⟩, ?_⟩
      rw [hdecode]
      rfl
  rw [categoriesAt, Option.ext hiff]

/-- `loadNMTSamples` fills in the categories stored for each instant. -/
theorem loadNMTSamples_eq {samples : List JVMSample} (hsorted : samples.Pairwise fun x y => x.sampledAt < y.sampledAt) :
    db.loadNMTSamples pid samples = samples.map fun sm =>
      { sm with nmtCommittedKiB := db.categoriesAt pid sm.sampledAt } := by
  rw [loadNMTSamples]
  cases samples with
  | nil => rfl
  | cons first rest =>
    obtain ⟨init, last, hlast⟩ := eq_nil_or_concat (first :: rest) |>.resolve_left (by simp)
    rw [concat_eq_append] at hlast
    have hget : (first :: rest).getLast? = some last := by rw [hlast, getLast?_concat]
    rw [hget]
    apply map_congr_left
    intro sm hsm
    have hlo : first.sampledAt ≤ sm.sampledAt := by
      rcases mem_cons.mp hsm with rfl | hsm
      · exact le_rfl
      · exact ((pairwise_cons.mp hsorted).1 sm hsm).le
    have hhi : sm.sampledAt ≤ last.sampledAt := by
      rw [hlast] at hsm hsorted
      rcases mem_append.mp hsm with hsm | hsm
      · exact ((pairwise_append.mp hsorted).2.2 sm hsm last (mem_singleton.mpr rfl)).le
      · rw [mem_singleton.mp hsm]
    rw [db.getElem?_nmtByAt pid hlo hhi]

/-- A row of `jvm_samples` with the categories stored for its instant. -/
def gcSample (row : ℤ × GCRow) : JVMSample :=
  { sampleOfRow pid row with nmtCommittedKiB := db.categoriesAt pid row.1 }

/-- A row of `jvm_nmt_samples` as a sample without GC counters. -/
def onlySample (row : ℤ × NMTRow Text) : JVMSample :=
  ⟨pid, procStart, row.1, 0, 0, 0, 0, db.categoriesAt pid row.1, true⟩

theorem sorted_getRecent (limit : ℕ) : (db.getRecentJVMSamples pid procStart limit).Pairwise
    fun x y => x.sampledAt < y.sampledAt := by
  rw [getRecentJVMSamples, pairwise_reverse, pairwise_map]
  exact sorted_newestRows (nodup_selectRows _ _ _) _

theorem loadNMTSamples_getRecent : db.loadNMTSamples pid (db.getRecentJVMSamples pid procStart 0) =
    ((newestRows defaultSampleLimit (db.lifetimeRows pid procStart)).map (db.gcSample pid)).reverse := by
  rw [loadNMTSamples_eq _ _ (db.sorted_getRecent pid procStart 0), getRecentJVMSamples, map_reverse, map_map]
  rfl

theorem loadNMTOnlySamples_eq : db.loadNMTOnlySamples pid procStart =
    ((newestRows defaultSampleLimit (db.nmtOnlyRows pid procStart)).map (db.onlySample pid procStart)).reverse := by
  rw [loadNMTOnlySamples, ← filterMap_eq_map]
  congr 1
  apply filterMap_congr
  rintro ⟨a, row⟩ hmem
  have hrow := ((mem_newestRows (nodup_selectRows _ _ _) _ _).mp hmem).1
  have hget := ((db.mem_nmtOnlyRows pid procStart a row).mp hrow).1
  obtain ⟨cats, hne, hdecode⟩ := db.encoded _ row hget
  simp [nmtOnlySample, onlySample, categoriesAt, hget, hdecode, hne]

variable {db pid procStart} {x : JVMSample}

theorem sampledAt_ne {y : JVMSample} (hx : x ∈ db.loadNMTSamples pid (db.getRecentJVMSamples pid procStart 0))
    (hy : y ∈ db.loadNMTOnlySamples pid procStart) : x.sampledAt ≠ y.sampledAt := by
  rw [loadNMTSamples_getRecent, mem_reverse] at hx
  rw [loadNMTOnlySamples_eq, mem_reverse] at hy
  obtain ⟨e, he, rfl⟩ := mem_map.mp hx
  obtain ⟨⟨a, row⟩, he', rfl⟩ := mem_map.mp hy
  have hmem := ((mem_newestRows (nodup_selectRows _ _ _) _ _).mp he).1
  have hmem' := ((mem_newestRows (nodup_selectRows _ _ _) _ _).mp he').1
  intro heq
  exact ((db.mem_nmtOnlyRows pid procStart a row).mp hmem').2.2 (mem_map.mpr ⟨e, hmem, heq⟩)

theorem sorted_loadNMTSamples :
    (db.loadNMTSamples pid (db.getRecentJVMSamples pid procStart 0)).Pairwise fun x y => x.sampledAt < y.sampledAt := by
  rw [loadNMTSamples_getRecent, pairwise_reverse, pairwise_map]
  exact sorted_newestRows (nodup_selectRows _ _ _) _

theorem sorted_loadNMTOnlySamples : (db.loadNMTOnlySamples pid procStart).Pairwise
    fun x y => x.sampledAt < y.sampledAt := by
  rw [loadNMTOnlySamples_eq, pairwise_reverse, pairwise_map]
  exact sorted_newestRows (nodup_selectRows _ _ _) _

theorem mem_mergeByTime {a b : List JVMSample} : x ∈ mergeByTime a b ↔ x ∈ a ∨ x ∈ b := by
  rw [mergeByTime]
  split
  · rename_i h
    simp [h]
  · rw [mem_mergeSort, mem_append]

theorem sorted_mergeByTime {a b : List JVMSample} (ha : a.Pairwise fun x y => x.sampledAt < y.sampledAt)
    (hb : b.Pairwise fun x y => x.sampledAt < y.sampledAt) (hab : ∀ x ∈ a, ∀ y ∈ b, x.sampledAt ≠ y.sampledAt) :
    (mergeByTime a b).Pairwise fun x y => x.sampledAt < y.sampledAt := by
  rw [mergeByTime]
  split
  · exact ha
  · apply strict_mergeSort JVMSample.sampledAt
    rw [List.Nodup, pairwise_map, pairwise_append]
    exact ⟨ha.imp ne_of_lt, hb.imp ne_of_lt, hab⟩

variable {call : Call} {j : Info}

section
variable (h : call.ReadsOk j)
include h

theorem historyFor_eq : db.historyFor call j = mergeByTime
    (db.loadNMTSamples j.pid (db.getRecentJVMSamples j.pid (call.snap.startOf j.pid) 0))
    (db.loadNMTOnlySamples j.pid (call.snap.startOf j.pid)) := by
  obtain ⟨hsamples, hnmt, honly⟩ := h
  simp [historyFor, hsamples, hnmt, honly]

theorem sorted_historyFor :
    (db.historyFor call j).Pairwise fun x y => x.sampledAt < y.sampledAt := by
  rw [historyFor_eq h]
  exact sorted_mergeByTime sorted_loadNMTSamples sorted_loadNMTOnlySamples
    fun x hx y hy => sampledAt_ne hx hy

theorem mem_historyFor (x : JVMSample) : x ∈ db.historyFor call j ↔
    (∃ e ∈ newestRows defaultSampleLimit (db.lifetimeRows j.pid (call.snap.startOf j.pid)),
      db.gcSample j.pid e = x) ∨
    ∃ e ∈ newestRows defaultSampleLimit (db.nmtOnlyRows j.pid (call.snap.startOf j.pid)),
      db.onlySample j.pid (call.snap.startOf j.pid) e = x := by
  rw [historyFor_eq h, mem_mergeByTime, loadNMTSamples_getRecent, loadNMTOnlySamples_eq,
    mem_reverse, mem_reverse, mem_map, mem_map]

theorem pid_of_mem_historyFor (hx : x ∈ db.historyFor call j) : x.pid = j.pid := by
  rcases (mem_historyFor h x).mp hx with ⟨_, _, rfl⟩ | ⟨_, _, rfl⟩ <;> rfl

end

theorem readsOk_of_not_failed (h : call.failed = false) (hj : j ∈ call.snap.jvms) :
    call.saved = true ∧ call.ReadsOk j := by
  have hne : call.snap.jvms ≠ [] := ne_nil_of_mem hj
  simp only [Call.failed, decide_eq_false_iff_not, not_and, not_or] at h
  obtain ⟨hsaved, hreads⟩ := h hne
  exact ⟨by simpa using hsaved, by_contra fun hr => hreads ⟨j, hj, hr⟩⟩

end HistoryDB
end Spectra.Jvm
