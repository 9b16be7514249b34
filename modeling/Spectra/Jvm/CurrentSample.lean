import Spectra.Jvm.Lifetimes

/-! When the history attached for a JVM ends with the snapshot's own sample. -/
namespace Spectra.Jvm
open Library Codec List
open Std (ExtTreeMap)

private theorem inRange_self (start : ℤ) : InRange start (procStartUnix start) := by
  unfold InRange procStartRange
  have htol : procStartTolerance / second = 2 := by decide
  split
  · omega
  · omega

namespace HistoryDB
variable {Text : Type} {codec : Codec Text} {db : HistoryDB codec} {pid start : ℤ}

/-- The store has a row for the process lifetime at the instant, in either table. -/
def Observed (db : HistoryDB codec) (pid start a : ℤ) : Prop :=
  (∃ row ∈ db.jvmSamples[(toLex (pid, a) : PairKey)]?, InRange start row.procStartUnix) ∨
    ∃ row ∈ db.nmtSamples[(toLex (pid, a) : PairKey)]?, InRange start row.procStartUnix

instance (db : HistoryDB codec) (pid start a : ℤ) : Decidable (db.Observed pid start a) :=
  inferInstanceAs (Decidable (_ ∨ _))

section
variable {call : Call} {j : Info}

theorem observed_of_mem (h : call.ReadsOk j) {x : JVMSample} (hx : x ∈ db.historyFor call j) :
    db.Observed j.pid (call.snap.startOf j.pid) x.sampledAt := by
  rcases (mem_historyFor h x).mp hx with ⟨⟨a, row⟩, he, rfl⟩ | ⟨⟨a, row⟩, he, rfl⟩
  · have hmem := ((mem_newestRows (nodup_selectRows _ _ _) _ _).mp he).1
    obtain ⟨hrow, hrange⟩ := (db.mem_lifetimeRows _ _ a row).mp hmem
    exact .inl ⟨row, hrow, hrange⟩
  · have hmem := ((mem_newestRows (nodup_selectRows _ _ _) _ _).mp he).1
    obtain ⟨hrow, hrange, _⟩ := (db.mem_nmtOnlyRows _ _ a row).mp hmem
    exact .inr ⟨row, hrow, hrange⟩

/-- The window reaches as far as any row of the lifetime. -/
theorem exists_mem_ge (h : call.ReadsOk j) {a : ℤ} (hobs : db.Observed j.pid (call.snap.startOf j.pid) a) :
    ∃ x ∈ db.historyFor call j, a ≤ x.sampledAt := by
  have hgc (row : GCRow) (hrow : (a, row) ∈ db.lifetimeRows j.pid (call.snap.startOf j.pid)) :
      ∃ x ∈ db.historyFor call j, a ≤ x.sampledAt := by
    obtain ⟨e, he, hle⟩ := exists_newestRows_ge (n := defaultSampleLimit) (by decide) hrow
      (nodup_selectRows _ _ _)
    exact ⟨_, (mem_historyFor h _).mpr (.inl ⟨e, he, rfl⟩), hle⟩
  rcases hobs with ⟨row, hrow, hrange⟩ | ⟨row, hrow, hrange⟩
  · exact hgc row ((db.mem_lifetimeRows _ _ a row).mpr ⟨hrow, hrange⟩)
  · by_cases hin : a ∈ (db.lifetimeRows j.pid (call.snap.startOf j.pid)).map Prod.fst
    · obtain ⟨⟨_, row'⟩, hrow', rfl⟩ := mem_map.mp hin
      exact hgc row' hrow'
    · obtain ⟨e, he, hle⟩ := exists_newestRows_ge (n := defaultSampleLimit) (by decide)
        ((db.mem_nmtOnlyRows _ _ a row).mpr ⟨hrow, hrange, hin⟩) (nodup_selectRows _ _ _)
      exact ⟨_, (mem_historyFor h _).mpr (.inr ⟨e, he, rfl⟩), hle⟩

/-- A window that is not empty ends at time `t` iff the last row of the lifetime is at `t`. -/
theorem ends_at_iff (h : call.ReadsOk j) {window : List JVMSample}
    (hwindow : ∀ x, x ∈ window ↔ x ∈ db.historyFor call j) (t : ℤ) :
    (window ≠ [] → (∃ x ∈ window, x.sampledAt = t) ∧ ∀ x ∈ window, x.sampledAt ≤ t) ↔
      (∀ a, ¬ db.Observed j.pid (call.snap.startOf j.pid) a) ∨
        db.Observed j.pid (call.snap.startOf j.pid) t ∧
          ∀ a, t < a → ¬ db.Observed j.pid (call.snap.startOf j.pid) a := by
  have hobs {x : JVMSample} (hx : x ∈ window) := observed_of_mem h ((hwindow x).mp hx)
  have hge {a : ℤ} (ha : db.Observed j.pid (call.snap.startOf j.pid) a) :
      ∃ x ∈ window, a ≤ x.sampledAt := by
    obtain ⟨x, hx, hle⟩ := exists_mem_ge h ha
    exact ⟨x, (hwindow x).mpr hx, hle⟩
  constructor
  · intro hends
    by_cases hnone : ∀ a, ¬ db.Observed j.pid (call.snap.startOf j.pid) a
    · exact .inl hnone
    · obtain ⟨a, ha⟩ := not_forall_not.mp hnone
      obtain ⟨x, hx, _⟩ := hge ha
      obtain ⟨⟨y, hy, rfl⟩, hle⟩ := hends (ne_nil_of_mem hx)
      refine .inr ⟨hobs hy, fun b hlt hb => ?_⟩
      obtain ⟨z, hz, hbz⟩ := hge hb
      exact absurd (hle z hz) (not_le.mpr (hlt.trans_le hbz))
  · rintro (hnone | ⟨ht, hlast⟩) hne
    · obtain ⟨x, hx⟩ := exists_mem_of_ne_nil _ hne
      exact absurd (hobs hx) (hnone _)
    · have hle (x : JVMSample) (hx : x ∈ window) : x.sampledAt ≤ t :=
        not_lt.mp fun hlt => hlast _ hlt (hobs hx)
      obtain ⟨x, hx, hxt⟩ := hge ht
      exact ⟨⟨x, hx, le_antisymm (hle x hx) hxt⟩, hle⟩

end

/-- Saving a sample adds its instant and takes none away. -/
theorem observed_saveSample (db : HistoryDB codec) {sm : JVMSample} (hcats : sm.nmtOnly = true → sm.nmtCommittedKiB ≠ ∅)
    (hstart : sm.pid = pid → sm.procStart = start) (a : ℤ) :
    (db.saveSample sm).Observed pid start a ↔ sm.key = toLex (pid, a) ∨ db.Observed pid start a := by
  unfold Observed
  rw [jvmSamples_saveSample, nmtSamples_saveSample]
  by_cases hkey : sm.key = toLex (pid, a)
  · have hpid : sm.pid = pid := (Prod.mk.inj (toLex.injective hkey)).1
    have hrange : InRange start (procStartUnix sm.procStart) := hstart hpid ▸ inRange_self _
    refine iff_of_true ?_ (.inl hkey)
    cases honly : sm.nmtOnly with
    | false => exact .inl ⟨sm.gcRow, by simp [hkey], hrange⟩
    | true =>
      refine .inr ⟨⟨procStartUnix sm.procStart, codec.encode sm.nmtCommittedKiB⟩, ?_, hrange⟩
      simp [hkey, hcats honly]
  · simp [hkey]

theorem observed_saveJVMSamples (db : HistoryDB codec) {samples : List JVMSample}
    (hcats : ∀ sm ∈ samples, sm.nmtOnly = true → sm.nmtCommittedKiB ≠ ∅)
    (hstart : ∀ sm ∈ samples, sm.pid = pid → sm.procStart = start) (a : ℤ) :
    (db.saveJVMSamples samples).Observed pid start a ↔
      (∃ sm ∈ samples, sm.key = toLex (pid, a)) ∨ db.Observed pid start a := by
  induction samples generalizing db with
  | nil => simp [saveJVMSamples]
  | cons sm samples ih =>
    refine (ih (db.saveSample sm) (fun s hs => hcats s (.tail _ hs)) fun s hs => hstart s (.tail _ hs)).trans ?_
    rw [db.observed_saveSample (hcats sm (.head _)) (hstart sm (.head _)),
      exists_mem_cons_iff, ← or_assoc, or_comm (a := ∃ s ∈ samples, _)]

end HistoryDB

/-- A JVM of the snapshot with this PID has a GC or an NMT reading. -/
def Call.HasReading (call : Call) (pid : ℤ) : Prop :=
  ∃ j ∈ call.snap.jvms, j.pid = pid ∧ (j.gc.isSome ∨ j.nmtCommittedKiB ≠ ∅)

namespace Call
variable {call : Call}

theorem isSome_sampleOf (call : Call) (j : Info) : (call.sampleOf j).isSome ↔ j.gc.isSome ∨ j.nmtCommittedKiB ≠ ∅ := by
  unfold sampleOf jvmSampleFrom nmtSampleFrom
  cases j.gc with
  | none => by_cases h : j.nmtCommittedKiB = ∅ <;> simp
  | some gc => simp

theorem exists_current_iff (hrep : HasUnixNano call.sampleTime) (pid a : ℤ) :
    (∃ sm ∈ call.current, sm.key = toLex (pid, a)) ↔ call.HasReading pid ∧ a = call.sampleTime := by
  have hkey {j : Info} {sm : JVMSample} (h : call.sampleOf j = some sm) :
      sm.key = toLex (pid, a) ↔ j.pid = pid ∧ a = call.sampleTime := by
    obtain ⟨hpid, hat, _, _⟩ := sampleOf_spec h
    rw [JVMSample.key, toLex_inj, Prod.mk.injEq, hpid, hat, hrep.unixNano_eq, eq_comm (a := a)]
  constructor
  · rintro ⟨sm, hsm, hk⟩
    obtain ⟨j, hj, hsome⟩ := mem_current hsm
    obtain ⟨hpid, hat⟩ := (hkey hsome).mp hk
    exact ⟨⟨j, hj, hpid, (isSome_sampleOf call j).mp (by simp [hsome])⟩, hat⟩
  · rintro ⟨⟨j, hj, hpid, hreading⟩, hat⟩
    obtain ⟨sm, hsome⟩ := Option.isSome_iff_exists.mp ((isSome_sampleOf call j).mpr hreading)
    exact ⟨sm, mem_filterMap.mpr ⟨j, hj, hsome⟩, (hkey hsome).mpr ⟨hpid, hat⟩⟩

end Call

namespace HistoryDB
variable {Text : Type} {codec : Codec Text} {db : HistoryDB codec} {call : Call}

theorem observed_attach (hsaved : call.saved = true) (hrep : HasUnixNano call.sampleTime)
    (pid a : ℤ) : (db.attach call).Observed pid (call.snap.startOf pid) a ↔
      call.HasReading pid ∧ a = call.sampleTime ∨ db.Observed pid (call.snap.startOf pid) a := by
  rw [attach, if_pos hsaved, observed_saveJVMSamples, Call.exists_current_iff hrep]
  · intro sm hsm honly
    obtain ⟨j, _, hsome⟩ := Call.mem_current hsm
    exact ((Call.sampleOf_spec hsome).2.2.2 honly).1
  · intro sm hsm hpid
    obtain ⟨j, _, hsome⟩ := Call.mem_current hsm
    obtain ⟨hpid', _, hstart, _⟩ := Call.sampleOf_spec hsome
    rw [hstart, ← hpid', hpid]

/-- The history of a JVM is that of its PID. -/
theorem mem_nmtSamplesFor (hok : call.failed = false) {j : Info} (hj : j ∈ call.snap.jvms)
    (x : JVMSample) : x ∈ nmtSamplesFor (db.jvmHistory call) j.pid ↔ x ∈ (db.attach call).historyFor call j := by
  have hsame {i : Info} (hpid : i.pid = j.pid) :
      (db.attach call).historyFor call i = (db.attach call).historyFor call j := by
    unfold historyFor
    rw [hpid]
  have hpid {i : Info} (hi : i ∈ call.snap.jvms) {x : JVMSample}
      (hx : x ∈ (db.attach call).historyFor call i) : x.pid = i.pid :=
    pid_of_mem_historyFor (readsOk_of_not_failed hok hi).2 hx
  rw [jvmHistory, if_pos (readsOk_of_not_failed hok hj).1, nmtSamplesFor, mem_filter,
    mem_flatMap, decide_eq_true_eq]
  constructor
  · rintro ⟨⟨i, hi, hx⟩, hxpid⟩
    rw [← hsame ((hpid hi hx).symm.trans hxpid)]
    exact hx
  · exact fun hx => ⟨⟨j, hj, hx⟩, hpid hj hx⟩

/-- The history attached for a JVM without an error, if there is any, has the sample of the
snapshot's own time and none later, iff the JVM has a reading or that sample is already stored,
and no sample of its lifetime is later. -/
theorem attached_history_current_iff (codec : Codec Text) (before : List Call) (call : Call)
    (j : Info) (hj : j ∈ call.snap.jvms) (hok : call.failed = false) (hrep : HasUnixNano call.sampleTime) :
    (nmtSamplesFor (((new : HistoryDB codec).run before).jvmHistory call) j.pid ≠ [] →
      (∃ x ∈ nmtSamplesFor (((new : HistoryDB codec).run before).jvmHistory call) j.pid,
        x.sampledAt = call.sampleTime) ∧
      ∀ x ∈ nmtSamplesFor (((new : HistoryDB codec).run before).jvmHistory call) j.pid,
        x.sampledAt ≤ call.sampleTime) ↔
    (¬ call.HasReading j.pid ∧
        ∀ a, ¬ ((new : HistoryDB codec).run before).Observed j.pid (call.snap.startOf j.pid) a) ∨
      (call.HasReading j.pid ∨ ((new : HistoryDB codec).run before).Observed j.pid
        (call.snap.startOf j.pid) call.sampleTime) ∧
      ∀ a, call.sampleTime < a → ¬ ((new : HistoryDB codec).run before).Observed j.pid (call.snap.startOf j.pid) a := by
  obtain ⟨hsaved, hreads⟩ := readsOk_of_not_failed hok hj
  rw [ends_at_iff hreads (mem_nmtSamplesFor hok hj)]
  simp only [observed_attach hsaved hrep]
  constructor
  · rintro (hnone | ⟨hnow, hlast⟩)
    · exact .inl ⟨fun hr => hnone _ (.inl ⟨hr, rfl⟩), fun a ha => hnone a (.inr ha)⟩
    · exact .inr ⟨hnow.imp And.left id, fun a hlt ha => hlast a hlt (.inr ha)⟩
  · rintro (⟨hno, hnone⟩ | ⟨hnow, hlast⟩)
    · exact .inl fun a ha => ha.elim (fun h => hno h.1) (hnone a)
    · exact .inr ⟨hnow.imp (fun h => ⟨h, trivial⟩) id, fun a hlt ha => ha.elim (fun h => hlt.ne' h.2) (hlast a hlt)⟩

/-- What a snapshot at `t` gets after one at 100 s that has a reading. -/
def attachedAt (t : ℤ) (j : Info) : List JVMSample :=
  nmtSamplesFor (((new : HistoryDB Codec.plain).run [callAt 100 10 sampledJvm]).jvmHistory (callAt t 10 j)) 7

/-- A second snapshot of a JVM that has a reading both times. -/
theorem attached_history_current_iff_sampled :
    (callAt 200 10 sampledJvm).failed = false ∧
    (attachedAt 200 sampledJvm ≠ [] →
      (∃ x ∈ attachedAt 200 sampledJvm, x.sampledAt = 200 * second) ∧
      ∀ x ∈ attachedAt 200 sampledJvm, x.sampledAt ≤ 200 * second) := by
  have hok : (callAt 200 10 sampledJvm).failed = false := by decide +kernel
  refine ⟨hok, (attached_history_current_iff plain [callAt 100 10 sampledJvm]
    (callAt 200 10 sampledJvm) sampledJvm (.head _) hok (by decide +kernel)).mpr
    (.inr ⟨.inl ⟨sampledJvm, mem_cons_self, rfl, .inl rfl⟩, fun a hlt hobs => ?_⟩)⟩
  have hold : (callAt 100 10 sampledJvm).HasReading 7 ∧ a = 100 * second ∨
      (new : HistoryDB plain).Observed 7 ((callAt 100 10 sampledJvm).snap.startOf 7) a :=
    (observed_attach rfl (by decide +kernel) 7 a).mp hobs
  rcases hold with ⟨_, rfl⟩ | hnew
  · exact absurd hlt (by decide)
  · simp [Observed, new] at hnew

/-- After a sample at 100 s, a snapshot at 200 s without a reading still gets a history, and a
replayed snapshot of 50 s gets a sample that is later than itself. -/
theorem stale_history_attached :
    ((callAt 200 10 ⟨7, none, ∅⟩).failed = false ∧ (∃ x, x ∈ attachedAt 200 ⟨7, none, ∅⟩) ∧
      ∀ x ∈ attachedAt 200 ⟨7, none, ∅⟩, x.sampledAt ≠ 200 * second) ∧
    (callAt 50 10 sampledJvm).failed = false ∧
      ∃ x ∈ attachedAt 50 sampledJvm, 50 * second < x.sampledAt := by
  have hstored (t : ℤ) (j : Info) (hpid : j.pid = 7) (hok : (callAt t 10 j).failed = false)
      (hobs : (((new : HistoryDB plain).run [callAt 100 10 sampledJvm]).attach (callAt t 10 j)).Observed
        7 ((callAt t 10 j).snap.startOf 7) (100 * second)) :
      ∃ x ∈ attachedAt t j, 100 * second ≤ x.sampledAt := by
    rw [attachedAt]
    rw [← hpid] at hobs ⊢
    obtain ⟨x, hx, hle⟩ := exists_mem_ge (readsOk_of_not_failed hok (.head _)).2 hobs
    exact ⟨x, (mem_nmtSamplesFor hok (.head _) x).mpr hx, hle⟩
  refine ⟨⟨by decide +kernel, ?_, ?_⟩, by decide +kernel, ?_⟩
  · obtain ⟨x, hx, _⟩ := hstored 200 ⟨7, none, ∅⟩ rfl (by decide +kernel) (by decide +kernel)
    exact ⟨x, hx⟩
  · intro x hx hat
    have hobs := observed_of_mem (readsOk_of_not_failed (by decide +kernel) (.head _)).2
      ((mem_nmtSamplesFor (j := ⟨7, none, ∅⟩) (by decide +kernel) (.head _) x).mp hx)
    rw [hat] at hobs
    revert hobs
    decide +kernel
  · obtain ⟨x, hx, hle⟩ := hstored 50 sampledJvm rfl (by decide +kernel) (by decide +kernel)
    exact ⟨x, hx, lt_of_lt_of_le (by decide) hle⟩

end HistoryDB
end Spectra.Jvm
