import Spectra.Jvm.SavedSamples

/-! The window of a JVM against the samples saved. -/
namespace Spectra.Jvm
open Library List List.Pairwise Prod Call HistoryDB
open Std (ExtTreeMap)

/-- A sample as it is read back for a JVM that started at `start`. -/
def JVMSample.readBack (start : ℤ) (sm : JVMSample) : JVMSample :=
  if sm.nmtOnly then { sm with procStart := start } else sm

open JVMSample

def AmongNewest (samples : List JVMSample) (sm : JVMSample) : Prop :=
  samples.countP (fun other => sm.sampledAt < other.sampledAt) < HistoryDB.defaultSampleLimit

instance (samples : List JVMSample) (sm : JVMSample) : Decidable (AmongNewest samples sm) :=
  inferInstanceAs (Decidable (_ < _))

variable {sm : JVMSample}

namespace HistoryDB
namespace Logs
variable {Text : Type} {codec : Codec Text} {db : HistoryDB codec} {saved : List JVMSample}
  {pid start : ℤ}

variable (h : db.Logs saved)
include h

theorem sampledAt_eq (hmem : sm ∈ saved) {a : ℤ} (hkey : sm.key = toLex (pid, a)) :
    sm.pid = pid ∧ sm.sampledAt = a := by
  have heq := Prod.mk.inj (toLex.injective hkey)
  rw [(h.sound sm hmem).representable.unixNano_eq] at heq
  exact heq

theorem key_eq (hmem : sm ∈ saved) : sm.key = toLex (sm.pid, sm.sampledAt) := by
  rw [key, (h.sound sm hmem).representable.unixNano_eq]

theorem mem_gc_iff (a : ℤ) (row : GCRow) :
    db.jvmSamples[(toLex (pid, a) : PairKey)]? = some row ↔
      ∃ sm ∈ saved, sm.pid = pid ∧ sm.sampledAt = a ∧ sm.nmtOnly = false ∧ sm.gcRow = row := by
  rw [h.gc, Option.bind_eq_some_iff]
  constructor
  · rintro ⟨sm, hsm, hrow⟩
    obtain ⟨hmem, hkey⟩ := (sampleAt_eq_some_iff h.nodup _ _).mp hsm
    obtain ⟨hpid, hat⟩ := h.sampledAt_eq hmem hkey
    cases honly : sm.nmtOnly with
    | true =>
      rw [honly] at hrow
      cases hrow
    | false =>
      rw [honly] at hrow
      exact ⟨sm, hmem, hpid, hat, honly, Option.some.inj hrow⟩
  · rintro ⟨sm, hmem, rfl, rfl, honly, rfl⟩
    exact ⟨sm, (sampleAt_eq_some_iff h.nodup _ _).mpr ⟨hmem, h.key_eq hmem⟩, by simp [honly]⟩

theorem mem_lifetimeRows_iff (hstart : WellStarted start) (a : ℤ) (row : GCRow) :
    (a, row) ∈ db.lifetimeRows pid start ↔
      ∃ sm ∈ lifetimeSamples saved pid start false, sm.sampledAt = a ∧ sm.gcRow = row := by
  rw [mem_lifetimeRows, h.mem_gc_iff]
  simp only [mem_lifetimeSamples]
  constructor
  · rintro ⟨⟨sm, hmem, hpid, hat, honly, rfl⟩, hrange⟩
    exact ⟨sm, ⟨hmem, hpid, (inRange_iff hstart (h.sound sm hmem).started).mp hrange, honly⟩, hat, rfl⟩
  · rintro ⟨sm, ⟨hmem, hpid, hlife, honly⟩, hat, rfl⟩
    exact ⟨⟨sm, hmem, hpid, hat, honly, rfl⟩, (inRange_iff hstart (h.sound sm hmem).started).mpr hlife⟩

theorem mem_nmtOnlyRows_iff (hstart : WellStarted start) (a : ℤ) (row : NMTRow Text) :
    (a, row) ∈ db.nmtOnlyRows pid start ↔
      ∃ sm ∈ lifetimeSamples saved pid start true, sm.sampledAt = a ∧ sm.nmtRow codec = row := by
  rw [mem_nmtOnlyRows, h.nmt, Option.bind_eq_some_iff]
  constructor
  · rintro ⟨⟨sm, hsm, hrow⟩, hrange, hnot⟩
    obtain ⟨hmem, hkey⟩ := (sampleAt_eq_some_iff h.nodup _ _).mp hsm
    obtain ⟨hpid, hat⟩ := h.sampledAt_eq hmem hkey
    split at hrow
    · cases hrow
    · cases hrow
      have hlife := (inRange_iff hstart (h.sound sm hmem).started).mp hrange
      refine ⟨sm, mem_lifetimeSamples.mpr ⟨hmem, hpid, hlife, ?_⟩, hat, rfl⟩
      by_contra honly
      refine hnot (mem_map.mpr ⟨(a, sm.gcRow), ?_, rfl⟩)
      exact (h.mem_lifetimeRows_iff hstart a _).mpr
        ⟨sm, mem_lifetimeSamples.mpr ⟨hmem, hpid, hlife, by simpa using honly⟩, hat, rfl⟩
  · rintro ⟨sm, hsm, rfl, rfl⟩
    obtain ⟨hmem, rfl, hlife, honly⟩ := mem_lifetimeSamples.mp hsm
    have hsampleAt := (sampleAt_eq_some_iff h.nodup _ _).mpr ⟨hmem, h.key_eq hmem⟩
    refine ⟨⟨sm, hsampleAt, by simp [((h.sound sm hmem).nmtOnly honly).1]⟩,
      (inRange_iff hstart (h.sound sm hmem).started).mpr hlife, fun hin => ?_⟩
    obtain ⟨⟨a, row⟩, hrow, hat⟩ := mem_map.mp hin
    obtain ⟨other, hother, hat', _⟩ := (h.mem_lifetimeRows_iff hstart a row).mp hrow
    obtain ⟨hmem', hpid', _, honly'⟩ := mem_lifetimeSamples.mp hother
    have hkey : other.key = sm.key := by
      rw [h.key_eq hmem', h.key_eq hmem, hpid', hat']
      exact congrArg (fun t => toLex (sm.pid, t)) hat
    rw [inj_on_of_nodup_map h.nodup hmem' hmem hkey, honly] at honly'
    cases honly'

theorem categoriesAt_eq (hmem : sm ∈ saved) :
    db.categoriesAt sm.pid sm.sampledAt = sm.nmtCommittedKiB := by
  have hsampleAt := (sampleAt_eq_some_iff h.nodup _ _).mpr ⟨hmem, h.key_eq hmem⟩
  rw [categoriesAt, h.nmt, hsampleAt, Option.bind_some]
  split
  · rename_i hempty
    exact hempty.symm
  · rw [Option.bind_some, nmtRow, codec.decode_encode]
    rfl

theorem nodup_sampledAt (nmtOnly : Bool) : ((lifetimeSamples saved pid start nmtOnly).map sampledAt).Nodup := by
  rw [List.Nodup, pairwise_map]
  refine imp_of_mem ?_
    ((pairwise_map.mp h.nodup).sublist filter_sublist)
  intro x y hx hy hne heq
  obtain ⟨hmemx, hpidx, _⟩ := mem_lifetimeSamples.mp hx
  obtain ⟨hmemy, hpidy, _⟩ := mem_lifetimeSamples.mp hy
  rw [h.key_eq hmemx, h.key_eq hmemy, hpidx, hpidy, heq] at hne
  exact hne rfl

end Logs

/-- Where the rows of a table stand for samples, the newest rows stand for the newest samples. -/
theorem exists_newest_iff {R : Type} {rows : List (ℤ × R)} {samples : List JVMSample}
    {rowOf : JVMSample → R} {build : ℤ × R → JVMSample} {view : JVMSample → JVMSample}
    (hrows : (rows.map fst).Nodup) (hsamples : (samples.map sampledAt).Nodup)
    (hiff : ∀ a row, (a, row) ∈ rows ↔ ∃ sm ∈ samples, sm.sampledAt = a ∧ rowOf sm = row)
    (hbuild : ∀ sm ∈ samples, build (sm.sampledAt, rowOf sm) = view sm) (x : JVMSample) :
    (∃ e ∈ newestRows defaultSampleLimit rows, build e = x) ↔ ∃ sm ∈ samples, AmongNewest samples sm ∧ view sm = x := by
  have hperm : (rows.map fst).Perm (samples.map sampledAt) := by
    refine (perm_ext_iff_of_nodup hrows hsamples).mpr fun a => ?_
    simp only [mem_map, Prod.exists, exists_and_right, exists_eq_right, hiff]
    exact ⟨fun ⟨_, sm, hsm, hat, _⟩ => ⟨sm, hsm, hat⟩, fun ⟨sm, hsm, hat⟩ => ⟨_, sm, hsm, hat, rfl⟩⟩
  have hcount (a : ℤ) :
      rows.countP (fun row => a < row.1) = samples.countP fun sm => a < sm.sampledAt := by
    have := hperm.countP_eq fun t => decide (a < t)
    rwa [countP_map, countP_map] at this
  simp only [mem_newestRows hrows, hcount]
  constructor
  · rintro ⟨⟨a, row⟩, ⟨hmem, hlt⟩, rfl⟩
    obtain ⟨sm, hsm, rfl, rfl⟩ := (hiff a row).mp hmem
    exact ⟨sm, hsm, hlt, (hbuild sm hsm).symm⟩
  · rintro ⟨sm, hsm, hlt, rfl⟩
    exact ⟨_, ⟨(hiff _ _).mpr ⟨sm, hsm, rfl, rfl⟩, hlt⟩, hbuild sm hsm⟩

namespace Logs
variable {Text : Type} {codec : Codec Text} {db : HistoryDB codec} {saved : List JVMSample}

theorem gcSample_eq (h : db.Logs saved) {pid start : ℤ}
    (hsm : sm ∈ lifetimeSamples saved pid start false) :
    db.gcSample pid (sm.sampledAt, sm.gcRow) = sm.readBack start := by
  obtain ⟨hmem, rfl, _, honly⟩ := mem_lifetimeSamples.mp hsm
  unfold gcSample sampleOfRow gcRow readBack
  rw [honly, h.categoriesAt_eq hmem, procStartTime_procStartUnix (h.sound sm hmem).started]
  cases sm
  cases honly
  rfl

theorem onlySample_eq (h : db.Logs saved) {pid start : ℤ}
    (hsm : sm ∈ lifetimeSamples saved pid start true) :
    db.onlySample pid start (sm.sampledAt, sm.nmtRow codec) = sm.readBack start := by
  obtain ⟨hmem, rfl, _, honly⟩ := mem_lifetimeSamples.mp hsm
  unfold onlySample readBack
  rw [honly, if_pos rfl, h.categoriesAt_eq hmem, ((h.sound sm hmem).nmtOnly honly).2]

theorem mem_historyFor_iff (h : db.Logs saved) {call : Call} {j : Info} (hreads : call.ReadsOk j)
    (hstart : WellStarted (call.snap.startOf j.pid)) (x : JVMSample) :
    x ∈ db.historyFor call j ↔ ∃ nmtOnly,
      ∃ sm ∈ lifetimeSamples saved j.pid (call.snap.startOf j.pid) nmtOnly,
        AmongNewest (lifetimeSamples saved j.pid (call.snap.startOf j.pid) nmtOnly) sm ∧
          sm.readBack (call.snap.startOf j.pid) = x := by
  rw [mem_historyFor hreads, Bool.exists_bool]
  exact or_congr
    (exists_newest_iff (nodup_selectRows _ _ _) (h.nodup_sampledAt false)
      (h.mem_lifetimeRows_iff hstart) (fun sm hsm => h.gcSample_eq hsm) x)
    (exists_newest_iff (nodup_selectRows _ _ _) (h.nodup_sampledAt true)
      (h.mem_nmtOnlyRows_iff hstart) (fun sm hsm => h.onlySample_eq hsm) x)

end Logs
end HistoryDB

/-- The snapshots of a run: no two JVMs of a snapshot share a PID, no two snapshots a time, and
the starts of processes that are known are well after the epoch. -/
structure WellFormed (calls : List Call) : Prop where
  pids : ∀ call ∈ calls, (call.snap.jvms.map Info.pid).Nodup
  times : (calls.map Call.sampleTime).Nodup
  representable : ∀ call ∈ calls, HasUnixNano call.sampleTime
  starts : ∀ call ∈ calls, ∀ p ∈ call.snap.processes,
    processStart p = zeroTime ∨ 3 * second ≤ processStart p

private theorem processStart_whole (p : ProcessInfo) : processStart p = zeroTime ∨
    processStart p / second * second = processStart p := by
  unfold processStart
  dsimp only
  generalize (if p.startTime = zeroTime then p.startedAt else p.startTime) = start
  split
  · exact .inl rfl
  · exact .inr (by rw [Int.mul_ediv_cancel _ (by decide)])

private theorem wellStarted_foldl {pid : ℤ} {procs : List ProcessInfo}
    (hprocs : ∀ p ∈ procs, processStart p = zeroTime ∨ 3 * second ≤ processStart p)
    (out : ExtTreeMap ℤ ℤ) (hout : ∀ start, out[pid]? = some start → WellStarted start) :
    ∀ start, (procs.foldl recordStart out)[pid]? = some start → WellStarted start := by
  induction procs generalizing out with
  | nil => exact hout
  | cons p procs ih =>
    refine ih (fun q hq => hprocs q (.tail _ hq)) _ fun start hstart => ?_
    rw [recordStart] at hstart
    split at hstart
    · exact hout start hstart
    · rename_i hne
      rw [getElem?_insert_eq] at hstart
      split at hstart
      · cases hstart
        exact .inr ⟨(hprocs p (.head _)).resolve_left hne, (processStart_whole p).resolve_left hne⟩
      · exact hout start hstart

theorem wellStarted_startOf {snap : Snapshot} (h : ∀ p ∈ snap.processes,
    processStart p = zeroTime ∨ 3 * second ≤ processStart p) (pid : ℤ) : WellStarted (snap.startOf pid) := by
  unfold Snapshot.startOf processStartsByPID
  cases hget : (snap.processes.foldl recordStart ∅)[pid]? with
  | none => exact .inl rfl
  | some start => exact wellStarted_foldl h ∅ (fun _ hnone => by simp at hnone) start hget

namespace Call

theorem attach_eq {Text : Type} {codec : Codec Text} {call : Call} (h : call.failed = false)
    (db : HistoryDB codec) : db.attach call = db.saveJVMSamples call.current := by
  rw [HistoryDB.attach]
  cases hjvms : call.snap.jvms with
  | nil =>
    rw [current, hjvms]
    split <;> rfl
  | cons j jvms =>
    rw [if_pos (HistoryDB.readsOk_of_not_failed h (hjvms ▸ mem_cons_self)).1]

end Call

def savedBy (calls : List Call) : List JVMSample := calls.flatMap Call.current

namespace WellFormed
variable {calls : List Call}

theorem sound (h : WellFormed calls) (hsm : sm ∈ savedBy calls) : sm.Sound := by
  obtain ⟨call, hcall, hmem⟩ := mem_flatMap.mp hsm
  obtain ⟨j, hj, hsome⟩ := mem_current hmem
  obtain ⟨_, hat, hstart, honly⟩ := sampleOf_spec hsome
  exact ⟨hat ▸ h.representable call hcall, hstart ▸ wellStarted_startOf (h.starts call hcall) j.pid, honly⟩

theorem nodup_key (h : WellFormed calls) : ((savedBy calls).map key).Nodup := by
  rw [savedBy, map_flatMap, nodup_flatMap]
  constructor
  · intro call hcall
    rw [current, map_filterMap]
    refine filterMap _ ?_ (pairwise_map.mp (h.pids call hcall))
    intro j j' hne k hk k' hk'
    obtain ⟨sm, hsm, rfl⟩ := Option.map_eq_some_iff.mp hk
    obtain ⟨sm', hsm', rfl⟩ := Option.map_eq_some_iff.mp hk'
    intro heq
    have hpid := (mk.inj (toLex.injective heq)).1
    rw [(sampleOf_spec hsm).1, (sampleOf_spec hsm').1] at hpid
    exact hne hpid
  · refine imp_of_mem ?_ (pairwise_map.mp h.times)
    intro call call' hcall hcall' hne k hk hk'
    obtain ⟨sm, hsm, rfl⟩ := mem_map.mp hk
    obtain ⟨sm', hsm', heq⟩ := mem_map.mp hk'
    obtain ⟨j, _, hsome⟩ := mem_current hsm
    obtain ⟨j', _, hsome'⟩ := mem_current hsm'
    have hat := (mk.inj (toLex.injective heq)).2
    rw [(sampleOf_spec hsome).2.1, (sampleOf_spec hsome').2.1,
      (h.representable call hcall).unixNano_eq,
      (h.representable call' hcall').unixNano_eq] at hat
    exact hne hat.symm

theorem of_append {before after : List Call} (h : WellFormed (before ++ after)) : WellFormed before where
  pids := fun call hcall => h.pids call (mem_append_left _ hcall)
  times := by
    have := h.times
    rw [map_append] at this
    exact (nodup_append.mp this).1
  representable := fun call hcall => h.representable call (mem_append_left _ hcall)
  starts := fun call hcall => h.starts call (mem_append_left _ hcall)

end WellFormed

/-- A run without errors leaves its samples in the tables. -/
theorem logs_run {Text : Type} (codec : Codec Text) {calls : List Call} (h : WellFormed calls)
    (hok : ∀ call ∈ calls, call.failed = false) :
    ((new : HistoryDB codec).run calls).Logs (savedBy calls) := by
  induction calls using reverseRecOn with
  | nil => exact logs_new
  | append_singleton before call ih =>
    have hlogs := ih h.of_append fun c hc => hok c (mem_append_left _ hc)
    have hsaved : savedBy (before ++ [call]) = savedBy before ++ call.current := by
      simp [savedBy]
    rw [run, foldl_append]
    change (attach _ call).Logs _
    rw [attach_eq (hok call (by simp)), hsaved]
    refine hlogs.saveJVMSamples (fun sm hsm => h.sound ?_) (hsaved ▸ h.nodup_key)
    rw [hsaved]
    exact mem_append_right _ hsm

namespace HistoryDB
variable {Text : Type} {codec : Codec Text} {db : HistoryDB codec} {call : Call}

/-- With distinct PIDs the history of a PID is the window of its JVM. -/
theorem nmtSamplesFor_flatMap {f : Info → List JVMSample} {jvms : List Info}
    (hpids : (jvms.map Info.pid).Nodup) (hf : ∀ i ∈ jvms, ∀ x ∈ f i, x.pid = i.pid) {j : Info}
    (hj : j ∈ jvms) : nmtSamplesFor (jvms.flatMap f) j.pid = f j := by
  obtain ⟨left, right, rfl⟩ := append_of_mem hj
  have hother (is : List Info) (his : ∀ i ∈ is, i ∈ left ++ j :: right ∧ i.pid ≠ j.pid) :
      (is.flatMap f).filter (fun x => x.pid = j.pid) = [] := by
    rw [filter_eq_nil_iff]
    intro x hx
    obtain ⟨i, hi, hxi⟩ := mem_flatMap.mp hx
    simpa [hf i (his i hi).1 x hxi] using (his i hi).2
  rw [map_append, map_cons, nodup_middle, nodup_cons, mem_append] at hpids
  have hself : (f j).filter (fun x => x.pid = j.pid) = f j := by
    rw [filter_eq_self]
    intro x hx
    simpa using hf j hj x hx
  rw [nmtSamplesFor, flatMap_append, flatMap_cons, filter_append, filter_append,
    hself, hother left, hother right, nil_append, append_nil]
  · intro i hi
    exact ⟨by simp [hi], fun heq => hpids.1 (.inr (heq ▸ mem_map_of_mem hi))⟩
  · intro i hi
    exact ⟨by simp [hi], fun heq => hpids.1 (.inl (heq ▸ mem_map_of_mem hi))⟩

/-- In a run without errors the history of a JVM is in the order of its times and holds exactly
the newest samples, of each kind, saved for its PID and lifetime. -/
theorem jvm_history_keeps_lifetimes (codec : Codec Text) (calls before after : List Call)
    (call : Call) (j : Info) (h : WellFormed calls) (hok : ∀ c ∈ calls, c.failed = false)
    (hcalls : calls = before ++ call :: after) (hj : j ∈ call.snap.jvms) :
    (nmtSamplesFor (((new : HistoryDB codec).run before).jvmHistory call) j.pid).Pairwise
        (fun x y => x.sampledAt < y.sampledAt) ∧
      ∀ x, x ∈ nmtSamplesFor (((new : HistoryDB codec).run before).jvmHistory call) j.pid ↔
        ∃ nmtOnly, ∃ sm ∈ lifetimeSamples (savedBy (before ++ [call])) j.pid
            (call.snap.startOf j.pid) nmtOnly,
          AmongNewest (lifetimeSamples (savedBy (before ++ [call])) j.pid
            (call.snap.startOf j.pid) nmtOnly) sm ∧ sm.readBack (call.snap.startOf j.pid) = x := by
  subst hcalls
  rw [append_cons] at h hok
  have hcall : call ∈ before ++ [call] ++ after := by simp
  have hreads (i : Info) (hi : i ∈ call.snap.jvms) := readsOk_of_not_failed (hok call hcall) hi
  have hwindow : nmtSamplesFor (((new : HistoryDB codec).run before).jvmHistory call) j.pid =
      ((new : HistoryDB codec).run (before ++ [call])).historyFor call j := by
    rw [jvmHistory, if_pos (hreads j hj).1, nmtSamplesFor_flatMap (h.pids call hcall)
      (fun i hi x hx => pid_of_mem_historyFor (hreads i hi).2 hx) hj, run, run, foldl_append]
    rfl
  rw [hwindow]
  have hlogs := logs_run codec h.of_append fun c hc => hok c (mem_append_left _ hc)
  exact ⟨sorted_historyFor (hreads j hj).2, hlogs.mem_historyFor_iff (hreads j hj).2
    (wellStarted_startOf (h.starts call hcall) j.pid)⟩

end HistoryDB

def sampledJvm : Info := ⟨7, some ⟨0, 0, 0, 100, 50, 1, 0⟩, ∅⟩

/-- A call without errors at a time in seconds, for a JVM that started at `start` seconds. -/
def callAt (t start : ℤ) (j : Info) : Call :=
  ⟨⟨t * second, [⟨j.pid, start * second, zeroTime⟩], [j]⟩, 0, true, fun _ => true, fun _ => true, fun _ => true⟩

/-- The history of PID 7 in its second lifetime, which leaves out the sample of its first. -/
theorem jvm_history_keeps_lifetimes_reusedPid :
    let history := HistoryDB.nmtSamplesFor (((HistoryDB.new : HistoryDB Codec.plain).run
      [callAt 100 10 sampledJvm]).jvmHistory (callAt 300 200 sampledJvm)) 7
    (∃ x ∈ history, x.sampledAt = 300 * second) ∧ ∀ x ∈ history, x.sampledAt ≠ 100 * second := by
  have hwindow := jvm_history_keeps_lifetimes Codec.plain
    [callAt 100 10 sampledJvm, callAt 300 200 sampledJvm] [callAt 100 10 sampledJvm] []
    (callAt 300 200 sampledJvm) sampledJvm
    ⟨by decide +kernel, by decide +kernel, by decide +kernel, by decide +kernel⟩
    (by decide +kernel) rfl mem_cons_self
  constructor
  · exact ⟨⟨7, 200 * second, 300 * second, 50, 1, 0, 0, ∅, false⟩, (hwindow.2 _).mpr ⟨false, by decide +kernel⟩, rfl⟩
  · intro x hx
    obtain ⟨nmtOnly, sm, hsm, _, rfl⟩ := (hwindow.2 x).mp hx
    revert sm
    cases nmtOnly <;> decide +kernel

end Spectra.Jvm
