import Spectra.Jvm.HistoryReads

/-! The tables as a log of the samples saved. -/
namespace Spectra.Jvm
open Library List
open Std (ExtTreeMap)

/-- The start of a process as a snapshot records it: not known, or whole seconds that are well
after the epoch. -/
def WellStarted (start : ℤ) : Prop :=
  start = zeroTime ∨ 3 * second ≤ start ∧ start / second * second = start

/-- What the samples of a snapshot have in common. -/
structure JVMSample.Sound (sm : JVMSample) : Prop where
  representable : HasUnixNano sm.sampledAt
  started : WellStarted sm.procStart
  nmtOnly : sm.nmtOnly = true → sm.nmtCommittedKiB ≠ ∅ ∧
    sm = ⟨sm.pid, sm.procStart, sm.sampledAt, 0, 0, 0, 0, sm.nmtCommittedKiB, true⟩

open JVMSample

/-- The recorded start is that of the process lifetime that started at `s`. -/
def SameLifetime (s t : ℤ) : Prop :=
  if s = zeroTime then t = zeroTime
  else t ≠ zeroTime ∧ unix s - 2 ≤ unix t ∧ unix t ≤ unix s + 2

instance (s t : ℤ) : Decidable (SameLifetime s t) :=
  inferInstanceAs (Decidable (if s = zeroTime then _ else t ≠ zeroTime ∧ _ ∧ _))

variable {start : ℤ}

theorem unix_pos (h : 3 * second ≤ start) : 3 ≤ unix start :=
  Int.le_ediv_of_mul_le (by decide) h

theorem ne_zeroTime (h : 3 * second ≤ start) : start ≠ zeroTime := by
  rintro rfl
  exact absurd h (by decide)

theorem inRange_iff {s t : ℤ} (hs : WellStarted s) (ht : WellStarted t) :
    InRange s (procStartUnix t) ↔ SameLifetime s t := by
  unfold InRange procStartRange SameLifetime procStartUnix
  rcases hs with rfl | ⟨hs, _⟩
  · rcases ht with rfl | ⟨ht, _⟩
    · simp
    · have := unix_pos ht
      simp only [if_true]
      omega
  · have hs3 := unix_pos hs
    have htol : procStartTolerance / second = 2 := by decide
    simp only [ne_zeroTime hs, if_false, htol, show unix s ≠ 0 by omega]
    rcases ht with rfl | ⟨ht, _⟩
    · omega
    · simp [ne_zeroTime ht]

theorem procStartTime_procStartUnix (h : WellStarted start) : procStartTime (procStartUnix start) = start := by
  unfold procStartTime procStartUnix
  rcases h with rfl | ⟨hlo, hwhole⟩
  · simp
  · have := unix_pos hlo
    rw [if_neg (ne_zeroTime hlo), if_neg (by omega)]
    exact hwhole

/-- The saved samples of one lifetime of a process, with GC counters or without. -/
def lifetimeSamples (saved : List JVMSample) (pid start : ℤ) (nmtOnly : Bool) : List JVMSample :=
  saved.filter fun sm => sm.pid = pid ∧ SameLifetime start sm.procStart ∧ sm.nmtOnly = nmtOnly

variable {saved : List JVMSample}

theorem mem_lifetimeSamples {pid : ℤ} {nmtOnly : Bool} {sm : JVMSample} :
    sm ∈ lifetimeSamples saved pid start nmtOnly ↔
      sm ∈ saved ∧ sm.pid = pid ∧ SameLifetime start sm.procStart ∧ sm.nmtOnly = nmtOnly := by
  simp [lifetimeSamples]

def JVMSample.nmtRow {Text : Type} (codec : Codec Text) (sm : JVMSample) : NMTRow Text :=
  ⟨procStartUnix sm.procStart, codec.encode sm.nmtCommittedKiB⟩

def sampleAt (saved : List JVMSample) (k : PairKey) : Option JVMSample :=
  saved.find? fun sm => sm.key = k

theorem sampleAt_eq_some_iff (h : (saved.map key).Nodup) (k : PairKey) (sm : JVMSample) :
    sampleAt saved k = some sm ↔ sm ∈ saved ∧ sm.key = k := by
  rw [sampleAt]
  constructor
  · intro hfind
    exact ⟨mem_of_find?_eq_some hfind, by simpa using find?_some hfind⟩
  · rintro ⟨hmem, hkey⟩
    cases hfind : saved.find? fun sm => sm.key = k with
    | none => exact absurd (decide_eq_true hkey) (find?_eq_none.mp hfind sm hmem)
    | some sm' =>
      have hkey' : sm'.key = k := by simpa using find?_some hfind
      rw [inj_on_of_nodup_map h (mem_of_find?_eq_some hfind) hmem (hkey'.trans hkey.symm)]

theorem sampleAt_append {sm : JVMSample} (hnew : sm.key ∉ saved.map key) (k : PairKey) :
    sampleAt (saved ++ [sm]) k = if sm.key = k then some sm else sampleAt saved k := by
  unfold sampleAt
  by_cases hk : sm.key = k
  · have hnone : (saved.find? fun sm => sm.key = k) = none := by
      rw [find?_eq_none]
      intro sm' hmem hkey
      exact hnew (mem_map.mpr ⟨sm', hmem, (of_decide_eq_true hkey).trans hk.symm⟩)
    simp [hnone]
  · simp [hk]

namespace HistoryDB
variable {Text : Type} {codec : Codec Text} {db : HistoryDB codec} {saved : List JVMSample}

/-- The tables hold the samples saved, each at its own process and instant. -/
structure Logs (db : HistoryDB codec) (saved : List JVMSample) : Prop where
  nodup : (saved.map JVMSample.key).Nodup
  sound : ∀ sm ∈ saved, sm.Sound
  gc : ∀ k : PairKey, db.jvmSamples[k]? =
    (sampleAt saved k).bind fun sm => if sm.nmtOnly then none else some sm.gcRow
  nmt : ∀ k : PairKey, db.nmtSamples[k]? =
    (sampleAt saved k).bind fun sm =>
      if sm.nmtCommittedKiB = ∅ then none else some (sm.nmtRow codec)

theorem logs_new : Logs (new : HistoryDB codec) [] where
  nodup := nodup_nil
  sound := fun _ h => nomatch h
  gc := fun k => by simp [new, sampleAt]
  nmt := fun k => by simp [new, sampleAt]

namespace Logs

theorem saveSample (h : db.Logs saved) {sm : JVMSample} (hsound : sm.Sound)
    (hnew : sm.key ∉ saved.map key) : (db.saveSample sm).Logs (saved ++ [sm]) where
  nodup := by
    rw [map_append]
    exact nodup_append.mpr ⟨h.nodup, nodup_singleton _, by
      rintro _ hmem _ hmem' rfl
      exact hnew (mem_singleton.mp hmem' ▸ hmem)⟩
  sound := by
    intro sm' hmem
    rcases mem_append.mp hmem with hmem | hmem
    · exact h.sound sm' hmem
    · rwa [mem_singleton.mp hmem]
  gc := by
    intro k
    have hfresh : sampleAt saved sm.key = none := by
      rw [sampleAt, find?_eq_none]
      intro sm' hmem hkey
      exact hnew (mem_map.mpr ⟨sm', hmem, of_decide_eq_true hkey⟩)
    rw [sampleAt_append hnew, jvmSamples_saveSample, h.gc k]
    by_cases hk : sm.key = k
    · subst hk
      cases honly : sm.nmtOnly <;> simp [honly, hfresh]
    · simp [hk]
  nmt := by
    intro k
    rw [sampleAt_append hnew, nmtSamples_saveSample, h.nmt k]
    split <;> rfl

theorem saveJVMSamples {samples : List JVMSample} (h : db.Logs saved) (hsound : ∀ sm ∈ samples, sm.Sound)
    (hnodup : ((saved ++ samples).map key).Nodup) : (db.saveJVMSamples samples).Logs (saved ++ samples) := by
  induction samples generalizing db saved with
  | nil => simpa [HistoryDB.saveJVMSamples] using h
  | cons sm samples ih =>
    rw [append_cons] at hnodup ⊢
    refine ih (h.saveSample (hsound sm (.head _)) ?_)
      (fun sm' hmem => hsound sm' (.tail _ hmem)) hnodup
    rw [map_append, map_append] at hnodup
    have hdisjoint := (nodup_append.mp (nodup_append.mp hnodup).1).2.2
    exact fun hmem => hdisjoint _ hmem _ (mem_singleton.mpr rfl) rfl

end Logs

end HistoryDB
end Spectra.Jvm
