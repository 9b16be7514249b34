import Spectra.Library.GoTime
import Spectra.Library.Rows

/-! The history of JVM samples. -/
namespace Spectra.Jvm
open Library
open Std (ExtTreeMap)

def unix (t : ℤ) : ℤ := t / second

abbrev Categories := ExtTreeMap String ℤ

structure GCStats where
  s0c : ℚ
  s1c : ℚ
  ec : ℚ
  oc : ℚ
  ou : ℚ
  fgc : ℤ
  fgct : ℚ

structure Info where
  pid : ℤ
  gc : Option GCStats
  nmtCommittedKiB : Categories

structure ProcessInfo where
  pid : ℤ
  startTime : ℤ
  startedAt : ℤ

structure Snapshot where
  takenAt : ℤ
  processes : List ProcessInfo
  jvms : List Info

structure JVMSample where
  pid : ℤ
  procStart : ℤ
  sampledAt : ℤ
  oldGenPct : ℚ
  fgc : ℤ
  fgct : ℚ
  heapMB : ℤ
  nmtCommittedKiB : Categories
  nmtOnly : Bool
  deriving DecidableEq

/-- The conversion `int64(x)`, which drops the fraction. -/
def truncate (x : ℚ) : ℤ := x.num.tdiv x.den

def jvmSampleFrom (j : Info) (now : ℤ) : Option JVMSample :=
  j.gc.map fun gc => {
    pid := j.pid
    procStart := zeroTime
    sampledAt := now
    oldGenPct := if (0 : ℚ) < gc.oc then gc.ou * 100 / gc.oc else 0
    fgc := gc.fgc
    fgct := gc.fgct
    heapMB := (truncate (gc.oc + gc.ec + gc.s0c + gc.s1c)).tdiv 1024
    nmtCommittedKiB := j.nmtCommittedKiB
    nmtOnly := false }

def nmtSampleFrom (j : Info) (now : ℤ) : Option JVMSample :=
  if j.gc.isSome ∨ j.nmtCommittedKiB = ∅ then none
  else some ⟨j.pid, zeroTime, now, 0, 0, 0, 0, j.nmtCommittedKiB, true⟩

def processStart (p : ProcessInfo) : ℤ :=
  let start := if p.startTime = zeroTime then p.startedAt else p.startTime
  if start = zeroTime then zeroTime else start / second * second

def recordStart (out : ExtTreeMap ℤ ℤ) (p : ProcessInfo) : ExtTreeMap ℤ ℤ :=
  if processStart p = zeroTime then out else out.insert p.pid (processStart p)

def processStartsByPID (procs : List ProcessInfo) : ExtTreeMap ℤ ℤ := procs.foldl recordStart ∅

/-- `starts[pid]`, the zero time when the start is not known. -/
def Snapshot.startOf (snap : Snapshot) (pid : ℤ) : ℤ :=
  (processStartsByPID snap.processes)[pid]?.getD zeroTime

def procStartUnix (t : ℤ) : ℤ := if t = zeroTime then 0 else unix t

def procStartTime (u : ℤ) : ℤ := if u = 0 then zeroTime else u * second

def procStartTolerance : ℤ := 2 * second

def procStartRange (t : ℤ) : ℤ × ℤ :=
  if procStartUnix t = 0 then (0, 0)
  else (procStartUnix t - procStartTolerance / second, procStartUnix t + procStartTolerance / second)

/-- `proc_start_unix BETWEEN ? AND ?`. -/
def InRange (start u : ℤ) : Prop := (procStartRange start).1 ≤ u ∧ u ≤ (procStartRange start).2

instance (start u : ℤ) : Decidable (InRange start u) := inferInstanceAs (Decidable (_ ∧ _))

/-- The JSON text of a category map, which decodes to the map it was made from. -/
structure Codec (Text : Type) where
  encode : Categories → Text
  decode : Text → Option Categories
  decode_encode : ∀ cats, decode (encode cats) = some cats

def Codec.plain : Codec Categories := ⟨id, some, fun _ => rfl⟩

structure GCRow where
  procStartUnix : ℤ
  oldGenPct : ℚ
  fgc : ℤ
  fgct : ℚ
  heapMB : ℤ

structure NMTRow (Text : Type) where
  procStartUnix : ℤ
  committedJSON : Text

/-- The tables `jvm_samples` and `jvm_nmt_samples`. Only category maps that are not empty are
stored. -/
structure HistoryDB {Text : Type} (codec : Codec Text) where
  jvmSamples : ExtTreeMap PairKey GCRow
  nmtSamples : ExtTreeMap PairKey (NMTRow Text)
  encoded : ∀ (k : PairKey) (row : NMTRow Text), nmtSamples[k]? = some row →
    ∃ cats, cats ≠ ∅ ∧ codec.decode row.committedJSON = some cats

def JVMSample.key (sm : JVMSample) : PairKey := toLex (sm.pid, unixNano sm.sampledAt)

def JVMSample.gcRow (sm : JVMSample) : GCRow :=
  ⟨procStartUnix sm.procStart, sm.oldGenPct, sm.fgc, sm.fgct, sm.heapMB⟩

namespace HistoryDB
variable {Text : Type} {codec : Codec Text}

def new : HistoryDB codec := ⟨∅, ∅, by simp⟩

/-- The upsert into `jvm_samples`. -/
def insertGC (sm : JVMSample) (db : HistoryDB codec) : HistoryDB codec :=
  { db with jvmSamples := db.jvmSamples.insert sm.key sm.gcRow }

/-- The upsert into `jvm_nmt_samples`, or the delete when the sample has no categories. -/
def saveNMTSample (sm : JVMSample) (db : HistoryDB codec) : HistoryDB codec where
  jvmSamples := db.jvmSamples
  nmtSamples :=
    if sm.nmtCommittedKiB = ∅ then db.nmtSamples.erase sm.key
    else db.nmtSamples.insert sm.key
      ⟨procStartUnix sm.procStart, codec.encode sm.nmtCommittedKiB⟩
  encoded := by
    intro k row hrow
    split at hrow
    · rw [getElem?_erase_eq] at hrow
      split at hrow
      · cases hrow
      · exact db.encoded k row hrow
    · rename_i hne
      rw [getElem?_insert_eq] at hrow
      split at hrow
      · obtain rfl := Option.some.inj hrow
        exact ⟨_, hne, codec.decode_encode _⟩
      · exact db.encoded k row hrow

/-- One round of `saveJVMSampleRows`. -/
def saveSample (db : HistoryDB codec) (sm : JVMSample) : HistoryDB codec :=
  (if sm.nmtOnly then db else db.insertGC sm).saveNMTSample sm

variable (db : HistoryDB codec) (sm : JVMSample) (k : PairKey)

theorem jvmSamples_saveSample :
    (db.saveSample sm).jvmSamples[k]? =
      if sm.nmtOnly = false ∧ sm.key = k then some sm.gcRow else db.jvmSamples[k]? := by
  unfold saveSample saveNMTSample insertGC
  cases sm.nmtOnly <;> simp [getElem?_insert_eq]

theorem nmtSamples_saveSample :
    (db.saveSample sm).nmtSamples[k]? =
      if sm.key = k then
        if sm.nmtCommittedKiB = ∅ then none
        else some ⟨procStartUnix sm.procStart, codec.encode sm.nmtCommittedKiB⟩ else db.nmtSamples[k]? := by
  have hsame : (if sm.nmtOnly then db else db.insertGC sm).nmtSamples = db.nmtSamples := by
    split <;> rfl
  unfold saveSample saveNMTSample
  dsimp only
  rw [hsame]
  split
  · exact getElem?_erase_eq _ _ _
  · exact getElem?_insert_eq _ _ _ _

def saveJVMSamples (db : HistoryDB codec) (samples : List JVMSample) : HistoryDB codec :=
  samples.foldl saveSample db

def defaultSampleLimit : ℕ := 60

section
variable (db : HistoryDB codec) (pid procStart : ℤ)

def lifetimeRows : List (ℤ × GCRow) :=
  selectRows db.jvmSamples pid fun _ row => InRange procStart row.procStartUnix

def sampleOfRow (row : ℤ × GCRow) : JVMSample :=
  ⟨pid, procStartTime row.2.procStartUnix, row.1, row.2.oldGenPct, row.2.fgc, row.2.fgct, row.2.heapMB, ∅, false⟩

def getRecentJVMSamples (limit : ℕ) : List JVMSample :=
  ((newestRows (if limit = 0 then defaultSampleLimit else limit)
    (db.lifetimeRows pid procStart)).map (sampleOfRow pid)).reverse

/-- The categories `loadNMTSamples` finds between two instants. -/
def nmtByAt (lo hi : ℤ) : ExtTreeMap ℤ Categories :=
  .ofList <| (selectRows db.nmtSamples pid fun a _ => lo ≤ a ∧ a ≤ hi).filterMap fun row =>
    (codec.decode row.2.committedJSON).map (row.1, ·)

def loadNMTSamples (samples : List JVMSample) : List JVMSample :=
  match samples.head?, samples.getLast? with
  | some first, some last => samples.map fun sm => { sm with
      nmtCommittedKiB := (db.nmtByAt pid first.sampledAt last.sampledAt)[sm.sampledAt]?.getD ∅ }
  | _, _ => samples

/-- The rows of `jvm_nmt_samples` of one process lifetime that have no row in `jvm_samples`. -/
def nmtOnlyRows : List (ℤ × NMTRow Text) :=
  selectRows db.nmtSamples pid fun a row => InRange procStart row.procStartUnix ∧
    a ∉ (db.lifetimeRows pid procStart).map Prod.fst

def nmtOnlySample (codec : Codec Text) (row : ℤ × NMTRow Text) : Option JVMSample :=
  ((codec.decode row.2.committedJSON).filter (· ≠ ∅)).map fun cats =>
    ⟨pid, procStart, row.1, 0, 0, 0, 0, cats, true⟩

def loadNMTOnlySamples : List JVMSample :=
  ((newestRows defaultSampleLimit (db.nmtOnlyRows pid procStart)).filterMap (nmtOnlySample pid procStart codec)).reverse

end

def mergeByTime (a b : List JVMSample) : List JVMSample :=
  if b = [] then a else (a ++ b).mergeSort fun x y => x.sampledAt ≤ y.sampledAt

end HistoryDB

/-- A call of `AttachJVMHistory`: the snapshot, the clock, whether the samples are saved and
which of the three reads for each process succeed. -/
structure Call where
  snap : Snapshot
  clock : ℤ
  saved : Bool
  samplesRead : ℤ → Bool
  nmtRead : ℤ → Bool
  nmtOnlyRead : ℤ → Bool

namespace Call

def sampleTime (call : Call) : ℤ :=
  if call.snap.takenAt = zeroTime then call.clock else call.snap.takenAt

/-- The sample a JVM of the snapshot gives, if it has a reading. -/
def sampleOf (call : Call) (j : Info) : Option JVMSample :=
  ((jvmSampleFrom j call.sampleTime).or (nmtSampleFrom j call.sampleTime)).map fun sm =>
    { sm with procStart := call.snap.startOf j.pid }

def current (call : Call) : List JVMSample := call.snap.jvms.filterMap call.sampleOf

def ReadsOk (call : Call) (j : Info) : Prop :=
  call.samplesRead j.pid ∧ call.nmtRead j.pid ∧ call.nmtOnlyRead j.pid

instance (call : Call) (j : Info) : Decidable (call.ReadsOk j) :=
  inferInstanceAs (Decidable (_ ∧ _ ∧ _))

def failed (call : Call) : Bool :=
  call.snap.jvms ≠ [] ∧ (call.saved = false ∨ ∃ j ∈ call.snap.jvms, ¬ call.ReadsOk j)

end Call

namespace HistoryDB
variable {Text : Type} {codec : Codec Text}

def historyFor (db : HistoryDB codec) (call : Call) (j : Info) : List JVMSample :=
  if call.samplesRead j.pid then
    let samples := db.getRecentJVMSamples j.pid (call.snap.startOf j.pid) 0
    mergeByTime
      (if call.nmtRead j.pid then db.loadNMTSamples j.pid samples else samples)
      (if call.nmtOnlyRead j.pid then db.loadNMTOnlySamples j.pid (call.snap.startOf j.pid) else [])
  else []

/-- The store after a call; a save that fails is rolled back. -/
def attach (db : HistoryDB codec) (call : Call) : HistoryDB codec :=
  if call.saved then db.saveJVMSamples call.current else db

def jvmHistory (db : HistoryDB codec) (call : Call) : List JVMSample :=
  if call.saved then call.snap.jvms.flatMap ((db.attach call).historyFor call) else []

def nmtSamplesFor (history : List JVMSample) (pid : ℤ) : List JVMSample :=
  history.filter fun sm => sm.pid = pid

def run (db : HistoryDB codec) (calls : List Call) : HistoryDB codec := calls.foldl attach db

end HistoryDB
end Spectra.Jvm
