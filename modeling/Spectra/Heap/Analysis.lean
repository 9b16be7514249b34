import Spectra.Heap.Histogram

/-! The runtime-neutral comparison of two heap snapshots. -/
namespace Spectra.Heap
open Library

/-- The type `Runtime`. -/
inductive HeapRuntime where
  | unknown | jvm | native | node | python | webkit
  deriving DecidableEq, Repr

/-- A value of the interface `Record`. -/
structure HeapRecord where
  identity : String
  displayName : String
  liveCount : ℤ
  shallowBytes : ℤ
  deriving DecidableEq, Repr

/-- A value of the interface `Snapshot`, with what a comparison reads of it. -/
structure HeapSnapshot where
  runtime : HeapRuntime
  records : List HeapRecord
  deriving DecidableEq, Repr

structure Delta where
  identity : String
  displayName : String
  runtime : HeapRuntime
  beforeCount : ℤ
  afterCount : ℤ
  deltaCount : ℤ
  beforeBytes : ℤ
  afterBytes : ℤ
  deltaBytes : ℤ
  deriving DecidableEq, Repr

def ClassEntry.Identity (e : ClassEntry) : String :=
  if e.moduleName = "" then e.className else e.moduleName ++ ":" ++ e.className

def ClassEntry.record (e : ClassEntry) : HeapRecord :=
  ⟨e.Identity, e.className, e.instances, e.bytes⟩

def Histogram.snapshot (h : Histogram) : HeapSnapshot := ⟨.jvm, h.entries.map ClassEntry.record⟩

/-- The records of one identity on both sides. -/
structure RecordPair where
  before : Option HeapRecord
  after : Option HeapRecord
  deriving DecidableEq, Repr

abbrev PairMap := Std.ExtTreeMap String RecordPair

/-- The order of `sortDeltas`. -/
def Delta.order (d : Delta) : Lex (ℤ × Lex (ℤ × String)) :=
  toLex (-d.deltaBytes, toLex (-d.afterBytes, d.identity))

/-- The choices of the Go runtime in `Compare`. -/
structure CompareRuntime where
  range : MapRange String RecordPair
  sort : SliceSort Delta.order

instance inhabited_compareRuntime : Inhabited CompareRuntime := ⟨⟨default, default⟩⟩

namespace DefaultAnalyzer

def putBefore (byID : PairMap) (r : HeapRecord) : PairMap :=
  byID.alter r.identity fun p => some { p.getD ⟨none, none⟩ with before := some r }

def putAfter (byID : PairMap) (r : HeapRecord) : PairMap :=
  byID.alter r.identity fun p => some { p.getD ⟨none, none⟩ with after := some r }

def byID (before after : List HeapRecord) : PairMap :=
  after.foldl putAfter (before.foldl putBefore ∅)

/-- One round of the loop over `byID`. The name is that of the later record. -/
def delta (runtime : HeapRuntime) (id : String) (p : RecordPair) : Delta :=
  let beforeCount := p.before.elim 0 HeapRecord.liveCount
  let afterCount := p.after.elim 0 HeapRecord.liveCount
  let beforeBytes := p.before.elim 0 HeapRecord.shallowBytes
  let afterBytes := p.after.elim 0 HeapRecord.shallowBytes
  { identity := id
    displayName := ((p.after <|> p.before).map HeapRecord.displayName).getD ""
    runtime := runtime
    beforeCount := beforeCount
    afterCount := afterCount
    deltaCount := afterCount - beforeCount
    beforeBytes := beforeBytes
    afterBytes := afterBytes
    deltaBytes := afterBytes - beforeBytes }

def Compare (rt : CompareRuntime) (before after : Option HeapSnapshot) :
    Except String (List Delta) :=
  match before, after with
  | some before, some after =>
    .ok (rt.sort.sort ((rt.range.order (byID before.records after.records)).map fun x => delta after.runtime x.1 x.2))
  | _, _ => .error "compare heap snapshots: nil snapshot"

end DefaultAnalyzer
end Spectra.Heap
