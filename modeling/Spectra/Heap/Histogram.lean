import Spectra.Heap.Hprof
import Mathlib.Data.Prod.Lex

/-! `ParseHPROF`: an HPROF stream becomes a class histogram. -/
namespace Spectra.Heap
open Library Reader GoText

structure ClassEntry where
  rank : ℕ
  instances : ℤ
  bytes : ℤ
  className : String
  moduleName : String
  deriving DecidableEq, Repr

structure Histogram where
  entries : List ClassEntry
  total : ClassEntry
  skipped : List String
  deriving DecidableEq, Repr

structure HprofState where
  strings : IdMap String
  classNameID : IdMap ℕ
  classInstSize : IdMap ℕ
  instCount : IdMap ℤ
  arrayCount : IdMap ℤ
  arrayBytes : IdMap ℤ
  primCount : Std.ExtTreeMap UInt8 ℤ
  primBytes : Std.ExtTreeMap UInt8 ℤ

/-- The order of the histogram: by size, the largest first, and then by name. -/
def ClassEntry.order (e : ClassEntry) : Lex (ℤ × String) := toLex (-e.bytes, e.className)

/-- The choices of the Go runtime in `buildHistogram`. -/
structure HistogramRuntime where
  classes : MapRange ℕ ℤ
  prims : MapRange UInt8 ℤ
  sort : SliceSort ClassEntry.order

instance : Inhabited HistogramRuntime := ⟨⟨default, default, default⟩⟩

def newHPROFState : HprofState := ⟨∅, ∅, ∅, ∅, ∅, ∅, ∅, ∅⟩

/-- The size of the root and info sub-records, which carry no histogram data. -/
def hprofRootSkipBytes (w : IdSize) (tag : UInt8) : Option ℕ :=
  if tag = hprofRootUnknown ∨ tag = hprofRootStickyClass ∨ tag = hprofRootMonitorUsed ∨
      tag = hprofRootInterned ∨ tag = hprofRootFinalizing ∨ tag = hprofRootDebugger ∨
      tag = hprofRootRefCleanup ∨ tag = hprofRootVMInternal then some w.bytes
  else if tag = hprofRootJNIGlobal then some (w.bytes + w.bytes)
  else if tag = hprofRootNativeStack ∨ tag = hprofRootThreadBlock then some (w.bytes + 4)
  else if tag = hprofRootJNILocal ∨ tag = hprofRootJavaFrame ∨ tag = hprofRootThreadObject ∨
      tag = hprofRootJNIMonitor then some (w.bytes + 8)
  else if tag = hprofHeapDumpInfo then some (4 + w.bytes)
  else none

namespace HprofState
variable (w : IdSize)

/-- Static fields: a count, each a name, a type and a value. -/
def skipStaticFields : HprofReader Unit := do
  let count ← u2
  let _ ← collect (do
    let _ ← w.id
    let typ ← u1
    skip (hprofTypeSize typ w)) count

/-- Instance fields: a count, each a name and a type. -/
def skipInstanceFields : HprofReader Unit := do
  let count ← u2
  let _ ← collect (do
    let _ ← w.id
    u1) count

def readClassDump (st : HprofState) : HprofReader HprofState := do
  let classObjID ← w.id
  let _ ← u4
  let _ ← collect w.id 6
  let instSize ← u4
  let st := { st with classInstSize := st.classInstSize.insert classObjID instSize }
  skipClassPool w
  skipStaticFields w
  skipInstanceFields w
  return st

def readInstanceDump (st : HprofState) : HprofReader HprofState := do
  let _ ← w.id
  let _ ← u4
  let classID ← w.id
  let nbytes ← u4
  let st := { st with instCount := addAt st.instCount classID 1 }
  skip nbytes
  return st

def readObjectArrayDump (st : HprofState) : HprofReader HprofState := do
  let _ ← w.id
  let _ ← u4
  let numElems ← u4
  let arrayClassID ← w.id
  let st := { st with
    arrayCount := addAt st.arrayCount arrayClassID 1
    arrayBytes := addAt st.arrayBytes arrayClassID (hprofArrayHeaderBytes + numElems * w.bytes) }
  skip (numElems * w.bytes)
  return st

def readPrimArrayDump (st : HprofState) : HprofReader HprofState := do
  let _ ← w.id
  let _ ← u4
  let numElems ← u4
  let elemType ← u1
  let elemSize := hprofTypeSize elemType w
  let st := { st with
    primCount := addAt st.primCount elemType 1
    primBytes := addAt st.primBytes elemType (hprofArrayHeaderBytes + numElems * elemSize) }
  skip (numElems * elemSize)
  return st

def readHeapSubRecord (tag : UInt8) (st : HprofState) : HprofReader HprofState :=
  match hprofRootSkipBytes w tag with
  | some fixed => do
    skip fixed
    return st
  | none =>
    if tag = hprofClassDump then readClassDump w st
    else if tag = hprofInstanceDump then readInstanceDump w st
    else if tag = hprofObjectArrayDump then readObjectArrayDump w st
    else if tag = hprofPrimArrayDump then readPrimArrayDump w st
    else fail (errUnknownSubRecord tag)

def readHeapDump (length : ℕ) (st : HprofState) : HprofReader HprofState :=
  limited length
    (fun missing => .wrap ("hprof: truncated heap dump (" ++ itoa missing ++ " of " ++ itoa length ++
      " bytes missing)") .unexpectedEof)
    fun _ => untilEof (readHeapSubRecord w) st

def readStringRecord (length : ℕ) (st : HprofState) : HprofReader HprofState := do
  let id ← w.id.mapError (.wrap "hprof: string id")
  let n : ℤ := length - w.bytes
  if n < 0 then fail (.other ("hprof: negative string length " ++ itoa n))
  else if maxHPROFStringBytes < n then
    fail (.other ("hprof: string record too large (" ++ itoa n ++ " bytes, max " ++ itoa maxHPROFStringBytes ++ ")"))
  else
    let body ← (readFull n.toNat).mapError (.wrap "hprof: string body")
    return { st with strings := st.strings.insert id (ofBytes body) }

def readLoadClassRecord (st : HprofState) : HprofReader HprofState := do
  let _ ← u4
  let classObjID ← w.id
  let _ ← u4
  let nameID ← w.id
  return { st with classNameID := st.classNameID.insert classObjID nameID }

def readHPROFRecord (tag : UInt8) (length : ℕ) (st : HprofState) : HprofReader HprofState :=
  if tag = hprofTagString then readStringRecord w length st
  else if tag = hprofTagLoadClass then readLoadClassRecord w st
  else if tag = hprofTagHeapDump ∨ tag = hprofTagHeapDumpSegment then readHeapDump w length st
  else do
    skip length
    return st

def className (st : HprofState) (classObjID : ℕ) : String :=
  match st.classNameID[classObjID]? with
  | none => "unknown-0x" ++ hex classObjID
  | some nameID =>
    let name := st.strings[nameID]?.getD ""
    if name = "" then "unknown-0x" ++ hex classObjID else replaceAll name '/' '.'

/-- The entries in the order in which the three loops append them. -/
def histogramEntries (rt : HistogramRuntime) (st : HprofState) : List ClassEntry :=
  (rt.classes.order st.instCount).map (fun x =>
    ⟨0, x.2, x.2 * (st.classInstSize[x.1]?.getD 0 : ℕ), st.className x.1, ""⟩) ++
  (rt.classes.order st.arrayCount).map (fun x => ⟨0, x.2, st.arrayBytes[x.1]?.getD 0, st.className x.1, ""⟩) ++
  (rt.prims.order st.primCount).map (fun x => ⟨0, x.2, st.primBytes[x.1]?.getD 0, primArrayName x.1, ""⟩)

def buildHistogram (rt : HistogramRuntime) (st : HprofState) : Histogram :=
  let entries := (rt.sort.sort (histogramEntries rt st)).mapIdx fun i e => { e with rank := i + 1 }
  ⟨entries, entries.foldl (fun total e =>
    { total with instances := total.instances + e.instances, bytes := total.bytes + e.bytes })
    ⟨0, 0, 0, "Total", ""⟩, []⟩

end HprofState

def readHPROF : HprofReader HprofState := do
  let w ← readHPROFHeader
  readRecords (HprofState.readHPROFRecord w) newHPROFState

def parseHPROF (rt : HistogramRuntime) (bs : List UInt8) : Except HprofError Histogram :=
  (readHPROF.run bs).map fun r => r.1.buildHistogram rt

end Spectra.Heap
