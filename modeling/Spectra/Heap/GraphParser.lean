import Spectra.Heap.GraphBuilder

/-! `ParseObjectGraph`. -/
namespace Spectra.Heap
open Library Reader GoText

def maxInstanceFieldBytes : ℕ := 16 * 2 ^ 20

/-- The instance-field types of a class in declaration order, and its superclass. -/
structure ClassLayout where
  superID : ℕ
  fieldTypes : List UInt8
  instSize : ℕ
  deriving DecidableEq, Repr

/-- An instance read before the layout of its class; `parseIdx` is none for one that was not
added. -/
structure PendingInstance where
  parseIdx : Option ℕ
  classID : ℕ
  fields : List UInt8
  deriving DecidableEq, Repr

structure GraphState where
  strings : IdMap String
  classNameID : IdMap ℕ
  layouts : IdMap ClassLayout
  pending : List PendingInstance
  b : GraphBuilder

/-- The kind of each root record, and the ids and `u4` fields after the rooted object id. -/
def rootLayouts : List (UInt8 × RootKind × ℕ × ℕ) :=
  [(hprofRootUnknown, .unknown, 0, 0),
   (hprofRootStickyClass, .stickyClass, 0, 0),
   (hprofRootMonitorUsed, .monitorUsed, 0, 0),
   (hprofRootInterned, .internedString, 0, 0),
   (hprofRootFinalizing, .finalizing, 0, 0),
   (hprofRootDebugger, .debugger, 0, 0),
   (hprofRootRefCleanup, .referenceCleanup, 0, 0),
   (hprofRootVMInternal, .vmInternal, 0, 0),
   (hprofRootJNIGlobal, .jniGlobal, 1, 0),
   (hprofRootNativeStack, .nativeStack, 0, 1),
   (hprofRootThreadBlock, .threadBlock, 0, 1),
   (hprofRootJNILocal, .jniLocal, 0, 2),
   (hprofRootJavaFrame, .javaFrame, 0, 2),
   (hprofRootThreadObject, .threadObject, 0, 2),
   (hprofRootJNIMonitor, .jniMonitor, 0, 2)]

def rootRecordLayout (w : IdSize) (tag : UInt8) : Option (RootKind × ℕ) :=
  (rootLayouts.lookup tag).map fun l => (l.1, w.bytes * (1 + l.2.1) + 4 * l.2.2)

/-- The loop over the field types of one class: the offset and the references after it, or
the references so far when the field data end first. -/
def fieldRefs (w : IdSize) (fields : List UInt8) :
    List UInt8 → ℕ → List ℕ → Except (List ℕ) (ℕ × List ℕ)
  | [], offset, out => .ok (offset, out)
  | typ :: types, offset, out =>
    let size := hprofTypeSize typ w
    if fields.length < offset + size then .error out
    else
      fieldRefs w fields types (offset + size)
        (if typ = hprofTypeObject then out ++ [bigEndian ((fields.drop offset).take size)] else out)

/-- The loop over the superclass chain; `room` is what the depth guard leaves of it. -/
def chainRefs (w : IdSize) (layouts : IdMap ClassLayout) (fields : List UInt8) :
    ℕ → ℕ → ℕ → List ℕ → List ℕ × Bool
  | room, c, offset, out =>
    if c = 0 then (out, true)
    else match room with
      | 0 => (out, true)
      | room + 1 =>
        match layouts[c]? with
        | none => (out, false)
        | some layout =>
          match fieldRefs w fields layout.fieldTypes offset out with
          | .error out => (out, true)
          | .ok (offset, out) => chainRefs w layouts fields room layout.superID offset out

/-- The references of an instance, its class object first, and whether every class of its
chain has a layout. -/
def instanceRefs (w : IdSize) (layouts : IdMap ClassLayout) (classID : ℕ) (fields : List UInt8) :
    List ℕ × Bool :=
  chainRefs w layouts fields (layouts.size + 1) classID 0 [classID]

namespace GraphState
variable (lim : GraphLimits) (w : IdSize)

/-- The object of the class of a key, with the key's entry in the class table. -/
def addObject (k : ClassKey) (presetName : String) (objID : ℕ) (shallow : ℤ) (refs : List ℕ)
    (st : GraphState) : GraphState × Option ℕ :=
  let ⟨b, cls⟩ := st.b.classFor k presetName
  let (b, p) := b.addObject lim objID cls shallow refs
  ({ st with b := b }, p)

/-- The second half of `readClassDump`. `st.classClass` is the index of the empty key. -/
def addClass (classObjID superID loaderID instSize : ℕ) (staticRefs : List ℕ)
    (fieldTypes : List UInt8) (st : GraphState) : GraphState :=
  let layouts := st.layouts.insert classObjID ⟨superID, fieldTypes, instSize⟩
  let b := (st.b.classFor ⟨classObjID, 0⟩ "").1
  (addObject lim ⟨0, 0⟩ javaLangClass classObjID 0 (superID :: loaderID :: staticRefs)
    { st with layouts := layouts, b := b }).1

/-- The second half of `readInstanceDump`. -/
def addInstance (objID classID : ℕ) (fields : List UInt8) (st : GraphState) : GraphState :=
  let refs := instanceRefs w st.layouts classID fields
  match st.layouts[classID]?.filter fun _ => refs.2 with
  | some layout => (st.addObject lim ⟨classID, 0⟩ "" objID layout.instSize refs.1).1
  | none =>
    let (st, p) := st.addObject lim ⟨classID, 0⟩ "" objID fields.length []
    { st with pending := st.pending ++ [⟨p, classID, fields⟩] }

def addObjectArray (objID arrayClassID : ℕ) (refs : List ℕ) (st : GraphState) : GraphState :=
  (st.addObject lim ⟨arrayClassID, 0⟩ "" objID (hprofArrayHeaderBytes + refs.length * w.bytes) refs).1

def addPrimArray (objID numElems : ℕ) (elemType : UInt8) (st : GraphState) : GraphState :=
  (st.addObject lim ⟨0, elemType⟩ (primArrayName elemType) objID
    (hprofArrayHeaderBytes + numElems * hprofTypeSize elemType w) []).1

def addRoot (kind : RootKind) (objID serial : ℕ) (st : GraphState) : GraphState :=
  { st with b := st.b.addRoot kind objID serial }

def readRoot (kind : RootKind) (totalBytes : ℕ) (st : GraphState) : HprofReader GraphState := do
  let objID ← w.id
  let rest := totalBytes - w.bytes
  if hasThreadSerial kind then
    let serial ← u4
    skip (rest - 4)
    return st.addRoot kind objID serial
  else
    skip rest
    return st.addRoot kind objID 0

def readStaticRefs : HprofReader (List ℕ) := do
  let count ← u2
  let refs ← collect (do
    let _ ← w.id
    let typ ← u1
    if typ ≠ hprofTypeObject then
      skip (hprofTypeSize typ w)
      return none
    else
      let ref ← w.id
      return some ref) count
  return refs.reduceOption

def readInstanceFieldTypes : HprofReader (List UInt8) := do
  let count ← u2
  collect (do
    let _ ← w.id
    u1) count

def readClassDump (st : GraphState) : HprofReader GraphState := do
  let classObjID ← w.id
  let _ ← u4
  let hdr ← collect w.id 6
  let instSize ← u4
  skipClassPool w
  let refs ← readStaticRefs w
  let types ← readInstanceFieldTypes w
  return st.addClass lim classObjID (hdr.getD 0 0) (hdr.getD 1 0) instSize refs types

/-- `missing` is how many bytes of the segment the stream lacks: `segLeft` counts them. -/
def readInstanceDump (missing : ℕ) (st : GraphState) : HprofReader GraphState := do
  let objID ← w.id
  let _ ← u4
  let classID ← w.id
  let nbytes ← u4
  let left ← remaining
  if maxInstanceFieldBytes < nbytes ∨ left + missing < nbytes then
    fail (.other ("hprof: instance 0x" ++ hex objID ++ " field data length " ++ itoa nbytes ++
      " exceeds the remaining heap-dump segment or the " ++ itoa maxInstanceFieldBytes ++
      " byte limit"))
  else
    let fields ← readFull nbytes
    return st.addInstance lim w objID classID fields

def readObjectArray (st : GraphState) : HprofReader GraphState := do
  let objID ← w.id
  let _ ← u4
  let numElems ← u4
  let arrayClassID ← w.id
  let refs ← collect w.id numElems
  return st.addObjectArray lim w objID arrayClassID refs

def readPrimArray (st : GraphState) : HprofReader GraphState := do
  let objID ← w.id
  let _ ← u4
  let numElems ← u4
  let elemType ← u1
  skip (numElems * hprofTypeSize elemType w)
  return st.addPrimArray lim w objID numElems elemType

def readHeapSub (missing : ℕ) (tag : UInt8) (st : GraphState) : HprofReader GraphState :=
  match rootRecordLayout w tag with
  | some (kind, n) => readRoot w kind n st
  | none =>
    if tag = hprofClassDump then readClassDump lim w st
    else if tag = hprofInstanceDump then readInstanceDump lim w missing st
    else if tag = hprofObjectArrayDump then readObjectArray lim w st
    else if tag = hprofPrimArrayDump then readPrimArray lim w st
    else if tag = hprofHeapDumpInfo then do
      skip (4 + w.bytes)
      return st
    else fail (errUnknownSubRecord tag)

/-- The check of `st.b.err` after each record. -/
def check (st : GraphState) : HprofReader GraphState :=
  match st.b.err with
  | some e => fail e
  | none => return st

def readHeapDump (length : ℕ) (st : GraphState) : HprofReader GraphState :=
  limited length (fun _ => .wrap "hprof: truncated heap dump" .unexpectedEof) fun missing =>
    untilEof (fun tag st => do
      let st ← readHeapSub lim w missing tag st
      st.check) st

def readString (length : ℕ) (st : GraphState) : HprofReader GraphState := do
  let id ← w.id.mapError (.wrap "hprof: string id")
  let n : ℤ := length - w.bytes
  if n < 0 ∨ maxHPROFStringBytes < n then fail (.other ("hprof: bad string length " ++ itoa n))
  else
    let body ← (readFull n.toNat).mapError (.wrap "hprof: string body")
    return { st with strings := st.strings.insert id (ofBytes body) }

def readLoadClass (st : GraphState) : HprofReader GraphState := do
  let _ ← u4
  let classObjID ← w.id
  let _ ← u4
  let nameID ← w.id
  return { st with classNameID := st.classNameID.insert classObjID nameID }

def readRecord (tag : UInt8) (length : ℕ) (st : GraphState) : HprofReader GraphState :=
  if tag = hprofTagString then readString w length st
  else if tag = hprofTagLoadClass then readLoadClass w st
  else if tag = hprofTagHeapDump ∨ tag = hprofTagHeapDumpSegment then readHeapDump lim w length st
  else do
    skip length
    return st

def className (st : GraphState) (k : ClassKey) : String :=
  match st.classNameID[k.classID]? with
  | none => "unknown-0x" ++ hex k.classID
  | some nameID =>
    match st.strings[nameID]?.filter fun s => decide (s ≠ "") with
    | none => "unknown-0x" ++ hex k.classID
    | some s => replaceAll s '/' '.'

/-- One round of the first loop of `finalize`. -/
def resolvePending (layouts : IdMap ClassLayout) (inst : PendingInstance) (b : GraphBuilder) :
    GraphBuilder :=
  match layouts[inst.classID]?, inst.parseIdx with
  | some layout, some p =>
    (b.setShallow p layout.instSize).appendRefs lim p
      (instanceRefs w layouts inst.classID inst.fields).1
  | _, _ => b

def finalize (sort : SliceSort RawObject.id) (st : GraphState) : ObjectGraph :=
  (st.pending.foldl (fun b inst => resolvePending lim w st.layouts inst b) st.b).build sort
    st.className (st.pending.countP fun inst => st.layouts[inst.classID]?.isNone)

def new : GraphState := ⟨∅, ∅, ∅, [], ((GraphBuilder.new w).classFor ⟨0, 0⟩ javaLangClass).1⟩

end GraphState

def readGraph (lim : GraphLimits) : HprofReader (IdSize × GraphState) := do
  let w ← readHPROFHeader
  let st ← readRecords (fun tag length st => do
    let st ← GraphState.readRecord lim w tag length st
    st.check) (GraphState.new w)
  return (w, st)

def parseObjectGraph (lim : GraphLimits) (sort : SliceSort RawObject.id) (bs : List UInt8) :
    Except HprofError ObjectGraph :=
  ((readGraph lim).run bs).map fun r => r.1.2.finalize lim r.1.1 sort

end Spectra.Heap
