import Spectra.Heap.Histogram
import Spectra.Heap.GraphParser

/-! What an HPROF stream says. -/
namespace Spectra.Heap
open Library Reader GoText

/-- A heap-dump sub-record. -/
inductive SubRecord where
  | root (kind : RootKind) (objID serial : ℕ)
  | heapDumpInfo
  | classDump (classObjID superID loaderID instSize : ℕ) (staticRefs : List ℕ)
      (fieldTypes : List UInt8)
  | instanceDump (objID classID : ℕ) (fields : List UInt8)
  | objectArrayDump (objID arrayClassID : ℕ) (elems : List ℕ)
  | primArrayDump (objID numElems : ℕ) (elemType : UInt8)
  deriving DecidableEq, Repr

/-- A top-level record. -/
inductive Record where
  | string (id : ℕ) (body : String)
  | loadClass (classObjID nameID : ℕ)
  | heapDump (subs : List SubRecord)
  | other
  deriving DecidableEq, Repr

open Record

structure Dump where
  idSize : IdSize
  records : List Record
  deriving DecidableEq, Repr

def Record.subRecords : Record → List SubRecord
  | heapDump subs => subs
  | _ => []

/-- The sub-records of all heap dumps and heap-dump segments, in stream order. -/
def Dump.subRecords (d : Dump) : List SubRecord := d.records.flatMap Record.subRecords

section
variable (w : IdSize)

def decodeRoot (kind : RootKind) (totalBytes : ℕ) : HprofReader SubRecord := do
  let objID ← w.id
  if hasThreadSerial kind then
    let serial ← u4
    skip (totalBytes - w.bytes - 4)
    return .root kind objID serial
  else
    skip (totalBytes - w.bytes)
    return .root kind objID 0

def decodeClassDump : HprofReader SubRecord := do
  let classObjID ← w.id
  let _ ← u4
  let hdr ← collect w.id 6
  let instSize ← u4
  skipClassPool w
  let refs ← GraphState.readStaticRefs w
  let types ← GraphState.readInstanceFieldTypes w
  return .classDump classObjID (hdr.getD 0 0) (hdr.getD 1 0) instSize refs types

def decodeInstanceDump : HprofReader SubRecord := do
  let objID ← w.id
  let _ ← u4
  let classID ← w.id
  let nbytes ← u4
  let fields ← readFull nbytes
  return .instanceDump objID classID fields

def decodeObjectArrayDump : HprofReader SubRecord := do
  let objID ← w.id
  let _ ← u4
  let numElems ← u4
  let arrayClassID ← w.id
  let elems ← collect w.id numElems
  return .objectArrayDump objID arrayClassID elems

def decodePrimArrayDump : HprofReader SubRecord := do
  let objID ← w.id
  let _ ← u4
  let numElems ← u4
  let elemType ← u1
  skip (numElems * hprofTypeSize elemType w)
  return .primArrayDump objID numElems elemType

def decodeSubRecord (tag : UInt8) : HprofReader SubRecord :=
  match rootRecordLayout w tag with
  | some (kind, n) => decodeRoot w kind n
  | none =>
    if tag = hprofClassDump then decodeClassDump w
    else if tag = hprofInstanceDump then decodeInstanceDump w
    else if tag = hprofObjectArrayDump then decodeObjectArrayDump w
    else if tag = hprofPrimArrayDump then decodePrimArrayDump w
    else if tag = hprofHeapDumpInfo then do
      skip (4 + w.bytes)
      return .heapDumpInfo
    else fail (errUnknownSubRecord tag)

def decodeHeapDump (length : ℕ) : HprofReader (List SubRecord) :=
  limited length (fun _ => .io .unexpectedEof) fun _ =>
    untilEof (fun tag subs => do
      let sub ← decodeSubRecord w tag
      return subs ++ [sub]) []

/-- A string body has the bytes the identifier leaves of the record, up to the cap. -/
def decodeString (length : ℕ) : HprofReader Record := do
  let id ← w.id
  if length < w.bytes ∨ maxHPROFStringBytes < length - w.bytes then fail (.other "bad string length")
  else
    let body ← readFull (length - w.bytes)
    return .string id (ofBytes body)

def decodeLoadClass : HprofReader Record := do
  let _ ← u4
  let classObjID ← w.id
  let _ ← u4
  let nameID ← w.id
  return .loadClass classObjID nameID

def decodeRecord (tag : UInt8) (length : ℕ) : HprofReader Record :=
  if tag = hprofTagString then decodeString w length
  else if tag = hprofTagLoadClass then decodeLoadClass w
  else if tag = hprofTagHeapDump ∨ tag = hprofTagHeapDumpSegment then do
    let subs ← decodeHeapDump w length
    return .heapDump subs
  else do
    skip length
    return .other

end

def decodeDump : HprofReader Dump := do
  let w ← readHPROFHeader
  let records ← readRecords (fun tag length records => do
    let record ← decodeRecord w tag length
    return records ++ [record]) []
  return ⟨w, records⟩

def Dump.ofBytes (bs : List UInt8) : Except HprofError Dump := (decodeDump.run bs).map Prod.fst

/-- The effect of a record on a state that keeps the names and folds the sub-records. -/
def Record.apply {σ : Type} (setString : ℕ → String → σ → σ) (setName : ℕ → ℕ → σ → σ)
    (sub : σ → SubRecord → σ) (st : σ) : Record → σ
  | .string id body => setString id body st
  | .loadClass classObjID nameID => setName classObjID nameID st
  | .heapDump subs => subs.foldl sub st
  | .other => st

/-- What every sub-record extends, and no name changes, holds of all sub-records of a dump. -/
theorem Record.foldl_inv {σ : Type} {setString : ℕ → String → σ → σ} {setName : ℕ → ℕ → σ → σ}
    {sub : σ → SubRecord → σ} (Inv : List SubRecord → σ → Prop)
    (hstring : ∀ subs st id body, Inv subs st → Inv subs (setString id body st))
    (hname : ∀ subs st id name, Inv subs st → Inv subs (setName id name st))
    (hsub : ∀ subs st r, Inv subs st → Inv (subs ++ [r]) (sub st r))
    (records : List Record) {pre : List SubRecord} {st : σ} (h : Inv pre st) :
    Inv (pre ++ records.flatMap subRecords) (records.foldl (apply setString setName sub) st) := by
  have hsubs : ∀ (subs pre : List SubRecord) (st : σ), Inv pre st →
      Inv (pre ++ subs) (subs.foldl sub st) := by
    intro subs
    induction subs with
    | nil =>
      intro pre st h
      rwa [List.append_nil]
    | cons r subs ih =>
      intro pre st h
      rw [List.append_cons]
      exact ih _ _ (hsub pre st r h)
  induction records generalizing pre st with
  | nil => rwa [List.flatMap_nil, List.append_nil]
  | cons r records ih =>
    rw [List.flatMap_cons, ← List.append_assoc]
    apply ih
    cases r with
    | string id body => simpa [subRecords, apply] using hstring pre st id body h
    | loadClass id name => simpa [subRecords, apply] using hname pre st id name h
    | heapDump subs => exact hsubs subs pre st h
    | other => simpa [subRecords, apply] using h

variable (lim : GraphLimits) (w : IdSize)

def GraphState.apply (st : GraphState) : SubRecord → GraphState
  | .root kind objID serial => st.addRoot kind objID serial
  | .heapDumpInfo => st
  | .classDump classObjID superID loaderID instSize refs types =>
    st.addClass lim classObjID superID loaderID instSize refs types
  | .instanceDump objID classID fields => st.addInstance lim w objID classID fields
  | .objectArrayDump objID arrayClassID elems => st.addObjectArray lim w objID arrayClassID elems
  | .primArrayDump objID numElems elemType => st.addPrimArray lim w objID numElems elemType

def GraphState.applyRecord : GraphState → Record → GraphState :=
  Record.apply (fun id body st => { st with strings := st.strings.insert id body })
    (fun id name st => { st with classNameID := st.classNameID.insert id name })
    (GraphState.apply lim w)

def HprofState.apply (st : HprofState) : SubRecord → HprofState
  | .root _ _ _ => st
  | .heapDumpInfo => st
  | .classDump classObjID _ _ instSize _ _ =>
    { st with classInstSize := st.classInstSize.insert classObjID instSize }
  | .instanceDump _ classID _ => { st with instCount := addAt st.instCount classID 1 }
  | .objectArrayDump _ arrayClassID elems =>
    { st with
      arrayCount := addAt st.arrayCount arrayClassID 1
      arrayBytes := addAt st.arrayBytes arrayClassID
        (hprofArrayHeaderBytes + elems.length * w.bytes) }
  | .primArrayDump _ numElems elemType =>
    { st with
      primCount := addAt st.primCount elemType 1
      primBytes := addAt st.primBytes elemType
        (hprofArrayHeaderBytes + numElems * hprofTypeSize elemType w) }

def HprofState.applyRecord : HprofState → Record → HprofState :=
  Record.apply (fun id body st => { st with strings := st.strings.insert id body })
    (fun id name st => { st with classNameID := st.classNameID.insert id name })
    (HprofState.apply w)

theorem GraphState.foldl_inv (Inv : List SubRecord → GraphState → Prop)
    (hnames : ∀ subs st strings names, Inv subs st →
      Inv subs { st with strings := strings, classNameID := names })
    (hsub : ∀ subs st r, Inv subs st → Inv (subs ++ [r]) (st.apply lim w r))
    (records : List Record) {st : GraphState} (h : Inv [] st) :
    Inv (records.flatMap subRecords) (records.foldl (GraphState.applyRecord lim w) st) :=
  Record.foldl_inv Inv (fun subs st _ _ => hnames subs st _ st.classNameID)
    (fun subs st _ _ => hnames subs st st.strings _) hsub records h

theorem HprofState.foldl_inv (Inv : List SubRecord → HprofState → Prop)
    (hnames : ∀ subs st strings names, Inv subs st →
      Inv subs { st with strings := strings, classNameID := names })
    (hsub : ∀ subs st r, Inv subs st → Inv (subs ++ [r]) (st.apply w r))
    (records : List Record) {st : HprofState} (h : Inv [] st) :
    Inv (records.flatMap subRecords) (records.foldl (HprofState.applyRecord w) st) :=
  Record.foldl_inv Inv (fun subs st _ _ => hnames subs st _ st.classNameID)
    (fun subs st _ _ => hnames subs st st.strings _) hsub records h

/-- The header of a dump with identifiers of four bytes. -/
def emptyDump : List UInt8 :=
  [0x4A, 0x41, 0x56, 0x41, 0x20, 0x50, 0x52, 0x4F, 0x46, 0x49, 0x4C, 0x45, 0] ++
    bigEndianBytes 4 4 ++ bigEndianBytes 8 0

def recordBytes (tag : UInt8) (body : List UInt8) : List UInt8 :=
  tag :: (bigEndianBytes 4 0 ++ bigEndianBytes 4 body.length ++ body)

def classDumpBytes (id instSize : ℕ) (types : List UInt8) : List UInt8 :=
  0x20 :: (bigEndianBytes 4 id ++ bigEndianBytes 32 instSize ++ bigEndianBytes 6 types.length ++
    types.flatMap fun typ => [0, 0, 0, 0, typ])

def instanceDumpBytes (id classID : ℕ) (fields : List ℕ) : List UInt8 :=
  0x21 :: (bigEndianBytes 4 id ++ bigEndianBytes 8 classID ++
    bigEndianBytes 4 (4 * fields.length) ++ fields.flatMap (bigEndianBytes 4))

end Spectra.Heap
