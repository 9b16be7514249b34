import Spectra.Library.ByteReader
import Spectra.Library.GoRuntime
import Spectra.Library.GoText
import Spectra.Heap.ObjectGraph

/-! The HPROF binary format: tags, sizes and the header. Identifiers, lengths and counts are
natural numbers, and the only failure of the stream is that it ends. -/
namespace Spectra.Heap
open Library Reader GoText

def hprofTagString : UInt8 := 0x01
def hprofTagLoadClass : UInt8 := 0x02
def hprofTagHeapDump : UInt8 := 0x0C
def hprofTagHeapDumpSegment : UInt8 := 0x1C

def hprofRootJNIGlobal : UInt8 := 0x01
def hprofRootJNILocal : UInt8 := 0x02
def hprofRootJavaFrame : UInt8 := 0x03
def hprofRootNativeStack : UInt8 := 0x04
def hprofRootStickyClass : UInt8 := 0x05
def hprofRootThreadBlock : UInt8 := 0x06
def hprofRootMonitorUsed : UInt8 := 0x07
def hprofRootThreadObject : UInt8 := 0x08
def hprofClassDump : UInt8 := 0x20
def hprofInstanceDump : UInt8 := 0x21
def hprofObjectArrayDump : UInt8 := 0x22
def hprofPrimArrayDump : UInt8 := 0x23
def hprofRootInterned : UInt8 := 0x89
def hprofRootFinalizing : UInt8 := 0x8A
def hprofRootDebugger : UInt8 := 0x8B
def hprofRootRefCleanup : UInt8 := 0x8C
def hprofRootVMInternal : UInt8 := 0x8D
def hprofRootJNIMonitor : UInt8 := 0x8E
def hprofHeapDumpInfo : UInt8 := 0xFE
def hprofRootUnknown : UInt8 := 0xFF

def hprofTypeObject : UInt8 := 2
def hprofTypeBoolean : UInt8 := 4
def hprofTypeChar : UInt8 := 5
def hprofTypeFloat : UInt8 := 6
def hprofTypeDouble : UInt8 := 7
def hprofTypeByte : UInt8 := 8
def hprofTypeShort : UInt8 := 9
def hprofTypeInt : UInt8 := 10
def hprofTypeLong : UInt8 := 11

def hprofArrayHeaderBytes : ℕ := 16

def maxHPROFStringBytes : ℕ := 64 * 2 ^ 20

def maxHPROFHeaderName : ℕ := 32

/-- The identifier sizes a header may declare. -/
inductive IdSize where
  | four | eight
  deriving DecidableEq, Repr

def IdSize.bytes : IdSize → ℕ
  | four => 4
  | eight => 8

/-- An error of the parsers: one of the stream returned as it is, one behind a context, or a
message of its own. -/
inductive HprofError where
  | io (e : IoError)
  | wrap (context : String) (e : IoError)
  | other (message : String)
  deriving DecidableEq, Repr

def errNotHPROF : HprofError := .other "hprof: not a JAVA PROFILE dump"

def errUnknownSubRecord (tag : UInt8) : HprofError :=
  .other ("hprof: unknown heap-dump sub-record tag 0x" ++ hexByte tag)

abbrev HprofReader (α : Type) := Reader HprofError α

instance : MonadLift (Reader IoError) (Reader HprofError) := ⟨mapError .io⟩

def u1 : Reader IoError UInt8 := readByte
def u2 : Reader IoError ℕ := uint 2
def u4 : Reader IoError ℕ := uint 4
def u8 : Reader IoError ℕ := uint 8
def IdSize.id (w : IdSize) : Reader IoError ℕ := uint w.bytes

abbrev IdMap (α : Type) := Std.ExtTreeMap ℕ α

def hprofTypeSize (typ : UInt8) (w : IdSize) : ℕ :=
  if typ = hprofTypeObject then w.bytes
  else if typ = hprofTypeBoolean ∨ typ = hprofTypeByte then 1
  else if typ = hprofTypeChar ∨ typ = hprofTypeShort then 2
  else if typ = hprofTypeFloat ∨ typ = hprofTypeInt then 4
  else if typ = hprofTypeDouble ∨ typ = hprofTypeLong then 8
  else 0

def primArrayName (elemType : UInt8) : String :=
  if elemType = hprofTypeBoolean then "[Z"
  else if elemType = hprofTypeChar then "[C"
  else if elemType = hprofTypeFloat then "[F"
  else if elemType = hprofTypeDouble then "[D"
  else if elemType = hprofTypeByte then "[B"
  else if elemType = hprofTypeShort then "[S"
  else if elemType = hprofTypeInt then "[I"
  else if elemType = hprofTypeLong then "[J"
  else "[?"

/-- The loop over the format name; `room` is how many more bytes it may have. -/
def readHeaderName (room : ℕ) (name : List UInt8) : HprofReader (List UInt8) := do
  let c ← readByte.mapError (.wrap "hprof: read header name")
  if c = 0 then return name
  match room with
  | 0 => fail errNotHPROF
  | room + 1 => readHeaderName room (name ++ [c])

def readHPROFHeader : HprofReader IdSize := do
  let name ← readHeaderName maxHPROFHeaderName []
  if !"JAVA PROFILE".toList.isPrefixOf (ofBytes name).toList then fail errNotHPROF
  let idSize ← u4.mapError (.wrap "hprof: read id size")
  let w ← if idSize = 4 then pure IdSize.four
    else if idSize = 8 then pure IdSize.eight
    else fail (.other ("hprof: unsupported identifier size " ++ itoa idSize))
  let _ ← u8.mapError (.wrap "hprof: read timestamp")
  return w

/-- The loop over the top-level records, which both parsers have. -/
def readRecords {σ : Type} (readRecord : UInt8 → ℕ → σ → HprofReader σ) (st : σ) : HprofReader σ :=
  untilEof (fun tag st => do
    let _ ← u4.mapError (.wrap "hprof: read record time")
    let length ← u4.mapError (.wrap "hprof: read record length")
    readRecord tag length st) st

/-- Constant pool: a count, each entry an index, a type and a value. -/
def skipClassPool (w : IdSize) : HprofReader Unit := do
  let count ← u2
  let _ ← collect (do
    let _ ← u2
    let typ ← u1
    skip (hprofTypeSize typ w)) count

end Spectra.Heap
