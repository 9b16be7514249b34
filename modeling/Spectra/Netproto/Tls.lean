import Spectra.Library.ByteReader
import Spectra.Library.GoBytes
import Spectra.Library.GoText

/-! The parser of the TLS record that holds a ClientHello. -/
namespace Spectra.Netproto

open Library GoBytes

/-- The errors of the parser. -/
inductive TLSError
  | recordTooShort
  | notHandshake
  | recordLength
  | notClientHello
  | helloLength
  | helloTooShort
  | sessionID
  | cipherSuites
  | compressionMethods
  | extensions
  deriving DecidableEq

structure TLSClientHello where
  sni : Bytes := []
  alpn : List Bytes := []
  legacyVersion : String := ""
  supportedVersions : List String := []
  echPresent : Bool := false
  deriving DecidableEq

def tlsVersion (major minor : UInt8) : String :=
  if major = 3 ∧ minor = 0 then "SSL 3.0"
  else if major = 3 ∧ 1 ≤ minor ∧ minor ≤ 4 then "TLS 1." ++ GoText.itoa (minor - 1).toNat
  else "0x" ++ GoText.hexByte major ++ GoText.hexByte minor

/-- `binary.BigEndian.Uint16` of the first two bytes. -/
def uint16 (data : Bytes) : ℕ := Reader.bigEndian (data.take 2)

/-- `readUint8` at a position that is given by what comes after it. -/
def readUint8 : Bytes → Option (ℕ × Bytes)
  | [] => none
  | b :: rest => some (b.toNat, rest)

def readUint16 (data : Bytes) : Option (ℕ × Bytes) :=
  if data.length < 2 then none else some (uint16 data, data.drop 2)

def skip (data : Bytes) (n : ℕ) : Option Bytes :=
  if data.length < n then none else some (data.drop n)

/-- The loop of `parseServerName`, whose position grows by at least three. -/
def serverNameFrom (data : Bytes) (stop : ℕ) : ℕ → ℕ → Bytes
  | 0, _ => []
  | fuel + 1, pos =>
    if pos + 3 ≤ stop then
      let nameType := data.getD pos 0
      let nameLen := uint16 (data.drop (pos + 1))
      if (data.drop (pos + 3)).length < nameLen then []
      else if nameType = 0 then (data.drop (pos + 3)).take nameLen
      else serverNameFrom data stop fuel (pos + 3 + nameLen)
    else []

def parseServerName (data : Bytes) : Bytes :=
  if data.length < 2 then []
  else if (data.drop 2).length < uint16 data then []
  else serverNameFrom data (2 + uint16 data) data.length 2

/-- The loop of `parseALPN`, whose position grows by at least two. -/
def alpnFrom (data : Bytes) (stop : ℕ) : ℕ → ℕ → List Bytes
  | 0, _ => []
  | fuel + 1, pos =>
    if pos < stop then
      let nameLen := (data.getD pos 0).toNat
      let rest := data.drop (pos + 1)
      if nameLen = 0 ∨ rest.length < nameLen then []
      else rest.take nameLen :: alpnFrom data stop fuel (pos + 1 + nameLen)
    else []

def parseALPN (data : Bytes) : List Bytes :=
  if data.length < 2 then []
  else if (data.drop 2).length < uint16 data then []
  else alpnFrom data (2 + uint16 data) data.length 2

def versionPairs : Bytes → List String
  | major :: minor :: rest => tlsVersion major minor :: versionPairs rest
  | _ => []

def parseSupportedVersions : Bytes → List String
  | [] => []
  | n :: rest =>
    if n.toNat % 2 ≠ 0 ∨ rest.length < n.toNat then [] else versionPairs (rest.take n.toNat)

/-- One extension's part in the loop of `parseTLSExtensions`. -/
def TLSClientHello.extend (hello : TLSClientHello) (extType : ℕ) (data : Bytes) :
    TLSClientHello :=
  if extType = 0 then
    if parseServerName data = [] then hello else { hello with sni := parseServerName data }
  else if extType = 16 then { hello with alpn := parseALPN data }
  else if extType = 43 then { hello with supportedVersions := parseSupportedVersions data }
  else if extType = 0xfe0d then { hello with echPresent := true }
  else hello

/-- `parseTLSExtensions` on the extensions that are left; `fuel` bounds their number. -/
def parseTLSExtensions : ℕ → Bytes → TLSClientHello → TLSClientHello
  | 0, _, hello => hello
  | fuel + 1, exts, hello =>
    if exts.length < 4 then hello
    else
      let extLen := uint16 (exts.drop 2)
      let rest := exts.drop 4
      if rest.length < extLen then hello
      else
        parseTLSExtensions fuel (rest.drop extLen)
          (hello.extend (uint16 exts) (rest.take extLen))

def parseClientHello (hello : Bytes) : Except TLSError TLSClientHello := do
  if hello.length < 34 then throw .helloTooShort
  let out : TLSClientHello := { legacyVersion := tlsVersion (hello.getD 0 0) (hello.getD 1 0) }
  let some rest := (readUint8 (hello.drop 34)).bind fun (sessionLen, rest) => skip rest sessionLen
    | throw .sessionID
  let some rest := (readUint16 rest).bind fun (cipherLen, rest) =>
      if cipherLen % 2 ≠ 0 then none else skip rest cipherLen
    | throw .cipherSuites
  let some rest := (readUint8 rest).bind fun (compressionLen, rest) => skip rest compressionLen
    | throw .compressionMethods
  if rest = [] then return out
  match readUint16 rest with
  | none => throw .extensions
  | some (extensionsLen, rest) =>
    if rest.length < extensionsLen then throw .extensions
    return parseTLSExtensions rest.length (rest.take extensionsLen) out

def parseHandshake (body : Bytes) : Except TLSError TLSClientHello :=
  let helloLen := Reader.bigEndian ((body.drop 1).take 3)
  if body.length < 4 ∨ body.getD 0 0 ≠ 1 then .error .notClientHello
  else if helloLen ≤ 0 ∨ (body.drop 4).length < helloLen then .error .helloLength
  else parseClientHello ((body.drop 4).take helloLen)

def parseTLSClientHello (record : Bytes) : Except TLSError TLSClientHello :=
  let recordLen := uint16 (record.drop 3)
  if record.length < 5 then .error .recordTooShort
  else if record.getD 0 0 ≠ 22 then .error .notHandshake
  else if recordLen ≤ 0 ∨ (record.drop 5).length < recordLen then .error .recordLength
  else parseHandshake ((record.drop 5).take recordLen)

end Spectra.Netproto
