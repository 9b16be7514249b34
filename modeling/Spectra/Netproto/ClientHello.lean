import Spectra.Netproto.TlsSlices

/-! ClientHello messages as they are put in a record, and that the parser gets their metadata. -/
namespace Spectra.Netproto
open List Nat UInt8 Library GoBytes TLSClientHello

def encode16 (n : ℕ) : Bytes := [UInt8.ofNat (n / 256), UInt8.ofNat n]

/-- The name of an application protocol. -/
structure Protocol where
  bytes : Bytes
  nonempty : 0 < bytes.length
  fits : bytes.length < 256

def Protocol.encode (p : Protocol) : Bytes := UInt8.ofNat p.bytes.length :: p.bytes

inductive Extension
  | serverName (host : Bytes) (nonempty : host ≠ [])
  | alpn (protocols : List Protocol)
  | supportedVersions (versions : List (UInt8 × UInt8)) (fits : versions.length ≤ 127)
  | encryptedClientHello (data : Bytes)
  | other (extType : UInt16) (data : Bytes)
      (unknown : extType ≠ 0 ∧ extType ≠ 16 ∧ extType ≠ 43 ∧ extType ≠ 0xfe0d)

open Extension

def encodeVersions (versions : List (UInt8 × UInt8)) : Bytes :=
  versions.flatMap fun v => [v.1, v.2]

namespace Extension

def type : Extension → UInt16
  | serverName _ _ => 0
  | alpn _ => 16
  | supportedVersions _ _ => 43
  | encryptedClientHello _ => 0xfe0d
  | other extType _ _ => extType

def data : Extension → Bytes
  | serverName host _ => encode16 (host.length + 3) ++ 0 :: encode16 host.length ++ host
  | alpn protocols =>
    encode16 (protocols.flatMap Protocol.encode).length ++ protocols.flatMap Protocol.encode
  | supportedVersions versions _ => UInt8.ofNat (2 * versions.length) :: encodeVersions versions
  | encryptedClientHello data => data
  | other _ data _ => data

def encode (e : Extension) : Bytes :=
  encode16 e.type.toNat ++ encode16 e.data.length ++ e.data

def host? : Extension → Option Bytes
  | serverName host _ => some host
  | _ => none

def protocols? : Extension → Option (List Bytes)
  | alpn protocols => some (protocols.map Protocol.bytes)
  | _ => none

def versions? : Extension → Option (List String)
  | supportedVersions versions _ => some (versions.map fun v => tlsVersion v.1 v.2)
  | _ => none

def isECH : Extension → Bool
  | encryptedClientHello _ => true
  | _ => false

def isOther : Extension → Bool
  | other _ _ _ => true
  | _ => false

/-- Of the extensions that the parser knows, each is there at most once. -/
def Once (exts : List Extension) : Prop :=
  exts.Pairwise fun a b => a.type = b.type → a.isOther

instance (exts : List Extension) : Decidable (Once exts) :=
  inferInstanceAs (Decidable (exts.Pairwise _))

def apply (hello : TLSClientHello) : Extension → TLSClientHello
  | serverName host _ => { hello with sni := host }
  | alpn protocols => { hello with alpn := protocols.map Protocol.bytes }
  | supportedVersions versions _ =>
    { hello with supportedVersions := versions.map fun v => tlsVersion v.1 v.2 }
  | encryptedClientHello _ => { hello with echPresent := true }
  | other _ _ _ => hello

end Extension

section

theorem uint16_encode16 {n : ℕ} (h : n < 2 ^ 16) (rest : Bytes) : uint16 (encode16 n ++ rest) = n := by
  simp [uint16, encode16, Reader.bigEndian]
  omega

private theorem parseServerName_serverName {host : Bytes} (hne : host ≠ [])
    (hfits : (serverName host hne).data.length < 2 ^ 16) : parseServerName (serverName host hne).data = host := by
  have hlen : (serverName host hne).data.length = host.length + 5 := by
    simp [data, encode16]
  have hlist : uint16 (serverName host hne).data = host.length + 3 := by
    exact uint16_encode16 (by omega) _
  have hname : uint16 ((serverName host hne).data.drop 3) = host.length :=
    uint16_encode16 (by omega) host
  have htype : (serverName host hne).data.getD 2 0 = 0 := rfl
  have hdrop : (serverName host hne).data.drop 5 = host := rfl
  rw [parseServerName, if_neg (by omega), length_drop, if_neg (by omega), hlen,
    serverNameFrom, if_pos (by omega)]
  rw [hname, hdrop, if_neg (lt_irrefl _), if_pos htype, take_length]

private theorem alpnFrom_encode (protocols : List Protocol) (before : Bytes) {fuel : ℕ}
    (hfuel : (protocols.flatMap Protocol.encode).length < fuel) :
    alpnFrom (before ++ protocols.flatMap Protocol.encode)
      (before ++ protocols.flatMap Protocol.encode).length fuel before.length = protocols.map Protocol.bytes := by
  induction protocols generalizing before fuel with
  | nil =>
    obtain ⟨fuel, rfl⟩ := exists_eq_succ_of_ne_zero (ne_of_gt hfuel)
    rw [alpnFrom, if_neg (by simp)]
    rfl
  | cons p protocols ih =>
    obtain ⟨fuel, rfl⟩ := exists_eq_succ_of_ne_zero (ne_of_gt (lt_of_le_of_lt (zero_le _) hfuel))
    have hsplit : before ++ (p :: protocols).flatMap Protocol.encode =
        before ++ ofNat p.bytes.length :: (p.bytes ++ protocols.flatMap Protocol.encode) := rfl
    have hrest : before ++ (p :: protocols).flatMap Protocol.encode =
        (before ++ p.encode) ++ protocols.flatMap Protocol.encode := by
      rw [flatMap_cons, append_assoc]
    have hpos : before.length + 1 + p.bytes.length = (before ++ p.encode).length := by
      rw [length_append, Protocol.encode, length_cons]
      omega
    have hlen : (ofNat p.bytes.length).toNat = p.bytes.length := by
      rw [toNat_ofNat', mod_eq_of_lt p.fits]
    have hget : (before ++ (p :: protocols).flatMap Protocol.encode).getD before.length 0 =
        ofNat p.bytes.length := by
      rw [getD, getElem?_append_right (le_refl _), Nat.sub_self]
      rfl
    have hdrop : (before ++ (p :: protocols).flatMap Protocol.encode).drop (before.length + 1) =
        p.bytes ++ protocols.flatMap Protocol.encode := by
      rw [drop_length_add_append]
      rfl
    have hnonempty := p.nonempty
    have hshorter : (protocols.flatMap Protocol.encode).length < fuel := by
      rw [flatMap_cons, length_append, Protocol.encode, length_cons] at hfuel
      omega
    have hin : before.length < (before ++ (p :: protocols).flatMap Protocol.encode).length := by
      rw [hsplit, length_append, length_cons]
      omega
    rw [alpnFrom, if_pos hin]
    rw [hget, hlen, hdrop, if_neg (by rw [length_append]; omega), take_left, hpos, hrest,
      ih _ hshorter, map_cons]

private theorem parseALPN_alpn {protocols : List Protocol} (hfits : (alpn protocols).data.length < 2 ^ 16) :
    parseALPN (alpn protocols).data = protocols.map Protocol.bytes := by
  have hlen : (alpn protocols).data.length =
      2 + (protocols.flatMap Protocol.encode).length := by
    rw [data, length_append]
    rfl
  have hlist : uint16 (alpn protocols).data =
      (protocols.flatMap Protocol.encode).length := uint16_encode16 (by omega) _
  rw [parseALPN, if_neg (by omega), length_drop, hlist, if_neg (by omega), ← hlen]
  exact alpnFrom_encode protocols (encode16 _) (by omega)

private theorem versionPairs_encode (versions : List (UInt8 × UInt8)) :
    versionPairs (encodeVersions versions) = versions.map fun v => tlsVersion v.1 v.2 := by
  induction versions with
  | nil => rfl
  | cons v versions ih =>
    exact congrArg (cons _) ih

private theorem parseSupportedVersions_versions {versions : List (UInt8 × UInt8)} (hfits : versions.length ≤ 127) :
    parseSupportedVersions (supportedVersions versions hfits).data = versions.map fun v => tlsVersion v.1 v.2 := by
  have hlen : (encodeVersions versions).length = 2 * versions.length := by
    rw [encodeVersions]
    simp [mul_comm]
  have hbyte : (ofNat (2 * versions.length)).toNat = 2 * versions.length := by
    rw [toNat_ofNat', mod_eq_of_lt (by omega)]
  rw [data, parseSupportedVersions, hbyte, if_neg (by omega), ← hlen, take_length,
    versionPairs_encode]

theorem toNat_ne {t : UInt16} {n : ℕ} (h : t ≠ UInt16.ofNat n) : t.toNat ≠ n := by
  rintro rfl
  exact h UInt16.ofNat_toNat.symm

private theorem extend_data (e : Extension) (hfits : e.data.length < 2 ^ 16) (hello : TLSClientHello) :
    hello.extend e.type.toNat e.data = e.apply hello := by
  cases e with
  | serverName host hne =>
    have hname := parseServerName_serverName hne hfits
    rw [extend, hname, if_neg hne]
    rfl
  | alpn protocols =>
    rw [extend, parseALPN_alpn hfits]
    rfl
  | supportedVersions versions hcount =>
    rw [extend, parseSupportedVersions_versions]
    rfl
  | encryptedClientHello data => rfl
  | other extType data hunknown =>
    obtain ⟨hsni, halpn, hversions, hech⟩ := hunknown
    rw [extend, type, if_neg (toNat_ne hsni), if_neg (toNat_ne halpn),
      if_neg (toNat_ne hversions), if_neg (toNat_ne hech)]
    rfl

end

section

theorem Extension.length_encode (e : Extension) : e.encode.length = 4 + e.data.length := by
  simp [encode, encode16]
  omega

variable {exts : List Extension}

private theorem parseTLSExtensions_encode {fuel : ℕ} (hfuel : (exts.flatMap Extension.encode).length ≤ fuel)
    (hfits : (exts.flatMap Extension.encode).length < 2 ^ 16) (hello : TLSClientHello) :
    parseTLSExtensions fuel (exts.flatMap Extension.encode) hello = exts.foldl apply hello := by
  induction exts generalizing fuel hello with
  | nil =>
    cases fuel with
    | zero | succ fuel => rfl
  | cons e exts ih =>
    rw [flatMap_cons, length_append, e.length_encode] at hfuel hfits
    obtain ⟨fuel, rfl⟩ := Nat.exists_eq_add_of_le' (show 1 ≤ fuel by omega)
    have htype : uint16 (e.encode ++ exts.flatMap Extension.encode) = e.type.toNat := by
      exact uint16_encode16 e.type.toNat_lt _
    have hlen : uint16 ((e.encode ++ exts.flatMap Extension.encode).drop 2) = e.data.length := by
      exact uint16_encode16 (by omega) _
    have hdrop : (e.encode ++ exts.flatMap Extension.encode).drop 4 =
        e.data ++ exts.flatMap Extension.encode := rfl
    rw [flatMap_cons, parseTLSExtensions,
      if_neg (by rw [length_append, e.length_encode]; omega)]
    rw [htype, hlen, hdrop, if_neg (by simp), drop_left, take_left,
      extend_data e (by omega), ih (by omega) (by omega), foldl_cons]

/-- The metadata of extensions, each of which is there at most once. -/
def extensionMetadata (legacyVersion : String) (exts : List Extension) : TLSClientHello where
  sni := (exts.findSome? Extension.host?).getD []
  alpn := (exts.findSome? Extension.protocols?).getD []
  legacyVersion := legacyVersion
  supportedVersions := (exts.findSome? Extension.versions?).getD []
  echPresent := exts.any Extension.isECH

theorem findSome?_none {α : Type} {f : Extension → Option α} {e : Extension}
    (honce : ∀ a ∈ exts, a.type = e.type → a.isOther)
    (hf : ∀ a, f a ≠ none → a.type = e.type ∧ a.isOther = false) : exts.findSome? f = none := by
  rw [findSome?_eq_none_iff]
  intro a ha
  by_contra hne
  obtain ⟨htype, hother⟩ := hf a hne
  rw [honce a ha htype] at hother
  exact nomatch hother

private theorem foldl_apply (honce : Extension.Once exts) (version : String) :
    exts.foldl apply { legacyVersion := version } = extensionMetadata version exts := by
  induction exts using reverseRecOn with
  | nil => rfl
  | append_singleton exts e ih =>
    obtain ⟨hbefore, -, hlast⟩ := pairwise_append.mp honce
    have hlast : ∀ a ∈ exts, a.type = e.type → a.isOther := fun a ha =>
      hlast a ha e (mem_singleton_self e)
    rw [foldl_append, ih hbefore, foldl_cons]
    simp only [extensionMetadata]
    cases e with
    | serverName host hne =>
      have hnone : exts.findSome? host? = none := by
        refine findSome?_none hlast fun a ha => ?_
        cases a with
        | serverName host' hne' => exact ⟨rfl, rfl⟩
        | _ => exact absurd rfl ha
      simp [apply, hnone, host?, protocols?, versions?, isECH]
    | alpn protocols =>
      have hnone : exts.findSome? protocols? = none := by
        refine findSome?_none hlast fun a ha => ?_
        cases a with
        | alpn protocols' => exact ⟨rfl, rfl⟩
        | _ => exact absurd rfl ha
      simp [apply, hnone, host?, protocols?, versions?, isECH]
    | supportedVersions versions hcount =>
      have hnone : exts.findSome? versions? = none := by
        refine findSome?_none hlast fun a ha => ?_
        cases a with
        | supportedVersions versions' hcount' => exact ⟨rfl, rfl⟩
        | _ => exact absurd rfl ha
      simp [apply, hnone, host?, protocols?, versions?, isECH]
    | encryptedClientHello data | other extType data hunknown =>
      simp [apply, host?, protocols?, versions?, isECH]

end

/-- The fields of a ClientHello; the block of extensions may be missing. -/
structure HelloFields where
  legacyVersion : UInt8 × UInt8
  random : Bytes
  sessionID : Bytes
  cipherSuites : List UInt16
  compressionMethods : Bytes
  extensions : Option (List Extension)

open HelloFields

namespace HelloFields

def encodeSuites (h : HelloFields) : Bytes :=
  h.cipherSuites.flatMap fun suite => encode16 suite.toNat

def encodeBlock (h : HelloFields) : Bytes :=
  match h.extensions with
  | none => []
  | some exts => encode16 (exts.flatMap Extension.encode).length ++ exts.flatMap Extension.encode

def encode (h : HelloFields) : Bytes :=
  h.legacyVersion.1 :: h.legacyVersion.2 :: h.random ++
    (UInt8.ofNat h.sessionID.length :: h.sessionID ++
      (encode16 h.encodeSuites.length ++ h.encodeSuites ++
        (UInt8.ofNat h.compressionMethods.length :: h.compressionMethods ++ h.encodeBlock)))

end HelloFields

/-- A ClientHello that fits one record. -/
structure ClientHello extends HelloFields where
  recordVersion : UInt8 × UInt8
  randomLength : random.length = 32
  sessionFits : sessionID.length < 256
  compressionFits : compressionMethods.length < 256
  once : Extension.Once (extensions.getD [])
  fits : 4 + toHelloFields.encode.length < 2 ^ 16

namespace ClientHello

def encodeHandshake (h : ClientHello) : Bytes :=
  1 :: UInt8.ofNat (h.encode.length / 65536) :: encode16 h.encode.length ++ h.encode

def encodeRecord (h : ClientHello) : Bytes :=
  22 :: h.recordVersion.1 :: h.recordVersion.2 :: encode16 h.encodeHandshake.length ++
    h.encodeHandshake

def metadata (h : ClientHello) : TLSClientHello :=
  extensionMetadata (tlsVersion h.legacyVersion.1 h.legacyVersion.2) (h.extensions.getD [])

end ClientHello

section

theorem readUint8_length {part : Bytes} (h : part.length < 256) (rest : Bytes) :
    (readUint8 (ofNat part.length :: part ++ rest)).bind (fun (n, rest) => skip rest n) = some rest := by
  rw [cons_append, readUint8, Option.bind_some, toNat_ofNat', mod_eq_of_lt h]
  dsimp only
  rw [skip, if_neg (by simp), drop_left]

theorem readUint16_length {n : ℕ} (h : n < 2 ^ 16) (rest : Bytes) :
    readUint16 (encode16 n ++ rest) = some (n, rest) := by
  rw [readUint16, uint16_encode16 h]
  rfl

private theorem even_length_encodeSuites (h : HelloFields) : h.encodeSuites.length % 2 = 0 := by
  rw [encodeSuites]
  induction h.cipherSuites with
  | nil => rfl
  | cons suite suites ih =>
    rw [flatMap_cons, length_append, encode16, length_cons, length_singleton]
    omega

private theorem extensionBlock_encode {h : HelloFields} (hfits : h.encodeBlock.length < 2 ^ 16) (out : TLSClientHello) :
    extensionBlock h.encodeBlock out = .ok ((h.extensions.getD []).foldl apply out) := by
  rw [extensionBlock]
  cases hext : h.extensions with
  | none =>
    rw [encodeBlock, hext]
    rfl
  | some exts =>
    have hblock : h.encodeBlock = encode16 (exts.flatMap Extension.encode).length ++
        exts.flatMap Extension.encode := by
      rw [encodeBlock, hext]
    rw [hblock, length_append] at hfits
    rw [hblock, if_neg (by simp [encode16]), readUint16_length (by omega)]
    dsimp only
    rw [if_neg (lt_irrefl _), take_length, parseTLSExtensions_encode (le_refl _) (by omega), Option.getD_some]

private theorem parseClientHello_encode (h : ClientHello) : parseClientHello h.encode = .ok h.metadata := by
  have hlength : h.encode.length = 34 + (1 + h.sessionID.length) + (2 + h.encodeSuites.length) +
      (1 + h.compressionMethods.length) + h.encodeBlock.length := by
    simp [HelloFields.encode, encode16, h.randomLength]
    omega
  have hfits := h.fits
  have hdrop : h.encode.drop 34 = ofNat h.sessionID.length :: h.sessionID ++
      (encode16 h.encodeSuites.length ++ h.encodeSuites ++
        (ofNat h.compressionMethods.length :: h.compressionMethods ++ h.encodeBlock)) := by
    have hstart : (h.legacyVersion.1 :: h.legacyVersion.2 :: h.random).length = 34 := by
      rw [length_cons, length_cons, h.randomLength]
    rw [HelloFields.encode, ← hstart, drop_left]
  have hciphers : (readUint16 (encode16 h.encodeSuites.length ++ h.encodeSuites ++
        (ofNat h.compressionMethods.length :: h.compressionMethods ++ h.encodeBlock))).bind
      (fun (n, rest) => if n % 2 ≠ 0 then none else skip rest n) =
      some (ofNat h.compressionMethods.length :: h.compressionMethods ++ h.encodeBlock) := by
    rw [append_assoc, readUint16_length (by omega), Option.bind_some]
    dsimp only
    rw [if_neg (not_not_intro (even_length_encodeSuites _)), skip, if_neg (by simp),
      drop_left]
  rw [parseClientHello_eq_extensionBlock (by omega)
    (hdrop ▸ readUint8_length h.sessionFits _) hciphers (readUint8_length h.compressionFits _),
    extensionBlock_encode (by omega), foldl_apply h.once]
  rfl

private theorem parseHandshake_encode (h : ClientHello) : parseHandshake h.encodeHandshake = .ok h.metadata := by
  have hfits := h.fits
  have hpos : 0 < h.encode.length := by
    rw [HelloFields.encode, cons_append, length_cons]
    omega
  have hlen : h.encodeHandshake.length = 4 + h.encode.length := by
    simp [ClientHello.encodeHandshake, encode16]
    omega
  have htype : h.encodeHandshake.getD 0 0 = 1 := rfl
  have hhello : Reader.bigEndian ((h.encodeHandshake.drop 1).take 3) = h.encode.length := by
    change Reader.bigEndian [ofNat (h.encode.length / 65536), ofNat (h.encode.length / 256), ofNat h.encode.length] = _
    simp [Reader.bigEndian]
    omega
  have hdrop : h.encodeHandshake.drop 4 = h.encode := rfl
  have hstart : ¬ (h.encodeHandshake.length < 4 ∨ h.encodeHandshake.getD 0 0 ≠ 1) := by
    rintro (hshort | hother)
    · omega
    · exact hother htype
  rw [parseHandshake, hhello, hdrop, if_neg hstart, if_neg (by omega), take_length,
    parseClientHello_encode]

end

/-- A record with a ClientHello, whatever bytes follow it, is parsed as the metadata of the
ClientHello; and no bytes make the parser take a slice out of bounds. -/
theorem parseTLSClientHello_encode (h : ClientHello) (after : Bytes) :
    Slices.parseTLSClientHello (h.encodeRecord ++ after) = .ok h.metadata ∧
      ∀ bytes, Slices.parseTLSClientHello bytes ≠ .error .panic := by
  refine ⟨?_, Slices.safe_parseTLSClientHello⟩
  have hfits := h.fits
  have hlen : h.encodeHandshake.length = 4 + h.encode.length := by
    simp [ClientHello.encodeHandshake, encode16]
    omega
  have htype : (h.encodeRecord ++ after).getD 0 0 = 22 := rfl
  have hrecord : uint16 ((h.encodeRecord ++ after).drop 3) = h.encodeHandshake.length := by
    exact uint16_encode16 (by omega) _
  have hdrop : (h.encodeRecord ++ after).drop 5 = h.encodeHandshake ++ after := rfl
  have hlong : 5 ≤ (h.encodeRecord ++ after).length := by
    simp [ClientHello.encodeRecord, encode16]
  rw [Slices.parseTLSClientHello_eq, parseTLSClientHello, if_neg (by omega), htype,
    if_neg (not_not_intro rfl), hrecord, hdrop, if_neg (by rw [length_append]; omega),
    take_left, parseHandshake_encode]
  rfl

/-- A ClientHello for the host `a`, over `h2` or not, with the version TLS 1.3. -/
def helloForA : ClientHello where
  legacyVersion := (3, 3)
  random := List.replicate 32 0
  sessionID := [7]
  cipherSuites := [0x1301]
  compressionMethods := [0]
  extensions := some [.other 10 [1, 2] (by decide), .alpn [⟨[104, 50], by decide, by decide⟩],
    .supportedVersions [(3, 4)] (by decide), .serverName [97] (by decide), .other 10 [] (by decide)]
  recordVersion := (3, 1)
  randomLength := rfl
  sessionFits := by decide
  compressionFits := by decide
  once := by decide
  fits := by decide

theorem parseTLSClientHello_encode_hostA :
    ∃ hello, Slices.parseTLSClientHello (helloForA.encodeRecord ++ [1, 2, 3]) = .ok hello ∧
      hello = ⟨[97], [[104, 50]], "TLS 1.2", ["TLS 1.3"], false⟩ :=
  ⟨helloForA.metadata, (parseTLSClientHello_encode helloForA [1, 2, 3]).1, by decide⟩

end Spectra.Netproto
