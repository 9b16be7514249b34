import Spectra.Netproto.Tls
import Spectra.Library.GoSlice

/-! The parser of a ClientHello as it takes slices of its buffers. -/
namespace Spectra.Netproto
open List Library GoBytes

/-- The extensions of a ClientHello on the bytes that are left. -/
def extensionBlock (rest : Bytes) (out : TLSClientHello) : Except TLSError TLSClientHello :=
  if rest = [] then .ok out
  else match readUint16 rest with
    | none => .error .extensions
    | some (extensionsLen, rest) =>
      if rest.length < extensionsLen then .error .extensions
      else .ok (parseTLSExtensions rest.length (rest.take extensionsLen) out)

theorem parseClientHello_eq_extensionBlock {hello session ciphers compression : Bytes} (hlen : 34 ≤ hello.length)
    (hsession : (readUint8 (hello.drop 34)).bind (fun (n, rest) => skip rest n) = some session)
    (hciphers : (readUint16 session).bind
      (fun (n, rest) => if n % 2 ≠ 0 then none else skip rest n) = some ciphers)
    (hcompression : (readUint8 ciphers).bind (fun (n, rest) => skip rest n) = some compression) :
    parseClientHello hello = extensionBlock compression
      { legacyVersion := tlsVersion (hello.getD 0 0) (hello.getD 1 0) } := by
  rw [parseClientHello, if_neg (by omega), hsession]
  dsimp only
  rw [hciphers]
  dsimp only
  rw [hcompression]
  dsimp only
  rw [extensionBlock]
  split
  · rfl
  · cases readUint16 compression with
    | none => rfl
    | some r =>
      dsimp only
      split <;> rfl

namespace Slices

open Library Checked GoBytes

def uint16At (data : Bytes) (lo : ℕ) : Checked TLSError ℕ := do
  let bytes ← slice data lo (lo + 2)
  .ok (Reader.bigEndian bytes)

/-- The value and the position after it; `none` where `ok` is false. -/
def readUint8 (data : Bytes) (pos : ℕ) : Checked TLSError (Option (ℕ × ℕ)) :=
  if data.length ≤ pos then .ok none
  else do
    let v ← index data pos
    .ok (some (v.toNat, pos + 1))

def readUint16 (data : Bytes) (pos : ℕ) : Checked TLSError (Option (ℕ × ℕ)) := do
  let rest ← sliceFrom data pos
  if rest.length < 2 then .ok none
  else do
    let v ← uint16At data pos
    .ok (some (v, pos + 2))

def skip (data : Bytes) (pos n : ℕ) : Checked TLSError (Option ℕ) := do
  let rest ← sliceFrom data pos
  if rest.length < n then .ok none else .ok (some (pos + n))

def serverNameFrom (data : Bytes) (stop pos : ℕ) : Checked TLSError Bytes :=
  if pos + 3 ≤ stop then do
    let nameType ← index data pos
    let nameLen ← uint16At data (pos + 1)
    let rest ← sliceFrom data (pos + 3)
    if rest.length < nameLen then .ok []
    else if nameType = 0 then slice data (pos + 3) (pos + 3 + nameLen)
    else serverNameFrom data stop (pos + 3 + nameLen)
  else .ok []
termination_by stop - pos

def parseServerName (data : Bytes) : Checked TLSError Bytes :=
  if data.length < 2 then .ok []
  else do
    let listLen ← uint16At data 0
    let rest ← sliceFrom data 2
    if rest.length < listLen then .ok [] else serverNameFrom data (2 + listLen) 2

def alpnFrom (data : Bytes) (stop pos : ℕ) : Checked TLSError (List Bytes) :=
  if pos < stop then do
    let nameLen ← index data pos
    let rest ← sliceFrom data (pos + 1)
    if nameLen.toNat = 0 ∨ rest.length < nameLen.toNat then .ok []
    else do
      let name ← slice data (pos + 1) (pos + 1 + nameLen.toNat)
      let names ← alpnFrom data stop (pos + 1 + nameLen.toNat)
      .ok (name :: names)
  else .ok []
termination_by stop - pos

def parseALPN (data : Bytes) : Checked TLSError (List Bytes) :=
  if data.length < 2 then .ok []
  else do
    let listLen ← uint16At data 0
    let rest ← sliceFrom data 2
    if rest.length < listLen then .ok [] else alpnFrom data (2 + listLen) 2

def versionsFrom (data : Bytes) (stop pos : ℕ) : Checked TLSError (List String) :=
  if pos < stop then do
    let major ← index data pos
    let minor ← index data (pos + 1)
    let versions ← versionsFrom data stop (pos + 2)
    .ok (tlsVersion major minor :: versions)
  else .ok []
termination_by stop - pos

def parseSupportedVersions (data : Bytes) : Checked TLSError (List String) :=
  if data.length < 1 then .ok []
  else do
    let listLen ← index data 0
    let rest ← sliceFrom data 1
    if listLen.toNat % 2 ≠ 0 ∨ rest.length < listLen.toNat then .ok []
    else versionsFrom data (1 + listLen.toNat) 1

def extend (hello : TLSClientHello) (extType : ℕ) (data : Bytes) :
    Checked TLSError TLSClientHello :=
  if extType = 0 then do
    let sni ← parseServerName data
    if sni = [] then .ok hello else .ok { hello with sni := sni }
  else if extType = 16 then do
    let alpn ← parseALPN data
    .ok { hello with alpn := alpn }
  else if extType = 43 then do
    let versions ← parseSupportedVersions data
    .ok { hello with supportedVersions := versions }
  else if extType = 0xfe0d then .ok { hello with echPresent := true }
  else .ok hello

def parseTLSExtensions (exts : Bytes) (pos : ℕ) (hello : TLSClientHello) :
    Checked TLSError TLSClientHello :=
  if pos + 4 ≤ exts.length then do
    let extType ← uint16At exts pos
    let extLen ← uint16At exts (pos + 2)
    let rest ← sliceFrom exts (pos + 4)
    if rest.length < extLen then .ok hello
    else do
      let data ← slice exts (pos + 4) (pos + 4 + extLen)
      let hello ← extend hello extType data
      parseTLSExtensions exts (pos + 4 + extLen) hello
  else .ok hello
termination_by exts.length - pos

def parseExtensionBlock (hello : Bytes) (pos : ℕ) (out : TLSClientHello) :
    Checked TLSError TLSClientHello :=
  if pos = hello.length then .ok out
  else do
    let some (extensionsLen, pos) ← readUint16 hello pos | fail .extensions
    let rest ← sliceFrom hello pos
    if rest.length < extensionsLen then fail .extensions
    else do
      let exts ← slice hello pos (pos + extensionsLen)
      parseTLSExtensions exts 0 out

def parseClientHello (hello : Bytes) : Checked TLSError TLSClientHello :=
  if hello.length < 34 then fail .helloTooShort
  else do
    let major ← index hello 0
    let minor ← index hello 1
    let some (sessionLen, pos) ← readUint8 hello 34 | fail .sessionID
    let some pos ← skip hello pos sessionLen | fail .sessionID
    let some (cipherLen, pos) ← readUint16 hello pos | fail .cipherSuites
    if cipherLen % 2 ≠ 0 then fail .cipherSuites
    else do
      let some pos ← skip hello pos cipherLen | fail .cipherSuites
      let some (compressionLen, pos) ← readUint8 hello pos | fail .compressionMethods
      let some pos ← skip hello pos compressionLen | fail .compressionMethods
      parseExtensionBlock hello pos { legacyVersion := tlsVersion major minor }

def parseHandshake (body : Bytes) : Checked TLSError TLSClientHello :=
  if body.length < 4 then fail .notClientHello
  else do
    let msgType ← index body 0
    if msgType ≠ 1 then fail .notClientHello
    else do
      let high ← index body 1
      let middle ← index body 2
      let low ← index body 3
      let helloLen := high.toNat * 65536 + middle.toNat * 256 + low.toNat
      let rest ← sliceFrom body 4
      if helloLen ≤ 0 ∨ rest.length < helloLen then fail .helloLength
      else do
        let hello ← slice body 4 (4 + helloLen)
        parseClientHello hello

def parseTLSClientHello (record : Bytes) : Checked TLSError TLSClientHello :=
  if record.length < 5 then fail .recordTooShort
  else do
    let contentType ← index record 0
    if contentType ≠ 22 then fail .notHandshake
    else do
      let recordLen ← uint16At record 3
      let rest ← sliceFrom record 5
      if recordLen ≤ 0 ∨ rest.length < recordLen then fail .recordLength
      else do
        let body ← slice record 5 (5 + recordLen)
        parseHandshake body

/-- What a function that takes no slices returns, as a call that does not panic. -/
def lift {α : Type} : Except TLSError α → Checked TLSError α
  | .ok x => .ok x
  | .error e => fail e

variable {data : Bytes} {pos stop : ℕ}

theorem slice_from {lo n : ℕ} (h : lo + n ≤ data.length) :
    slice (ε := TLSError) data lo (lo + n) = .ok ((data.drop lo).take n) := by
  rw [slice_eq (Nat.le_add_right _ _) h, drop_take, Nat.add_sub_cancel_left]

theorem uint16At_eq {lo : ℕ} (h : lo + 2 ≤ data.length) : uint16At data lo = .ok (uint16 (data.drop lo)) := by
  rw [uint16At, slice_from h]
  rfl

theorem index_getD {i : ℕ} (h : i < data.length) : index (ε := TLSError) data i = .ok (data.getD i 0) := by
  rw [index_eq h, getD, getElem?_eq_getElem h]
  rfl

section

private theorem serverNameFrom_eq (hstop : stop ≤ data.length) {fuel : ℕ} (hfuel : stop - pos ≤ fuel) :
    serverNameFrom data stop pos = .ok (Netproto.serverNameFrom data stop fuel pos) := by
  induction fuel generalizing pos with
  | zero =>
    rw [serverNameFrom, if_neg (by omega)]
    rfl
  | succ fuel ih =>
    rw [serverNameFrom, Netproto.serverNameFrom]
    by_cases hpos : pos + 3 ≤ stop
    · rw [if_pos hpos, index_getD (by omega), ok_bind, uint16At_eq (by omega), ok_bind,
        sliceFrom_eq (by omega), ok_bind]
      dsimp only
      split
      · rfl
      · rename_i hlen
        rw [length_drop] at hlen
        split
        · exact slice_from (by omega)
        · exact ih (by omega)
    · rw [if_neg hpos, if_neg hpos]

private theorem parseServerName_eq (data : Bytes) : parseServerName data = .ok (Netproto.parseServerName data) := by
  rw [parseServerName, Netproto.parseServerName]
  split
  · rfl
  · rw [uint16At_eq (by omega), ok_bind, sliceFrom_eq (by omega), ok_bind, drop_zero]
    split
    · rfl
    · rename_i hlist
      rw [length_drop] at hlist
      exact serverNameFrom_eq (by omega) (by omega)

private theorem alpnFrom_eq (hstop : stop ≤ data.length) {fuel : ℕ} (hfuel : stop - pos ≤ fuel) :
    alpnFrom data stop pos = .ok (Netproto.alpnFrom data stop fuel pos) := by
  induction fuel generalizing pos with
  | zero =>
    rw [alpnFrom, if_neg (by omega)]
    rfl
  | succ fuel ih =>
    rw [alpnFrom, Netproto.alpnFrom]
    by_cases hpos : pos < stop
    · rw [if_pos hpos, index_getD (by omega), ok_bind, sliceFrom_eq (by omega), ok_bind]
      dsimp only
      split
      · rfl
      · rename_i hlen
        rw [length_drop] at hlen
        rw [slice_from (by omega), ih (by omega)]
        rfl
    · rw [if_neg hpos, if_neg hpos]

private theorem parseALPN_eq (data : Bytes) : parseALPN data = .ok (Netproto.parseALPN data) := by
  rw [parseALPN, Netproto.parseALPN]
  split
  · rfl
  · rw [uint16At_eq (by omega), ok_bind, sliceFrom_eq (by omega), ok_bind, drop_zero]
    split
    · rfl
    · rename_i hlist
      rw [length_drop] at hlist
      exact alpnFrom_eq (by omega) (by omega)

private theorem versionsFrom_eq (hstop : stop ≤ data.length) {pairs : ℕ} (hpairs : pos + 2 * pairs = stop) :
    versionsFrom data stop pos = .ok (versionPairs ((data.drop pos).take (stop - pos))) := by
  induction pairs generalizing pos with
  | zero =>
    rw [versionsFrom, if_neg (by omega), Nat.sub_eq_zero_of_le (by omega)]
    rfl
  | succ pairs ih =>
    have hfirst : pos < data.length := by omega
    have hsecond : pos + 1 < data.length := by omega
    have hdrop : data.drop pos = data[pos] :: data[pos + 1] :: data.drop (pos + 2) := by
      rw [drop_eq_getElem_cons hfirst, drop_eq_getElem_cons hsecond]
    have hcount : stop - pos = stop - (pos + 2) + 1 + 1 := by omega
    rw [versionsFrom, if_pos (by omega), index_eq hfirst, index_eq hsecond,
      ih (by omega), hdrop, hcount, take_succ_cons, take_succ_cons]
    rfl

private theorem parseSupportedVersions_eq (data : Bytes) :
    parseSupportedVersions data = .ok (Netproto.parseSupportedVersions data) := by
  cases data with
  | nil => rfl
  | cons n rest =>
    rw [parseSupportedVersions, Netproto.parseSupportedVersions, index_getD (by simp), sliceFrom_eq (by simp)]
    change (if n.toNat % 2 ≠ 0 ∨ rest.length < n.toNat then _ else _) = _
    split
    · rfl
    · have hstop : 1 + n.toNat ≤ (n :: rest).length := by
        rw [length_cons]
        omega
      change versionsFrom (n :: rest) (1 + n.toNat) 1 = _
      rw [versionsFrom_eq hstop (show 1 + 2 * (n.toNat / 2) = 1 + n.toNat by omega),
        Nat.add_sub_cancel_left]
      rfl

end

private theorem extend_eq (hello : TLSClientHello) (extType : ℕ) (data : Bytes) :
    extend hello extType data = .ok (hello.extend extType data) := by
  rw [extend, TLSClientHello.extend]
  split
  · rw [parseServerName_eq, ok_bind]
    split <;> rfl
  · split
    · rw [parseALPN_eq]
      rfl
    · split
      · rw [parseSupportedVersions_eq]
        rfl
      · split <;> rfl

private theorem parseTLSExtensions_eq {fuel : ℕ} (hpos : pos ≤ data.length)
    (hfuel : data.length - pos ≤ fuel) (hello : TLSClientHello) :
    parseTLSExtensions data pos hello = .ok (Netproto.parseTLSExtensions fuel (data.drop pos) hello) := by
  induction fuel generalizing pos hello with
  | zero =>
    rw [parseTLSExtensions, if_neg (by omega)]
    rfl
  | succ fuel ih =>
    rw [parseTLSExtensions, Netproto.parseTLSExtensions, length_drop, drop_drop, drop_drop]
    by_cases hfour : pos + 4 ≤ data.length
    · rw [if_pos hfour, if_neg (by omega), uint16At_eq (by omega), ok_bind, uint16At_eq (by omega),
        ok_bind, sliceFrom_eq hfour, ok_bind]
      dsimp only
      split
      · rfl
      · rename_i hlen
        rw [length_drop] at hlen
        rw [slice_from (by omega), ok_bind, extend_eq, ok_bind, ih (by omega) (by omega),
          drop_drop]
    · rw [if_neg hfour, if_pos (by omega)]

theorem readUint8_cases (data : Bytes) (pos : ℕ) :
    (Netproto.readUint8 (data.drop pos) = none ∧ readUint8 data pos = .ok none) ∨
      ∃ v, pos + 1 ≤ data.length ∧
        Netproto.readUint8 (data.drop pos) = some (v, data.drop (pos + 1)) ∧
        readUint8 data pos = .ok (some (v, pos + 1)) := by
  by_cases hend : data.length ≤ pos
  · left
    rw [readUint8, if_pos hend, drop_eq_nil_of_le hend]
    exact ⟨rfl, rfl⟩
  · right
    have hpos := Nat.not_le.mp hend
    rw [readUint8, if_neg hend, index_eq hpos, drop_eq_getElem_cons hpos]
    exact ⟨_, hpos, rfl, rfl⟩

theorem readUint16_cases (h : pos ≤ data.length) :
    (Netproto.readUint16 (data.drop pos) = none ∧ readUint16 data pos = .ok none) ∨
      ∃ v, pos + 2 ≤ data.length ∧
        Netproto.readUint16 (data.drop pos) = some (v, data.drop (pos + 2)) ∧
        readUint16 data pos = .ok (some (v, pos + 2)) := by
  rw [readUint16, Netproto.readUint16, sliceFrom_eq h, ok_bind]
  by_cases htwo : (data.drop pos).length < 2
  · rw [if_pos htwo, if_pos htwo]
    exact .inl ⟨rfl, rfl⟩
  · have hlen : pos + 2 ≤ data.length := by
      rw [length_drop] at htwo
      omega
    rw [if_neg htwo, if_neg htwo, uint16At_eq hlen, drop_drop]
    exact .inr ⟨_, hlen, rfl, rfl⟩

theorem skip_cases (h : pos ≤ data.length) (n : ℕ) :
    (Netproto.skip (data.drop pos) n = none ∧ skip data pos n = .ok none) ∨
      (pos + n ≤ data.length ∧ Netproto.skip (data.drop pos) n = some (data.drop (pos + n)) ∧
        skip data pos n = .ok (some (pos + n))) := by
  rw [skip, Netproto.skip, sliceFrom_eq h, ok_bind]
  by_cases hn : (data.drop pos).length < n
  · rw [if_pos hn, if_pos hn]
    exact .inl ⟨rfl, rfl⟩
  · have hlen : pos + n ≤ data.length := by
      rw [length_drop] at hn
      omega
    rw [if_neg hn, if_neg hn, drop_drop]
    exact .inr ⟨hlen, rfl, rfl⟩

private theorem parseExtensionBlock_eq (hpos : pos ≤ data.length) (out : TLSClientHello) :
    parseExtensionBlock data pos out = lift (extensionBlock (data.drop pos) out) := by
  rw [parseExtensionBlock, extensionBlock]
  by_cases hend : pos = data.length
  · rw [if_pos hend, if_pos (drop_eq_nil_of_le (by omega))]
    rfl
  · have hne : data.drop pos ≠ [] := by
      rw [ne_eq, drop_eq_nil_iff]
      omega
    rw [if_neg hend, if_neg hne]
    rcases readUint16_cases hpos with ⟨hpure, hread⟩ | ⟨n, hle, hpure, hread⟩
    · rw [hpure, hread]
      rfl
    · rw [hpure, hread, ok_bind]
      dsimp only
      rw [sliceFrom_eq hle, ok_bind]
      split
      · rfl
      · rename_i hlen
        rw [length_drop] at hlen
        rw [slice_from (by omega)]
        refine parseTLSExtensions_eq (Nat.zero_le _) ?_ out
        rw [length_take]
        omega

private theorem parseClientHello_eq (hello : Bytes) :
    parseClientHello hello = lift (Netproto.parseClientHello hello) := by
  by_cases hlen : hello.length < 34
  · rw [parseClientHello, Netproto.parseClientHello, if_pos hlen, if_pos hlen]
    rfl
  rw [parseClientHello, Netproto.parseClientHello, if_neg hlen, if_neg hlen,
    index_getD (by omega), ok_bind, index_getD (by omega), ok_bind]
  rcases readUint8_cases hello 34 with ⟨hpure, hread⟩ | ⟨sessionLen, hle, hpure, hread⟩ <;> rw [hpure, hread]
  · rfl
  rw [ok_bind, Option.bind_some]
  dsimp only
  rcases skip_cases hle sessionLen with ⟨hpure, hread⟩ | ⟨hle, hpure, hread⟩ <;> rw [hpure, hread]
  · rfl
  rw [ok_bind]
  dsimp only
  rcases readUint16_cases hle with ⟨hpure, hread⟩ | ⟨cipherLen, hle, hpure, hread⟩ <;> rw [hpure, hread]
  · rfl
  rw [ok_bind, Option.bind_some]
  dsimp only
  by_cases hodd : cipherLen % 2 ≠ 0
  · rw [if_pos hodd, if_pos hodd]
    rfl
  rw [if_neg hodd, if_neg hodd]
  rcases skip_cases hle cipherLen with ⟨hpure, hread⟩ | ⟨hle, hpure, hread⟩ <;> rw [hpure, hread]
  · rfl
  rw [ok_bind]
  dsimp only
  rcases readUint8_cases hello _ with ⟨hpure, hread⟩ | ⟨compressionLen, hle, hpure, hread⟩ <;> rw [hpure, hread]
  · rfl
  rw [ok_bind, Option.bind_some]
  dsimp only
  rcases skip_cases hle compressionLen with ⟨hpure, hread⟩ | ⟨hle, hpure, hread⟩ <;> rw [hpure, hread]
  · rfl
  rw [ok_bind]
  dsimp only
  rw [parseExtensionBlock_eq hle, extensionBlock]
  split
  · rfl
  · cases Netproto.readUint16 (hello.drop _) with
    | none => rfl
    | some r =>
      dsimp only
      split <;> rfl

private theorem helloLen_eq {body : Bytes} (h : 4 ≤ body.length) :
    Reader.bigEndian ((body.drop 1).take 3) =
      (body.getD 1 0).toNat * 65536 + (body.getD 2 0).toNat * 256 + (body.getD 3 0).toNat := by
  rcases body with _ | ⟨first, _ | ⟨high, _ | ⟨middle, _ | ⟨low, rest⟩⟩⟩⟩
  · exact absurd h (by simp)
  · exact absurd h (by simp)
  · exact absurd h (by simp)
  · exact absurd h (by simp)
  · simp [Reader.bigEndian]
    omega

private theorem parseHandshake_eq (body : Bytes) : parseHandshake body = lift (Netproto.parseHandshake body) := by
  rw [parseHandshake, Netproto.parseHandshake]
  by_cases hlen : body.length < 4
  · rw [if_pos hlen, if_pos (.inl hlen)]
    rfl
  rw [if_neg hlen, index_getD (by omega), ok_bind]
  by_cases htype : body.getD 0 0 ≠ 1
  · rw [if_pos htype, if_pos (.inr htype)]
    rfl
  rw [if_neg htype, if_neg (by tauto), index_getD (by omega), ok_bind, index_getD (by omega),
    ok_bind, index_getD (by omega), ok_bind, sliceFrom_eq (by omega), ok_bind, helloLen_eq (by omega)]
  split
  · rfl
  · rename_i hhello
    rw [length_drop] at hhello
    rw [slice_from (by omega), ok_bind]
    exact parseClientHello_eq _

theorem parseTLSClientHello_eq (record : Bytes) :
    parseTLSClientHello record = lift (Netproto.parseTLSClientHello record) := by
  rw [parseTLSClientHello, Netproto.parseTLSClientHello]
  by_cases hlen : record.length < 5
  · rw [if_pos hlen, if_pos hlen]
    rfl
  rw [if_neg hlen, if_neg hlen, index_getD (by omega), ok_bind]
  by_cases htype : record.getD 0 0 ≠ 22
  · rw [if_pos htype, if_pos htype]
    rfl
  rw [if_neg htype, uint16At_eq (by omega), ok_bind, sliceFrom_eq (by omega), ok_bind]
  split
  · rfl
  · rename_i hrecord
    rw [length_drop] at hrecord
    rw [slice_from (by omega)]
    exact parseHandshake_eq _

theorem safe_parseTLSClientHello (record : Bytes) : Safe (parseTLSClientHello record) := by
  rw [parseTLSClientHello_eq]
  cases Netproto.parseTLSClientHello record with
  | error e => exact .fail e
  | ok hello => exact .ok hello

end Slices
end Spectra.Netproto
