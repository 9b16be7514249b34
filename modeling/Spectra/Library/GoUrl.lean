import Spectra.Library.GoBytes

/-! Go's `net/url`. -/
namespace Spectra.Library.GoUrl
open List GoBytes

def byte (c : Char) : UInt8 := UInt8.ofNat c.toNat

/-- The part of a URL for which a text is escaped. -/
inductive Encoding
  | path
  | host
  | userPassword
  | queryComponent
  | fragment
  deriving DecidableEq

structure Userinfo where
  username : Bytes
  password : Option Bytes
  deriving DecidableEq

structure URL where
  scheme : Bytes := []
  rootless : Bytes := []
  user : Option Userinfo := none
  host : Bytes := []
  path : Bytes := []
  rawPath : Bytes := []
  omitHost : Bool := false
  forceQuery : Bool := false
  rawQuery : Bytes := []
  fragment : Bytes := []
  rawFragment : Bytes := []
  deriving DecidableEq

def isLetter (b : UInt8) : Bool := decide (65 ≤ b ∧ b ≤ 90 ∨ 97 ≤ b ∧ b ≤ 122)

def isDigit (b : UInt8) : Bool := decide (48 ≤ b ∧ b ≤ 57)

def isHex (b : UInt8) : Bool := isDigit b || decide (65 ≤ b ∧ b ≤ 70 ∨ 97 ≤ b ∧ b ≤ 102)

def unhex (b : UInt8) : UInt8 :=
  if isDigit b then b - 48 else if 97 ≤ b then b - 87 else b - 55

def isCTL (b : UInt8) : Bool := decide (b < 32 ∨ b = 127)

def shouldEscape (mode : Encoding) (c : UInt8) : Bool :=
  if isLetter c || isDigit c then false
  else if mode = .host ∧ c ∈ ascii "!$&'()*+,;=:[]<>\"" then false
  else if c ∈ ascii "-_.~" then false
  else if c ∈ ascii "$&+,/:;=?@" then
    match mode with
    | .path => decide (c = byte '?')
    | .userPassword => decide (c ∈ ascii "@/?:")
    | .fragment => false
    | _ => true
  else !(decide (mode = .fragment ∧ c ∈ ascii "!()*"))

def upperHex (n : UInt8) : UInt8 := if n < 10 then n + 48 else n + 55

/-- `escape`; a blank of a query is written as a plus sign. -/
def escape (mode : Encoding) (s : Bytes) : Bytes :=
  s.flatMap fun c =>
    if shouldEscape mode c then
      if c = 32 ∧ mode = .queryComponent then [byte '+']
      else [byte '%', upperHex (c / 16), upperHex (c % 16)]
    else [c]

/-- `unescape` for a part other than the host; `none` stands for its errors. -/
def unescape (mode : Encoding) : Bytes → Option Bytes
  | [] => some []
  | c :: s =>
    if c = byte '%' then
      match s with
      | a :: b :: rest =>
        if isHex a && isHex b then
          (unescape mode rest).map fun t => (unhex a * 16 + unhex b) :: t
        else none
      | _ => none
    else
      (unescape mode s).map fun t =>
        (if c = byte '+' ∧ mode = .queryComponent then 32 else c) :: t

/-- `validEncoded`: whether a text may stand in a URL as it is. -/
def validEncoded (mode : Encoding) (s : Bytes) : Bool :=
  s.all fun c => decide (c ∈ ascii "!$&'()*+,;=:@[]%") || !shouldEscape mode c

/-- `getScheme`, after the letters of `scheme`; a colon at the start is an error. -/
def schemeFrom (raw scheme : Bytes) : Bytes → Option (Bytes × Bytes)
  | [] => some ([], raw)
  | c :: s =>
    if isLetter c then schemeFrom raw (scheme ++ [c]) s
    else if isDigit c || decide (c ∈ ascii "+-.") then
      if scheme = [] then some ([], raw) else schemeFrom raw (scheme ++ [c]) s
    else if c = byte ':' then
      if scheme = [] then none else some (scheme, s)
    else some ([], raw)

def getScheme (raw : Bytes) : Option (Bytes × Bytes) := schemeFrom raw [] raw

def validUserinfo (s : Bytes) : Bool :=
  s.all fun c => isLetter c || isDigit c || decide (c ∈ ascii "-._:~!$&'()*+,;=%@")

/-- The user that stands before the last at sign. -/
def parseUserinfo (userinfo : Bytes) : Option Userinfo :=
  if validUserinfo userinfo then
    match cut userinfo [byte ':'] with
    | none => (unescape .userPassword userinfo).map fun name => ⟨name, none⟩
    | some (name, password) =>
      (unescape .userPassword name).bind fun name =>
        (unescape .userPassword password).map fun password => ⟨name, some password⟩
  else none

/-! Releases of Go differ in the hosts they accept: `parseHost` reads the host of a scheme. -/
section

variable (parseHost : Bytes → Bytes → Option Bytes)

def parseAuthority (scheme authority : Bytes) : Option (Option Userinfo × Bytes) :=
  match cutLast authority (byte '@') with
  | none => (parseHost scheme authority).map fun host => (none, host)
  | some (userinfo, host) =>
    (parseHost scheme host).bind fun host =>
      (parseUserinfo userinfo).map fun user => (some user, host)

def URL.setPath (u : URL) (p : Bytes) : Option URL :=
  (unescape .path p).map fun path =>
    { u with path, rawPath := if p = escape .path path then [] else p }

def URL.setFragment (u : URL) (f : Bytes) : Option URL :=
  (unescape .fragment f).map fun fragment =>
    { u with fragment, rawFragment := if f = escape .fragment fragment then [] else f }

/-- The rest of a URL without the query, whether it ends in an empty query, and its query. -/
def splitQuery (rest : Bytes) : Bytes × Bool × Bytes :=
  if rest.getLast? = some (byte '?') ∧ rest.count (byte '?') = 1 then (rest.dropLast, true, [])
  else
    match cut rest [byte '?'] with
    | none => (rest, false, [])
    | some (before, query) => (before, false, query)

/-- The text up to the first slash, and the text from there. -/
def splitAuthority (s : Bytes) : Bytes × Bytes :=
  (s.takeWhile (· ≠ byte '/'), s.dropWhile (· ≠ byte '/'))

/-- What follows the scheme, without the query. -/
def parseHierarchy (u : URL) (rest : Bytes) : Option URL :=
  if rest.head? ≠ some (byte '/') ∧ u.scheme ≠ [] then some { u with rootless := rest }
  else if rest.head? ≠ some (byte '/') ∧ byte ':' ∈ (splitAuthority rest).1 then none
  else if (u.scheme ≠ [] ∨ ¬ (ascii "///").isPrefixOf rest) ∧ (ascii "//").isPrefixOf rest then
    (parseAuthority parseHost u.scheme (splitAuthority (rest.drop 2)).1).bind fun a =>
      { u with user := a.1, host := a.2 }.setPath (splitAuthority (rest.drop 2)).2
  else if u.scheme ≠ [] ∧ rest.head? = some (byte '/') then { u with omitHost := true }.setPath rest
  else u.setPath rest

/-- `parse` of a URL without a fragment. -/
def parseWithoutFragment (raw : Bytes) : Option URL :=
  if raw.any isCTL then none
  else if raw = ascii "*" then some { path := ascii "*" }
  else
    (getScheme raw).bind fun s =>
      let q := splitQuery s.2
      parseHierarchy parseHost
        { scheme := s.1.map lowerASCII, forceQuery := q.2.1, rawQuery := q.2.2 } q.1

/-- `url.Parse`; `none` stands for its errors. -/
def parse (raw : Bytes) : Option URL :=
  match cut raw [byte '#'] with
  | none => parseWithoutFragment parseHost raw
  | some (before, fragment) =>
    (parseWithoutFragment parseHost before).bind fun u =>
      if fragment = [] then some u else u.setFragment fragment

end

def Userinfo.string (u : Userinfo) : Bytes :=
  match u.password with
  | none => escape .userPassword u.username
  | some password =>
    escape .userPassword u.username ++ [byte ':'] ++ escape .userPassword password

def URL.escapedPath (u : URL) : Bytes :=
  if u.rawPath ≠ [] ∧ validEncoded .path u.rawPath ∧ unescape .path u.rawPath = some u.path then
    u.rawPath
  else if u.path = ascii "*" then ascii "*"
  else escape .path u.path

def URL.escapedFragment (u : URL) : Bytes :=
  if u.rawFragment ≠ [] ∧ validEncoded .fragment u.rawFragment ∧
      unescape .fragment u.rawFragment = some u.fragment then
    u.rawFragment
  else escape .fragment u.fragment

/-- The user and the host, with the slashes before them. -/
def URL.authority (u : URL) : Bytes :=
  if u.scheme = [] ∧ u.host = [] ∧ u.user = none then []
  else if u.omitHost ∧ u.host = [] ∧ u.user = none then []
  else
    (if u.host ≠ [] ∨ u.path ≠ [] ∨ u.user ≠ none then ascii "//" else []) ++
    (match u.user with
      | none => []
      | some user => user.string ++ [byte '@']) ++
    escape .host u.host

/-- What `String` writes before the query. -/
def URL.location (u : URL) : Bytes :=
  let start := if u.scheme = [] then [] else u.scheme ++ [byte ':']
  if u.rootless ≠ [] then start ++ u.rootless
  else
    let path := u.escapedPath
    let start := start ++ u.authority ++
      if path ≠ [] ∧ path.head? ≠ some (byte '/') ∧ u.host ≠ [] then [byte '/'] else []
    start ++ (if start = [] ∧ byte ':' ∈ (splitAuthority path).1 then ascii "./" else []) ++ path

/-- What `String` writes after the query. -/
def URL.ending (u : URL) : Bytes :=
  if u.fragment = [] then [] else [byte '#'] ++ u.escapedFragment

def URL.string (u : URL) : Bytes :=
  u.location ++ (if u.forceQuery ∨ u.rawQuery ≠ [] then [byte '?'] ++ u.rawQuery else []) ++ u.ending

def SchemeByte (c : UInt8) : Prop := isLetter c = true ∨ isDigit c = true ∨ c ∈ ascii "+-."

variable {s : Bytes}

theorem schemeFrom_append_colon (raw : Bytes) {acc : Bytes} (hacc : acc ≠ [])
    (hs : ∀ c ∈ s, SchemeByte c) (t : Bytes) : schemeFrom raw acc (s ++ byte ':' :: t) = some (acc ++ s, t) := by
  induction s generalizing acc with
  | nil =>
    rw [nil_append, schemeFrom, if_neg (by decide), if_neg (by decide), if_pos rfl,
      if_neg hacc, append_nil]
  | cons c s ih =>
    obtain ⟨hc, hs⟩ := forall_mem_cons.mp hs
    have hnext := ih (append_ne_nil_of_right_ne_nil acc (cons_ne_nil c [])) hs
    rw [append_assoc, singleton_append] at hnext
    rw [cons_append, schemeFrom]
    by_cases hletter : isLetter c = true
    · rw [if_pos hletter, hnext]
    · have hother : (isDigit c || decide (c ∈ ascii "+-.")) = true := by
        simpa using hc.resolve_left hletter
      rw [if_neg hletter, if_pos hother, if_neg hacc, hnext]

variable {a : Bytes}

/-- A query does not matter for the scheme. -/
theorem schemeFrom_append_mark {r : Bytes} (ha : byte '?' ∉ a) (hr : byte '?' ∉ r) (acc : Bytes) :
    ∃ found : Option (Bytes × Bytes), (∀ s ∈ found, byte '?' ∉ s.2) ∧
      ∀ t, schemeFrom (r ++ byte '?' :: t) acc (a ++ byte '?' :: t) =
        found.map fun s => (s.1, s.2 ++ byte '?' :: t) := by
  induction a generalizing acc with
  | nil =>
    refine ⟨some ([], r), by simpa using hr, fun t => ?_⟩
    rfl
  | cons c a ih =>
    rw [mem_cons, not_or] at ha
    simp only [cons_append, schemeFrom]
    split
    · exact ih ha.2 _
    · split
      · split
        · exact ⟨some ([], r), by simpa using hr, fun t => rfl⟩
        · exact ih ha.2 _
      · split
        · split
          · exact ⟨none, nofun, fun t => rfl⟩
          · exact ⟨some (acc, a), by simpa using ha.2, fun t => rfl⟩
        · exact ⟨some ([], r), by simpa using hr, fun t => rfl⟩

theorem splitQuery_append_mark {t : Bytes} (ha : byte '?' ∉ a) (ht : t ≠ []) :
    splitQuery (a ++ byte '?' :: t) = (a, false, t) := by
  have hnot : ¬ ((a ++ byte '?' :: t).getLast? = some (byte '?') ∧
      (a ++ byte '?' :: t).count (byte '?') = 1) := by
    intro h
    have hcount : t.count (byte '?') = 0 := by
      have hone := h.2
      rw [count_append, count_cons_self] at hone
      omega
    have hlast : t.getLast? = some (byte '?') := by
      obtain ⟨c, t, rfl⟩ := exists_cons_of_ne_nil ht
      simpa [getLast?_cons] using h.1
    exact count_eq_zero.mp hcount (mem_of_getLast? hlast)
  rw [splitQuery, if_neg hnot, cut_singleton_append ha]

variable (parseHost : Bytes → Bytes → Option Bytes)

theorem parseHierarchy_rawQuery (u : URL)
    (t rest : Bytes) :
    parseHierarchy parseHost { u with rawQuery := t } rest =
      (parseHierarchy parseHost u rest).map fun v => { v with rawQuery := t } := by
  simp only [parseHierarchy, URL.setPath]
  split
  · rfl
  · split
    · rfl
    · split
      · simp only [Option.map_bind, Function.comp_def, Option.map_map]
      · split
        · rw [Option.map_map]
          rfl
        · rw [Option.map_map]
          rfl

/-- A query is kept as it is. -/
theorem parseWithoutFragment_append_mark (ha : byte '?' ∉ a) :
    ∃ parsed : Option URL, ∀ t, t ≠ [] →
      parseWithoutFragment parseHost (a ++ byte '?' :: t) =
        if (a ++ byte '?' :: t).any isCTL then none else parsed.map fun u => { u with rawQuery := t } := by
  obtain ⟨found, hfound, hscheme⟩ := schemeFrom_append_mark ha ha []
  refine ⟨found.bind fun s => parseHierarchy parseHost { scheme := s.1.map lowerASCII } s.2, fun t ht => ?_⟩
  rw [parseWithoutFragment]
  split
  · rfl
  · have hstar : a ++ byte '?' :: t ≠ ascii "*" := by
      intro h
      have hmem : byte '?' ∈ ascii "*" := h ▸ by simp
      exact absurd hmem (by decide)
    rw [if_neg hstar, getScheme, hscheme t]
    cases found with
    | none => rfl
    | some s =>
      simp only [Option.map_some, Option.bind_some, splitQuery_append_mark (hfound s rfl) ht]
      exact parseHierarchy_rawQuery parseHost { scheme := s.1.map lowerASCII } t s.2

theorem string_rawQuery (u : URL) {t : Bytes} (ht : t ≠ []) :
    { u with rawQuery := t }.string = u.location ++ byte '?' :: t ++ u.ending := by
  rw [URL.string, if_pos (.inr ht)]
  rfl

theorem splitQuery_append (h : byte '?' ∉ a) (b : Bytes) :
    splitQuery (a ++ b) = (a ++ (splitQuery b).1, (splitQuery b).2) := by
  have hcount : (a ++ b).count (byte '?') = b.count (byte '?') := by
    rw [count_append, count_eq_zero_of_not_mem h, Nat.zero_add]
  rw [splitQuery, splitQuery, hcount, cut_append_of_notMem h]
  cases b with
  | nil =>
    rw [if_neg (by simp)]
    rfl
  | cons c b =>
    have hlast : (a ++ c :: b).getLast? = (c :: b).getLast? := by
      simp [getLast?_cons]
    rw [hlast]
    split
    · rw [dropLast_append_of_ne_nil (cons_ne_nil c b)]
    · cases cut (c :: b) [byte '?'] with
      | none | some p => rfl

theorem splitQuery_fst (s : Bytes) : (splitQuery s).1 <+: s ∧ byte '?' ∉ (splitQuery s).1 := by
  rw [splitQuery]
  split
  · rename_i h
    obtain ⟨s, rfl⟩ := getLast?_eq_some_iff.mp h.1
    have hcount : s.count (byte '?') = 0 := by simpa using h.2
    rw [dropLast_concat]
    exact ⟨prefix_append _ _, count_eq_zero.mp hcount⟩
  · obtain ⟨hs, hcut⟩ | ⟨before, query, hbefore, rfl, hcut⟩ := cut_singleton_cases (byte '?') s
    · rw [hcut]
      exact ⟨prefix_rfl, hs⟩
    · rw [hcut]
      exact ⟨prefix_append _ _, hbefore⟩

theorem splitAuthority_append (h : byte '/' ∉ a) (b : Bytes) :
    splitAuthority (a ++ b) = (a ++ (splitAuthority b).1, (splitAuthority b).2) := by
  have hpass : ∀ c ∈ a, decide (c ≠ byte '/') = true := by
    intro c hc
    exact decide_eq_true fun heq => h (heq ▸ hc)
  rw [splitAuthority, splitAuthority, takeWhile_append_of_pos hpass, dropWhile_append_of_pos hpass]

theorem notMem_of_validUserinfo (h : validUserinfo s = true) {c : UInt8} (hc : validUserinfo [c] = false) : c ∉ s := by
  intro hmem
  rw [validUserinfo, all_cons, all_nil, Bool.and_true] at hc
  exact Bool.false_ne_true (hc.symm.trans (all_eq_true.mp h c hmem))

theorem any_isCTL_of_validUserinfo (h : validUserinfo s = true) : s.any isCTL = false := by
  have hmarks : (ascii "-._:~!$&'()*+,;=%@").any isCTL = false := by decide
  refine any_eq_false.mpr fun c hc => Bool.eq_false_iff.mp ?_
  have hvalid := all_eq_true.mp h c hc
  rw [Bool.or_eq_true, Bool.or_eq_true, decide_eq_true_eq] at hvalid
  obtain (hletter | hdigit) | hmark := hvalid
  · rw [isLetter] at hletter
    rw [isCTL]
    grind
  · rw [isDigit] at hdigit
    rw [isCTL]
    grind
  · exact Bool.eq_false_iff.mpr (any_eq_false.mp hmarks c hmark)

theorem parseUserinfo_append_colon {user p : Bytes} (huser : validUserinfo user = true)
    (hcolon : byte ':' ∉ user) (hp : validUserinfo p = true) :
    parseUserinfo (user ++ byte ':' :: p) =
      (unescape .userPassword user).bind fun name =>
        (unescape .userPassword p).map fun password => ⟨name, some password⟩ := by
  have hvalid : validUserinfo (user ++ byte ':' :: p) = true := by
    rw [validUserinfo, all_append, all_cons, ← validUserinfo, huser, ← validUserinfo, hp]
    rfl
  rw [parseUserinfo, if_pos hvalid, cut_singleton_append hcolon]

end Spectra.Library.GoUrl
