import Spectra.Dbinspect.Redact
import Mathlib.Data.List.TakeWhile

/-! Passwords in URLs. -/
namespace Spectra.Dbinspect
open List Option Library GoBytes GoUrl

variable {parseHost : Bytes → Bytes → Option Bytes}

theorem redactURLDSN_eq (dsn : Bytes) :
    redactURLDSN parseHost dsn =
      (((parse parseHost dsn).map maskPassword).map fun u =>
        replaceFirst u.string (escape .queryComponent redacted) redacted).getD redacted := by
  rw [redactURLDSN]
  cases parse parseHost dsn with
  | none | some u => rfl

private theorem map_maskPassword_setFragment (u : URL) (f : Bytes) :
    (u.setFragment f).map maskPassword = (maskPassword u).setFragment f := by
  rw [URL.setFragment, Option.map_map]
  obtain ⟨scheme, rootless, _ | ⟨username, _ | password⟩⟩ := u <;> rfl

private theorem map_maskPassword_bind_fragment (parsed : Option URL) (fragment : Bytes) :
    (parsed.bind fun u => if fragment = [] then some u else u.setFragment fragment).map
        maskPassword =
      (parsed.map maskPassword).bind fun u => if fragment = [] then some u else u.setFragment fragment := by
  cases parsed with
  | none => rfl
  | some u =>
    split
    · rfl
    · exact map_maskPassword_setFragment u fragment

/-- A URL whose user has a password, with a hole for it. -/
structure UserinfoForm where
  scheme : Bytes
  user : Bytes
  rest : Bytes
  scheme_head : ∃ c ∈ scheme.head?, isLetter c = true
  scheme_tail : ∀ c ∈ scheme.tail, SchemeByte c
  user_valid : validUserinfo user = true
  user_colon : byte ':' ∉ user
  /-- The host has no at sign. -/
  rest_at : byte '@' ∉ rest.takeWhile fun c => decide (c ∉ ascii "/?#")

/-- The text between the slashes and the host. -/
def UserinfoForm.userinfo (f : UserinfoForm) (p : Bytes) : Bytes :=
  f.user ++ byte ':' :: (p ++ [byte '@'])

def UserinfoForm.fill (f : UserinfoForm) (p : Bytes) : Bytes :=
  f.scheme ++ (ascii "://" ++ (f.userinfo p ++ f.rest))

def UserinfoPassword (p : Bytes) : Prop :=
  validUserinfo p = true ∧ (unescape .userPassword p).isSome

namespace UserinfoForm

variable {f : UserinfoForm} {p q : Bytes}

theorem validUserinfo_userinfo (hp : UserinfoPassword p) : validUserinfo (f.userinfo p) = true := by
  have huser := f.user_valid
  have hpassword := hp.1
  rw [validUserinfo] at huser hpassword
  simp only [validUserinfo, userinfo, all_append, all_cons, huser, hpassword]
  rfl

theorem notMem_userinfo (hp : UserinfoPassword p) {c : UInt8} (hc : validUserinfo [c] = false) : c ∉ f.userinfo p :=
  notMem_of_validUserinfo (validUserinfo_userinfo hp) hc

theorem parseAuthority_userinfo (hp : UserinfoPassword p) {host : Bytes}
    (hhost : byte '@' ∉ host) (scheme : Bytes) :
    (parseAuthority parseHost scheme (f.userinfo p ++ host)) =
      (parseHost scheme host).bind fun h =>
        (unescape .userPassword f.user).map fun name => (some ⟨name, unescape .userPassword p⟩, h) := by
  have hsplit : f.userinfo p ++ host = (f.user ++ byte ':' :: p) ++ byte '@' :: host := by
    simp [userinfo]
  obtain ⟨password, hpassword⟩ := isSome_iff_exists.mp hp.2
  rw [hsplit, parseAuthority, cutLast_append_cons hhost]
  simp only [parseUserinfo_append_colon f.user_valid f.user_colon hp.1, hpassword]
  cases unescape .userPassword f.user <;> rfl

variable {b : Bytes}

/-- Up to the mask, what follows the scheme is read alike for all passwords. -/
theorem map_maskPassword_parseHierarchy (hp : UserinfoPassword p) (hq : UserinfoPassword q)
    {u : URL} (hscheme : u.scheme ≠ []) (hb : byte '@' ∉ (splitAuthority b).1) :
    (parseHierarchy parseHost u (ascii "//" ++ (f.userinfo p ++ b))).map maskPassword =
      (parseHierarchy parseHost u (ascii "//" ++ (f.userinfo q ++ b))).map maskPassword := by
  have hread (p : Bytes) (hp : UserinfoPassword p) :
      parseHierarchy parseHost u (ascii "//" ++ (f.userinfo p ++ b)) =
        ((parseHost u.scheme (splitAuthority b).1).bind fun h =>
          (unescape .userPassword f.user).map fun name =>
            (some ⟨name, unescape .userPassword p⟩, h)).bind fun a =>
          { u with user := a.1, host := a.2 }.setPath (splitAuthority b).2 := by
    have hslash : byte '/' ∉ f.userinfo p := notMem_userinfo hp (by decide)
    have hdrop : (ascii "//" ++ (f.userinfo p ++ b)).drop 2 = f.userinfo p ++ b := rfl
    rw [parseHierarchy, if_neg (fun h => h.1 rfl), if_neg (fun h => h.1 rfl),
      if_pos ⟨.inl hscheme, by simp⟩, hdrop, splitAuthority_append hslash,
      parseAuthority_userinfo hp hb]
  rw [hread p hp, hread q hq]
  obtain ⟨pw, hpw⟩ := isSome_iff_exists.mp hp.2
  obtain ⟨qw, hqw⟩ := isSome_iff_exists.mp hq.2
  rw [hpw, hqw]
  cases parseHost u.scheme (splitAuthority b).1 with
  | none => rfl
  | some host =>
    cases unescape .userPassword f.user with
    | none => rfl
    | some name =>
      simp only [bind_some, map_some, URL.setPath, Option.map_map]
      rfl

theorem getScheme_fill (t : Bytes) : getScheme (f.scheme ++ byte ':' :: t) = some (f.scheme, t) := by
  obtain ⟨c, hc, hletter⟩ := f.scheme_head
  have hscheme : f.scheme = c :: f.scheme.tail := (cons_head?_tail hc).symm
  rw [hscheme, getScheme, cons_append, schemeFrom, if_pos hletter]
  exact schemeFrom_append_colon _ (cons_ne_nil c []) f.scheme_tail t

theorem scheme_ne_nil : f.scheme ≠ [] := by
  obtain ⟨c, hc, -⟩ := f.scheme_head
  intro hnil
  rw [hnil] at hc
  exact nomatch hc

theorem hash_notMem_scheme : byte '#' ∉ f.scheme := by
  obtain ⟨c, hc, hletter⟩ := f.scheme_head
  have htail : byte '#' ∉ f.scheme.tail := by
    intro h
    obtain hletter | hdigit | hmark := f.scheme_tail _ h
    · exact absurd hletter (by decide)
    · exact absurd hdigit (by decide)
    · exact absurd hmark (by decide)
  rw [← cons_head?_tail hc, mem_cons, not_or]
  refine ⟨?_, htail⟩
  rintro rfl
  exact absurd hletter (by decide)

variable (parseHost f) in
/-- Up to the mask, a URL without a fragment is read alike for all passwords. -/
theorem map_maskPassword_parseWithoutFragment (hp : UserinfoPassword p) (hq : UserinfoPassword q)
    (hb : byte '@' ∉ (splitAuthority (splitQuery b).1).1) :
    (parseWithoutFragment parseHost
        (f.scheme ++ (ascii "://" ++ (f.userinfo p ++ b)))).map maskPassword =
      (parseWithoutFragment parseHost (f.scheme ++ (ascii "://" ++ (f.userinfo q ++ b)))).map maskPassword := by
  have hread (p : Bytes) (hp : UserinfoPassword p) :
      parseWithoutFragment parseHost (f.scheme ++ (ascii "://" ++ (f.userinfo p ++ b))) =
        if f.scheme.any isCTL || b.any isCTL then none
        else
          parseHierarchy parseHost
            { scheme := f.scheme.map lowerASCII, forceQuery := (splitQuery b).2.1,
              rawQuery := (splitQuery b).2.2 }
            (ascii "//" ++ (f.userinfo p ++ (splitQuery b).1)) := by
    have hctl : (f.scheme ++ (ascii "://" ++ (f.userinfo p ++ b))).any isCTL =
        (f.scheme.any isCTL || b.any isCTL) := by
      have hslashes : (ascii "://").any isCTL = false := by decide
      rw [any_append, any_append, any_append, hslashes,
        any_isCTL_of_validUserinfo (validUserinfo_userinfo hp), Bool.false_or, Bool.false_or]
    have hstar : f.scheme ++ (ascii "://" ++ (f.userinfo p ++ b)) ≠ ascii "*" := by
      intro h
      have hlength := congrArg length h
      simp [ascii] at hlength
      omega
    have hmark : byte '?' ∉ ascii "//" ++ f.userinfo p := by
      rw [mem_append, not_or]
      exact ⟨by decide, notMem_userinfo hp (by decide)⟩
    have hrest : getScheme (f.scheme ++ (ascii "://" ++ (f.userinfo p ++ b))) =
        some (f.scheme, (ascii "//" ++ f.userinfo p) ++ b) := getScheme_fill _
    rw [parseWithoutFragment, hctl, if_neg hstar, hrest]
    simp only [bind_some]
    rw [splitQuery_append hmark]
    simp
  rw [hread p hp, hread q hq]
  split
  · rfl
  · refine map_maskPassword_parseHierarchy hp hq ?_ hb
    simpa using scheme_ne_nil

theorem at_notMem_of_prefix {host : Bytes} (h : host <+: f.rest)
    (hhost : ∀ c ∈ host, c ∉ ascii "/?#") : byte '@' ∉ host := by
  obtain ⟨tail, htail⟩ := h
  have hat := f.rest_at
  rw [← htail, takeWhile_append_of_pos fun c hc => decide_eq_true (hhost c hc)] at hat
  exact fun hmem => hat (mem_append_left _ hmem)

theorem at_notMem_host (hb : b <+: f.rest) (hfragment : byte '#' ∉ b) :
    byte '@' ∉ (splitAuthority (splitQuery b).1).1 := by
  have hhost : (splitAuthority (splitQuery b).1).1 <+: (splitQuery b).1 := takeWhile_prefix _
  obtain ⟨hquery, hmark⟩ := splitQuery_fst b
  refine at_notMem_of_prefix ((hhost.trans hquery).trans hb) fun c hc hdelimiter => ?_
  have hslash : decide (c ≠ byte '/') = true :=
    mem_takeWhile_imp (p := fun c => decide (c ≠ byte '/')) hc
  have hcases : c = byte '/' ∨ c = byte '?' ∨ c = byte '#' := by
    simpa [ascii, byte] using hdelimiter
  obtain rfl | rfl | rfl := hcases
  · exact of_decide_eq_true hslash rfl
  · exact hmark (hhost.subset hc)
  · exact hfragment (hquery.subset (hhost.subset hc))

variable (hp : UserinfoPassword p) (hq : UserinfoPassword q)
include hp hq

theorem map_maskPassword_parse :
    (parse parseHost (f.fill p)).map maskPassword = (parse parseHost (f.fill q)).map maskPassword := by
  have hhead (p : Bytes) (hp : UserinfoPassword p) :
      byte '#' ∉ f.scheme ++ (ascii "://" ++ f.userinfo p) := by
    simp only [mem_append, not_or]
    exact ⟨hash_notMem_scheme, by decide, notMem_userinfo hp (by decide)⟩
  have hcut (p : Bytes) (hp : UserinfoPassword p) :
      cut (f.fill p) [byte '#'] = (cut f.rest [byte '#']).map fun c =>
        (f.scheme ++ (ascii "://" ++ (f.userinfo p ++ c.1)), c.2) := by
    have hfill : f.fill p = (f.scheme ++ (ascii "://" ++ f.userinfo p)) ++ f.rest := by
      simp [fill]
    rw [hfill, cut_append_of_notMem (hhead p hp)]
    simp
  rw [parse, parse, hcut p hp, hcut q hq]
  obtain ⟨hrest, hnone⟩ | ⟨before, fragment, hbefore, hrest, hsome⟩ :=
    cut_singleton_cases (byte '#') f.rest
  · rw [hnone]
    exact map_maskPassword_parseWithoutFragment parseHost f hp hq (at_notMem_host prefix_rfl hrest)
  · have hat := at_notMem_host (hrest ▸ prefix_append before _) hbefore
    have hmask := map_maskPassword_parseWithoutFragment parseHost f hp hq hat
    rw [hsome]
    simp only [map_some, map_maskPassword_bind_fragment, hmask]

theorem redactDSN_fill : redactDSN parseHost (f.fill p) = redactDSN parseHost (f.fill q) := by
  have hroute (p : Bytes) :
      redactDSN parseHost (f.fill p) = redactURLDSN parseHost (f.fill p) := by
    have hne : f.fill p ≠ [] := append_ne_nil_of_left_ne_nil scheme_ne_nil _
    have hcontains : contains (f.fill p) (ascii "://") = true :=
      contains_iff.mpr ⟨f.scheme, f.userinfo p ++ f.rest, by simp [fill]⟩
    rw [redactDSN, if_neg hne, if_pos hcontains]
  rw [hroute, hroute, redactURLDSN_eq, redactURLDSN_eq, map_maskPassword_parse hp hq]

end UserinfoForm

/-- A URL with a password in its query, with a hole for it. -/
structure QueryForm where
  location : Bytes
  /-- The parameters before the password. -/
  query : Bytes
  rest : Bytes
  location_url : contains location (ascii "://") = true
  location_mark : byte '?' ∉ location
  location_hash : byte '#' ∉ location
  query_hash : byte '#' ∉ query
  query_end : ∀ c ∈ query.getLast?, c = byte '&'
  rest_head : ∀ c ∈ rest.head?, c = byte '&' ∨ c = byte '#'

def QueryPassword (p : Bytes) : Prop :=
  byte '&' ∉ p ∧ byte '#' ∉ p

namespace QueryForm

variable {f : QueryForm} {p q : Bytes}

/-- The query up to the password. -/
def key (f : QueryForm) : Bytes := f.query ++ ascii "password="

def fill (f : QueryForm) (p : Bytes) : Bytes :=
  f.location ++ byte '?' :: (f.key ++ (p ++ f.rest))

theorem maskPassword_rawQuery (u : URL) (t : Bytes) :
    maskPassword { u with rawQuery := t } = { maskPassword u with rawQuery := t } := by
  obtain ⟨scheme, rootless, _ | ⟨username, _ | password⟩⟩ := u <;> rfl

theorem setFragment_rawQuery (u : URL) (t fragment : Bytes) :
    { u with rawQuery := t }.setFragment fragment =
      (u.setFragment fragment).map fun v => { v with rawQuery := t } := by
  rw [URL.setFragment, URL.setFragment, Option.map_map]
  rfl

theorem key_append_ne_nil (t : Bytes) : f.key ++ t ≠ [] := by
  simp [key, ascii]

theorem hash_notMem_fill (hp : QueryPassword p) : byte '#' ∉ f.location ++ byte '?' :: (f.key ++ p) := by
  simp only [key, mem_append, mem_cons, not_or]
  exact ⟨f.location_hash, by decide, ⟨f.query_hash, by decide⟩, hp.2⟩

variable (parseHost) in
/-- All that is read of the password is a part of the query. -/
theorem exists_parse_fill (f : QueryForm) :
    ∃ (parsed : Option URL) (tail : Bytes), ∀ p, QueryPassword p →
      (parse parseHost (f.fill p)).isSome →
      parse parseHost (f.fill p) = parsed.map fun u => { u with rawQuery := f.key ++ (p ++ tail) } := by
  obtain ⟨parsed, hparsed⟩ := parseWithoutFragment_append_mark parseHost f.location_mark
  have hfill (p : Bytes) :
      f.fill p = (f.location ++ byte '?' :: (f.key ++ p)) ++ f.rest := by
    simp [fill]
  have hread (p tail : Bytes) := hparsed (f.key ++ (p ++ tail)) (key_append_ne_nil _)
  obtain ⟨-, hnone⟩ | ⟨before, fragment, -, -, hsome⟩ := cut_singleton_cases (byte '#') f.rest
  · refine ⟨parsed, f.rest, fun p hp hsome => ?_⟩
    have hparse : parse parseHost (f.fill p) = parseWithoutFragment parseHost (f.fill p) := by
      rw [parse, hfill, cut_append_of_notMem (hash_notMem_fill hp), hnone]
      rfl
    rw [hparse, fill, hread] at hsome ⊢
    split
    · rename_i hctl
      rw [if_pos hctl] at hsome
      exact nomatch hsome
    · rfl
  · refine ⟨parsed.bind fun u => if fragment = [] then some u else u.setFragment fragment, before,
      fun p hp hisSome => ?_⟩
    have hbefore : f.location ++ byte '?' :: (f.key ++ p) ++ before =
        f.location ++ byte '?' :: (f.key ++ (p ++ before)) := by simp
    have hparse : parse parseHost (f.fill p) =
        (parseWithoutFragment parseHost (f.location ++ byte '?' :: (f.key ++ (p ++ before)))).bind
          fun u => if fragment = [] then some u else u.setFragment fragment := by
      rw [parse, hfill, cut_append_of_notMem (hash_notMem_fill hp), hsome, ← hbefore]
      rfl
    rw [hparse, hread] at hisSome ⊢
    split
    · rename_i hctl
      rw [if_pos hctl] at hisSome
      exact nomatch hisSome
    · cases parsed with
      | none => rfl
      | some u =>
        simp only [map_some, bind_some, setFragment_rawQuery]
        split <;> rfl

/-- A password in a query without escapes is shown: the results are equal only for equal
passwords. -/
theorem redactDSN_fill_iff (hp : QueryPassword p) (hq : QueryPassword q) (hpercent : byte '%' ∉ p ∧ byte '%' ∉ q)
    (hparse : (parse parseHost (f.fill p)).isSome ∧ (parse parseHost (f.fill q)).isSome) :
    redactDSN parseHost (f.fill p) = redactDSN parseHost (f.fill q) ↔ p = q := by
  obtain ⟨parsed, tail, hread⟩ := exists_parse_fill parseHost f
  cases parsed with
  | none =>
    have hnone := hread p hp hparse.1
    rw [hnone] at hparse
    exact nomatch hparse.1
  | some u =>
    have hroute (p : Bytes) (hp : QueryPassword p)
        (hsome : (parse parseHost (f.fill p)).isSome) :
        redactDSN parseHost (f.fill p) =
          replaceFirst ((maskPassword u).location ++ byte '?' :: f.query ++ ascii "password" ++
            byte '=' :: (p ++ (tail ++ (maskPassword u).ending)))
            (escape .queryComponent redacted) redacted := by
      have hne : f.fill p ≠ [] := by simp [fill]
      have hcontains : contains (f.fill p) (ascii "://") = true := by
        rw [contains_iff]
        exact (contains_iff.mp f.location_url).trans (prefix_append _ _).isInfix
      have hstring : { maskPassword u with rawQuery := f.key ++ (p ++ tail) }.string =
          (maskPassword u).location ++ byte '?' :: f.query ++ ascii "password" ++
            byte '=' :: (p ++ (tail ++ (maskPassword u).ending)) := by
        rw [string_rawQuery _ (key_append_ne_nil _)]
        simp [key, ascii, byte]
      rw [redactDSN, if_neg hne, if_pos hcontains, redactURLDSN, hread p hp hsome, map_some,
        ← hstring, ← maskPassword_rawQuery]
    rw [hroute p hp hparse.1, hroute q hq hparse.2]
    constructor
    · intro h
      have hequals : byte '=' ∉ escape .queryComponent redacted := by decide
      obtain ⟨first, hfirst⟩ | hsecond := @replaceFirst_append_cons _ redacted _ hequals (by decide)
        ((maskPassword u).location ++ byte '?' :: f.query ++ ascii "password")
      · rw [hfirst, hfirst] at h
        simpa using h
      · have hpass (p : Bytes) (hpercent : byte '%' ∉ p) (t : Bytes) :
            replaceFirst (p ++ t) (escape .queryComponent redacted) redacted =
              p ++ replaceFirst t (escape .queryComponent redacted) redacted :=
          replaceFirst_append_of_notMem hpercent t
        rw [hsecond, hsecond, hpass p hpercent.1, hpass q hpercent.2] at h
        simpa using h
    · intro h
      rw [h]

end QueryForm

end Spectra.Dbinspect
