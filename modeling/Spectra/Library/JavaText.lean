import Spectra.Library.GoBytes
import Mathlib.Data.List.DropRight

/-! The parts of Java's `String` and `URLDecoder` that take a URL query apart. -/
namespace Spectra.Library.JavaText
open List

/-- `split` at one character: trailing empty parts are dropped, and a text without the character
is its only part. -/
def split (sep : Char) (s : List Char) : List (List Char) :=
  if sep ∈ s then (s.splitOn sep).rdropWhile List.isEmpty else [s]

/-- `split` with the limit 2: the text before the first separator, and all that follows it. -/
def splitTwo (sep : Char) (s : List Char) : List Char × Option (List Char) :=
  match s.dropWhile (· ≠ sep) with
  | [] => (s, none)
  | _ :: value => (s.takeWhile (· ≠ sep), some value)

/-- The constructor of a string from UTF-8; what it makes of malformed bytes is left open. -/
def ofUtf8 (malformed : List UInt8 → List Char) (bytes : List UInt8) : List Char :=
  match bytes.toByteArray.utf8Decode? with
  | some cs => cs.toList
  | none => malformed bytes

def hexValue (c : Char) : Option UInt8 :=
  if '0' ≤ c ∧ c ≤ '9' then some (UInt8.ofNat (c.toNat - 48))
  else if 'A' ≤ c ∧ c ≤ 'F' then some (UInt8.ofNat (c.toNat - 55))
  else if 'a' ≤ c ∧ c ≤ 'f' then some (UInt8.ofNat (c.toNat - 87))
  else none

/-- `Integer.parseInt` of two characters in base 16, which takes a sign for the first, as far as
the result is not negative. -/
def parsePair (a b : Char) : Option UInt8 :=
  if a = '+' then hexValue b
  else if a = '-' then (hexValue b).filter (· = 0)
  else do
    let high ← hexValue a
    let low ← hexValue b
    pure (16 * high + low)

/-- `URLDecoder.decode` after some escaped bytes; successive escapes are one sequence of UTF-8,
and `none` stands for its exception. -/
def decodeFrom (malformed : List UInt8 → List Char) : List UInt8 → List Char → Option (List Char)
  | bytes, [] => some (ofUtf8 malformed bytes)
  | bytes, c :: cs =>
    if c = '%' then
      match cs with
      | a :: b :: cs => do
        let v ← parsePair a b
        decodeFrom malformed (bytes ++ [v]) cs
      | _ => none
    else do
      let after ← decodeFrom malformed [] cs
      pure (ofUtf8 malformed bytes ++ (if c = '+' then ' ' else c) :: after)

def decode (malformed : List UInt8 → List Char) (s : List Char) : Option (List Char) :=
  decodeFrom malformed [] s

variable {malformed : List UInt8 → List Char}

theorem ofUtf8_encode (s : List Char) : ofUtf8 malformed (s.flatMap String.utf8EncodeChar) = s := by
  have h : (s.flatMap String.utf8EncodeChar).toByteArray.utf8Decode? = some s.toArray :=
    utf8Decode?_utf8Encode
  rw [ofUtf8, h]

theorem split_append_cons {sep : Char} {s t : List Char} (hs : sep ∉ s) (ht : sep ∉ t)
    (hne : t ≠ []) : split sep (s ++ sep :: t) = [s, t] := by
  rw [split, if_pos (mem_append_right _ (.head _)), List.splitOn_append_cons_self,
    List.splitOn_eq_singleton hs, List.splitOn_eq_singleton ht]
  exact rdropWhile_concat_neg _ _ _ (by simpa using hne)

theorem splitTwo_append_cons {sep : Char} {s : List Char} (hs : sep ∉ s) (t : List Char) :
    splitTwo sep (s ++ sep :: t) = (s, some t) := by
  have hall : ∀ c ∈ s, decide (c ≠ sep) = true := fun c hc => by
    simpa using fun he : c = sep => hs (he ▸ hc)
  rw [splitTwo, dropWhile_append_of_pos hall, takeWhile_append_of_pos hall]
  simp

theorem decodeFrom_literal (bytes : List UInt8) {c : Char} (hpercent : c ≠ '%') (hplus : c ≠ '+') (cs : List Char) :
    decodeFrom malformed bytes (c :: cs) =
      (decodeFrom malformed [] cs).bind fun after => some (ofUtf8 malformed bytes ++ c :: after) := by
  cases cs with
  | nil => simp [decodeFrom, hpercent, hplus]
  | cons a cs => cases cs <;> simp [decodeFrom, hpercent, hplus]

/-- `decode` undoes an escaping that writes every character as it is, or as the escape of its
only byte. -/
theorem decode_flatMap {escape : Char → List Char}
    (h : ∀ c, (escape c = [c] ∧ c ≠ '%' ∧ c ≠ '+') ∨
      ∃ a b v, escape c = ['%', a, b] ∧ parsePair a b = some v ∧ String.utf8EncodeChar c = [v])
    (s : List Char) : decode malformed (s.flatMap escape) = some s := by
  suffices hfrom : ∀ u : List Char,
      decodeFrom malformed (u.flatMap String.utf8EncodeChar) (s.flatMap escape) = some (u ++ s) from
    hfrom []
  induction s with
  | nil =>
    intro u
    rw [flatMap_nil, decodeFrom, ofUtf8_encode, append_nil]
  | cons c s ih =>
    intro u
    rw [flatMap_cons]
    rcases h c with ⟨hc, hpercent, hplus⟩ | ⟨a, b, v, hc, hv, hbyte⟩
    · have hrest : decodeFrom malformed [] (s.flatMap escape) = some s := ih []
      rw [hc, singleton_append, decodeFrom_literal _ hpercent hplus, hrest, ofUtf8_encode]
      rfl
    · have hnext := ih (u ++ [c])
      rw [flatMap_append, flatMap_singleton, hbyte, append_assoc] at hnext
      rw [hc]
      change (parsePair a b).bind (fun v => decodeFrom malformed (_ ++ [v]) (s.flatMap escape)) = _
      rw [hv]
      exact hnext

end Spectra.Library.JavaText
