import Spectra.Library.GoRuntime
import Spectra.Library.TextSearch
import Mathlib.Tactic.IntervalCases

/-! Go's `encoding/json`. -/
namespace Spectra.Library.GoJson
open TextSearch

abbrev quotation : Char := '\x22'

abbrev backslash : Char := '\x5c'

/-- The characters that have an escape of one letter. -/
def shortEscapes : List (Char × Char) :=
  [(backslash, backslash), (quotation, quotation), ('\x08', 'b'), ('\x0c', 'f'), ('\n', 'n'), ('\r', 'r'), ('\t', 't')]

/-- What follows the backslash of an escaped character; also escaped are, for HTML, angle brackets,
ampersands and two line separators. -/
def escapeOf (c : Char) : Option (List Char) :=
  match shortEscapes.lookup c with
  | some d => some [d]
  | none =>
    if c.toNat < 32 ∨ c = '<' ∨ c = '>' ∨ c = '&' then
      some ['u', '0', '0', Nat.digitChar (c.toNat / 16), Nat.digitChar (c.toNat % 16)]
    else if c = '\u2028' ∨ c = '\u2029' then
      some ['u', '2', '0', '2', Nat.digitChar (c.toNat % 16)]
    else none

def escaped (c : Char) : List Char := (escapeOf c).elim [c] (backslash :: ·)

/-- The text of a string between its quotes. -/
def content (s : String) : List Char := s.toList.flatMap escaped

def appendString (s : String) : List Char := quotation :: (content s ++ [quotation])

/-- `Marshal` of a `map[string]string`: the fields in the order of their names. -/
def marshalMap (m : Std.ExtTreeMap String String) : String :=
  let fields := m.toList.map fun x => appendString x.1 ++ ':' :: appendString x.2
  String.ofList ('\x7b' :: ([','].intercalate fields ++ ['\x7d']))

/-- Characters that `Marshal` writes as they are, or behind a backslash. -/
def Literal (c : Char) : Prop :=
  32 ≤ c.toNat ∧ c ≠ '<' ∧ c ≠ '>' ∧ c ≠ '&' ∧ c ≠ '\u2028' ∧ c ≠ '\u2029'

instance decidableLiteral (c : Char) : Decidable (Literal c) := by
  unfold Literal
  infer_instance

/-- Neither a backslash nor a quote. -/
def Plain (c : Char) : Prop := c ≠ backslash ∧ c ≠ quotation

theorem plain_digitChar {n : ℕ} (h : n < 16) : Plain (Nat.digitChar n) := by
  rw [Plain]
  interval_cases n <;> decide

theorem plain_zero : Plain '0' ∧ Plain '2' := by
  unfold Plain
  decide

/-- Every character has a short escape, a numeric one, or none. -/
theorem escapeOf_cases (c : Char) :
    (∃ d, (c, d) ∈ shortEscapes ∧ escapeOf c = some [d]) ∨
    (∃ digits, escapeOf c = some ('u' :: digits) ∧ digits ≠ [] ∧ (∀ x ∈ digits, Plain x) ∧
      ¬ Literal c) ∨ (escapeOf c = none ∧ Plain c ∧ Literal c) := by
  rw [escapeOf]
  cases hshort : shortEscapes.lookup c with
  | some d => exact .inl ⟨d, mem_of_lookup hshort, rfl⟩
  | none =>
    have hlow := plain_digitChar (Nat.mod_lt c.toNat (show 0 < 16 by omega))
    obtain ⟨hzero, htwo⟩ := plain_zero
    refine .inr ?_
    by_cases hcode : c.toNat < 32 ∨ c = '<' ∨ c = '>' ∨ c = '&'
    · have hhigh : c.toNat / 16 < 16 := by
        have : c.toNat < 64 := by
          rcases hcode with h | rfl | rfl | rfl
          · omega
          all_goals decide
        omega
      rw [if_pos hcode]
      refine .inl ⟨_, rfl, by simp, ?_, ?_⟩
      · simp [hzero, hlow, plain_digitChar hhigh]
      · rintro ⟨h32, hlt, hgt, hamp, -⟩
        rcases hcode with h | h | h | h
        · omega
        all_goals contradiction
    · rw [if_neg hcode]
      by_cases hline : c = '\u2028' ∨ c = '\u2029'
      · rw [if_pos hline]
        refine .inl ⟨_, rfl, by simp, by simp [hzero, htwo, hlow], ?_⟩
        rintro ⟨-, -, -, -, hsep, hpar⟩
        exact hline.elim hsep hpar
      · rw [if_neg hline]
        simp only [not_or, not_lt] at hcode hline
        have hback : (backslash, backslash) ∈ shortEscapes := by decide
        have hquote : (quotation, quotation) ∈ shortEscapes := by decide
        have hplain : Plain c := ⟨ne_of_lookup hshort hback, ne_of_lookup hshort hquote⟩
        exact .inr ⟨rfl, hplain, hcode.1, hcode.2.1, hcode.2.2.1, hcode.2.2.2, hline⟩

theorem escaped_cases (c : Char) :
    (escapeOf c = none ∧ escaped c = [c] ∧ Plain c) ∨
      ∃ d rest, escapeOf c = some (d :: rest) ∧ escaped c = backslash :: d :: rest ∧ ∀ x ∈ rest, Plain x := by
  rw [escaped]
  rcases escapeOf_cases c with ⟨d, -, hd⟩ | ⟨digits, hu, -, hplain, -⟩ | ⟨hnone, hplain, -⟩
  · exact .inr ⟨d, [], hd, by rw [hd]; rfl, by simp⟩
  · exact .inr ⟨'u', digits, hu, by rw [hu]; rfl, hplain⟩
  · exact .inl ⟨hnone, by rw [hnone]; rfl, hplain⟩

theorem quotesEscaped_content (s : String) (c : Char) : QuotesEscaped quotation backslash (c :: content s) := by
  rw [content]
  induction s.toList generalizing c with
  | nil => exact List.isChain_singleton c
  | cons a text ih =>
    rw [List.flatMap_cons]
    rcases escaped_cases a with ⟨-, ha, hplain⟩ | ⟨d, rest, -, ha, hplain⟩
    · rw [ha]
      exact .cons_append (by simpa using hplain.2) ih c
    · rw [ha]
      exact List.isChain_cons_cons.mpr ⟨fun he => absurd he (by decide),
        List.isChain_cons_cons.mpr ⟨fun _ => rfl, QuotesEscaped.cons_append (fun x hx => (hplain x hx).2) ih d⟩⟩

end Spectra.Library.GoJson
