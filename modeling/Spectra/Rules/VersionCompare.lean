import Spectra.Library.GoText

/-! The comparison of version strings in rules, and the precedence of semantic versions. -/
namespace Spectra.Rules
open Library GoText List

def versionParts (raw : List Char) : List ℤ :=
  ((raw.splitOnP fun r => decide (r < '0' ∨ '9' < r)).filter (· ≠ [])).filterMap fun field =>
    atoi (String.ofList field)

/-- The loop over the first `n` parts, where a missing part counts as zero. -/
def compareUpTo : ℕ → List ℤ → List ℤ → ℤ
  | 0, _, _ => 0
  | n + 1, left, right =>
    if left.headD 0 < right.headD 0 then -1
    else if right.headD 0 < left.headD 0 then 1
    else compareUpTo n left.tail right.tail

def compareParts (left right : List ℤ) : ℤ := compareUpTo (max left.length right.length) left right

def compareVersionStrings (a b : List Char) : ℤ := compareParts (versionParts a) (versionParts b)

inductive Identifier
  | numeric (n : ℕ)
  | alphanumeric (s : List Char)

def Identifier.text : Identifier → List Char
  | .numeric n => decimal n
  | .alphanumeric s => s

structure SemVer where
  major : ℕ
  minor : ℕ
  patch : ℕ
  pre : List Identifier := []
  build : List (List Char) := []

namespace SemVer

def suffix (v : SemVer) : List Char :=
  (if v.pre.isEmpty then [] else '-' :: ['.'].intercalate (v.pre.map Identifier.text)) ++
    if v.build.isEmpty then [] else '+' :: ['.'].intercalate v.build

def text (v : SemVer) : List Char :=
  decimal v.major ++ '.' :: (decimal v.minor ++ '.' :: (decimal v.patch ++ v.suffix))

/-- The numbers that the runs of digits in a text write. -/
def runs (s : List Char) : List ℤ :=
  (s.splitOnP fun r => decide (r < '0' ∨ '9' < r)).filterMap fun field =>
    (readNat field).map Int.ofNat

/-- The numbers of a version that fit in an int64, those in its identifiers included. -/
def numbers (v : SemVer) : List ℤ :=
  ([(v.major : ℤ), (v.minor : ℤ), (v.patch : ℤ)] ++ (v.pre.flatMap fun i => runs i.text) ++
    v.build.flatMap runs).filter fun n => decide (n < 2 ^ 63)

end SemVer

open SemVer

variable {c : Char} {n : ℕ}

private theorem compareUpTo_of_le {k : ℕ} {l r : List ℤ} (hl : l.length ≤ n) (hr : r.length ≤ n) (hk : n ≤ k) :
    compareUpTo k l r = compareUpTo n l r := by
  induction k generalizing n l r with
  | zero => rw [Nat.le_zero.mp hk]
  | succ k ih =>
    cases n with
    | zero =>
      rw [length_eq_zero_iff.mp (Nat.le_zero.mp hl), length_eq_zero_iff.mp (Nat.le_zero.mp hr)]
      exact ih le_rfl le_rfl k.zero_le
    | succ n =>
      rw [compareUpTo, compareUpTo, ih (by grind) (by grind) (Nat.le_of_succ_le_succ hk)]

private theorem compareUpTo_swap (l r : List ℤ) : compareUpTo n r l = -compareUpTo n l r := by
  induction n generalizing l r with
  | zero => rfl
  | succ n ih =>
    rw [compareUpTo, compareUpTo, ih]
    grind

private theorem compareUpTo_trans {l m r : List ℤ} (hlm : compareUpTo n l m ≤ 0) (hmr : compareUpTo n m r ≤ 0) :
    compareUpTo n l r ≤ 0 := by
  induction n generalizing l m r with
  | zero => exact le_rfl
  | succ n ih =>
    rw [compareUpTo] at hlm hmr ⊢
    grind

/-- On all texts, versions or not, the comparison is a total preorder. -/
theorem compareVersionStrings_preorder (a b c : List Char) :
    compareVersionStrings b a = -compareVersionStrings a b ∧
      (compareVersionStrings a b ≤ 0 → compareVersionStrings b c ≤ 0 → compareVersionStrings a c ≤ 0) := by
  obtain ⟨k, ha, hb, hc⟩ : ∃ k, (versionParts a).length ≤ k ∧ (versionParts b).length ≤ k ∧
      (versionParts c).length ≤ k :=
    ⟨max (versionParts a).length (max (versionParts b).length (versionParts c).length), by simp⟩
  have heq {s t : List Char} (hs : (versionParts s).length ≤ k) (ht : (versionParts t).length ≤ k) :
      compareVersionStrings s t = compareUpTo k (versionParts s) (versionParts t) :=
    (compareUpTo_of_le (le_max_left _ _) (le_max_right _ _) (max_le hs ht)).symm
  rw [heq hb ha, heq ha hb, heq hb hc, heq ha hc]
  exact ⟨compareUpTo_swap _ _, compareUpTo_trans⟩

end Spectra.Rules
