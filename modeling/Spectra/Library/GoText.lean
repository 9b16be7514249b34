import Mathlib.Data.Nat.Digits.Defs
import Mathlib.Data.String.Basic
import Mathlib.Tactic.IntervalCases

/-! The parts of Go's `strconv`, `strings` and `fmt` that print and parse numbers, split text at
its last separator and replace characters. -/
namespace Spectra.Library.GoText

def digitChar (d : ℕ) : Char := Char.ofNat (48 + d)

def digitValue (c : Char) : Option ℕ :=
  if 48 ≤ c.toNat ∧ c.toNat < 58 then some (c.toNat - 48) else none

/-- The decimal digits of a number, the most significant first. -/
def decimal (n : ℕ) : List Char :=
  if n = 0 then ['0'] else ((Nat.digits 10 n).map digitChar).reverse

/-- `strconv.Itoa`, and the verb `%d`. -/
def itoa (z : ℤ) : String :=
  if z < 0 then String.ofList ('-' :: decimal z.natAbs) else String.ofList (decimal z.natAbs)

def hex (n : ℕ) : String := String.ofList (Nat.toDigits 16 n)

/-- The verb `%02x` of a byte. -/
def hexByte (b : UInt8) : String := if b < 16 then "0" ++ hex b.toNat else hex b.toNat

/-- A Go string is the string of its bytes. -/
def ofBytes (bs : List UInt8) : String := String.ofList (bs.map fun b => Char.ofNat b.toNat)

/-- `strings.ReplaceAll` for two characters. -/
def replaceAll (s : String) (old new : Char) : String :=
  String.ofList (s.toList.map fun c => if c = old then new else c)

def readDigits (acc : ℕ) : List Char → Option ℕ
  | [] => some acc
  | c :: cs => (digitValue c).bind fun d => readDigits (10 * acc + d) cs

/-- At least one digit, and nothing else. -/
def readNat : List Char → Option ℕ
  | [] => none
  | c :: cs => readDigits 0 (c :: cs)

/-- `strconv.Atoi` on a 64-bit platform; `none` stands for its errors. -/
def atoi (s : String) : Option ℤ :=
  let value : Option ℤ := match s.toList with
    | '-' :: cs => (readNat cs).map fun n => -(n : ℤ)
    | '+' :: cs => (readNat cs).map fun n => (n : ℤ)
    | cs => (readNat cs).map fun n => (n : ℤ)
  value.filter fun z => decide (-2 ^ 63 ≤ z ∧ z < 2 ^ 63)

/-- The text before and after the last occurrence of a character. -/
def splitLast (c : Char) : List Char → Option (List Char × List Char)
  | [] => none
  | x :: xs =>
    match splitLast c xs with
    | some (before, after) => some (x :: before, after)
    | none => if x = c then some ([], xs) else none

theorem toNat_digitChar {d : ℕ} (h : d < 10) : (digitChar d).toNat = 48 + d := by
  interval_cases d <;> rfl

theorem digitValue_digitChar {d : ℕ} (h : d < 10) : digitValue (digitChar d) = some d := by
  rw [digitValue, toNat_digitChar h, if_pos (by omega), Nat.add_sub_cancel_left]

theorem readDigits_append (acc : ℕ) (cs ds : List Char) :
    readDigits acc (cs ++ ds) = (readDigits acc cs).bind fun n => readDigits n ds := by
  induction cs generalizing acc with
  | nil => rfl
  | cons c cs ih =>
    cases hc : digitValue c with
    | none => simp [readDigits, hc]
    | some d => simp [readDigits, hc, ih]

theorem readDigits_digits {ds : List ℕ} (h : ∀ d ∈ ds, d < 10) :
    readDigits 0 (ds.map digitChar).reverse = some (Nat.ofDigits 10 ds) := by
  induction ds with
  | nil => rfl
  | cons d ds ih =>
    rw [List.map_cons, List.reverse_cons, readDigits_append, ih fun d hd => h d (.tail _ hd), Nat.ofDigits_cons]
    simp [readDigits, digitValue_digitChar (h d (by simp)), Nat.add_comm]

theorem decimal_ne_nil (n : ℕ) : decimal n ≠ [] := by
  rw [decimal]
  split
  · simp
  · rename_i h
    simpa [Nat.digits_eq_nil_iff_eq_zero] using h

theorem readNat_decimal (n : ℕ) : readNat (decimal n) = some n := by
  have hread : readDigits 0 (decimal n) = some n := by
    rw [decimal]
    split
    · rename_i h
      rw [h]
      rfl
    · rw [readDigits_digits fun d hd => Nat.digits_lt_base (by decide) hd, Nat.ofDigits_digits]
  cases hd : decimal n with
  | nil => exact absurd hd (decimal_ne_nil n)
  | cons c cs => rw [readNat, ← hd, hread]

variable {c : Char}

theorem mem_decimal {n : ℕ} (h : c ∈ decimal n) : 48 ≤ c.toNat ∧ c.toNat < 58 := by
  rw [decimal] at h
  split at h
  · rw [List.mem_singleton.mp h]
    decide
  · obtain ⟨d, hd, rfl⟩ := List.mem_map.mp (List.mem_reverse.mp h)
    have := Nat.digits_lt_base (by decide) hd
    rw [toNat_digitChar this]
    omega

variable {z : ℤ}

theorem atoi_digit_cons (hc : 48 ≤ c.toNat) (cs : List Char) : atoi (String.ofList (c :: cs)) =
    ((readNat (c :: cs)).map Int.ofNat).filter fun z => decide (z < 2 ^ 63) := by
  have hminus : c ≠ '-' := by
    rintro rfl
    exact absurd hc (by decide)
  have hplus : c ≠ '+' := by
    rintro rfl
    exact absurd hc (by decide)
  rw [atoi, String.toList_ofList]
  cases hread : readNat (c :: cs) with
  | none => simp [hminus, hplus, hread]
  | some n => simp [hminus, hplus, hread, Option.filter_some]

theorem atoi_itoa (h : 0 ≤ z) (hmax : z < 2 ^ 63) : atoi (itoa z) = some z := by
  obtain ⟨c, cs, hd⟩ := List.exists_cons_of_ne_nil (decimal_ne_nil z.natAbs)
  have hc := mem_decimal (hd ▸ (.head _) : c ∈ decimal z.natAbs)
  have hread := readNat_decimal z.natAbs
  rw [itoa, if_neg (not_lt.mpr h)]
  rw [hd] at hread ⊢
  rw [atoi_digit_cons hc.1, hread]
  simp
  omega

theorem atoi_itoa_neg (h : z < 0) (hmin : -2 ^ 63 ≤ z) : atoi (itoa z) = some z := by
  have hlist : (itoa z).toList = '-' :: decimal z.natAbs := by
    rw [itoa, if_pos h, String.toList_ofList]
  have hval : -((z.natAbs : ℕ) : ℤ) = z := by omega
  rw [atoi, hlist]
  generalize z.natAbs = n at hval
  simp [readNat_decimal]
  omega

theorem atoi_itoa_of_int64 (hmin : -2 ^ 63 ≤ z) (hmax : z < 2 ^ 63) : atoi (itoa z) = some z := by
  rcases lt_or_ge z 0 with h | h
  · exact atoi_itoa_neg h hmin
  · exact atoi_itoa h hmax

theorem mem_itoa (h : c ∈ (itoa z).toList) : c = '-' ∨ 48 ≤ c.toNat ∧ c.toNat < 58 := by
  rw [itoa] at h
  split at h
  · rw [String.toList_ofList] at h
    exact (List.mem_cons.mp h).imp_right mem_decimal
  · rw [String.toList_ofList] at h
    exact .inr (mem_decimal h)

theorem splitLast_eq_none {cs : List Char} (h : c ∉ cs) : splitLast c cs = none := by
  induction cs with
  | nil => rfl
  | cons x xs ih =>
    obtain ⟨hx, hxs⟩ := not_or.mp (List.mem_cons.not.mp h)
    simp [splitLast, ih hxs, Ne.symm hx]

theorem splitLast_append (before : List Char) {after : List Char} (h : c ∉ after) :
    splitLast c (before ++ c :: after) = some (before, after) := by
  induction before with
  | nil => simp [splitLast, splitLast_eq_none h]
  | cons x xs ih => simp [splitLast, ih]

end Spectra.Library.GoText
