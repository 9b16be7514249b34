import Spectra.Library.GoText
import Mathlib.Data.Nat.Digits.Lemmas
import Mathlib.Data.Rat.Floor

/-! The parts of Go's `time` and `fmt` that write an instant in RFC 3339 form and read it back, and
that write durations and rounded numbers. -/
namespace Spectra.Library

/-- Times and durations are in nanoseconds. -/
def second : ℤ := 1000000000

def minute : ℤ := 60 * second

/-- The zero `time.Time`, the start of year 1. -/
def zeroTime : ℤ := -62135596800 * second

/-- `UnixNano` as a signed 64-bit integer. -/
def unixNano (t : ℤ) : ℤ := Int.bmod t (2 ^ 64)

def HasUnixNano (t : ℤ) : Prop := -2 ^ 63 ≤ t ∧ t < 2 ^ 63

instance (t : ℤ) : Decidable (HasUnixNano t) := inferInstanceAs (Decidable (_ ∧ _))

theorem HasUnixNano.unixNano_eq {t : ℤ} (h : HasUnixNano t) : unixNano t = t := by
  obtain ⟨hlo, hhi⟩ := h
  exact Int.bmod_eq_of_le (by norm_num at hlo ⊢; omega) (by norm_num at hhi ⊢; omega)

namespace GoTime
open List GoText

section

structure Date where
  year : ℤ
  month : ℤ
  day : ℤ
  deriving DecidableEq

/-- The days from 1970-01-01 to a date. Years begin in March, so that a leap day ends one. -/
def Date.days (d : Date) : ℤ :=
  let y := if d.month ≤ 2 then d.year - 1 else d.year
  let dayOfYear := (153 * ((d.month + 9) % 12) + 2) / 5 + d.day - 1
  146097 * (y / 400) + (365 * (y % 400) + y % 400 / 4 - y % 400 / 100) + dayOfYear - 719468

/-- A date by the day of a year that begins in March. -/
def dateInYear (year dayOfYear : ℤ) : Date :=
  let month := (5 * dayOfYear + 2) / 153
  let day := dayOfYear - (153 * month + 2) / 5 + 1
  if month < 10 then ⟨year, month + 3, day⟩ else ⟨year + 1, month - 9, day⟩

/-- The date a number of days after 1970-01-01, by centuries, by leap cycles and by years. -/
def dateOf (days : ℤ) : Date :=
  let cycle := (days + 719468) / 146097
  let inCycle := (days + 719468) % 146097
  let century := min (inCycle / 36524) 3
  let inCentury := inCycle - 36524 * century
  let leap := inCentury / 1461
  let inLeap := inCentury % 1461
  let year := min (inLeap / 365) 3
  dateInYear (400 * cycle + 100 * century + 4 * leap + year) (inLeap - 365 * year)

def isLeap (year : ℤ) : Bool := year % 4 = 0 && (year % 100 ≠ 0 || year % 400 = 0)

def daysIn (month year : ℤ) : ℤ :=
  if month = 2 then if isLeap year then 29 else 28
  else if month = 4 ∨ month = 6 ∨ month = 9 ∨ month = 11 then 30
  else 31

/-- The place of a day in the cycle of 400 years; only the last day of a leap year has the number
365. -/
structure Place (n c l y doy : ℤ) : Prop where
  century : 0 ≤ c ∧ c ≤ 3
  leap : 0 ≤ l ∧ l ≤ 24
  year : 0 ≤ y ∧ y ≤ 3
  day : 0 ≤ doy ∧ doy ≤ 365
  total : n = 36524 * c + 1461 * l + 365 * y + doy
  last : doy = 365 → y = 3 ∧ (l = 24 → c = 3)

theorem exists_place (days : ℤ) :
    ∃ cycle n c l y doy, Place n c l y doy ∧ days = 146097 * cycle + n - 719468 ∧
      dateOf days = dateInYear (400 * cycle + 100 * c + 4 * l + y) doy := by
  refine ⟨_, (days + 719468) % 146097, _, _, _, _, ?_, ?_, rfl⟩
  · constructor <;> omega
  · omega

variable {c l y : ℤ} {n doy : ℤ}

theorem year_of_place (h : Place n c l y doy) (cycle : ℤ) :
    (400 * cycle + 100 * c + 4 * l + y) / 400 = cycle ∧
      (400 * cycle + 100 * c + 4 * l + y) % 400 = 100 * c + 4 * l + y ∧
      (100 * c + 4 * l + y) / 4 = 25 * c + l ∧ (100 * c + 4 * l + y) / 100 = c := by
  obtain ⟨hc, hl, hy, -⟩ := h
  omega

theorem days_dateInYear (h : Place n c l y doy) (cycle : ℤ) :
    (dateInYear (400 * cycle + 100 * c + 4 * l + y) doy).days = 146097 * cycle + n - 719468 := by
  obtain ⟨hcycle, hyear, hfours, hhundreds⟩ := year_of_place h cycle
  obtain ⟨-, -, -, hdoy, htotal, -⟩ := h
  obtain ⟨month, hmonth⟩ : ∃ month, (5 * doy + 2) / 153 = month := ⟨_, rfl⟩
  rw [dateInYear, hmonth]
  split
  · have hmod : (month + 3 + 9) % 12 = month := by omega
    rw [Date.days]
    dsimp only
    rw [if_neg (by omega), hmod, hyear]
    omega
  · have hmod : (month - 9 + 9) % 12 = month := by omega
    rw [Date.days]
    dsimp only
    rw [if_pos (by omega), hmod, Int.add_sub_cancel, hyear]
    omega

def Date.Valid (d : Date) : Prop :=
  1 ≤ d.month ∧ d.month ≤ 12 ∧ 1 ≤ d.day ∧ d.day ≤ daysIn d.month d.year

instance (d : Date) : Decidable d.Valid := inferInstanceAs (Decidable (_ ∧ _))

theorem isLeap_of_last (hl : 0 ≤ l ∧ l ≤ 24) (h : y = 3 ∧ (l = 24 → c = 3)) (cycle : ℤ) :
    isLeap (400 * cycle + 100 * c + 4 * l + y + 1) = true := by
  simp only [isLeap, Bool.and_eq_true, Bool.or_eq_true, decide_eq_true_eq]
  omega

theorem valid_dateInYear (h : Place n c l y doy) (cycle : ℤ) :
    (dateInYear (400 * cycle + 100 * c + 4 * l + y) doy).Valid := by
  obtain ⟨-, hl, -, hdoy, -, hlast⟩ := h
  have hleap := fun h365 => isLeap_of_last hl (hlast h365) cycle
  generalize 400 * cycle + 100 * c + 4 * l + y = first at hleap
  obtain ⟨month, hmonth⟩ : ∃ month, (5 * doy + 2) / 153 = month := ⟨_, rfl⟩
  have hrange : 0 ≤ month ∧ month ≤ 11 := by omega
  rw [dateInYear, hmonth]
  by_cases hfeb : month = 11
  · subst hfeb
    by_cases h365 : doy = 365
    · simp [Date.Valid, daysIn, hleap h365]
      omega
    · have h28 : 28 ≤ daysIn 2 (first + 1) := by
        rw [daysIn, if_pos rfl]
        split <;> decide
      simp [Date.Valid]
      omega
  · have hlow : 0 ≤ month := hrange.1
    have hhigh : month ≤ 10 := by omega
    interval_cases month <;> simp [Date.Valid, daysIn] <;> omega

theorem days_dateOf (days : ℤ) : (dateOf days).days = days := by
  obtain ⟨cycle, n, c, l, y, doy, hplace, hdays, hdate⟩ := exists_place days
  rw [hdate, days_dateInYear hplace, hdays]

theorem valid_dateOf (days : ℤ) : (dateOf days).Valid := by
  obtain ⟨cycle, n, c, l, y, doy, hplace, -, hdate⟩ := exists_place days
  rw [hdate]
  exact valid_dateInYear hplace cycle

end

section

/-- A number with zeros before it up to a width. -/
def pad (width n : ℕ) : List Char := List.leftpad width '0' (decimal n)

/-- The verb `%.0f`: the nearest integer, of two the even one. -/
def roundHalfEven (q : ℚ) : ℕ :=
  let low := ⌊q⌋.toNat
  if q - low < 1 / 2 ∨ q - low = 1 / 2 ∧ low % 2 = 0 then low else low + 1

def formatRounded (q : ℚ) : List Char :=
  if q < 0 then '-' :: decimal (roundHalfEven (-q)) else decimal (roundHalfEven q)

/-- Exactly `n` digits, and then `k` on their number and what comes after them. -/
def number {α : Type} (n : ℕ) (s : List Char) (k : ℕ → List Char → Option α) : Option α :=
  if n ≤ s.length then (readDigits 0 (s.take n)).bind fun v => k v (s.drop n) else none

def expect {α : Type} (c : Char) (s : List Char) (k : List Char → Option α) : Option α :=
  match s with
  | [] => none
  | x :: s => if x = c then k s else none

variable {width : ℕ}

theorem length_decimal_le {n : ℕ} (hwidth : 0 < width) (h : n < 10 ^ width) : (decimal n).length ≤ width := by
  rw [decimal]
  split
  · exact hwidth
  · rw [length_reverse, length_map]
    exact (Nat.digits_length_le_iff (by decide) n).mpr h

theorem length_pad {n : ℕ} (hwidth : 0 < width) (h : n < 10 ^ width) : (pad width n).length = width := by
  have hle := length_decimal_le hwidth h
  rw [pad, leftpad, length_append, length_replicate]
  omega

theorem readDigits_decimal (n : ℕ) : readDigits 0 (decimal n) = some n := by
  have hread := readNat_decimal n
  cases hd : decimal n with
  | nil => exact absurd hd (decimal_ne_nil n)
  | cons c cs =>
    rw [hd] at hread
    exact hread

theorem readDigits_pad (width n : ℕ) : readDigits 0 (pad width n) = some n := by
  have hzeros : ∀ k, readDigits 0 (replicate k '0') = some 0 := by
    intro k
    induction k with
    | zero => rfl
    | succ k ih => exact ih
  rw [pad, leftpad, readDigits_append, hzeros, Option.bind_some, readDigits_decimal]

theorem number_pad {α : Type} {n : ℕ} (hwidth : 0 < width) (h : n < 10 ^ width) (rest : List Char)
    (k : ℕ → List Char → Option α) : number width (pad width n ++ rest) k = k n rest := by
  have hlen := length_pad hwidth h
  have htake : (pad width n ++ rest).take width = pad width n := take_left' hlen
  have hdrop : (pad width n ++ rest).drop width = rest := drop_left' hlen
  rw [number, if_pos (by rw [length_append]; omega), htake, hdrop, readDigits_pad,
    Option.bind_some]

theorem expect_cons {α : Type} (c : Char) (rest : List Char) (k : List Char → Option α) :
    expect c (c :: rest) k = k rest :=
  if_pos rfl

end

section

def truncSecond (t : ℤ) : ℤ := t / second * second

def yearOf (t : ℤ) : ℤ := (dateOf (t / second / 86400)).year

/-- The instants that RFC 3339 can write: those of the years 0 to 9999. -/
def Representable (t : ℤ) : Prop := 0 ≤ yearOf t ∧ yearOf t ≤ 9999

instance (t : ℤ) : Decidable (Representable t) := inferInstanceAs (Decidable (_ ∧ _))

def padYear (year : ℤ) : List Char :=
  if year < 0 then '-' :: pad 4 year.natAbs else pad 4 year.natAbs

def formatRFC3339 (t : ℤ) : List Char :=
  let date := dateOf (t / second / 86400)
  let clock := (t / second % 86400).toNat
  padYear date.year ++ '-' :: (pad 2 date.month.toNat ++ '-' :: (pad 2 date.day.toNat ++ 'T' ::
    (pad 2 (clock / 3600) ++ ':' :: (pad 2 (clock % 3600 / 60) ++ ':' :: (pad 2 (clock % 60) ++ ['Z'])))))

/-- `time.Parse(time.RFC3339, s)` on the texts of whole seconds in UTC. -/
def parseRFC3339 (s : List Char) : Option ℤ :=
  number 4 s fun year s => expect '-' s fun s =>
  number 2 s fun month s => expect '-' s fun s =>
  number 2 s fun day s => expect 'T' s fun s =>
  number 2 s fun hour s => expect ':' s fun s =>
  number 2 s fun minute s => expect ':' s fun s =>
  number 2 s fun sec s => expect 'Z' s fun s =>
    let date : Date := ⟨year, month, day⟩
    if s = [] ∧ date.Valid ∧ hour ≤ 23 ∧ minute ≤ 59 ∧ sec ≤ 59 then
      some ((((date.days * 24 + hour) * 60 + minute) * 60 + sec) * second)
    else none

/-- `time.Parse(time.RFC3339, s)`; `other` stands for what it makes of texts with a fraction or an
offset, and of texts that only its lenient path accepts. -/
def parseTime (other : List Char → Option ℤ) (s : List Char) : Option ℤ := (parseRFC3339 s).or (other s)

theorem daysIn_le (month year : ℤ) : daysIn month year ≤ 31 := by
  rw [daysIn]
  split <;> split <;> decide

theorem parse_format {t : ℤ} (h : Representable t) : parseRFC3339 (formatRFC3339 t) = some (truncSecond t) := by
  obtain ⟨hpos, hmax⟩ := h
  rw [yearOf] at hpos hmax
  have hdays := days_dateOf (t / second / 86400)
  have hvalid := valid_dateOf (t / second / 86400)
  rw [formatRFC3339]
  obtain ⟨date, hdate⟩ : ∃ date, dateOf (t / second / 86400) = date := ⟨_, rfl⟩
  obtain ⟨clock, hclock⟩ : ∃ clock, (t / second % 86400).toNat = clock := ⟨_, rfl⟩
  rw [hdate] at hpos hmax hdays hvalid ⊢
  obtain ⟨year, hyear⟩ := Int.eq_ofNat_of_zero_le hpos
  obtain ⟨hmonth1, hmonth12, hday1, hdayMax⟩ := id hvalid
  have hday31 := daysIn_le date.month date.year
  obtain ⟨month, hmonth⟩ := Int.eq_ofNat_of_zero_le (show 0 ≤ date.month by omega)
  obtain ⟨day, hday⟩ := Int.eq_ofNat_of_zero_le (show 0 ≤ date.day by omega)
  have hfields : (⟨year, month, day⟩ : Date) = date := by
    rw [← hyear, ← hmonth, ← hday]
  have hyearText : padYear date.year = pad 4 year := by
    rw [padYear, if_neg (by omega), hyear, Int.natAbs_natCast]
  rw [hyearText, hmonth, hday, Int.toNat_natCast, Int.toNat_natCast, parseRFC3339,
    number_pad (by decide) (by omega), expect_cons, number_pad (by decide) (by omega), expect_cons,
    number_pad (by decide) (by omega), expect_cons, number_pad (by decide) (by omega), expect_cons,
    number_pad (by decide) (by omega), expect_cons, number_pad (by decide) (by omega), expect_cons,
    hfields, if_pos ⟨rfl, hvalid, by omega, by omega, by omega⟩]
  congr 2
  omega

end

section

def maxDuration : ℤ := 2 ^ 63 - 1

def minDuration : ℤ := -2 ^ 63

/-- `t.Sub(u)`, which saturates. -/
def sub (t u : ℤ) : ℤ := max minDuration (min maxDuration (t - u))

/-- `d.Round(m)`: to the nearest multiple, half away from zero, unless it overflows. -/
def roundTo (d m : ℤ) : ℤ :=
  if m ≤ 0 then d
  else if d < 0 then
    let r := -d.tmod m
    if r + r < m then d + r else max minDuration (d - m + r)
  else
    let r := d.tmod m
    if r + r < m then d - r else min maxDuration (d + m - r)

/-- The digits after the point, without the zeros at their end. -/
def fraction (prec u : ℕ) : List Char :=
  if u % 10 ^ prec = 0 then []
  else '.' :: ((pad prec (u % 10 ^ prec)).reverse.dropWhile (· = '0')).reverse

def durationText (u : ℕ) : List Char :=
  if u = 0 then ['0', 's']
  else if u < 1000 then decimal u ++ ['n', 's']
  else if u < 1000000 then decimal (u / 1000) ++ fraction 3 u ++ ['µ', 's']
  else if u < 1000000000 then decimal (u / 1000000) ++ fraction 6 u ++ ['m', 's']
  else
    let seconds := u / 1000000000
    let minutes := seconds / 60
    let hours := minutes / 60
    (if 0 < hours then decimal hours ++ ['h'] else []) ++
      (if 0 < minutes then decimal (minutes % 60) ++ ['m'] else []) ++
      decimal (seconds % 60) ++ fraction 9 u ++ ['s']

def formatDuration (d : ℤ) : List Char :=
  if d < 0 then '-' :: durationText d.natAbs else durationText d.natAbs

end

/-- The characters of numbers and times. -/
def isStamp (x : Char) : Bool :=
  (48 ≤ x.toNat && x.toNat < 58) || x ∈ ['-', ':', 'T', 'Z']

/-- The characters of numbers, times and durations. -/
def isPlain (x : Char) : Bool := isStamp x || x ∈ ['.', 'h', 'm', 's', 'n', 'µ']

/-- A text of the characters of a class. -/
def OfClass (p : Char → Bool) (s : List Char) : Prop := ∀ x ∈ s, p x = true

abbrev Stamp := OfClass isStamp

abbrev Plain := OfClass isPlain

namespace OfClass

variable {p : Char → Bool} {s t : List Char} {x : Char}

theorem not_mem (h : OfClass p s) (hx : p x = false) : x ∉ s :=
  fun hmem => nomatch (h x hmem).symm.trans hx

theorem append (hs : OfClass p s) (ht : OfClass p t) : OfClass p (s ++ t) := by
  intro x hx
  rcases mem_append.mp hx with h | h
  · exact hs x h
  · exact ht x h

theorem cons (hx : p x = true) (hs : OfClass p s) : OfClass p (x :: s) :=
  forall_mem_cons.mpr ⟨hx, hs⟩

theorem nil : OfClass p [] := fun _ hx => absurd hx not_mem_nil

theorem ite {c : Prop} [Decidable c] (hs : OfClass p s) (ht : OfClass p t) : OfClass p (if c then s else t) := by
  split
  · exact hs
  · exact ht

theorem plain (h : Stamp s) : Plain s := by
  intro x hx
  rw [isPlain, h x hx, Bool.true_or]

end OfClass

theorem stamp_decimal (n : ℕ) : Stamp (decimal n) := by
  intro x hx
  obtain ⟨hlow, hhigh⟩ := mem_decimal hx
  rw [isStamp, decide_eq_true hlow, decide_eq_true hhigh]
  rfl

theorem stamp_pad (width n : ℕ) : Stamp (pad width n) := by
  refine .append ?_ (stamp_decimal n)
  intro x hx
  rw [eq_of_mem_replicate hx]
  decide

theorem stamp_formatRounded (q : ℚ) : Stamp (formatRounded q) :=
  .ite (.cons (by decide) (stamp_decimal _)) (stamp_decimal _)

theorem stamp_formatRFC3339 (t : ℤ) : Stamp (formatRFC3339 t) := by
  have hyear : Stamp (padYear (dateOf (t / second / 86400)).year) :=
    .ite (.cons (by decide) (stamp_pad _ _)) (stamp_pad _ _)
  refine hyear.append (.cons (by decide) ((stamp_pad _ _).append (.cons (by decide) ?_)))
  refine (stamp_pad _ _).append (.cons (by decide) ((stamp_pad _ _).append (.cons (by decide) ?_)))
  refine (stamp_pad _ _).append (.cons (by decide) ((stamp_pad _ _).append ?_))
  exact .cons (by decide) .nil

theorem formatRFC3339_ne_nil (t : ℤ) : formatRFC3339 t ≠ [] := by
  exact append_ne_nil_of_right_ne_nil _ nofun

theorem plain_fraction (prec u : ℕ) : Plain (fraction prec u) := by
  refine .ite .nil (.cons (by decide) ?_)
  intro x hx
  have hmem := (dropWhile_sublist _).mem (mem_reverse.mp hx)
  exact (stamp_pad _ _).plain x (mem_reverse.mp hmem)

theorem plain_unit (c : Char) (hc : isPlain c = true) : Plain [c, 's'] :=
  .cons hc (.cons (by decide) .nil)

theorem plain_durationText (u : ℕ) : Plain (durationText u) := by
  have hdecimal := fun n => (stamp_decimal n).plain
  have hseconds : Plain ['s'] := .cons (by decide) .nil
  refine .ite (plain_unit '0' (by decide)) (.ite ?_ (.ite ?_ (.ite ?_ ?_)))
  · exact (hdecimal _).append (plain_unit 'n' (by decide))
  · exact ((hdecimal _).append (plain_fraction _ _)).append (plain_unit 'µ' (by decide))
  · exact ((hdecimal _).append (plain_fraction _ _)).append (plain_unit 'm' (by decide))
  · refine .append (.append (.append (.append ?_ ?_) (hdecimal _)) (plain_fraction _ _)) hseconds <;>
      exact .ite ((hdecimal _).append (.cons (by decide) .nil)) .nil

theorem plain_formatDuration (d : ℤ) : Plain (formatDuration d) :=
  .ite (.cons (by decide) (plain_durationText _)) (plain_durationText _)

theorem stamp_itoa (z : ℤ) : Stamp (itoa z).toList := by
  rw [itoa]
  split
  · rw [String.toList_ofList]
    exact .cons (by decide) (stamp_decimal _)
  · rw [String.toList_ofList]
    exact stamp_decimal _

end GoTime
end Spectra.Library
