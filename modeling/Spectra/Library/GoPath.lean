import Mathlib.Data.List.TakeWhile

/-! The parts of Go's `path` package that name processes. -/
namespace Spectra.Library.GoPath

/-- The last element of a slash-separated path, without its trailing slashes. -/
def base (path : String) : String :=
  if path.isEmpty then "."
  else
    match path.toList.reverse.dropWhile (· = '/') with
    | [] => "/"
    | cs => String.ofList (cs.takeWhile (· ≠ '/')).reverse

theorem base_of_no_slash {cs : List Char} (hne : cs ≠ []) (h : '/' ∉ cs) :
    base (String.ofList cs) = String.ofList cs := by
  have hrev : ∀ c ∈ cs.reverse, c ≠ '/' := by
    intro c hc hslash
    rw [hslash, List.mem_reverse] at hc
    exact h hc
  have hdrop : cs.reverse.dropWhile (· = '/') = cs.reverse := by
    cases hr : cs.reverse with
    | nil => rfl
    | cons c rest => simp [hrev c (by simp [hr])]
  have htake : cs.reverse.takeWhile (· ≠ '/') = cs.reverse :=
    List.takeWhile_eq_self_iff.mpr fun c hc => by simpa using hrev c hc
  rw [base, if_neg (by simpa using hne), String.toList_ofList, hdrop]
  cases hr : cs.reverse with
  | nil => exact absurd (List.reverse_eq_nil_iff.mp hr) hne
  | cons c rest =>
    dsimp only
    rw [← hr, htake, List.reverse_reverse]

theorem base_cases (path : String) :
    base path = "." ∨ base path = "/" ∨ ∃ cs : List Char, cs ≠ [] ∧ '/' ∉ cs ∧ base path = String.ofList cs := by
  rw [base]
  split
  · exact .inl rfl
  · refine .inr ?_
    cases hd : path.toList.reverse.dropWhile (· = '/') with
    | nil => exact .inl rfl
    | cons c rest =>
      have hc : c ≠ '/' := by
        have := List.head?_dropWhile_not (· = '/') path.toList.reverse
        simpa [hd] using this
      refine .inr ⟨_, ?_, ?_, rfl⟩
      · simp [hc]
      · intro hmem
        have := List.mem_takeWhile_imp (List.mem_reverse.mp hmem)
        simp at this

theorem base_base (path : String) : base (base path) = base path := by
  rcases base_cases path with h | h | ⟨cs, hne, hslash, h⟩
  · rw [h]
    decide +kernel
  · rw [h]
    decide +kernel
  · rw [h]
    exact base_of_no_slash hne hslash

/-- One term of a shell pattern; a class lists its ranges with both ends. -/
inductive Term where
  | star
  | any
  | cls (negated : Bool) (ranges : List (Char × Char))
  | lit (c : Char)

/-- One end of a range in a class, which something must follow. -/
def getEsc : List Char → Option (Char × List Char)
  | '\\' :: c :: d :: rest => some (c, d :: rest)
  | '\\' :: _ => none
  | '-' :: _ => none
  | ']' :: _ => none
  | c :: d :: rest => some (c, d :: rest)
  | _ => none

/-- The ranges of a class up to its closing bracket; there must be one. -/
def parseRanges : ℕ → List (Char × Char) → List Char → Option (List (Char × Char) × List Char)
  | 0, _, _ => none
  | fuel + 1, acc, cs =>
    match acc, cs with
    | _ :: _, ']' :: rest => some (acc.reverse, rest)
    | acc, cs => do
      let (lo, rest) ← getEsc cs
      match rest with
      | '-' :: rest =>
        let (hi, rest) ← getEsc rest
        parseRanges fuel ((lo, hi) :: acc) rest
      | rest => parseRanges fuel ((lo, lo) :: acc) rest

/-- A pattern as terms, or `none` if it is malformed. -/
def parse : ℕ → List Char → Option (List Term)
  | _, [] => some []
  | 0, _ => none
  | fuel + 1, '*' :: rest => (parse fuel rest).map (.star :: ·)
  | fuel + 1, '?' :: rest => (parse fuel rest).map (.any :: ·)
  | fuel + 1, '\\' :: c :: rest => (parse fuel rest).map (.lit c :: ·)
  | _ + 1, ['\\'] => none
  | fuel + 1, '[' :: '^' :: rest => do
    let (ranges, rest) ← parseRanges rest.length [] rest
    (parse fuel rest).map (.cls true ranges :: ·)
  | fuel + 1, '[' :: rest => do
    let (ranges, rest) ← parseRanges rest.length [] rest
    (parse fuel rest).map (.cls false ranges :: ·)
  | fuel + 1, c :: rest => (parse fuel rest).map (.lit c :: ·)

def matchTerms : List Term → List Char → Bool
  | [], s => s.isEmpty
  | .star :: ts, [] => matchTerms ts []
  | .star :: ts, c :: s => matchTerms ts (c :: s) || (c != '/' && matchTerms (.star :: ts) s)
  | .any :: ts, c :: s => c != '/' && matchTerms ts s
  | .cls negated ranges :: ts, c :: s =>
    (ranges.any fun r => r.1 ≤ c && c ≤ r.2) != negated && matchTerms ts s
  | .lit d :: ts, c :: s => c == d && matchTerms ts s
  | _ :: _, [] => false
termination_by ts s => (ts.length, s.length)

/-- `path.Match`; `none` is its `ErrBadPattern`. -/
def pathMatch (pattern name : String) : Option Bool :=
  (parse pattern.length pattern.toList).map fun ts => matchTerms ts name.toList

end Spectra.Library.GoPath
