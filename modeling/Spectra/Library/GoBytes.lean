import Mathlib.Data.List.Infix

/-! Go strings as the lists of their bytes. -/
namespace Spectra.Library.GoBytes
open List

abbrev Bytes := List UInt8

instance lawfulBEq_byteString : LawfulBEq Bytes := inferInstance

abbrev lf : UInt8 := 10

abbrev cr : UInt8 := 13

/-- The bytes of an ASCII text. -/
def ascii (s : String) : Bytes := s.toList.map fun c => UInt8.ofNat c.toNat

/-- `strings.Index`: where `sep` first occurs. -/
def index (sep : Bytes) : Bytes → Option ℕ
  | [] => if sep = [] then some 0 else none
  | c :: s => if sep.isPrefixOf (c :: s) then some 0 else (index sep s).map (· + 1)

def contains (s sep : Bytes) : Bool := (index sep s).isSome

/-- `strings.Cut`: the texts around the first `sep`. -/
def cut (s sep : Bytes) : Option (Bytes × Bytes) :=
  (index sep s).map fun i => (s.take i, s.drop (i + sep.length))

def splitN (s sep : Bytes) : ℕ → List Bytes
  | 0 => []
  | 1 => [s]
  | n + 2 =>
    match cut s sep with
    | none => [s]
    | some (before, after) => before :: splitN after sep (n + 1)

/-- The length of the white space that a text starts with, as UTF-8; 0 if there is none. -/
def spaceWidth : Bytes → ℕ
  | 0xC2 :: b :: _ => if b = 0x85 ∨ b = 0xA0 then 2 else 0
  | 0xE1 :: 0x9A :: 0x80 :: _ => 3
  | 0xE2 :: 0x80 :: b :: _ =>
    if 0x80 ≤ b ∧ b ≤ 0x8A ∨ b = 0xA8 ∨ b = 0xA9 ∨ b = 0xAF then 3 else 0
  | 0xE2 :: 0x81 :: 0x9F :: _ => 3
  | 0xE3 :: 0x80 :: 0x80 :: _ => 3
  | b :: _ => if 9 ≤ b ∧ b ≤ 13 ∨ b = 32 then 1 else 0
  | [] => 0

/-- The same for the end of a text, which is given backwards. -/
def spaceWidthBack : Bytes → ℕ
  | b :: 0xC2 :: _ => if b = 0x85 ∨ b = 0xA0 then 2 else if 9 ≤ b ∧ b ≤ 13 ∨ b = 32 then 1 else 0
  | 0x80 :: 0x9A :: 0xE1 :: _ => 3
  | b :: 0x80 :: 0xE2 :: _ =>
    if 0x80 ≤ b ∧ b ≤ 0x8A ∨ b = 0xA8 ∨ b = 0xA9 ∨ b = 0xAF then 3
    else if 9 ≤ b ∧ b ≤ 13 ∨ b = 32 then 1 else 0
  | 0x9F :: 0x81 :: 0xE2 :: _ => 3
  | 0x80 :: 0x80 :: 0xE3 :: _ => 3
  | b :: _ => if 9 ≤ b ∧ b ≤ 13 ∨ b = 32 then 1 else 0
  | [] => 0

/-- Drops what `width` measures as often as there is something, at most `fuel` times. -/
def dropWidth (width : Bytes → ℕ) : ℕ → Bytes → Bytes
  | 0, s => s
  | fuel + 1, s => if width s = 0 then s else dropWidth width fuel (s.drop (width s))

def trimSpace (s : Bytes) : Bytes :=
  let s := dropWidth spaceWidth s.length s
  (dropWidth spaceWidthBack s.length s.reverse).reverse

def lowerASCII (b : UInt8) : UInt8 := if 65 ≤ b ∧ b ≤ 90 then b + 32 else b

/-- `strings.ToLower` for a comparison with an ASCII text: letters whose lower case is not ASCII
stay; the Kelvin sign and the dotted capital I become `k` and `i`. -/
def toLower : Bytes → Bytes
  | 0xE2 :: 0x84 :: 0xAA :: s => 0x6B :: toLower s
  | 0xC4 :: 0xB0 :: s => 0x69 :: toLower s
  | b :: s => lowerASCII b :: toLower s
  | [] => []

/-- `strings.ToUpper`, up to the letters whose upper case is not ASCII. The dotless i and the long
s become `I` and `S`. -/
def toUpper : Bytes → Bytes
  | 0xC4 :: 0xB1 :: s => 0x49 :: toUpper s
  | 0xC5 :: 0xBF :: s => 0x53 :: toUpper s
  | b :: s => (if 97 ≤ b ∧ b ≤ 122 then b - 32 else b) :: toUpper s
  | [] => []

/-- Simple case folding; letters that do not fold to ASCII stay. The long s and the Kelvin sign fold
to `s` and `k`. -/
def fold : Bytes → Bytes
  | 0xC5 :: 0xBF :: s => 0x73 :: fold s
  | 0xE2 :: 0x84 :: 0xAA :: s => 0x6B :: fold s
  | b :: s => lowerASCII b :: fold s
  | [] => []

/-- `strings.EqualFold` with an ASCII text. -/
def equalFold (s text : Bytes) : Bool := decide (fold s = fold text)

/-- A field that has ended, if there is one. -/
def flush (field : Bytes) : List Bytes := if field = [] then [] else [field]

/-- The loop of `strings.Fields`, inside of `field`, with `skip` bytes of a space still to pass. -/
def fieldsFrom : ℕ → Bytes → Bytes → List Bytes
  | _, field, [] => flush field
  | skip + 1, field, _ :: s => fieldsFrom skip field s
  | 0, field, b :: s =>
    match spaceWidth (b :: s) with
    | 0 => fieldsFrom 0 (field ++ [b]) s
    | n + 1 => flush field ++ fieldsFrom n [] s

/-- `strings.Fields`: the texts between runs of white space. -/
def fields (s : Bytes) : List Bytes := fieldsFrom 0 [] s

def isSpace (b : UInt8) : Bool := decide (9 ≤ b ∧ b ≤ 13 ∨ b = 32)

def hasSpace : Bytes → Bool
  | [] => false
  | b :: s => decide (spaceWidth (b :: s) ≠ 0) || hasSpace s

/-- The texts around the last `c`. -/
def cutLast (s : Bytes) (c : UInt8) : Option (Bytes × Bytes) :=
  (cut s.reverse [c]).map fun p => (p.2.reverse, p.1.reverse)

/-- `strings.Replace` of the first `old`, which is not empty. -/
def replaceFirst (s old new : Bytes) : Bytes :=
  match cut s old with
  | none => s
  | some (before, after) => before ++ new ++ after

def dropCR (line : Bytes) : Bytes :=
  if line.getLast? = some cr then line.dropLast else line

/-- The lines of a text; a text that ends in a line feed has no line after it. -/
def lines (s : Bytes) : List Bytes :=
  let segments := s.splitOn lf
  if segments.getLast? = some [] then segments.dropLast else segments

/-- What a call of `Scan` with `bufio.ScanLines` finds. -/
inductive Scan
  | done
  | tooLong
  | token (line : Bytes) (rest : List Bytes)

/-- `Scanner.Scan` at the lines that are left: a line has to fit into the buffer. -/
def scan (maxTokenSize : ℕ) : List Bytes → Scan
  | [] => .done
  | line :: rest => if maxTokenSize ≤ line.length then .tooLong else .token (dropCR line) rest

variable {s sep : Bytes}

theorem index_eq_none_iff : index sep s = none ↔ ¬ sep <:+: s := by
  induction s with
  | nil => simp [index]
  | cons c s ih =>
    rw [index, infix_cons_iff]
    by_cases h : sep.isPrefixOf (c :: s)
    · simp [ isPrefixOf_iff_prefix.mp h]
    · have hstarts : ¬ sep <+: c :: s := fun hp => h ( isPrefixOf_iff_prefix.mpr hp)
      simp [hstarts, ih]

theorem contains_iff : contains s sep = true ↔ sep <:+: s := by
  rw [contains, Option.isSome_iff_ne_none, ne_eq, index_eq_none_iff, not_not]

theorem eq_of_index {i : ℕ} (h : index sep s = some i) :
    i ≤ s.length ∧ s = s.take i ++ sep ++ s.drop (i + sep.length) := by
  induction s generalizing i with
  | nil =>
    rw [index] at h
    split at h
    · cases h
      simp [*]
    · exact nomatch h
  | cons c s ih =>
    rw [index] at h
    split at h
    · rename_i hstarts
      cases h
      obtain ⟨t, ht⟩ := isPrefixOf_iff_prefix.mp hstarts
      rw [← ht]
      simp
    · obtain ⟨j, hj, rfl⟩ := Option.map_eq_some_iff.mp h
      obtain ⟨hle, heq⟩ := ih hj
      refine ⟨Nat.succ_le_succ hle, ?_⟩
      rw [Nat.add_right_comm, take_succ_cons, drop_succ_cons, cons_append, cons_append, ← heq]

variable {c : UInt8}

theorem index_singleton_append {a b : Bytes} (h : c ∉ a) : index [c] (a ++ c :: b) = some a.length := by
  induction a with
  | nil => simp [index]
  | cons d a ih =>
    rw [mem_cons, not_or] at h
    simp [index, h.1, ih h.2]

theorem index_singleton_append_right {i : ℕ} (h : index [c] s = some i) (t : Bytes) :
    index [c] (s ++ t) = some i := by
  induction s generalizing i with
  | nil => exact nomatch h
  | cons d s ih =>
    rw [index] at h
    rw [cons_append, index]
    by_cases hd : c = d
    · simpa [hd] using h
    · have hstarts (u : Bytes) : [c].isPrefixOf (d :: u) = false := by
        simp [isPrefixOf, hd]
      rw [hstarts] at h ⊢
      obtain ⟨j, hj, rfl⟩ := Option.map_eq_some_iff.mp h
      exact congrArg (Option.map (· + 1)) (ih hj)

theorem cut_singleton_append {a b : Bytes} (h : c ∉ a) : cut (a ++ c :: b) [c] = some (a, b) := by
  simp [cut, index_singleton_append h]

section
variable {s : Bytes}

theorem cut_singleton_eq_none_iff {c : UInt8} : cut s [c] = none ↔ c ∉ s := by
  rw [cut, Option.map_eq_none_iff, index_eq_none_iff, singleton_infix_iff]

theorem spaceWidth_eq_zero {b : UInt8} (hs : s.head? = some b) (h : 32 < b ∧ b < 128) : spaceWidth s = 0 := by
  fun_cases spaceWidth s <;> grind

theorem spaceWidthBack_eq_zero {b : UInt8} (hs : s.head? = some b) (h : 32 < b ∧ b < 128) : spaceWidthBack s = 0 := by
  fun_cases spaceWidthBack s <;> grind

theorem dropWidth_of_eq_zero {width : Bytes → ℕ} (h : width s = 0) (n : ℕ) : dropWidth width n s = s := by
  cases n with
  | zero => rfl
  | succ n => rw [dropWidth, if_pos h]

theorem trimSpace_eq_self (hne : s ≠ []) (h : ∀ b ∈ s, 32 < b ∧ b < 128) : trimSpace s = s := by
  have hhead := head?_eq_some_head hne
  have hlast := head?_eq_some_head (reverse_ne_nil_iff.mpr hne)
  rw [trimSpace, dropWidth_of_eq_zero (spaceWidth_eq_zero hhead (h _ (head_mem hne))),
    dropWidth_of_eq_zero (spaceWidthBack_eq_zero hlast (h _ ?_)), reverse_reverse]
  exact mem_reverse.mp (head_mem _)

theorem toLower_of_ascii (h : ∀ b ∈ s, b < 128) : toLower s = s.map lowerASCII := by
  fun_induction toLower s with
  | case1 s ih => exact absurd (h 0xE2 (.head _)) (by decide)
  | case2 s ih => exact absurd (h 0xC4 (.head _)) (by decide)
  | case3 b s _ _ ih => rw [ih (forall_mem_cons.mp h).2, map_cons]
  | case4 => rfl

end

theorem dropCR_append_cons (hc : c ≠ cr) (s t : Bytes) : dropCR (s ++ c :: t) = s ++ c :: dropCR t := by
  rw [dropCR, dropCR, getLast?_append]
  cases t with
  | nil => simp [hc]
  | cons d t => simp [← apply_ite]

variable {α : Type*}

theorem infix_intercalate {sep l : List α} {ls : List (List α)} (h : l ∈ ls) : l <:+: sep.intercalate ls := by
  induction ls with
  | nil => exact nomatch h
  | cons a ls ih =>
    cases ls with
    | nil =>
      rw [mem_singleton.mp h, intercalate_singleton]
    | cons b ls =>
      rw [intercalate_cons_cons]
      cases h with
      | head => exact ⟨[], sep ++ sep.intercalate (b :: ls), by simp⟩
      | tail _ htail => exact (ih htail).trans (suffix_append _ _).isInfix

theorem intercalate_append_sep {sep : List α} {ls : List (List α)} (h : ls ≠ []) :
    sep.intercalate ls ++ sep = ls.flatMap (· ++ sep) := by
  induction ls with
  | nil => exact absurd rfl h
  | cons a ls ih =>
    cases ls with
    | nil => simp
    | cons b ls =>
      rw [intercalate_cons_cons, append_assoc, ih (cons_ne_nil b ls), @List.flatMap_cons _ _ a (b :: ls)]

theorem infix_of_mem_splitOn [BEq α] [LawfulBEq α] {x : α} {s l : List α} (h : l ∈ s.splitOn x) : l <:+: s := by
  have hinfix := @infix_intercalate _ [x] _ _ h
  rwa [intercalate_splitOn] at hinfix

theorem cut_singleton_cases (c : UInt8) (s : Bytes) :
    (c ∉ s ∧ cut s [c] = none) ∨
      ∃ before after, c ∉ before ∧ s = before ++ c :: after ∧ cut s [c] = some (before, after) := by
  by_cases h : c ∈ s
  · obtain ⟨before, after, rfl, hbefore⟩ := eq_append_cons_of_mem h
    exact .inr ⟨before, after, hbefore, rfl, cut_singleton_append hbefore⟩
  · exact .inl ⟨h, cut_singleton_eq_none_iff.mpr h⟩

theorem cut_append_of_notMem {a : Bytes} (h : c ∉ a) (b : Bytes) :
    cut (a ++ b) [c] = (cut b [c]).map fun p => (a ++ p.1, p.2) := by
  obtain ⟨hb, hcut⟩ | ⟨before, after, hbefore, rfl, hcut⟩ := cut_singleton_cases c b
  · rw [hcut, cut_singleton_eq_none_iff.mpr (by simp [h, hb])]
    rfl
  · rw [hcut, ← append_assoc, cut_singleton_append (by simp [h, hbefore])]
    rfl

theorem cutLast_append_cons {b : Bytes} (h : c ∉ b) (a : Bytes) : cutLast (a ++ c :: b) c = some (a, b) := by
  have hreverse : (a ++ c :: b).reverse = b.reverse ++ c :: a.reverse := by simp
  rw [cutLast, hreverse, cut_singleton_append (by simpa using h)]
  simp

section

variable {b : UInt8} {s t : Bytes}

theorem spaceWidth_le_length (s : Bytes) : spaceWidth s ≤ s.length := by
  fun_cases spaceWidth s <;> simp

theorem spaceWidth_of_isSpace (hs : s.head? = some b) (h : isSpace b = true) : spaceWidth s = 1 := by
  rw [isSpace] at h
  fun_cases spaceWidth s <;> grind

theorem spaceWidth_of_not_lead {x : UInt8} (hs : s.head? = some x) (h : x ≠ 0xC2 ∧ x ≠ 0xE1 ∧ x ≠ 0xE2 ∧ x ≠ 0xE3) :
    spaceWidth s = if 9 ≤ x ∧ x ≤ 13 ∨ x = 32 then 1 else 0 := by
  fun_cases spaceWidth s <;> grind

/-- An ASCII byte does not belong to a white space that has begun before it. -/
theorem spaceWidth_append (hb : b < 128) (hs : s ≠ []) (t : Bytes) : spaceWidth (s ++ b :: t) = spaceWidth s := by
  have hne {c : UInt8} (hc : 128 ≤ c) : b ≠ c := by grind
  obtain ⟨x, s, rfl⟩ := exists_cons_of_ne_nil hs
  by_cases hlead : x ≠ 0xC2 ∧ x ≠ 0xE1 ∧ x ≠ 0xE2 ∧ x ≠ 0xE3
  · rw [spaceWidth_of_not_lead rfl hlead, spaceWidth_of_not_lead rfl hlead]
  · have hcases : x = 0xC2 ∨ x = 0xE1 ∨ x = 0xE2 ∨ x = 0xE3 := by grind
    rcases s with _ | ⟨y, s⟩
    · obtain rfl | rfl | rfl | rfl := hcases <;> simp [spaceWidth, hne]
    obtain rfl | rfl | rfl | rfl := hcases
    · rfl
    · cases s with
      | nil => by_cases hy : y = 0x9A <;> simp [spaceWidth, hne]
      | cons z s => by_cases hy : y = 0x9A <;> by_cases hz : z = 0x80 <;> simp [spaceWidth, hy, hz]
    · cases s with
      | nil =>
        by_cases hy : y = 0x80
        · have hlt : ¬ 0x80 ≤ b := by grind
          simp [spaceWidth, hne, hy, hlt]
        · by_cases hy' : y = 0x81 <;> simp [spaceWidth, hne, hy]
      | cons z s =>
        by_cases hy : y = 0x80
        · simp [spaceWidth, hy]
        · by_cases hy' : y = 0x81 <;> by_cases hz : z = 0x9F <;> simp [spaceWidth, hy, hy', hz]
    · cases s with
      | nil => by_cases hy : y = 0x80 <;> simp [spaceWidth, hne]
      | cons z s => by_cases hy : y = 0x80 <;> by_cases hz : z = 0x80 <;> simp [spaceWidth, hy, hz]

theorem isSpace_lt (h : isSpace b = true) : b < 128 := by
  rw [isSpace] at h
  grind

theorem fieldsFrom_append (hb : isSpace b = true) (t : Bytes) {skip : ℕ} {field : Bytes}
    (hskip : skip ≤ s.length) : fieldsFrom skip field (s ++ b :: t) = fieldsFrom skip field s ++ fields t := by
  induction s generalizing skip field with
  | nil =>
    cases Nat.le_zero.mp hskip
    have hwidth : spaceWidth (b :: t) = 1 := spaceWidth_of_isSpace rfl hb
    simp [fieldsFrom, hwidth, fields]
  | cons c s ih =>
    rw [cons_append]
    cases skip with
    | succ skip => exact ih (Nat.le_of_succ_le_succ hskip)
    | zero =>
      rw [fieldsFrom, fieldsFrom, ← cons_append, spaceWidth_append (isSpace_lt hb) (cons_ne_nil c s)]
      cases hwidth : spaceWidth (c :: s) with
      | zero => exact ih (Nat.zero_le _)
      | succ n =>
        have hle := spaceWidth_le_length (c :: s)
        rw [hwidth] at hle
        have hn : n ≤ s.length := Nat.le_of_succ_le_succ hle
        simp [ih hn]

theorem fields_append_cons (hb : isSpace b = true) (s t : Bytes) : fields (s ++ b :: t) = fields s ++ fields t :=
  fieldsFrom_append hb t (Nat.zero_le _)

theorem fields_append_of_isSpace {gap : Bytes} (hgap : ∀ b ∈ gap, isSpace b = true)
    (t : Bytes) : fields (gap ++ t) = fields t := by
  induction gap with
  | nil => rfl
  | cons b gap ih =>
    obtain ⟨hb, hgap⟩ := forall_mem_cons.mp hgap
    exact (fields_append_cons hb [] (gap ++ t)).trans (ih hgap)

theorem fieldsFrom_of_hasSpace_eq_false (h : hasSpace s = false) (field : Bytes) :
    fieldsFrom 0 field s = flush (field ++ s) := by
  induction s generalizing field with
  | nil => rw [fieldsFrom, append_nil]
  | cons b s ih =>
    rw [hasSpace, Bool.or_eq_false_iff, decide_eq_false_iff_not, not_not] at h
    rw [fieldsFrom, h.1]
    simpa using ih h.2 (field ++ [b])

theorem fields_of_hasSpace_eq_false (hne : s ≠ []) (h : hasSpace s = false) : fields s = [s] := by
  rw [fields, fieldsFrom_of_hasSpace_eq_false h, nil_append, flush, if_neg hne]

theorem hasSpace_append_of_ascii (hs : s.all (fun b => decide (32 < b ∧ b < 128)) = true)
    (t : Bytes) : hasSpace (s ++ t) = hasSpace t := by
  induction s with
  | nil => rfl
  | cons b s ih =>
    rw [all_cons, Bool.and_eq_true, decide_eq_true_eq] at hs
    obtain ⟨hb, hs⟩ := hs
    have hwidth : spaceWidth (b :: (s ++ t)) = 0 := spaceWidth_eq_zero rfl hb
    rw [cons_append, hasSpace, hwidth, ih hs]
    rfl

end

theorem intercalate_append_cons_inj {sep : List α} {a b : List (List α)} {x y : List α} :
    sep.intercalate (a ++ x :: b) = sep.intercalate (a ++ y :: b) ↔ x = y := by
  induction a with
  | nil =>
    cases b with
    | nil => simp
    | cons z b => simp
  | cons z a ih =>
    obtain ⟨u, a', hx⟩ := exists_cons_of_ne_nil (append_ne_nil_of_right_ne_nil a (cons_ne_nil x b))
    obtain ⟨v, a'', hy⟩ := exists_cons_of_ne_nil (append_ne_nil_of_right_ne_nil a (cons_ne_nil y b))
    rw [cons_append, cons_append, hx, hy, intercalate_cons_cons,
      intercalate_cons_cons, ← hx, ← hy, append_cancel_left_eq, ih]

variable {old new : Bytes}

theorem replaceFirst_cons (c : UInt8) (s : Bytes) :
    replaceFirst (c :: s) old new =
      if old.isPrefixOf (c :: s) then new ++ (c :: s).drop old.length else c :: replaceFirst s old new := by
  rw [replaceFirst, replaceFirst, cut, cut, index]
  by_cases hstarts : old.isPrefixOf (c :: s)
  · simp only [if_pos hstarts, Option.map_some, take_zero, nil_append, Nat.zero_add]
  · simp only [if_neg hstarts]
    cases index old s with
    | none => rfl
    | some i => simp [Nat.add_right_comm]

theorem replaceFirst_append_of_notMem {c : UInt8} {old' a : Bytes} (h : c ∉ a) (b : Bytes) :
    replaceFirst (a ++ b) (c :: old') new = a ++ replaceFirst b (c :: old') new := by
  induction a with
  | nil => rfl
  | cons d a ih =>
    rw [mem_cons, not_or] at h
    rw [cons_append, replaceFirst_cons, if_neg (by simp [h.1]), ih h.2, cons_append]

theorem replaceFirst_append_self (hold : old ≠ []) (s : Bytes) : replaceFirst (old ++ s) old new = new ++ s := by
  obtain ⟨d, old', rfl⟩ := exists_cons_of_ne_nil hold
  rw [cons_append, replaceFirst_cons]
  simp

theorem prefix_of_prefix_append_cons {c : UInt8} {a b : Bytes} (hc : c ∉ old)
    (h : old <+: a ++ c :: b) : old <+: a := by
  have hac : a ++ [c] <+: a ++ c :: b := ⟨b, by simp⟩
  obtain hle | hge := prefix_or_prefix_of_prefix h hac
  · obtain heq | hle := prefix_concat_iff.mp hle
    · exact absurd (by simp [heq]) hc
    · exact hle
  · exact absurd (hge.subset (by simp)) hc

/-- What is replaced stands before a byte that it does not have, or after it. -/
theorem replaceFirst_append_cons {c : UInt8} (hc : c ∉ old) (hold : old ≠ []) (a : Bytes) :
    (∃ a', ∀ b, replaceFirst (a ++ c :: b) old new = a' ++ c :: b) ∨
      ∀ b, replaceFirst (a ++ c :: b) old new = a ++ c :: replaceFirst b old new := by
  induction a with
  | nil =>
    refine .inr fun b => ?_
    obtain ⟨d, old', rfl⟩ := exists_cons_of_ne_nil hold
    rw [nil_append, replaceFirst_cons, nil_append]
    rw [mem_cons, not_or] at hc
    simp [Ne.symm hc.1]
  | cons d a ih =>
    by_cases hstarts : old <+: d :: a
    · obtain ⟨a', ha⟩ := hstarts
      refine .inl ⟨new ++ a', fun b => ?_⟩
      rw [← ha, append_assoc, replaceFirst_append_self hold, append_assoc]
    · have hnot (b : Bytes) : ¬ old.isPrefixOf (d :: (a ++ c :: b)) = true := by
        intro h
        exact hstarts (prefix_of_prefix_append_cons hc ( isPrefixOf_iff_prefix.mp h))
      refine ih.imp (fun ⟨a', ha⟩ => ⟨d :: a', fun b => ?_⟩) fun ha b => ?_ <;>
        rw [cons_append, replaceFirst_cons, if_neg (hnot b), ha, cons_append]

end Spectra.Library.GoBytes
