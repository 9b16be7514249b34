import Mathlib.Data.List.Infix

/-! Regular expressions that are a sequence of literals, classes and one captured group, matched
as Go's `regexp` does: the leftmost match, and in it the preferred length of every repetition. -/
namespace Spectra.Library.Pattern
open List Option

abbrev Text := List Char

/-- What is captured by a match at the front of a text. -/
abbrev Matcher := Text → Option Text

/-- A literal, and then `k`. -/
def lit : Text → Matcher → Matcher
  | [], k, s => k s
  | _ :: _, _, [] => none
  | c :: w, k, x :: s => if x = c then lit w k s else none

/-- `p*`, as many as possible, and then `k`. -/
def many (p : Char → Bool) (k : Matcher) : Matcher
  | [] => k []
  | x :: s => if p x then (many p k s).or (k (x :: s)) else k (x :: s)

/-- `p*?c`, as few as possible. -/
def upTo (p : Char → Bool) (c : Char) : Matcher
  | [] => none
  | x :: s => if x = c then some [] else if p x then (upTo p c s).map (x :: ·) else none

/-- `(p+?)c`, as few as possible. -/
def capture (p : Char → Bool) (c : Char) : Matcher
  | [] => none
  | x :: s => if p x then (upTo p c s).map (x :: ·) else none

def find (m : Matcher) : Matcher
  | [] => m []
  | x :: s => (m (x :: s)).or (find m s)

variable {p : Char → Bool} {c x : Char} {k m : Matcher} {u v w s : Text}

section

theorem lit_append (w s : Text) : lit w k (w ++ s) = k s := by
  induction w with
  | nil => cases s <;> rfl
  | cons c w ih => rw [cons_append, lit, if_pos rfl, ih]

theorem lit_cons_of_ne (h : x ≠ c) : lit (c :: w) k (x :: s) = none := if_neg h

theorem upTo_append (hp : ∀ x ∈ u, p x = true) (hc : c ∉ u) (s : Text) : upTo p c (u ++ c :: s) = some u := by
  induction u with
  | nil => exact if_pos rfl
  | cons x u ih =>
    obtain ⟨hx, hu⟩ := forall_mem_cons.mp hp
    obtain ⟨hne, hnot⟩ := not_or.mp (mem_cons.not.mp hc)
    rw [cons_append, upTo, if_neg (Ne.symm hne), if_pos hx, ih hu hnot]
    rfl

theorem capture_append (hne : u ≠ []) (hp : ∀ x ∈ u, p x = true) (hc : c ∉ u) (s : Text) :
    capture p c (u ++ c :: s) = some u := by
  obtain ⟨x, u, rfl⟩ := exists_cons_of_ne_nil hne
  obtain ⟨hx, hu⟩ := forall_mem_cons.mp hp
  have hnot : c ∉ u := fun h => hc (mem_cons_of_mem x h)
  rw [cons_append, capture, if_pos hx, upTo_append hu hnot]
  rfl

theorem upTo_eq_none (h : c ∉ s) : upTo p c s = none := by
  induction s with
  | nil => rfl
  | cons x s ih =>
    obtain ⟨hne, hnot⟩ := not_or.mp (mem_cons.not.mp h)
    rw [upTo, if_neg (Ne.symm hne), ih hnot]
    split <;> rfl

theorem capture_eq_none (h : c ∉ s) : capture p c s = none := by
  cases s with
  | nil => rfl
  | cons x s =>
    rw [capture, upTo_eq_none fun hs => h (mem_cons_of_mem x hs)]
    split <;> rfl

theorem lit_eq_none (h : ∀ t, t <:+ s → k t = none) : lit w k s = none := by
  induction w generalizing s with
  | nil =>
    exact h s suffix_rfl
  | cons c w ih =>
    cases s with
    | nil => rfl
    | cons x s =>
      rw [lit]
      split
      · exact ih fun t ht => h t (ht.trans (suffix_cons x s))
      · rfl

theorem many_eq_none (h : ∀ t, t <:+ s → k t = none) : many p k s = none := by
  induction s with
  | nil => exact h [] suffix_rfl
  | cons x s ih =>
    rw [many, ih fun t ht => h t (ht.trans (suffix_cons x s)), h (x :: s) suffix_rfl]
    split <;> rfl

theorem many_append_cons (hu : ∀ t, t <:+ u → k (t ++ x :: s) = none) (hx : p x = false) :
    many p k (u ++ x :: s) = none := by
  induction u with
  | nil =>
    rw [nil_append, many, if_neg (by simp [hx])]
    exact hu [] suffix_rfl
  | cons y u ih =>
    rw [cons_append, many, ih fun t ht => hu t (ht.trans (suffix_cons y u)), ← cons_append, hu (y :: u) suffix_rfl]
    split <;> rfl

theorem many_append_of_all (hu : ∀ x ∈ u, p x = true) {r : Text} (hv : many p k v = some r) :
    many p k (u ++ v) = some r := by
  induction u with
  | nil => exact hv
  | cons x u ih =>
    obtain ⟨hx, hrest⟩ := forall_mem_cons.mp hu
    rw [cons_append, many, if_pos hx, ih hrest, some_or]

end

section

/-- What comes before `v` is matched as if `v` were not there. -/
def Closed (v : Text) (m : Matcher) : Prop := ∀ u, m (u ++ v) = m u

theorem closed_upTo (h : upTo p c v = none) : Closed v (upTo p c) := by
  intro u
  induction u with
  | nil => exact h
  | cons x u ih => rw [cons_append, upTo, upTo, ih]

theorem closed_capture (h : upTo p c v = none) (hv : capture p c v = none) : Closed v (capture p c) := by
  intro u
  cases u with
  | nil => exact hv
  | cons x u => rw [cons_append, capture, capture, closed_upTo h u]

theorem closed_lit (hk : Closed v k) (h : ∀ w', w' <:+ w → w' ≠ [] → lit w' k v = none) : Closed v (lit w k) := by
  induction w with
  | nil =>
    intro u
    exact hk u
  | cons c w ih =>
    intro u
    cases u with
    | nil =>
      rw [nil_append, h (c :: w) suffix_rfl (cons_ne_nil c w)]
      rfl
    | cons x u =>
      rw [cons_append, lit, lit, ih (fun w' hw' hne => h w' (hw'.trans (suffix_cons c w)) hne) u]

theorem many_append_of_mem (hk : Closed v k) (hu : ∃ x ∈ u, p x = false) : many p k (u ++ v) = many p k u := by
  induction u with
  | nil =>
    obtain ⟨x, hx, -⟩ := hu
    exact nomatch hx
  | cons x u ih =>
    have hhere : k (x :: (u ++ v)) = k (x :: u) := hk (x :: u)
    rw [cons_append, many, many, hhere]
    cases hx : p x with
    | false => rfl
    | true =>
      obtain ⟨y, hy, hpy⟩ := hu
      have htail : ∃ y ∈ u, p y = false := by
        rcases mem_cons.mp hy with rfl | hmem
        · exact nomatch hx.symm.trans hpy
        · exact ⟨y, hmem, hpy⟩
      rw [ih htail]

theorem closed_lit_cons (hk : Closed (x :: v) k) (hx : x ∉ w) : Closed (x :: v) (lit w k) := by
  refine closed_lit hk fun w' hw' hne => ?_
  obtain ⟨c, w', rfl⟩ := exists_cons_of_ne_nil hne
  exact lit_cons_of_ne fun heq => hx (heq ▸ hw'.mem (.head _))

end

section

/-- What comes before `v` is matched as if `v` were not there; or else it is all of one class, and
with `v` the text `r` is captured. -/
def Completed (p : Char → Bool) (v r : Text) (m : Matcher) : Prop :=
  ∀ u, m (u ++ v) = m u ∨ (∀ x ∈ u, p x = true) ∧ m (u ++ v) = some r

variable {r : Text}

theorem completed_many (hk : Closed v k) (hv : many p k v = some r) : Completed p v r (many p k) := by
  intro u
  by_cases hu : ∀ x ∈ u, p x = true
  · exact .inr ⟨hu, many_append_of_all hu hv⟩
  · left
    refine many_append_of_mem hk ?_
    simpa using hu

theorem completed_lit (hk : Completed p v r k) (hw : ∀ c ∈ w, p c = true)
    (h : ∀ w', w' <:+ w → w' ≠ [] → lit w' k v = none ∨ lit w' k v = some r) : Completed p v r (lit w k) := by
  induction w with
  | nil =>
    intro u
    exact hk u
  | cons c w ih =>
    obtain ⟨hc, hrest⟩ := forall_mem_cons.mp hw
    intro u
    cases u with
    | nil =>
      rcases h (c :: w) suffix_rfl (cons_ne_nil c w) with hnone | hsome
      · exact .inl hnone
      · exact .inr ⟨fun x hx => absurd hx not_mem_nil, hsome⟩
    | cons x u =>
      rw [cons_append, lit, lit]
      split
      · rename_i hx
        rcases ih hrest (fun w' hw' hne => h w' (hw'.trans (suffix_cons c w)) hne) u with
          hsame | ⟨hu, hsome⟩
        · exact .inl hsame
        · exact .inr ⟨forall_mem_cons.mpr ⟨hx ▸ hc, hu⟩, hsome⟩
      · exact .inl rfl

end

theorem find_append (hnil : m [] = none) (h : ∀ t, t <:+ u → t ≠ [] → m (t ++ v) = m t) :
    find m (u ++ v) = (find m u).or (find m v) := by
  induction u with
  | nil => rw [find, hnil, none_or, nil_append]
  | cons x u ih =>
    have hhere : m (x :: (u ++ v)) = m (x :: u) := h (x :: u) suffix_rfl (cons_ne_nil x u)
    rw [cons_append, find, find, hhere, ih fun t ht hne => h t (ht.trans (suffix_cons x u)) hne, Option.or_assoc]

theorem find_append_of_closed (hnil : m [] = none) (h : Closed v m) : find m (u ++ v) = (find m u).or (find m v) :=
  find_append hnil fun t _ _ => h t

theorem find_of_match {r : Text} (h : m s = some r) : find m s = some r := by
  cases s with
  | nil => exact h
  | cons x s => rw [find, h, some_or]

theorem find_skip (h : ∀ t, t <:+ u → t ≠ [] → m (t ++ v) = none) : find m (u ++ v) = find m v := by
  induction u with
  | nil => rfl
  | cons x u ih =>
    have hhere : m (x :: (u ++ v)) = none := h (x :: u) suffix_rfl (cons_ne_nil x u)
    rw [cons_append, find, hhere, none_or, ih fun t ht hne => h t (ht.trans (suffix_cons x u)) hne]

theorem find_eq_none (h : ∀ t, t <:+ s → m t = none) : find m s = none := by
  induction s with
  | nil => exact h [] suffix_rfl
  | cons x s ih =>
    rw [find, h (x :: s) suffix_rfl, none_or, ih fun t ht => h t (ht.trans (suffix_cons x s))]

theorem find_completed {r : Text} (hnone : ∀ t, (∀ x ∈ t, p x = true) → m t = none)
    (h : Completed p v r m) (hv : find m v = some r) : find m (u ++ v) = some ((find m u).getD r) := by
  induction u with
  | nil =>
    have hnil : m [] = none := hnone [] fun x hx => nomatch hx
    rw [nil_append, hv, find, hnil, getD_none]
  | cons x u ih =>
    rcases h (x :: u) with hsame | ⟨hall, hsome⟩
    · rw [cons_append, find, find, ih, ← cons_append, hsame]
      cases m (x :: u) <;> rfl
    · have hfind : find m (x :: u) = none :=
        find_eq_none fun t ht => hnone t fun y hy => hall y (ht.mem hy)
      rw [hfind, cons_append, find, ← cons_append, hsome, some_or, getD_none]

theorem find_lit_skip (h : c ∉ u) (v : Text) : find (lit (c :: w) k) (u ++ v) = find (lit (c :: w) k) v := by
  refine find_skip fun t ht hne => ?_
  obtain ⟨x, t, rfl⟩ := exists_cons_of_ne_nil hne
  have hx : x ≠ c := fun heq => h (heq ▸ ht.mem (.head _))
  exact lit_cons_of_ne hx

theorem find_lit_eq_none (h : c ∉ s) : find (lit (c :: w) k) s = none := by
  have hskip := find_lit_skip (w := w) (k := k) h []
  rw [append_nil] at hskip
  exact hskip

theorem findSome?_cons_or {α β : Type} (g : α → Option β) (x : α) (xs : List α) :
    (x :: xs).findSome? g = (g x).or (xs.findSome? g) := by
  rw [findSome?_cons]
  cases g x <;> rfl

theorem find_intercalate {sep : Text} (hnil : m [] = none) (hclosed : ∀ v, Closed (sep ++ v) m)
    (hsep : ∀ v, find m (sep ++ v) = find m v) (parts : List Text) :
    find m (sep.intercalate parts) = parts.findSome? (find m) := by
  induction parts with
  | nil => exact hnil
  | cons part parts ih =>
    cases parts with
    | nil => rw [intercalate_singleton, findSome?_singleton]
    | cons next parts =>
      rw [findSome?_cons_or, intercalate_cons_cons, append_assoc, find_append_of_closed hnil (hclosed _), hsep, ih]

end Spectra.Library.Pattern
