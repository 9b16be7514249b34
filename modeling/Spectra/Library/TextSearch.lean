import Mathlib.Data.List.Chain

/-! Searching a text for a word, and texts that are rewritten symbol by symbol. -/
namespace Spectra.Library.TextSearch
open List
variable {α : Type*} [DecidableEq α]

/-- What follows the first occurrence of a word. -/
def afterFirst (word : List α) : List α → Option (List α)
  | [] => if word = [] then some [] else none
  | a :: text =>
    if word.isPrefixOf (a :: text) then some ((a :: text).drop word.length)
    else afterFirst word text

variable {word text rest : List α} {a : α}

theorem afterFirst_cons_of_not_isPrefixOf (h : word.isPrefixOf (a :: text) = false) :
    afterFirst word (a :: text) = afterFirst word text := by
  rw [afterFirst, if_neg (by simp [h])]

theorem afterFirst_append_self (hne : word ≠ []) (rest : List α) : afterFirst word (word ++ rest) = some rest := by
  cases word with
  | nil => exact absurd rfl hne
  | cons a word =>
    have hword : (a :: word).isPrefixOf (a :: (word ++ rest)) = true :=
      isPrefixOf_iff_prefix.mpr ⟨rest, rfl⟩
    rw [cons_append, afterFirst, if_pos hword, ← cons_append, drop_left]

theorem afterFirst_singleton (h : a ∉ text) (rest : List α) : afterFirst [a] (text ++ a :: rest) = some rest := by
  induction text with
  | nil => exact afterFirst_append_self (cons_ne_nil _ _) rest
  | cons b text ih =>
    have hne : a ≠ b := fun he => h (he ▸ (.head _))
    rw [cons_append, afterFirst_cons_of_not_isPrefixOf (by simp [isPrefixOf, hne])]
    exact ih fun hmem => h (.tail _ hmem)

/-- Every quote of the text, but for one at its start, is escaped. -/
def QuotesEscaped (quote escape : α) (text : List α) : Prop :=
  text.IsChain fun a b => b = quote → a = escape

variable {quote escape : α}

omit [DecidableEq α] in
theorem QuotesEscaped.cons_append (htext : ∀ b ∈ text, b ≠ quote)
    (hrest : ∀ b, QuotesEscaped quote escape (b :: rest)) (b : α) :
    QuotesEscaped quote escape (b :: (text ++ rest)) := by
  induction text generalizing b with
  | nil => exact hrest b
  | cons a text ih =>
    obtain ⟨ha, htext⟩ := forall_mem_cons.mp htext
    exact isChain_cons_cons.mpr ⟨fun he => absurd he ha, ih htext a⟩

/-- A quoted word cannot occur in a text whose quotes are escaped, unless it ends with the quote
that closes the text. -/
theorem afterFirst_quoted (hquote : quote ∉ word) (hescape : word.getLast? ≠ some escape)
    (hne : word ≠ []) (htext : QuotesEscaped quote escape text) (rest : List α) :
    afterFirst (quote :: (word ++ [quote])) (text ++ quote :: rest) = some rest ∨
      afterFirst (quote :: (word ++ [quote])) (text ++ quote :: rest) =
        afterFirst (quote :: (word ++ [quote])) (quote :: rest) := by
  induction text with
  | nil => exact .inr rfl
  | cons a text ih =>
    have htail := htext.suffix (suffix_cons _ _)
    rw [cons_append]
    cases hp : (quote :: (word ++ [quote])).isPrefixOf (a :: (text ++ quote :: rest)) with
    | false =>
      rw [afterFirst_cons_of_not_isPrefixOf hp]
      exact ih htail
    | true =>
      obtain ⟨after, hafter⟩ := isPrefixOf_iff_prefix.mp hp
      obtain ⟨-, heq⟩ := cons.inj hafter
      rw [append_eq, append_assoc] at heq
      have hword : text = word ∧ after = rest := by
        obtain ⟨m, hm, hm'⟩ | ⟨m, hm, hm'⟩ := append_eq_append_iff.mp heq
        · cases m with
          | nil => exact ⟨by simpa using hm, by simpa using hm'⟩
          | cons b m =>
            obtain ⟨rfl, -⟩ := cons.inj hm'
            rw [hm] at htail
            obtain ⟨w, last, rfl⟩ := eq_nil_or_concat word |>.resolve_left hne
            have hlast := (isChain_append.mp htail).2.2 last (by simp) quote (by simp) rfl
            exact absurd (by simp [hlast]) hescape
        · cases m with
          | nil => exact ⟨by simpa using hm.symm, by simpa using hm'.symm⟩
          | cons b m =>
            obtain ⟨rfl, -⟩ := cons.inj hm'
            exact absurd (hm ▸ mem_append_right _ (.head _)) hquote
      obtain ⟨rfl, rfl⟩ := hword
      left
      rw [← hafter]
      exact afterFirst_append_self (cons_ne_nil _ _) _

variable {β : Type*} {table : List (α × β)}

theorem mem_of_lookup {b : β} (h : table.lookup a = some b) : (a, b) ∈ table := by
  obtain ⟨before, after, htable, -⟩ := lookup_eq_some_iff.mp h
  rw [htable]
  exact mem_append_right _ mem_cons_self

theorem ne_of_lookup (h : table.lookup a = none) {x : α × β} (hx : x ∈ table) : a ≠ x.1 := by
  simpa using lookup_eq_none_iff.mp h x hx

omit [DecidableEq α] in
/-- A text rewritten symbol by symbol, never to nothing, is unchanged only if every symbol is. -/
theorem flatMap_eq_self_iff {f : α → List α} (hf : ∀ a, f a ≠ []) (text : List α) :
    text.flatMap f = text ↔ ∀ a ∈ text, f a = [a] := by
  induction text with
  | nil => simp
  | cons a text ih =>
    rw [flatMap_cons, forall_mem_cons, ← ih]
    constructor
    · intro h
      have hlength : ∀ l : List α, l.length ≤ (l.flatMap f).length := by
        intro l
        induction l with
        | nil => exact Nat.zero_le _
        | cons b l ihl =>
          rw [flatMap_cons, length_append, length_cons]
          have := length_pos_of_ne_nil (hf b)
          omega
      have hone : (f a).length = 1 := by
        have hlen := congrArg length h
        rw [length_append, length_cons] at hlen
        have := hlength text
        have := length_pos_of_ne_nil (hf a)
        omega
      obtain ⟨b, hb⟩ := length_eq_one_iff.mp hone
      rw [hb] at h
      obtain ⟨rfl, hrest⟩ := cons.inj h
      exact ⟨hb, hrest⟩
    · rintro ⟨ha, hrest⟩
      rw [ha, hrest, singleton_append]

end Spectra.Library.TextSearch
