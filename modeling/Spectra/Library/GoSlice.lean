import Mathlib.Data.List.Basic

/-! Go functions that take slices of buffers. -/
namespace Spectra.Library
open List

inductive Fault (ε : Type) where
  | error (e : ε)
  | panic
  deriving DecidableEq

/-- What a call returns, if it does not panic. -/
abbrev Checked (ε α : Type) := Except (Fault ε) α

namespace Checked

variable {ε α β : Type}

def fail (e : ε) : Checked ε β := .error (.error e)

/-- `data[i]`. -/
def index (data : List α) (i : ℕ) : Checked ε α :=
  match data[i]? with
  | some x => .ok x
  | none => .error .panic

/-- `data[lo:hi]`, which is out of bounds also if it only exceeds the length of the slice. -/
def slice (data : List α) (lo hi : ℕ) : Checked ε (List α) :=
  if lo ≤ hi ∧ hi ≤ data.length then .ok ((data.take hi).drop lo) else .error .panic

/-- `data[lo:]`. -/
def sliceFrom (data : List α) (lo : ℕ) : Checked ε (List α) := slice data lo data.length

@[simp] theorem ok_bind (x : α) (f : α → Checked ε β) : ((.ok x : Checked ε α) >>= f) = f x := rfl

/-- The call does not panic. -/
def Safe (x : Checked ε α) : Prop := x ≠ .error .panic

section

variable {data : List α} {i lo hi : ℕ} {f : α → Checked ε β} {g : List α → Checked ε β}

theorem index_eq (h : i < data.length) : (index data i : Checked ε α) = .ok data[i] := by
  rw [index, getElem?_eq_getElem h]

theorem slice_eq (hlo : lo ≤ hi) (hhi : hi ≤ data.length) :
    (slice data lo hi : Checked ε (List α)) = .ok ((data.take hi).drop lo) :=
  if_pos ⟨hlo, hhi⟩

theorem sliceFrom_eq (h : lo ≤ data.length) : (sliceFrom data lo : Checked ε (List α)) = .ok (data.drop lo) := by
  rw [sliceFrom, slice_eq h (Nat.le_refl _), take_length]

theorem Safe.ok (x : α) : Safe (.ok x : Checked ε α) := nofun

theorem Safe.fail (e : ε) : Safe (fail e : Checked ε α) := nofun

theorem Safe.ite {c : Prop} [Decidable c] {x y : Checked ε α} (hx : c → Safe x) (hy : ¬ c → Safe y) :
    Safe (if c then x else y) := by
  by_cases hc : c
  · rw [if_pos hc]
    exact hx hc
  · rw [if_neg hc]
    exact hy hc

theorem Safe.bind {x : Checked ε α} (hx : Safe x) (hf : ∀ v, x = .ok v → Safe (f v)) : Safe (x >>= f) := by
  cases x with
  | error e => exact fun h => hx (congrArg Except.error (Except.error.inj h))
  | ok v => exact hf v rfl

theorem Safe.index (h : i < data.length) (hf : ∀ x, Safe (f x)) : Safe (Checked.index data i >>= f) := by
  rw [index_eq h]
  exact hf _

theorem Safe.slice (h : lo ≤ hi ∧ hi ≤ data.length) (hg : ∀ part : List α, part.length = hi - lo → Safe (g part)) :
    Safe (Checked.slice data lo hi >>= g) := by
  rw [slice_eq h.1 h.2]
  refine hg _ ?_
  rw [length_drop, length_take, Nat.min_eq_left h.2]

theorem Safe.sliceFrom (h : lo ≤ data.length) (hg : ∀ part : List α, part.length = data.length - lo → Safe (g part)) :
    Safe (Checked.sliceFrom data lo >>= g) :=
  Safe.slice ⟨h, Nat.le_refl _⟩ hg

end

section

variable {before part after : List α} {x : α} {lo hi : ℕ}

theorem slice_append (hlo : before.length = lo) (hhi : lo + part.length = hi) :
    (slice (before ++ (part ++ after)) lo hi : Checked ε (List α)) = .ok part := by
  subst hlo hhi
  rw [slice_eq (Nat.le_add_right _ _) (by simp), ← append_assoc, ← length_append,
    take_left, drop_left]

theorem sliceFrom_append (h : before.length = lo) :
    (sliceFrom (before ++ after) lo : Checked ε (List α)) = .ok after := by
  subst h
  rw [sliceFrom_eq (by simp), drop_left]

theorem index_append (h : before.length = lo) : (index (before ++ x :: after) lo : Checked ε α) = .ok x := by
  subst h
  rw [index, getElem?_append_right (Nat.le_refl _), Nat.sub_self]
  rfl

end

variable {chunks : List (List α)} {part : List α} {x : α} {lo hi : ℕ} (i : ℕ)

theorem flatten_eq (h : chunks[i]? = some part) :
    chunks.flatten = (chunks.take i).flatten ++ (part ++ (chunks.drop (i + 1)).flatten) := by
  obtain ⟨hi, rfl⟩ := List.getElem?_eq_some_iff.mp h
  rw [← flatten_cons, getElem_cons_drop, ← flatten_append, take_append_drop]

theorem slice_chunk (h : chunks[i]? = some part) (hlo : (chunks.take i).flatten.length = lo)
    (hhi : lo + part.length = hi) : (slice chunks.flatten lo hi : Checked ε (List α)) = .ok part := by
  rw [flatten_eq i h]
  exact slice_append hlo hhi

theorem index_chunk (h : chunks[i]? = some [x]) (hlo : (chunks.take i).flatten.length = lo) :
    (index chunks.flatten lo : Checked ε α) = .ok x := by
  rw [flatten_eq i h]
  exact index_append hlo

end Checked
end Spectra.Library
