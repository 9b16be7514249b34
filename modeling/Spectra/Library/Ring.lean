import Mathlib.Data.List.Basic
import Mathlib.Data.List.TakeDrop

/-! A circular buffer of fixed capacity, which holds the last elements added to it. -/
namespace Spectra.Library
open List

/-- `head` is where the next element goes; the slots fill up from the first one. -/
structure Ring (α : Type) (cap : ℕ) where
  slots : List α
  head : ℕ
  count : ℕ
  length_slots : slots.length = cap
  head_lt : head < cap
  count_le : count ≤ cap
  head_eq : count < cap → head = count

namespace Ring
variable {α : Type} {cap : ℕ}

def empty (zero : α) (h : 0 < cap) : Ring α cap where
  slots := List.replicate cap zero
  head := 0
  count := 0
  length_slots := List.length_replicate
  head_lt := h
  count_le := Nat.zero_le _
  head_eq := fun _ => rfl

/-- The oldest element is overwritten when the buffer is full. -/
def add (x : α) (r : Ring α cap) : Ring α cap where
  slots := r.slots.set r.head x
  head := (r.head + 1) % cap
  count := if r.count < cap then r.count + 1 else r.count
  length_slots := by rw [List.length_set, r.length_slots]
  head_lt := Nat.mod_lt _ (Nat.zero_lt_of_lt r.head_lt)
  count_le := by
    have := r.count_le
    split <;> omega
  head_eq := by
    intro h
    split at h
    · rename_i hlt
      rw [if_pos hlt, r.head_eq hlt, Nat.mod_eq_of_lt h]
    · exact absurd h ‹_›

def toList (r : Ring α cap) : List α :=
  if r.count < cap then r.slots.take r.count
  else r.slots.drop r.head ++ r.slots.take r.head

theorem toList_empty (zero : α) (h : 0 < cap) : (empty zero h).toList = [] := by
  unfold toList empty
  rw [if_pos h]
  rfl

theorem length_toList (r : Ring α cap) : r.toList.length = r.count := by
  have hlen := r.length_slots
  have hcount := r.count_le
  rw [toList]
  split
  · rw [length_take]
    omega
  · rw [length_append, length_drop, length_take]
    omega

theorem toList_add (r : Ring α cap) (x : α) : (r.add x).toList =
    if (if r.count < cap then r.count + 1 else r.count) < cap then
      (r.slots.set r.head x).take (if r.count < cap then r.count + 1 else r.count)
    else (r.slots.set r.head x).drop ((r.head + 1) % cap) ++
      (r.slots.set r.head x).take ((r.head + 1) % cap) := rfl

theorem toList_add_of_lt {r : Ring α cap} (h : r.count < cap) (x : α) : (r.add x).toList = r.toList ++ [x] := by
  have hlen := r.length_slots
  have hset : (r.slots.set r.count x).take (r.count + 1) = r.slots.take r.count ++ [x] := by
    rw [take_add_one, take_set_of_le (Nat.le_refl _), getElem?_set_self (by omega)]
    rfl
  rw [toList_add, if_pos h, r.head_eq h, toList, if_pos h]
  by_cases hfull : r.count + 1 < cap
  · rw [if_pos hfull, hset]
  · rw [if_neg hfull, show (r.count + 1) % cap = 0 by
      rw [show r.count + 1 = cap by omega, Nat.mod_self]]
    rw [← hset, drop_zero, take_zero, append_nil, take_of_length_le]
    rw [length_set]
    omega

/-- A full buffer loses its oldest element. -/
theorem toList_add_of_full {r : Ring α cap} (h : r.count = cap) (x : α) : (r.add x).toList = r.toList.tail ++ [x] := by
  have hlen := r.length_slots
  have hhead := r.head_lt
  have hdrop : r.slots.drop r.head = r.slots.get ⟨r.head, by omega⟩ :: r.slots.drop (r.head + 1) :=
    drop_eq_getElem_cons (by omega)
  have hset : r.slots.set r.head x = r.slots.take r.head ++ x :: r.slots.drop (r.head + 1) :=
    set_eq_take_append_cons_drop.trans (if_pos (by omega))
  have htake : (r.slots.take r.head ++ [x]).length = r.head + 1 := by
    rw [length_append, length_take, length_singleton]
    omega
  have hnot : ¬ r.count < cap := by omega
  have htail : r.toList.tail = r.slots.drop (r.head + 1) ++ r.slots.take r.head := by
    rw [toList, if_neg hnot, hdrop]
    rfl
  rw [toList_add, if_neg hnot, if_neg hnot, htail, hset, append_cons]
  by_cases hlast : r.head + 1 = cap
  · have hnil : r.slots.drop (r.head + 1) = [] := drop_of_length_le (by omega)
    rw [hnil, hlast]
    simp
  · rw [Nat.mod_eq_of_lt (by omega), drop_left' htake, take_left' htake,
      append_assoc]

end Ring
end Spectra.Library
