import Mathlib.Data.UInt

/-! Bytes at the places of a circular space of 32-bit sequence numbers. -/
namespace Spectra.Library
open UInt32 List

/-- The values are those that `f` has from a sequence number on. -/
def AtSeq {α : Type*} (f : UInt32 → α) (seq : UInt32) (values : List α) : Prop :=
  ∀ i (h : i < values.length), values[i] = f (seq + UInt32.ofNat i)

instance {α : Type*} [DecidableEq α] (f : UInt32 → α) (seq : UInt32) (values : List α) :
    Decidable (AtSeq f seq values) :=
  inferInstanceAs (Decidable (∀ i (h : i < values.length), values[i] = f (seq + UInt32.ofNat i)))

namespace AtSeq

variable {α : Type*} {f : UInt32 → α} {seq : UInt32} {values values' : List α}

theorem nil : AtSeq f seq [] := fun _ h => nomatch h

theorem append_iff :
    AtSeq f seq (values ++ values') ↔ AtSeq f seq values ∧ AtSeq f (seq + ofNat values.length) values' := by
  constructor
  · intro h
    refine ⟨fun i hi => ?_, fun i hi => ?_⟩
    · have hbyte := h i (by rw [length_append]; omega)
      rwa [getElem_append_left hi] at hbyte
    · have hbyte := h (values.length + i) (by rw [length_append]; omega)
      rw [ofNat_add, ← add_assoc] at hbyte
      simpa using hbyte
  · rintro ⟨hleft, hright⟩ i hi
    by_cases hlt : i < values.length
    · rw [getElem_append_left hlt]
      exact hleft i hlt
    · rw [length_append] at hi
      rw [getElem_append_right (by omega), hright (i - values.length) (by omega),
        add_assoc, ← ofNat_add, Nat.add_sub_cancel' (by omega)]

variable (h : AtSeq f seq values)
include h

theorem append (h' : AtSeq f (seq + ofNat values.length) values') : AtSeq f seq (values ++ values') :=
  append_iff.mpr ⟨h, h'⟩

theorem take (n : ℕ) : AtSeq f seq (values.take n) := by
  rw [← take_append_drop n values] at h
  exact (append_iff.mp h).1

theorem drop {n : ℕ} (hn : n ≤ values.length) : AtSeq f (seq + ofNat n) (values.drop n) := by
  rw [← take_append_drop n values] at h
  have hdrop := (append_iff.mp h).2
  rwa [length_take, Nat.min_eq_left hn] at hdrop

end AtSeq
end Spectra.Library
