import Mathlib.Order.Lattice
import Mathlib.Data.List.Basic

/-! Lists of times of which only those after a moving cutoff count. -/
namespace Spectra.Library
open List

variable {T : Type*} [LinearOrder T]

def timesAfter (cutoff : T) (times : List T) : List T := times.filter (cutoff < ·)

theorem timesAfter_timesAfter {c c' : T} (h : c ≤ c') (times : List T) :
    timesAfter c' (timesAfter c times) = timesAfter c' times := by
  unfold timesAfter
  rw [filter_filter]
  apply filter_congr
  intro t _
  by_cases ht : c' < t
  · simp [lt_of_le_of_lt h ht]
  · simp [ht]

theorem timesAfter_append (c : T) (times times' : List T) :
    timesAfter c (times ++ times') = timesAfter c times ++ timesAfter c times' :=
  filter_append ..

/-- Times of which each had fewer than `n` before it after its own cutoff. -/
inductive Limited (n : ℕ) (cutoff : T → T) : List T → Prop
  | nil : Limited n cutoff []
  | snoc {times : List T} {t : T} (h : Limited n cutoff times)
    (hfew : (timesAfter (cutoff t) times).length < n) : Limited n cutoff (times ++ [t])

theorem Limited.length_window_le {n : ℕ} {cutoff : T → T} {times : List T}
    (h : Limited n cutoff times) (window : T → Bool)
    (hwindow : ∀ s t, window s = true → window t = true → cutoff t < s) : (times.filter window).length ≤ n := by
  induction h with
  | nil => exact Nat.zero_le n
  | @snoc times t h hfew ih =>
    rw [filter_append]
    cases ht : window t with
    | false => simpa [ht] using ih
    | true =>
      have hsub : (times.filter window).length ≤ (timesAfter (cutoff t) times).length := by
        refine (monotone_filter_right times fun s hs => ?_).length_le
        exact decide_eq_true (hwindow s t hs ht)
      simp only [ht, filter_cons_of_pos, filter_nil, length_append, length_singleton]
      omega

end Spectra.Library
