import Mathlib.Tactic.Common

/-!
Copying between arrays. A copy replaces a range of one array by a range of another; copies that
follow each other make one, and so does a copy by way of a buffer.
-/
namespace Ucore.Library

variable {β : Type*}

/-- The range `[d, d + n)` of `dst` is replaced by the range `[s, s + n)` of `src`. -/
def copyRange (dst src : ℕ → β) (d s n : ℕ) : ℕ → β := fun i =>
  if d ≤ i ∧ i < d + n then src (s + (i - d)) else dst i

variable {dst src buf : ℕ → β} {d s n m i : ℕ}

theorem copyRange_of_mem (h : i < n) : copyRange dst src d s n (d + i) = src (s + i) := by
  have hmem : d ≤ d + i ∧ d + i < d + n := ⟨Nat.le_add_right d i, Nat.add_lt_add_left h d⟩
  rw [copyRange, if_pos hmem, Nat.add_sub_cancel_left]

theorem copyRange_of_notMem (h : ¬ (d ≤ i ∧ i < d + n)) : copyRange dst src d s n i = dst i :=
  if_neg h

theorem copyRange_zero (dst src : ℕ → β) (d s : ℕ) : copyRange dst src d s 0 = dst := by
  funext i
  exact copyRange_of_notMem (by omega)

/-- Only the range that is read matters. -/
theorem copyRange_congr {src' : ℕ → β} (h : ∀ i, i < n → src (s + i) = src' (m + i)) :
    copyRange dst src d s n = copyRange dst src' d m n := by
  funext i
  unfold copyRange
  split
  · exact h (i - d) (by omega)
  · rfl

/-- Two copies of which the second one goes on where the first one ended. -/
theorem copyRange_append (dst src : ℕ → β) (d s n m : ℕ) :
    copyRange (copyRange dst src d s n) src (d + n) (s + n) m = copyRange dst src d s (n + m) := by
  funext i
  unfold copyRange
  by_cases hfirst : d ≤ i ∧ i < d + n
  · rw [if_neg (by omega), if_pos hfirst, if_pos (by omega)]
  · by_cases hsecond : d + n ≤ i ∧ i < d + n + m
    · rw [if_pos hsecond, if_pos (by omega), show s + n + (i - (d + n)) = s + (i - d) by omega]
    · rw [if_neg hsecond, if_neg hfirst, if_neg (by omega)]

/-- A copy by way of a buffer. -/
theorem copyRange_through (dst src buf : ℕ → β) (d s b n : ℕ) :
    copyRange dst (copyRange buf src b s n) d b n = copyRange dst src d s n :=
  copyRange_congr fun _ hi => copyRange_of_mem hi

end Ucore.Library
