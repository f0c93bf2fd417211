import Mathlib.Data.List.Range
import Mathlib.Data.Nat.ModEq
import Mathlib.Logic.Function.Basic

/-!
The window of a ring buffer: `n` cells from an absolute position on, where positions are
reduced modulo the size of the buffer.
-/
namespace Ucore.Library

variable {α : Type*}

/-- The cells at the positions `[pos, pos + n)`, oldest first. -/
def window (buf : ℕ → α) (size pos : ℕ) : ℕ → List α
  | 0 => []
  | n + 1 => buf (pos % size) :: window buf size (pos + 1) n

/-- One cell more at the end. -/
theorem window_succ (buf : ℕ → α) (size pos n : ℕ) :
    window buf size pos (n + 1) = window buf size pos n ++ [buf ((pos + n) % size)] := by
  induction n generalizing pos with
  | zero => rfl
  | succ n ih =>
    rw [window, ih, window]
    have hpos : pos + 1 + n = pos + (n + 1) := by omega
    rw [hpos]
    rfl

/-- Writing a cell outside the window leaves the window alone. -/
theorem window_update_of_ne {buf : ℕ → α} {size pos n j : ℕ} {a : α}
    (h : ∀ i < n, (pos + i) % size ≠ j) :
    window (Function.update buf j a) size pos n = window buf size pos n := by
  induction n generalizing pos with
  | zero => rfl
  | succ n ih =>
    have hhead : pos % size ≠ j := by
      have h0 := h 0 (by omega)
      rwa [Nat.add_zero] at h0
    have htail : ∀ i < n, (pos + 1 + i) % size ≠ j := by
      intro i hi
      have hnext := h (i + 1) (by omega)
      have hpos : pos + (i + 1) = pos + 1 + i := by omega
      rwa [hpos] at hnext
    rw [window, window, ih htail, Function.update_of_ne hhead]

/-- The position behind a window that is not full is not in the window. -/
theorem mod_ne_of_lt {size pos n i : ℕ} (hn : n < size) (hi : i < n) :
    (pos + i) % size ≠ (pos + n) % size := by
  intro heq
  have hmod : Nat.ModEq size (pos + i) (pos + n) := heq
  have hin : Nat.ModEq size i n := Nat.ModEq.add_left_cancel' pos hmod
  have heq' := Nat.ModEq.eq_of_lt_of_lt hin (by omega) hn
  omega

/-- A cell written behind a window that is not full joins the window. -/
theorem window_push {buf : ℕ → α} {size pos n : ℕ} {a : α} (hn : n < size) :
    window (Function.update buf ((pos + n) % size) a) size pos (n + 1) =
      window buf size pos n ++ [a] := by
  rw [window_succ, Function.update_self]
  congr 1
  apply window_update_of_ne
  intro i hi
  exact mod_ne_of_lt hn hi

/-- In a full window the next position is that of the first cell. -/
theorem window_overwrite {buf : ℕ → α} {size pos : ℕ} {a : α} (hsize : 0 < size) :
    window (Function.update buf ((pos + size) % size) a) size pos size =
      a :: (window buf size pos size).tail := by
  obtain ⟨n, rfl⟩ : ∃ n, size = n + 1 := ⟨size - 1, by omega⟩
  rw [window, window, List.tail_cons, Nat.add_mod_right, Function.update_self]
  congr 1
  apply window_update_of_ne
  intro i hi heq
  have hne := @mod_ne_of_lt (n + 1) (pos + 1) n i (by omega) hi
  apply hne
  have hend : pos + 1 + n = pos + (n + 1) := by omega
  rw [heq, hend, Nat.add_mod_right]

end Ucore.Library
