import Mathlib.Data.List.TakeWhile
import Mathlib.Tactic.TypeStar

/-!
Strings in buffers. A buffer of `n` cells holds the string up to the first terminator, and all of
its cells where there is none.
-/
namespace Ucore.Library

variable {α : Type*} [DecidableEq α]

/-- The string in the first `n` cells of a buffer. -/
def stringIn (stop : α) (n : ℕ) (buf : ℕ → α) : List α :=
  ((List.range n).map buf).takeWhile (fun c => decide (c ≠ stop))

variable {stop : α} {n k : ℕ} {buf : ℕ → α} {name : List α}

/-- The first cell, and what stands behind it. -/
theorem stringIn_succ : stringIn stop (n + 1) buf =
    if buf 0 = stop then [] else buf 0 :: stringIn stop n (fun i => buf (i + 1)) := by
  unfold stringIn
  rw [List.range_succ_eq_map, List.map_cons, List.takeWhile_cons, List.map_map]
  by_cases h : buf 0 = stop
  · rw [if_pos h, if_neg (by simp [h])]
  · rw [if_neg h, if_pos (by simp [h])]
    rfl

/-- A string of which `k` characters are in the buffer is cut off there. -/
theorem stringIn_eq_take (hn : k ≤ n) (hk : k ≤ name.length)
    (hsame : ∀ i < k, name[i]? = some (buf i)) (hstop : k = n ∨ buf k = stop)
    (hno : stop ∉ name) : stringIn stop n buf = name.take k := by
  induction k generalizing n buf name with
  | zero =>
    rw [List.take_zero]
    cases n with
    | zero => rfl
    | succ n => rw [stringIn_succ, if_pos (hstop.resolve_left (by omega))]
  | succ k ih =>
    obtain ⟨m, rfl⟩ : ∃ m, n = m + 1 := ⟨n - 1, by omega⟩
    cases name with
    | nil => exact absurd hk (by simp)
    | cons c rest =>
      rw [List.mem_cons, not_or] at hno
      have hc : c = buf 0 := Option.some.inj (hsame 0 (Nat.succ_pos k))
      have hrest : stringIn stop m (fun i => buf (i + 1)) = rest.take k := by
        refine ih (by omega) (Nat.le_of_succ_le_succ hk) ?_ ?_ hno.2
        · intro i hi
          exact hsame (i + 1) (by omega)
        · exact hstop.imp_left (by omega)
      rw [stringIn_succ, if_neg (fun h => hno.1 (h.symm.trans hc.symm)), hrest,
        List.take_succ_cons, hc]

/-- What lies behind the terminator is no part of the string. -/
theorem stringIn_congr {buf' : ℕ → α} (hk : k < n) (hstop : buf k = stop)
    (hsame : ∀ i ≤ k, buf' i = buf i) : stringIn stop n buf' = stringIn stop n buf := by
  induction k generalizing n buf buf' with
  | zero =>
    obtain ⟨m, rfl⟩ : ∃ m, n = m + 1 := ⟨n - 1, by omega⟩
    rw [stringIn_succ, stringIn_succ, hsame 0 le_rfl, if_pos hstop, if_pos hstop]
  | succ k ih =>
    obtain ⟨m, rfl⟩ : ∃ m, n = m + 1 := ⟨n - 1, by omega⟩
    rw [stringIn_succ, stringIn_succ, hsame 0 (Nat.zero_le _)]
    split
    · rfl
    · refine congrArg (buf 0 :: ·) (ih (by omega) hstop ?_)
      exact fun i hi => hsame (i + 1) (by omega)

theorem not_mem_stringIn : stop ∉ stringIn stop n buf := by
  intro h
  have hne := List.mem_takeWhile_imp h
  exact of_decide_eq_true hne rfl

theorem length_stringIn_le (hk : k < n) (hstop : buf k = stop) :
    (stringIn stop n buf).length ≤ k := by
  induction k generalizing n buf with
  | zero =>
    obtain ⟨m, rfl⟩ : ∃ m, n = m + 1 := ⟨n - 1, by omega⟩
    rw [stringIn_succ, if_pos hstop]
    exact Nat.zero_le _
  | succ k ih =>
    obtain ⟨m, rfl⟩ : ∃ m, n = m + 1 := ⟨n - 1, by omega⟩
    rw [stringIn_succ]
    split
    · exact Nat.zero_le _
    · exact Nat.succ_le_succ (ih (by omega) hstop)

theorem take_stringIn (hk : k ≤ n) : (stringIn stop n buf).take k = stringIn stop k buf := by
  induction k generalizing n buf with
  | zero => rw [List.take_zero]; rfl
  | succ k ih =>
    obtain ⟨m, rfl⟩ : ∃ m, n = m + 1 := ⟨n - 1, by omega⟩
    rw [stringIn_succ, stringIn_succ]
    split
    · exact List.take_nil
    · rw [List.take_succ_cons, ih (Nat.le_of_succ_le_succ hk)]

end Ucore.Library
