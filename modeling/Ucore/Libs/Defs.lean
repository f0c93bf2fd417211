import Mathlib.Tactic.Ring

/-!
The integer types of `defs.h`.
-/
namespace Ucore.Libs

/-- Assignment to an `unsigned int`. -/
def uint32 (v : ℕ) : ℕ := v % 2 ^ 32

theorem uint32_of_lt {v : ℕ} (h : v < 2 ^ 32) : uint32 v = v := Nat.mod_eq_of_lt h

theorem uint32_lt (v : ℕ) : uint32 v < 2 ^ 32 := Nat.mod_lt v (Nat.two_pow_pos 32)

/-- Arithmetic on a `size_t`. -/
def uint64 (v : ℕ) : ℕ := v % 2 ^ 64

theorem uint64_of_lt {v : ℕ} (h : v < 2 ^ 64) : uint64 v = v := Nat.mod_eq_of_lt h

end Ucore.Libs
