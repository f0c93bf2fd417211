import Ucore.Library.Tiling
import Mathlib.Data.Nat.Bitwise
import Mathlib.Tactic.Ring

/-!
Blocks of `2 ^ o` numbers that begin at a multiple of their size, kept in one list for
each order. The buddy of a block is found by flipping one bit of its first number.
-/
namespace Ucore.Library

/-- The bit of an even multiple is set by the flip. -/
theorem xor_two_pow_of_dvd {p o : ℕ} (h : 2 ^ (o + 1) ∣ p) : p ^^^ 2 ^ o = p + 2 ^ o := by
  obtain ⟨m, rfl⟩ := h
  calc 2 ^ (o + 1) * m ^^^ 2 ^ o
      = (2 * m) <<< o ^^^ 1 <<< o := by
        rw [Nat.shiftLeft_eq, Nat.shiftLeft_eq, Nat.one_mul]
        ring_nf
    _ = (2 * m + 1) <<< o := by
        rw [← Nat.shiftLeft_xor_distrib, Nat.xor_one_of_even (even_two_mul m)]
    _ = 2 ^ (o + 1) * m + 2 ^ o := by
        rw [Nat.shiftLeft_eq]
        ring

/-- The bit of an odd multiple is cleared by the flip. -/
theorem xor_two_pow_of_not_dvd {p o : ℕ} (h : 2 ^ o ∣ p) (hodd : ¬ 2 ^ (o + 1) ∣ p) :
    (p ^^^ 2 ^ o) + 2 ^ o = p := by
  obtain ⟨m, rfl⟩ := h
  obtain ⟨k, rfl⟩ : Odd m := by
    rw [← Nat.not_even_iff_odd]
    intro heven
    obtain ⟨k, rfl⟩ := heven
    exact hodd ⟨k, by ring⟩
  calc (2 ^ o * (2 * k + 1) ^^^ 2 ^ o) + 2 ^ o
      = ((2 * k + 1) <<< o ^^^ 1 <<< o) + 2 ^ o := by
        rw [Nat.shiftLeft_eq, Nat.shiftLeft_eq, Nat.one_mul, Nat.mul_comm]
    _ = (2 * k) <<< o + 2 ^ o := by
        rw [← Nat.shiftLeft_xor_distrib, Nat.xor_one_of_odd (odd_two_mul_add_one k)]
        rfl
    _ = 2 ^ o * (2 * k + 1) := by
        rw [Nat.shiftLeft_eq]
        ring

/-- A multiple of the next power of two is added without touching the lower bits. -/
theorem add_xor_two_pow {p b o : ℕ} (hp : 2 ^ o ∣ p) (hb : 2 ^ (o + 1) ∣ b) :
    p + b ^^^ 2 ^ o = (p ^^^ 2 ^ o) + b := by
  by_cases hodd : 2 ^ (o + 1) ∣ p
  · rw [xor_two_pow_of_dvd hodd, xor_two_pow_of_dvd (Nat.dvd_add hodd hb)]
    omega
  · have hb' : 2 ^ o ∣ b := Nat.dvd_trans (Nat.pow_dvd_pow 2 (Nat.le_succ o)) hb
    have h1 := xor_two_pow_of_not_dvd hp hodd
    have h2 := xor_two_pow_of_not_dvd (Nat.dvd_add hp hb')
      (fun hbad => hodd ((Nat.dvd_add_left hb).mp hbad))
    omega

theorem xor_two_pow_div (p o : ℕ) : (p ^^^ 2 ^ o) / 2 ^ o = p / 2 ^ o ^^^ 1 := by
  rw [← Nat.shiftRight_eq_div_pow, ← Nat.shiftRight_eq_div_pow, Nat.shiftRight_xor_distrib,
    Nat.shiftRight_eq_div_pow (2 ^ o), Nat.div_self (Nat.two_pow_pos o)]

theorem xor_two_pow_mod (p o : ℕ) : (p ^^^ 2 ^ o) % 2 ^ o = p % 2 ^ o := by
  rw [Nat.xor_mod_two_pow, Nat.mod_self, Nat.xor_zero]

/-- A bit that is clear is set by the flip, whatever the bits below it are. -/
theorem xor_two_pow_of_clear {p o : ℕ} (h : p / 2 ^ o % 2 = 0) : p ^^^ 2 ^ o = p + 2 ^ o := by
  have hd := xor_two_pow_div p o
  rw [Nat.xor_one_of_even (Nat.even_iff.mpr h)] at hd
  have h1 := Nat.div_add_mod (p ^^^ 2 ^ o) (2 ^ o)
  have h2 := Nat.div_add_mod p (2 ^ o)
  rw [hd, xor_two_pow_mod, Nat.mul_add, Nat.mul_one] at h1
  omega

/-- A bit that is set is cleared. -/
theorem xor_two_pow_of_set {p o : ℕ} (h : p / 2 ^ o % 2 = 1) : (p ^^^ 2 ^ o) + 2 ^ o = p := by
  have hd := xor_two_pow_div p o
  rw [Nat.xor_one_of_odd (Nat.odd_iff.mpr h)] at hd
  have h1 := Nat.div_add_mod (p ^^^ 2 ^ o) (2 ^ o)
  have h2 := Nat.div_add_mod p (2 ^ o)
  have hpos : 0 < p / 2 ^ o := by
    rw [Nat.pos_iff_ne_zero]
    intro hzero
    rw [hzero] at h
    omega
  rw [hd, xor_two_pow_mod, Nat.mul_sub, Nat.mul_one] at h1
  have hle : 2 ^ o ≤ 2 ^ o * (p / 2 ^ o) := Nat.le_mul_of_pos_right _ hpos
  omega

/-- The buddy lies right above or right below. -/
theorem xor_two_pow_cases (p o : ℕ) : p ^^^ 2 ^ o = p + 2 ^ o ∨ (p ^^^ 2 ^ o) + 2 ^ o = p := by
  rcases Nat.mod_two_eq_zero_or_one (p / 2 ^ o) with h | h
  · exact Or.inl (xor_two_pow_of_clear h)
  · exact Or.inr (xor_two_pow_of_set h)

theorem xor_two_pow_twice (p o : ℕ) : p ^^^ 2 ^ o ^^^ 2 ^ o = p := Nat.xor_xor_cancel_right p _

/-- Blocks that begin at multiples of `V` and have at most this size are equal if they meet. -/
theorem aligned_eq {a b V : ℕ} (ha : V ∣ a) (hb : V ∣ b) (hle : a ≤ b) (hlt : b < a + V) :
    a = b := by
  obtain ⟨i, rfl⟩ := ha
  obtain ⟨j, rfl⟩ := hb
  have hpos : 0 < V := by omega
  have h1 : i ≤ j := Nat.le_of_mul_le_mul_left hle hpos
  have h2 : j < i + 1 := by
    refine Nat.lt_of_mul_lt_mul_left (a := V) ?_
    rw [Nat.mul_add, Nat.mul_one]
    exact hlt
  rw [show i = j by omega]

/-- Below a multiple of `V` there is room for `V` behind another one. -/
theorem aligned_add_le {b c V : ℕ} (hb : V ∣ b) (hc : V ∣ c) (hlt : b < c) : b + V ≤ c := by
  obtain ⟨i, rfl⟩ := hb
  obtain ⟨j, rfl⟩ := hc
  have hij : i + 1 ≤ j := Nat.lt_of_mul_lt_mul_left hlt
  calc V * i + V = V * (i + 1) := by ring
    _ ≤ V * j := Nat.mul_le_mul_left V hij

/-- The blocks of the orders below `N`, where `free o` lists the first numbers of those
of order `o`. -/
def levels (N : ℕ) (free : ℕ → List ℕ) : List Block :=
  (List.range N).flatMap (fun o => (free o).map (fun p => ⟨p, 2 ^ o⟩))

variable {N o : ℕ} {free : ℕ → List ℕ}

theorem mem_levels {b : Block} :
    b ∈ levels N free ↔ ∃ o < N, ∃ p ∈ free o, b = ⟨p, 2 ^ o⟩ := by
  simp only [levels, List.mem_flatMap, List.mem_range, List.mem_map, eq_comm]

/-- Taking a block off its list takes it out of the levels. -/
theorem levels_remove {xs ys : List ℕ} {p : ℕ} (ho : o < N) (h : free o = xs ++ p :: ys) :
    (levels N free).Perm (⟨p, 2 ^ o⟩ :: levels N (Function.update free o (xs ++ ys))) := by
  obtain ⟨os, os', hos⟩ := List.append_of_mem (List.mem_range.mpr ho)
  have hnodup : (os ++ o :: os').Nodup := hos ▸ List.nodup_range
  rw [List.nodup_append] at hnodup
  obtain ⟨-, h2, h3⟩ := hnodup
  have hother : ∀ o' ∈ os ++ os', o' ≠ o := by
    intro o' ho'
    rcases List.mem_append.mp ho' with ho' | ho'
    · exact h3 o' ho' o List.mem_cons_self
    · intro heq
      exact (List.nodup_cons.mp h2).1 (heq ▸ ho')
  have hkeep : ∀ os'' : List ℕ, (∀ o' ∈ os'', o' ≠ o) →
      os''.flatMap (fun o' => (Function.update free o (xs ++ ys) o').map
        (fun p => (⟨p, 2 ^ o'⟩ : Block))) =
      os''.flatMap (fun o' => (free o').map (fun p => ⟨p, 2 ^ o'⟩)) := by
    intro os'' hne
    apply List.flatMap_congr
    intro o' ho'
    rw [Function.update_of_ne (hne o' ho')]
  simp only [levels, hos, List.flatMap_append, List.flatMap_cons, h, Function.update_self]
  rw [hkeep os (fun o' ho' => hother o' (List.mem_append_left _ ho')),
    hkeep os' (fun o' ho' => hother o' (List.mem_append_right _ ho'))]
  simp only [List.map_append, List.map_cons, List.append_assoc, List.cons_append]
  rw [← List.append_assoc, ← List.append_assoc]
  exact List.perm_middle

/-- Putting a block in front of its list puts it into the levels. -/
theorem levels_push {p : ℕ} (ho : o < N) :
    (levels N (Function.update free o (p :: free o))).Perm (⟨p, 2 ^ o⟩ :: levels N free) := by
  have hfront : Function.update free o (p :: free o) o = [] ++ p :: free o := by
    rw [Function.update_self]
    rfl
  have hperm := levels_remove ho hfront
  rwa [List.nil_append, Function.update_idem, Function.update_eq_self] at hperm

end Ucore.Library
