import Mathlib.Data.List.Nodup
import Mathlib.Logic.Function.Basic

/-!
Singly linked chains. Every node holds the address of the next one, address 0 ends the
chain, and the nodes may lie anywhere in the memory.
-/
namespace Ucore.Library

/-- From address `a` the chain runs through the nodes of the list and ends. -/
def Chain (next : ℕ → ℕ) : ℕ → List ℕ → Prop
  | a, [] => a = 0
  | a, x :: xs => a = x ∧ x ≠ 0 ∧ Chain next (next x) xs

namespace Chain

variable {next next' : ℕ → ℕ} {a x : ℕ} {xs : List ℕ}

/-- The chain is empty exactly when its address is 0. -/
theorem nil_iff (h : Chain next a xs) : xs = [] ↔ a = 0 := by
  cases xs with
  | nil =>
    have ha : a = 0 := h
    exact iff_of_true rfl ha
  | cons x xs =>
    obtain ⟨rfl, hne, -⟩ := h
    exact iff_of_false (List.cons_ne_nil a xs) hne

/-- A chain that does not begin with 0 has a first node. -/
theorem exists_cons (h : Chain next a xs) (ha : a ≠ 0) :
    ∃ ys, xs = a :: ys ∧ Chain next (next a) ys := by
  cases xs with
  | nil => exact absurd h ha
  | cons x ys =>
    obtain ⟨rfl, -, hrest⟩ := h
    exact ⟨ys, rfl, hrest⟩

/-- Only the nodes of the chain are read. -/
theorem congr (h : Chain next a xs) (heq : ∀ x ∈ xs, next' x = next x) : Chain next' a xs := by
  induction xs generalizing a with
  | nil => exact h
  | cons x xs ih =>
    obtain ⟨rfl, hne, hrest⟩ := h
    refine ⟨rfl, hne, ?_⟩
    rw [heq a List.mem_cons_self]
    exact ih hrest (fun y hy => heq y (List.mem_cons_of_mem a hy))

/-- A node outside the chain is put in front. -/
theorem push (h : Chain next a xs) (hx : x ≠ 0) (hout : x ∉ xs) :
    Chain (Function.update next x a) x (x :: xs) := by
  refine ⟨rfl, hx, ?_⟩
  rw [Function.update_self]
  refine h.congr ?_
  intro y hy
  have hne : y ≠ x := fun heq => hout (heq ▸ hy)
  exact Function.update_of_ne hne _ _

end Chain
end Ucore.Library
