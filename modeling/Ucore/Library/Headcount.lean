import Mathlib.Data.List.Perm.Subperm
import Mathlib.Data.List.Nodup
import Mathlib.Data.Int.Cast.Basic
import Mathlib.Logic.Function.Basic

/-!
Head counts: a number says how many there are with a property. One more or one less with
the property moves the number by one.
-/
namespace Ucore.Library

variable {α : Type*}

/-- Exactly `k` have the property `Q`. -/
def Headcount (Q : α → Prop) (k : ℤ) : Prop :=
  ∃ l : List α, l.Nodup ∧ (∀ a, a ∈ l ↔ Q a) ∧ (l.length : ℤ) = k

namespace Headcount

variable {Q Q' : α → Prop} {k : ℤ} {a : α}

theorem zero (h : ∀ a, ¬ Q a) : Headcount Q 0 := by
  refine ⟨[], List.nodup_nil, ?_, rfl⟩
  intro a
  constructor
  · intro ha
    cases ha
  · intro ha
    exact absurd ha (h a)

theorem congr (h : Headcount Q k) (hsame : ∀ a, Q' a ↔ Q a) : Headcount Q' k := by
  obtain ⟨l, hnodup, hmem, hlen⟩ := h
  exact ⟨l, hnodup, fun a => (hmem a).trans (hsame a).symm, hlen⟩

/-- One more has the property. -/
theorem add (h : Headcount Q k) (hno : ¬ Q a) (hsame : ∀ b, Q' b ↔ b = a ∨ Q b) :
    Headcount Q' (k + 1) := by
  obtain ⟨l, hnodup, hmem, hlen⟩ := h
  refine ⟨a :: l, List.nodup_cons.mpr ⟨fun hin => hno ((hmem a).mp hin), hnodup⟩, ?_, ?_⟩
  · intro b
    rw [List.mem_cons, hmem, hsame]
  · rw [List.length_cons]
    omega

/-- One less has the property. -/
theorem remove [DecidableEq α] (h : Headcount Q k) (ha : Q a) (hsame : ∀ b, Q' b ↔ b ≠ a ∧ Q b) :
    Headcount Q' (k - 1) := by
  obtain ⟨l, hnodup, hmem, hlen⟩ := h
  have hin : a ∈ l := (hmem a).mpr ha
  have hpos := List.length_pos_of_mem hin
  refine ⟨l.erase a, hnodup.erase a, ?_, ?_⟩
  · intro b
    rw [hnodup.mem_erase_iff, hmem, hsame]
  · rw [List.length_erase_of_mem hin]
    omega

theorem nonneg (h : Headcount Q k) : 0 ≤ k := by
  obtain ⟨l, _, _, hlen⟩ := h
  omega

theorem pos (h : Headcount Q k) (ha : Q a) : 0 < k := by
  obtain ⟨l, _, hmem, hlen⟩ := h
  have hpos := List.length_pos_of_mem ((hmem a).mpr ha)
  omega

/-- A positive head count has somebody in it. -/
theorem exists_of_pos (h : Headcount Q k) (hk : 0 < k) : ∃ a, Q a := by
  obtain ⟨l, _, hmem, hlen⟩ := h
  obtain ⟨a, ha⟩ := List.exists_mem_of_length_pos (by omega : 0 < l.length)
  exact ⟨a, (hmem a).mp ha⟩

/-- The number is determined. -/
theorem unique {k' : ℤ} (h : Headcount Q k) (h' : Headcount Q k') : k = k' := by
  obtain ⟨l, hnodup, hmem, hlen⟩ := h
  obtain ⟨l', hnodup', hmem', hlen'⟩ := h'
  have hperm : l.Perm l' := (List.perm_ext_iff_of_nodup hnodup hnodup').mpr
    (fun a => (hmem a).trans (hmem' a).symm)
  rw [← hlen, ← hlen', hperm.length_eq]

/-- Among as many, some of them are all of them. -/
theorem all_of_some (h : Headcount Q k) (h' : Headcount Q' k) (hsub : ∀ a, Q' a → Q a) (ha : Q a) :
    Q' a := by
  obtain ⟨l, hnodup, hmem, hlen⟩ := h
  obtain ⟨l', hnodup', hmem', hlen'⟩ := h'
  have hperm : l'.Perm l := by
    apply (hnodup'.subperm ?_).perm_of_length_le
    · omega
    · intro b hb
      exact (hmem b).mpr (hsub b ((hmem' b).mp hb))
  exact (hmem' a).mp (hperm.mem_iff.mpr ((hmem a).mpr ha))

section Update

variable {β : Type*} [DecidableEq α] {f : α → β} {R : β → Prop} {b : β}

/-- One value changes, and the property does not. -/
theorem update_same (h : Headcount (fun c => R (f c)) k) (hb : R b ↔ R (f a)) :
    Headcount (fun c => R (Function.update f a b c)) k := by
  apply h.congr
  intro c
  by_cases hc : c = a
  · rw [hc, Function.update_self]
    exact hb
  · rw [Function.update_of_ne hc]

theorem update_add (h : Headcount (fun c => R (f c)) k) (ha : ¬ R (f a)) (hb : R b) :
    Headcount (fun c => R (Function.update f a b c)) (k + 1) := by
  refine @add _ _ _ _ a h ha ?_
  intro c
  by_cases hc : c = a
  · rw [hc, Function.update_self]
    simp only [hb, true_or]
  · rw [Function.update_of_ne hc]
    simp only [hc, false_or]

theorem update_remove (h : Headcount (fun c => R (f c)) k) (ha : R (f a)) (hb : ¬ R b) :
    Headcount (fun c => R (Function.update f a b c)) (k - 1) := by
  refine @remove _ _ _ _ a _ h ha ?_
  intro c
  by_cases hc : c = a
  · rw [hc, Function.update_self]
    simp only [hb, ne_eq, not_true_eq_false, false_and]
  · rw [Function.update_of_ne hc]
    simp only [hc, ne_eq, not_false_eq_true, true_and]

end Update

end Headcount
end Ucore.Library
