import Mathlib.Data.List.Nodup
import Mathlib.Logic.Function.Basic

/-!
Delta lists: the entries of a list stand for times, and each one stores only the difference
to the time of the entry before it.
-/
namespace Ucore.Library

variable {α : Type*} {d d' time : α → ℕ} {b : ℕ} {a x : α} {xs : List α}

/-- The first entry counts from `b`, and each other one from its predecessor. -/
def Deltas (d time : α → ℕ) : ℕ → List α → Prop
  | _, [] => True
  | b, x :: xs => time x = b + d x ∧ Deltas d time (time x) xs

namespace Deltas

theorem congr {time' : α → ℕ} (h : Deltas d time b xs) (hd : ∀ x ∈ xs, d' x = d x)
    (htime : ∀ x ∈ xs, time' x = time x) : Deltas d' time' b xs := by
  induction xs generalizing b with
  | nil => trivial
  | cons x xs ih =>
    have hx := htime x List.mem_cons_self
    refine ⟨?_, ?_⟩
    · rw [hx, hd x List.mem_cons_self]
      exact h.1
    · rw [hx]
      exact ih h.2 (fun y hy => hd y (List.mem_cons_of_mem x hy))
        (fun y hy => htime y (List.mem_cons_of_mem x hy))

/-- No entry is before the base. -/
theorem le (h : Deltas d time b xs) (hx : x ∈ xs) : b ≤ time x := by
  induction xs generalizing b with
  | nil => exact absurd hx List.not_mem_nil
  | cons y ys ih =>
    have hy := h.1
    rcases List.mem_cons.mp hx with heq | hin
    · rw [heq]
      omega
    · have hle := ih h.2 hin
      omega

/-- The entries are in the order of their times. -/
theorem sorted (h : Deltas d time b xs) : xs.Pairwise (fun x y => time x ≤ time y) := by
  induction xs generalizing b with
  | nil => exact List.Pairwise.nil
  | cons x xs ih => exact List.Pairwise.cons (fun y hy => h.2.le hy) (ih h.2)

section Edit

variable [DecidableEq α]

/-- An entry that is earlier than the first one is put before it and takes its share of the
difference. -/
theorem insert (h : Deltas d time b (x :: xs)) (ha : time a = b + d a) (hlt : d a < d x)
    (hax : a ≠ x) (hnodup : (x :: xs).Nodup) :
    Deltas (Function.update d x (d x - d a)) time b (a :: x :: xs) := by
  have hx := h.1
  refine ⟨?_, ?_, ?_⟩
  · rw [Function.update_of_ne hax]
    exact ha
  · rw [Function.update_self]
    omega
  · refine h.2.congr ?_ (fun _ _ => rfl)
    intro y hy
    have hyx : y ≠ x := fun heq => (List.nodup_cons.mp hnodup).1 (heq ▸ hy)
    exact Function.update_of_ne hyx ..

/-- The entry behind a removed one takes over its difference. -/
theorem remove (h : Deltas d time b (a :: x :: xs)) (hnodup : (x :: xs).Nodup) :
    Deltas (Function.update d x (d x + d a)) time b (x :: xs) := by
  have ha := h.1
  have hx := h.2.1
  refine ⟨?_, ?_⟩
  · rw [Function.update_self]
    omega
  · refine h.2.2.congr ?_ (fun _ _ => rfl)
    intro y hy
    have hyx : y ≠ x := fun heq => (List.nodup_cons.mp hnodup).1 (heq ▸ hy)
    exact Function.update_of_ne hyx ..

/-- An entry without a difference leaves nothing to take over. -/
theorem erase (h : Deltas d time b xs) (ha : d a = 0) : Deltas d time b (xs.erase a) := by
  induction xs generalizing b with
  | nil => trivial
  | cons x xs ih =>
    by_cases hx : x = a
    · subst hx
      have hb : time x = b := by
        have hfirst := h.1
        omega
      rw [List.erase_cons_head, ← hb]
      exact h.2
    · rw [List.erase_cons_tail (by simpa only [beq_iff_eq] using hx)]
      exact ⟨h.1, ih h.2⟩

end Edit

/-- One unit of time passes for the whole list when it passes for the first entry. -/
theorem tick [DecidableEq α] (h : Deltas d time b (x :: xs)) (hpos : d x ≠ 0)
    (hnodup : (x :: xs).Nodup) :
    Deltas (Function.update d x (d x - 1)) time (b + 1) (x :: xs) := by
  have hx := h.1
  refine ⟨?_, ?_⟩
  · rw [Function.update_self]
    omega
  · refine h.2.congr ?_ (fun _ _ => rfl)
    intro y hy
    have hyx : y ≠ x := fun heq => (List.nodup_cons.mp hnodup).1 (heq ▸ hy)
    exact Function.update_of_ne hyx ..

end Deltas
end Ucore.Library
