import Mathlib.Data.List.Chain
import Mathlib.Logic.Function.Basic

/-!
Circles of single links. Each node holds the node behind it, and the last one leads back to the
first one, so a walk may begin anywhere and comes around.
-/
namespace Ucore.Library

variable {α : Type*} {next next' : α → α} {a b l xs ys : List α} {c e x y z : α}

/-- `next` leads along the list, and from its last node to `z`. -/
def Leads (next : α → α) (l : List α) (z : α) : Prop :=
  List.IsChain (fun x y => next x = y) (l ++ [z])

theorem leads_nil : Leads next [] z := List.IsChain.singleton z

theorem leads_append :
    Leads next (xs ++ y :: ys) z ↔ Leads next xs y ∧ Leads next (y :: ys) z := by
  simp only [Leads, List.append_assoc, List.cons_append]
  exact List.isChain_split

theorem leads_cons : Leads next (x :: ys) z ↔ next x = ys.headD z ∧ Leads next ys z := by
  cases ys with
  | nil => simp [Leads]
  | cons y ys => simp [Leads]

/-- Only the nodes of the list are read. -/
theorem Leads.congr (h : Leads next l z) (heq : ∀ x ∈ l, next' x = next x) : Leads next' l z := by
  induction l with
  | nil => exact leads_nil
  | cons x l ih =>
    obtain ⟨hx, hrest⟩ := leads_cons.mp h
    apply leads_cons.mpr
    refine ⟨(heq x List.mem_cons_self).trans hx, ?_⟩
    exact ih hrest (fun y hy => heq y (List.mem_cons_of_mem x hy))

/-- A node off the list is linked anew. -/
theorem Leads.update [DecidableEq α] (h : Leads next l z) (hx : x ∉ l) :
    Leads (Function.update next x y) l z := by
  apply h.congr
  intro w hw
  apply Function.update_of_ne
  rintro rfl
  exact hx hw

/-- A node is linked to the head of the list. -/
theorem Leads.link [DecidableEq α] (h : Leads next ys z) (hx : x ∉ ys) (hy : y = ys.headD z) :
    Leads (Function.update next x y) (x :: ys) z := by
  apply leads_cons.mpr
  rw [Function.update_self]
  exact ⟨hy, h.update hx⟩

/-- From a node of the circle once around. -/
theorem Leads.turn (h : Leads next (e :: l) e) (heq : e :: l = a ++ c :: b) :
    Leads next (c :: (b ++ a)) c := by
  cases a with
  | nil =>
    obtain ⟨rfl, rfl⟩ := List.cons.inj heq
    rw [List.append_nil]
    exact h
  | cons x a =>
    obtain ⟨rfl, hl⟩ := List.cons.inj heq
    rw [heq] at h
    obtain ⟨hfront, hback⟩ := leads_append.mp h
    rw [← List.cons_append]
    exact leads_append.mpr ⟨hback, hfront⟩

/-- A node leads to the head of the rest of the list. -/
theorem Leads.next_eq (h : Leads next (xs ++ x :: ys) z) : next x = ys.headD z :=
  (leads_cons.mp (leads_append.mp h).2).1

end Ucore.Library
