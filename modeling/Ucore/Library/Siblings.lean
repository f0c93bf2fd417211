import Mathlib.Data.List.Nodup

/-!
Doubly linked lists that end at both sides, such as the children of a node. Each node has a
pointer to the next one and a pointer to the one before it, and the first node is pointed to from
outside. The theorems are about the fields that an operation writes, one node at a time.
-/
namespace Ucore.Library

/-- From the pointer `first` the nodes of the list follow each other, behind `before`. -/
def Row {α : Type*} (next prev : α → Option α) : Option α → Option α → List α → Prop
  | _, first, [] => first = none
  | before, first, x :: xs =>
    first = some x ∧ prev x = before ∧ Row next prev (some x) (next x) xs

namespace Row

variable {α : Type*} {next prev next' prev' : α → Option α} {before before' first : Option α}
  {x : α} {xs pre post : List α}

theorem first_eq (h : Row next prev before first xs) : first = xs.head? := by
  cases xs with
  | nil => exact h
  | cons x xs => exact h.1

theorem congr (h : Row next prev before first xs) (hnext : ∀ y ∈ xs, next' y = next y)
    (hprev : ∀ y ∈ xs, prev' y = prev y) : Row next' prev' before first xs := by
  induction xs generalizing before first with
  | nil => exact h
  | cons x xs ih =>
    obtain ⟨hfirst, hbefore, hrest⟩ := h
    refine ⟨hfirst, (hprev x List.mem_cons_self).trans hbefore, ?_⟩
    rw [hnext x List.mem_cons_self]
    exact ih hrest (fun y hy => hnext y (List.mem_cons_of_mem x hy))
      (fun y hy => hprev y (List.mem_cons_of_mem x hy))

/-- Of the first node, only the pointer backwards is written. -/
theorem rebase [DecidableEq α] (h : Row next prev before first xs) (hnodup : xs.Nodup)
    (hnext : ∀ y ∈ xs, next' y = next y)
    (hprev : ∀ y ∈ xs, prev' y = if first = some y then before' else prev y) :
    Row next' prev' before' first xs := by
  cases xs with
  | nil => exact h
  | cons x xs =>
    obtain ⟨rfl, -, hrest⟩ := h
    have hx := List.nodup_cons.mp hnodup
    refine ⟨rfl, ?_, ?_⟩
    · rw [hprev x List.mem_cons_self, if_pos rfl]
    · rw [hnext x List.mem_cons_self]
      refine hrest.congr (fun y hy => hnext y (List.mem_cons_of_mem x hy)) ?_
      intro y hy
      have hne : some x ≠ some y := fun heq => hx.1 (Option.some.inj heq ▸ hy)
      rw [hprev y (List.mem_cons_of_mem x hy), if_neg hne]

/-- A node is put in front. -/
theorem push [DecidableEq α] (h : Row next prev before first xs) (hnodup : xs.Nodup)
    (hnew : next' x = first ∧ prev' x = before') (hnext : ∀ y ∈ xs, next' y = next y)
    (hprev : ∀ y ∈ xs, prev' y = if first = some y then some x else prev y) :
    Row next' prev' before' (some x) (x :: xs) := by
  refine ⟨rfl, hnew.2, ?_⟩
  rw [hnew.1]
  exact h.rebase hnodup hnext hprev

/-- What the pointer backwards of a node is. -/
theorem prev_eq (h : Row next prev before first (pre ++ x :: post)) :
    prev x = pre.getLast?.or before := by
  induction pre generalizing before first with
  | nil => exact h.2.1
  | cons y pre ih =>
    rw [ih h.2.2, List.getLast?_cons]
    cases pre.getLast? with
    | none => rfl
    | some z => rfl

/-- What the pointer to the next node is. -/
theorem next_eq (h : Row next prev before first (pre ++ x :: post)) : next x = post.head? := by
  induction pre generalizing before first with
  | nil =>
    obtain ⟨-, -, hrest⟩ := h
    cases post with
    | nil => exact hrest
    | cons y post => exact hrest.1
  | cons y pre ih => exact ih h.2.2

/-- A node is taken out. -/
theorem drop [DecidableEq α] (h : Row next prev before first (pre ++ x :: post))
    (hnodup : (pre ++ x :: post).Nodup) (hout : ∀ y ∈ pre ++ post, before ≠ some y)
    (hnext : ∀ y ∈ pre ++ post, next' y = if prev x = some y then next x else next y)
    (hprev : ∀ y ∈ pre ++ post, prev' y = if next x = some y then prev x else prev y) :
    Row next' prev' before (if pre = [] then next x else first) (pre ++ post) := by
  induction pre generalizing before first with
  | nil =>
    obtain ⟨-, hbefore, hrest⟩ := h
    have hx := List.nodup_cons.mp hnodup
    rw [if_pos rfl]
    refine hrest.rebase hx.2 ?_ ?_
    · intro y hy
      rw [hnext y hy, hbefore, if_neg (hout y hy)]
    · intro y hy
      rw [hprev y hy, hbefore]
  | cons y pre ih =>
    have hnextx := h.next_eq
    obtain ⟨hfirst, hbefore, hrest⟩ := h
    have hy := List.nodup_cons.mp hnodup
    have houty : ∀ z ∈ pre ++ post, y ≠ z := by
      intro z hz heq
      apply hy.1
      rw [heq]
      exact List.mem_append.mpr ((List.mem_append.mp hz).imp_right (List.mem_cons_of_mem x))
    have hin : ∀ z ∈ pre ++ post, z ∈ y :: pre ++ post := fun z hz => List.mem_cons_of_mem y hz
    rw [if_neg (List.cons_ne_nil y pre)]
    refine ⟨hfirst, ?_, ?_⟩
    · have hne : next x ≠ some y := by
        intro heq
        rw [hnextx] at heq
        exact houty y (List.mem_append_right pre (List.mem_of_head? heq)) rfl
      rw [hprev y List.mem_cons_self, if_neg hne]
      exact hbefore
    · have hlast : prev x = some y ↔ pre = [] := by
        rw [hrest.prev_eq]
        cases hpre : pre.getLast? with
        | none => exact iff_of_true rfl (List.getLast?_eq_none_iff.mp hpre)
        | some z =>
          have hz := List.mem_of_getLast? hpre
          refine iff_of_false ?_ (List.ne_nil_of_mem hz)
          intro heq
          exact houty z (List.mem_append_left post hz) (Option.some.inj heq).symm
      have hnexty : next' y = if pre = [] then next x else next y := by
        rw [hnext y List.mem_cons_self]
        simp only [hlast]
      rw [hnexty]
      exact ih hrest hy.2 (fun z hz heq => houty z hz (Option.some.inj heq))
        (fun z hz => hnext z (hin z hz)) (fun z hz => hprev z (hin z hz))

end Row

end Ucore.Library
