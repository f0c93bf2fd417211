import Mathlib.Order.BooleanAlgebra.Set
import Mathlib.Data.List.Basic

/-!
A node of a tree is taken down by scans over the places of its children. A scan
removes every child it finds, and the node as well if it found one at each place
it looked at; a node that is gone takes its other children out of reach.
-/
namespace Ucore.Library

variable {α : Type*} {T J : Set α} {Js : List (Set α)} {c : α}

/-- The scan looks at some places, and there is a child at each of them. -/
def FullScan (T J : Set α) : Prop := J.Nonempty ∧ J ⊆ T

/-- The node is removed by one of the scans. -/
def NodeSwept (T : Set α) : List (Set α) → Prop
  | [] => False
  | J :: Js => FullScan T J ∨ NodeSwept (T \ J) Js

/-- The child is removed by one of the scans. -/
def ChildSwept (T : Set α) (c : α) : List (Set α) → Prop
  | [] => False
  | J :: Js => (c ∈ T ∧ c ∈ J) ∨ ¬ FullScan T J ∧ ChildSwept (T \ J) c Js

/-- The places that the scans look at. -/
def seen (Js : List (Set α)) : Set α := {c | ∃ J ∈ Js, c ∈ J}

/-- The first scan that finds a child at each of its places, none of which was looked
at before, leaves no child behind. -/
def SweptClean (T : Set α) (Js : List (Set α)) : Prop :=
  ∃ pre J post, Js = pre ++ J :: post ∧ FullScan (T \ seen pre) J ∧
    (∀ pre' I post', pre = pre' ++ I :: post' → ¬ FullScan (T \ seen pre') I) ∧
    T ⊆ seen (pre ++ [J])

@[simp] theorem seen_nil : seen ([] : List (Set α)) = ∅ := by
  simp [seen]

theorem seen_cons (J : Set α) (Js : List (Set α)) : seen (J :: Js) = J ∪ seen Js := by
  ext c
  simp [seen]

theorem sdiff_seen_cons (T J : Set α) (Js : List (Set α)) :
    T \ seen (J :: Js) = (T \ J) \ seen Js := by
  rw [seen_cons, Set.sdiff_sdiff]

theorem not_fullScan_empty : ¬ FullScan T ∅ := fun h => Set.not_nonempty_empty h.1

theorem ChildSwept.mem (h : ChildSwept T c Js) : c ∈ T := by
  induction Js generalizing T with
  | nil => exact h.elim
  | cons J Js ih =>
    rcases h with h | h
    · exact h.1
    · exact (ih h.2).1

/-- A scan that removes the child looks at it. -/
theorem ChildSwept.looked (h : ChildSwept T c Js) : ∃ J ∈ Js, c ∈ J := by
  induction Js generalizing T with
  | nil => exact h.elim
  | cons J Js ih =>
    rcases h with h | h
    · exact ⟨J, List.mem_cons_self, h.2⟩
    · obtain ⟨K, hK, hc⟩ := ih h.2
      exact ⟨K, List.mem_cons_of_mem J hK, hc⟩

theorem NodeSwept.looked (h : NodeSwept T Js) : ∃ J ∈ Js, J.Nonempty := by
  induction Js generalizing T with
  | nil => exact h.elim
  | cons J Js ih =>
    rcases h with h | h
    · exact ⟨J, List.mem_cons_self, h.1⟩
    · obtain ⟨K, hK, hne⟩ := ih h
      exact ⟨K, List.mem_cons_of_mem J hK, hne⟩

theorem SweptClean.cons (h : SweptClean (T \ J) Js) (hJ : ¬ FullScan T J) :
    SweptClean T (J :: Js) := by
  obtain ⟨pre, K, post, rfl, hfull, hfirst, hall⟩ := h
  refine ⟨J :: pre, K, post, rfl, ?_, ?_, ?_⟩
  · rw [sdiff_seen_cons]
    exact hfull
  · intro pre' I post' hpre
    cases pre' with
    | nil =>
      obtain ⟨rfl, -⟩ := List.cons.inj hpre
      rw [seen_nil, Set.sdiff_empty]
      exact hJ
    | cons J' pre' =>
      obtain ⟨rfl, hrest⟩ := List.cons.inj hpre
      rw [sdiff_seen_cons]
      exact hfirst pre' I post' hrest
  · intro c hc
    rw [List.cons_append, seen_cons]
    by_cases hcJ : c ∈ J
    · exact Or.inl hcJ
    · exact Or.inr (hall ⟨hc, hcJ⟩)

theorem SweptClean.of_cons (h : SweptClean T (J :: Js)) (hJ : ¬ FullScan T J) :
    SweptClean (T \ J) Js := by
  obtain ⟨pre, K, post, heq, hfull, hfirst, hall⟩ := h
  cases pre with
  | nil =>
    obtain ⟨rfl, -⟩ := List.cons.inj heq
    rw [seen_nil, Set.sdiff_empty] at hfull
    exact absurd hfull hJ
  | cons J' pre =>
    obtain ⟨rfl, rfl⟩ := List.cons.inj heq
    refine ⟨pre, K, post, rfl, ?_, ?_, ?_⟩
    · rw [← sdiff_seen_cons]
      exact hfull
    · intro pre' I post' hpre
      rw [← sdiff_seen_cons]
      exact hfirst (J :: pre') I post' (by rw [hpre, List.cons_append])
    · intro c hc
      have hs := hall hc.1
      rw [List.cons_append, seen_cons] at hs
      exact hs.resolve_left hc.2

/-- The node and all its children are removed exactly when the scans sweep it clean. -/
theorem sweptClean_iff :
    (NodeSwept T Js ∧ ∀ c ∈ T, ChildSwept T c Js) ↔ SweptClean T Js := by
  induction Js generalizing T with
  | nil =>
    constructor
    · intro h
      exact h.1.elim
    · rintro ⟨pre, J, post, heq, -⟩
      simp at heq
  | cons J Js ih =>
    by_cases hJ : FullScan T J
    · constructor
      · rintro ⟨-, hall⟩
        refine ⟨[], J, Js, rfl, by rwa [seen_nil, Set.sdiff_empty], by simp, ?_⟩
        intro c hc
        rcases hall c hc with h | h
        · exact ⟨J, List.mem_singleton_self J, h.2⟩
        · exact absurd hJ h.1
      · rintro ⟨pre, K, post, heq, -, hfirst, hall⟩
        refine ⟨Or.inl hJ, fun c hc => Or.inl ⟨hc, ?_⟩⟩
        cases pre with
        | nil =>
          obtain ⟨rfl, -⟩ := List.cons.inj heq
          obtain ⟨K, hK, hcK⟩ := hall hc
          rwa [← List.mem_singleton.mp hK]
        | cons J' pre =>
          obtain ⟨rfl, -⟩ := List.cons.inj heq
          have hnot := hfirst [] J pre rfl
          rw [seen_nil, Set.sdiff_empty] at hnot
          exact absurd hJ hnot
    · have hstep : (NodeSwept T (J :: Js) ∧ ∀ c ∈ T, ChildSwept T c (J :: Js)) ↔
          NodeSwept (T \ J) Js ∧ ∀ c ∈ T \ J, ChildSwept (T \ J) c Js := by
        constructor
        · rintro ⟨hnode, hall⟩
          refine ⟨hnode.resolve_left hJ, fun c hc => ?_⟩
          rcases hall c hc.1 with h | h
          · exact absurd h.2 hc.2
          · exact h.2
        · rintro ⟨hnode, hall⟩
          refine ⟨Or.inr hnode, fun c hc => ?_⟩
          by_cases hcJ : c ∈ J
          · exact Or.inl ⟨hc, hcJ⟩
          · exact Or.inr ⟨hJ, hall c ⟨hc, hcJ⟩⟩
      rw [hstep, ih]
      exact ⟨fun h => h.cons hJ, fun h => h.of_cons hJ⟩

end Ucore.Library
