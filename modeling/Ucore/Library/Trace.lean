import Mathlib.Logic.Basic

/-!
Traces of a labelled step relation. What every step keeps, every trace keeps; and where each step
is answered by a step of another system, each trace is answered by a trace of it.
-/
namespace Ucore.Library

variable {σ τ ε δ : Type*}

inductive Trace (step : σ → ε → σ → Prop) : σ → List ε → σ → Prop
  | nil (s : σ) : Trace step s [] s
  | cons {s s' t : σ} {e : ε} {es : List ε} (hstep : step s e s') (hrest : Trace step s' es t) :
      Trace step s (e :: es) t

namespace Trace

variable {step : σ → ε → σ → Prop} {s t : σ} {e : ε} {es es' : List ε}

theorem cons_iff : Trace step s (e :: es) t ↔ ∃ s', step s e s' ∧ Trace step s' es t := by
  constructor
  · intro h
    cases h with
    | cons hstep hrest => exact ⟨_, hstep, hrest⟩
  · intro h
    obtain ⟨s', hstep, hrest⟩ := h
    exact cons hstep hrest

/-- A trace of two parts stops in a state between them. -/
theorem append_iff : Trace step s (es ++ es') t ↔ ∃ s', Trace step s es s' ∧ Trace step s' es' t := by
  induction es generalizing s with
  | nil =>
    constructor
    · intro h
      exact ⟨s, nil s, h⟩
    · intro h
      obtain ⟨s', hes, hes'⟩ := h
      cases hes
      exact hes'
  | cons e es ih =>
    simp only [List.cons_append, cons_iff, ih]
    constructor
    · intro h
      obtain ⟨s₁, hstep, s₂, hes, hes'⟩ := h
      exact ⟨s₂, ⟨s₁, hstep, hes⟩, hes'⟩
    · intro h
      obtain ⟨s₂, ⟨s₁, hstep, hes⟩, hes'⟩ := h
      exact ⟨s₁, hstep, s₂, hes, hes'⟩

theorem invariant {P : σ → Prop} (hstep : ∀ s e s', P s → step s e s' → P s') (hs : P s)
    (h : Trace step s es t) : P t := by
  induction h with
  | nil s => exact hs
  | cons hfirst hrest ih => exact ih (hstep _ _ _ hs hfirst)

/-- The states of an invariant are seen as states of another system, and the steps as its steps. -/
theorem map {step' : τ → δ → τ → Prop} {P : σ → Prop} {f : σ → τ} {g : ε → δ}
    (hstep : ∀ s e s', P s → step s e s' → P s' ∧ step' (f s) (g e) (f s')) (hs : P s)
    (h : Trace step s es t) : Trace step' (f s) (es.map g) (f t) := by
  induction h with
  | nil s => exact nil (f s)
  | cons hfirst hrest ih =>
    obtain ⟨hs', hfirst'⟩ := hstep _ _ _ hs hfirst
    exact cons hfirst' (ih hs')

end Trace

end Ucore.Library
