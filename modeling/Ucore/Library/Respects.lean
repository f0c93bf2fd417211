import Mathlib.Order.Defs.Unbundled
import Ucore.Library.Call

/-!
Calls that respect a preorder on the states: wherever a call ends, with a value or an error, the
state is related to the one it started in. The rules follow the way calls are put together.
-/
namespace Ucore.Library.Call

universe w

variable {σ ε : Type*} {α β : Type w} {R : σ → σ → Prop}

def Respects (R : σ → σ → Prop) (x : Call σ ε α) : Prop :=
  ∀ s, Ends True x s (fun _ => R s) (fun _ => R s)

theorem Respects.state {x : Call σ ε α} {s t : σ} {res : Except ε α} (h : Respects R x)
    (hx : x s = some (res, t)) : R s t := (h s).state hx

theorem Respects.of_state {x : Call σ ε α} (h : ∀ s r, x s = some r → R s r.2) : Respects R x := by
  intro s
  rcases hx : x s with _ | ⟨_ | a, t⟩
  · exact Ends.of_eq_none hx trivial
  · unfold Ends
    rw [hx]
    exact h s _ hx
  · exact Ends.of_eq_ok hx (h s _ hx)

theorem Respects.modify {f : σ → σ} (h : ∀ s, R s (f s)) :
    Respects R (modify f : Call σ ε PUnit.{w + 1}) := fun s => Ends.modify (h s)

theorem Respects.panic : Respects R (panic : Call σ ε α) := fun _ => Ends.panic trivial

theorem Respects.ite {c : Prop} [Decidable c] {x y : Call σ ε α} (hx : Respects R x)
    (hy : Respects R y) : Respects R (if c then x else y) := by
  split
  · exact hx
  · exact hy

section Preorder

variable [IsPreorder σ R]

theorem Respects.pure {a : α} : Respects R (pure a : Call σ ε α) :=
  fun s => Ends.pure (refl_of R s)

theorem Respects.fail {e : ε} : Respects R (fail e : Call σ ε α) :=
  fun s => Ends.fail (refl_of R s)

theorem Respects.read {f : σ → α} : Respects R (read f : Call σ ε α) :=
  fun s => Ends.read (refl_of R s)

theorem Respects.require {c : σ → Prop} [DecidablePred c] :
    Respects R (require c : Call σ ε PUnit.{w + 1}) :=
  fun s => Ends.require (fun _ => refl_of R s) (fun _ => trivial)

/-- From a state behind the first one. -/
theorem Respects.behind {x : Call σ ε α} {s t : σ} (h : Respects R x) (hst : R s t) :
    Ends True x t (fun _ => R s) (fun _ => R s) :=
  (h t).mono (fun _ _ hu => trans_of R hst hu) (fun _ _ hu => trans_of R hst hu)

theorem Respects.bind {x : Call σ ε α} {f : α → Call σ ε β} (h : Respects R x)
    (hf : ∀ a, Respects R (f a)) : Respects R (x >>= f) := by
  intro s
  refine Ends.bind ((h s).mono ?_ (fun _ _ he => he))
  exact fun a t ht => (hf a).behind ht

theorem Respects.onError {x : Call σ ε α} {cleanup : Call σ ε PUnit.{w + 1}} (h : Respects R x)
    (hc : Respects R cleanup) : Respects R (onError x cleanup) := by
  intro s
  refine Ends.cleanup ((h s).mono (fun _ _ hq => hq) ?_)
  exact fun _ t ht => hc.behind ht

end Preorder

end Ucore.Library.Call
