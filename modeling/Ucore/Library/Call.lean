import Mathlib.Data.Option.Basic
import Mathlib.Tactic.TypeStar

/-!
Calls that work on a state. A call panics, or ends with a value or an error code and a new
state. `Ends p x s Q E` says how it may end: in `Q` with a value, in `E` with an error, and
in a panic only if `p`. With `p` false this is total correctness, with `p` true partial
correctness, and the rules are the same.
-/
namespace Ucore.Library

/-- A call on states `σ` with errors `ε`; `none` is a panic. -/
def Call (σ ε α : Type*) : Type _ := σ → Option (Except ε α × σ)

namespace Call

universe w

variable {σ ε : Type*} {α β : Type w}

/-- The result of the first call goes into the second one, an error ends both. -/
def andThen (x : Call σ ε α) (f : α → Call σ ε β) : Call σ ε β := fun s =>
  match x s with
  | none => none
  | some (.error e, s') => some (.error e, s')
  | some (.ok a, s') => f a s'

instance : Monad (Call σ ε) where
  pure a := fun s => some (.ok a, s)
  bind := andThen

def panic : Call σ ε α := fun _ => none

def fail (e : ε) : Call σ ε α := fun s => some (.error e, s)

/-- An assertion. -/
def require (c : σ → Prop) [DecidablePred c] : Call σ ε PUnit.{w + 1} := fun s =>
  if c s then some (.ok ⟨⟩, s) else none

def read (f : σ → α) : Call σ ε α := fun s => some (.ok (f s), s)

def modify (f : σ → σ) : Call σ ε PUnit.{w + 1} := fun s => some (.ok ⟨⟩, f s)

/-- On an error the clean-up runs, and the error is passed on. -/
def onError (x : Call σ ε α) (cleanup : Call σ ε PUnit.{w + 1}) : Call σ ε α := fun s =>
  match x s with
  | some (.error e, s') => (cleanup.andThen (fun _ => fail e)) s'
  | r => r

/-- Both endings are looked at. -/
def branch (x : Call σ ε α) (f : α → Call σ ε β) (g : ε → Call σ ε β) : Call σ ε β := fun s =>
  match x s with
  | none => none
  | some (.error e, s') => g e s'
  | some (.ok a, s') => f a s'

/-- An error is reported and dropped. -/
def warn (x : Call σ ε α) : Call σ ε PUnit.{w + 1} := branch x (fun _ => pure ⟨⟩) (fun _ => pure ⟨⟩)

/-- An error is a panic. -/
def orPanic (x : Call σ ε α) : Call σ ε α := branch x pure (fun _ => panic)

/-- A call that works on one part of the state. -/
def zoom {τ : Type*} (get : σ → τ) (set : τ → σ → σ) (x : Call τ ε α) : Call σ ε α := fun s =>
  (x (get s)).map (fun r => (r.1, set r.2 s))

/-- One call after the other over a list. -/
def each {ι : Type*} (f : ι → Call σ ε PUnit.{w + 1}) : List ι → Call σ ε PUnit.{w + 1}
  | [] => pure ⟨⟩
  | x :: xs => f x >>= fun _ => each f xs

/-- The endings of a call. -/
def Ends (p : Prop) (x : Call σ ε α) (s : σ) (Q : α → σ → Prop) (E : ε → σ → Prop) : Prop :=
  match x s with
  | none => p
  | some (.error e, s') => E e s'
  | some (.ok a, s') => Q a s'

variable {p : Prop} {s : σ} {Q : α → σ → Prop} {E : ε → σ → Prop}

theorem Ends.pure {a : α} (h : Q a s) : Ends p (pure a : Call σ ε α) s Q E := h

theorem Ends.panic (h : p) : Ends p (panic : Call σ ε α) s Q E := h

theorem Ends.fail {e : ε} (h : E e s) : Ends p (fail e : Call σ ε α) s Q E := h

theorem Ends.read {f : σ → α} (h : Q (f s) s) : Ends p (read f : Call σ ε α) s Q E := h

theorem Ends.modify {f : σ → σ} {Q : PUnit.{w + 1} → σ → Prop} (h : Q ⟨⟩ (f s)) :
    Ends p (modify f : Call σ ε PUnit.{w + 1}) s Q E := h

theorem Ends.require {c : σ → Prop} [DecidablePred c] {Q : PUnit.{w + 1} → σ → Prop}
    (hyes : c s → Q ⟨⟩ s) (hno : ¬ c s → p) : Ends p (require c : Call σ ε PUnit.{w + 1}) s Q E := by
  unfold Ends Call.require
  by_cases hc : c s
  · rw [if_pos hc]
    exact hyes hc
  · rw [if_neg hc]
    exact hno hc

/-- The rule for two calls in a row. -/
theorem Ends.bind {x : Call σ ε α} {f : α → Call σ ε β} {R : β → σ → Prop}
    (h : Ends p x s (fun a s' => Ends p (f a) s' R E) E) : Ends p (x >>= f) s R E := by
  change Ends p (x.andThen f) s R E
  unfold Ends andThen
  unfold Ends at h
  rcases hx : x s with _ | ⟨_ | a, s'⟩
  · rw [hx] at h
    exact h
  · rw [hx] at h
    exact h
  · rw [hx] at h
    exact h

theorem Ends.mono {x : Call σ ε α} {Q' : α → σ → Prop} {E' : ε → σ → Prop}
    (h : Ends p x s Q E) (hQ : ∀ a s', Q a s' → Q' a s') (hE : ∀ e s', E e s' → E' e s') :
    Ends p x s Q' E' := by
  unfold Ends at h ⊢
  rcases hx : x s with _ | ⟨_ | a, s'⟩
  · rw [hx] at h
    exact h
  · rw [hx] at h
    exact hE _ _ h
  · rw [hx] at h
    exact hQ _ _ h

/-- More panics may be tolerated. -/
theorem Ends.weaken {q : Prop} {x : Call σ ε α} (h : Ends p x s Q E) (hpq : p → q) :
    Ends q x s Q E := by
  unfold Ends at h ⊢
  rcases hx : x s with _ | ⟨_ | a, s'⟩
  · rw [hx] at h
    exact hpq h
  · rw [hx] at h
    exact h
  · rw [hx] at h
    exact h

/-- A call that cannot end panics. -/
theorem Ends.eq_none {x : Call σ ε α} (h : Ends True x s (fun _ _ => False) (fun _ _ => False)) :
    x s = none := by
  unfold Ends at h
  rcases hx : x s with _ | ⟨_ | a, s'⟩
  · rfl
  · rw [hx] at h
    exact h.elim
  · rw [hx] at h
    exact h.elim

theorem Ends.of_eq_none {x : Call σ ε α} (hx : x s = none) (hp : p) : Ends p x s Q E := by
  unfold Ends
  rw [hx]
  exact hp

/-- The clean-up starts where the error left the state, and may fail as well. -/
theorem Ends.cleanup {x : Call σ ε α} {cleanup : Call σ ε PUnit.{w + 1}}
    (h : Ends p x s Q (fun e s' => Ends p cleanup s' (fun _ s'' => E e s'') E)) :
    Ends p (Call.onError x cleanup) s Q E := by
  unfold Ends at h
  unfold Ends Call.onError
  rcases hx : x s with _ | ⟨e | a, s'⟩
  · rw [hx] at h
    exact h
  · rw [hx] at h
    simp only [andThen]
    rcases hc : cleanup s' with _ | ⟨_ | _, s''⟩
    · simp only [hc] at h
      exact h
    · simp only [hc] at h
      exact h
    · simp only [hc] at h
      exact h
  · rw [hx] at h
    exact h

/-- A clean-up that does not fail. -/
theorem Ends.onError {x : Call σ ε α} {cleanup : Call σ ε PUnit.{w + 1}}
    (h : Ends p x s Q (fun e s' => Ends p cleanup s' (fun _ s'' => E e s'') (fun _ _ => False))) :
    Ends p (onError x cleanup) s Q E :=
  Ends.cleanup (h.mono (fun _ _ hq => hq)
    (fun _ _ hc => hc.mono (fun _ _ he => he) (fun _ _ hbad => hbad.elim)))

theorem Ends.branch {x : Call σ ε α} {f : α → Call σ ε β} {g : ε → Call σ ε β} {R : β → σ → Prop}
    (h : Ends p x s (fun a s' => Ends p (f a) s' R E) (fun e s' => Ends p (g e) s' R E)) :
    Ends p (branch x f g) s R E := by
  unfold Ends Call.branch
  unfold Ends at h
  rcases hx : x s with _ | ⟨_ | a, s'⟩
  · rw [hx] at h
    exact h
  · rw [hx] at h
    exact h
  · rw [hx] at h
    exact h

theorem Ends.warn {x : Call σ ε α} {Q : PUnit.{w + 1} → σ → Prop}
    (h : Ends p x s (fun _ s' => Q ⟨⟩ s') (fun _ s' => Q ⟨⟩ s')) : Ends p (warn x) s Q E :=
  Ends.branch (h.mono (fun _ _ hq => Ends.pure hq) (fun _ _ hq => Ends.pure hq))

theorem Ends.orPanic {x : Call σ ε α} (h : Ends p x s Q (fun _ _ => p)) : Ends p (orPanic x) s Q E :=
  Ends.branch (h.mono (fun _ _ hq => Ends.pure hq) (fun _ _ hp => Ends.panic hp))

/-- The rule for a list of calls; `I done` holds once the calls of `done` are over. -/
theorem Ends.eachDone {ι : Type*} {f : ι → Call σ ε PUnit.{w + 1}} {done xs : List ι}
    {I : List ι → σ → Prop}
    (hstep : ∀ pre x post, done ++ xs = pre ++ x :: post → ∀ t, I pre t →
      Ends p (f x) t (fun _ => I (pre ++ [x])) E)
    (hs : I done s) : Ends p (each f xs) s (fun _ => I (done ++ xs)) E := by
  induction xs generalizing s done with
  | nil =>
    rw [List.append_nil]
    exact Ends.pure hs
  | cons x xs ih =>
    refine Ends.bind ((hstep done x xs rfl s hs).mono ?_ (fun _ _ he => he))
    intro _ t ht
    rw [List.append_cons]
    refine ih ?_ ht
    rw [← List.append_cons]
    exact hstep

/-- What one call of a list keeps, all of them keep. -/
theorem Ends.each {ι : Type*} {f : ι → Call σ ε PUnit.{w + 1}} {xs : List ι} {I : σ → Prop}
    (hstep : ∀ x ∈ xs, ∀ t, I t → Ends p (f x) t (fun _ => I) E) (hs : I s) :
    Ends p (each f xs) s (fun _ => I) E := by
  refine @Ends.eachDone σ ε p s E ι f [] xs (fun _ => I) ?_ hs
  intro pre x post heq
  rw [List.nil_append] at heq
  exact hstep x (heq ▸ List.mem_append_right pre List.mem_cons_self)

/-- The rest of the state stays. -/
theorem Ends.zoom {τ : Type*} {get : σ → τ} {set : τ → σ → σ} {x : Call τ ε α}
    (h : Ends p x (get s) (fun a t => Q a (set t s)) (fun e t => E e (set t s))) :
    Ends p (zoom get set x) s Q E := by
  unfold Ends Call.zoom
  unfold Ends at h
  rcases hx : x (get s) with _ | ⟨_ | a, t⟩
  · rw [hx] at h
    exact h
  · rw [hx] at h
    exact h
  · rw [hx] at h
    exact h

/-- Partial correctness, read at a result. -/
theorem Ends.of_ok {x : Call σ ε α} {a : α} {s' : σ} (h : Ends p x s Q E)
    (hx : x s = some (.ok a, s')) : Q a s' := by
  unfold Ends at h
  rw [hx] at h
  exact h

theorem Ends.of_error {x : Call σ ε α} {e : ε} {s' : σ} (h : Ends p x s Q E)
    (hx : x s = some (.error e, s')) : E e s' := by
  unfold Ends at h
  rw [hx] at h
  exact h

/-- What holds in both endings holds of the state after the call. -/
theorem Ends.state {x : Call σ ε α} {P : σ → Prop} {s' : σ} {res : Except ε α}
    (h : Ends True x s (fun _ => P) (fun _ => P)) (hx : x s = some (res, s')) : P s' := by
  cases res with
  | error e => exact h.of_error hx
  | ok a => exact h.of_ok hx

/-- A call whose result is known. -/
theorem Ends.of_eq_ok {x : Call σ ε α} {a : α} {s' : σ} (hx : x s = some (.ok a, s')) (h : Q a s') :
    Ends p x s Q E := by
  unfold Ends
  rw [hx]
  exact h

/-- Total correctness: the call has a result. -/
theorem Ends.exists {x : Call σ ε α} (h : Ends False x s Q E) : ∃ r, x s = some r := by
  unfold Ends at h
  rcases hx : x s with _ | r
  · rw [hx] at h
    exact h.elim
  · exact ⟨r, rfl⟩

end Call
end Ucore.Library
