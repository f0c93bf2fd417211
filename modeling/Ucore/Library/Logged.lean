import Mathlib.Logic.Basic
import Mathlib.Data.List.Basic

/-!
Computations that note what they do and may stop without a result. What was noted before the
stop is kept.
-/
namespace Ucore.Library

variable {ι : Type*} {α β : Type}

structure Logged (ι : Type*) (α : Type) where
  log : List ι
  result : Option α

namespace Logged

protected def pure (a : α) : Logged ι α := ⟨[], some a⟩

/-- A step that notes nothing and may stop. -/
def ofOption (r : Option α) : Logged ι α := ⟨[], r⟩

def tell (es : List ι) : Logged ι Unit := ⟨es, some ()⟩

protected def bind (x : Logged ι α) (f : α → Logged ι β) : Logged ι β :=
  ⟨x.log ++ (x.result.map fun a => (f a).log).getD [], x.result.bind fun a => (f a).result⟩

instance : Monad (Logged ι) where
  pure := Logged.pure
  bind := Logged.bind

@[simp] theorem log_pure (a : α) : (Pure.pure a : Logged ι α).log = [] := rfl

@[simp] theorem result_pure (a : α) : (Pure.pure a : Logged ι α).result = some a := rfl

@[simp] theorem log_ofOption (r : Option α) : (ofOption r : Logged ι α).log = [] := rfl

@[simp] theorem result_ofOption (r : Option α) : (ofOption r : Logged ι α).result = r := rfl

@[simp] theorem log_tell (es : List ι) : (tell es).log = es := rfl

@[simp] theorem result_tell (es : List ι) : (tell es).result = some () := rfl

@[simp] theorem result_bind (x : Logged ι α) (f : α → Logged ι β) :
    (x >>= f).result = x.result.bind fun a => (f a).result := rfl

@[simp] theorem ofOption_some_bind (a : α) (f : α → Logged ι β) :
    (ofOption (some a) >>= f) = f a := rfl

@[simp] theorem ofOption_none_bind (f : α → Logged ι β) :
    (ofOption none >>= f) = ofOption none := rfl

theorem log_bind_of_result {x : Logged ι α} {a : α} (h : x.result = some a)
    (f : α → Logged ι β) : (x >>= f).log = x.log ++ (f a).log := by
  change x.log ++ (x.result.map fun a => (f a).log).getD [] = _
  rw [h]
  rfl

theorem log_bind_of_stop {x : Logged ι α} (h : x.result = none) (f : α → Logged ι β) :
    (x >>= f).log = x.log := by
  change x.log ++ (x.result.map fun a => (f a).log).getD [] = _
  rw [h]
  exact List.append_nil _

@[simp] theorem log_tell_bind (es : List ι) (f : Unit → Logged ι β) :
    (tell es >>= f).log = es ++ (f ()).log := rfl

/-- What is noted by the first part, or by the second part after its result. -/
theorem mem_log_bind {x : Logged ι α} {f : α → Logged ι β} {e : ι} :
    e ∈ (x >>= f).log ↔ e ∈ x.log ∨ ∃ a, x.result = some a ∧ e ∈ (f a).log := by
  cases h : x.result with
  | none => rw [log_bind_of_stop h]; simp
  | some a => rw [log_bind_of_result h]; simp

/-- Everything noted has the property. -/
theorem forall_log_bind {x : Logged ι α} {f : α → Logged ι β} {P : ι → Prop}
    (hx : ∀ e ∈ x.log, P e) (hf : ∀ a, x.result = some a → ∀ e ∈ (f a).log, P e) :
    ∀ e ∈ (x >>= f).log, P e := by
  intro e he
  rcases mem_log_bind.mp he with he | ⟨a, ha, he⟩
  · exact hx e he
  · exact hf a ha e he

theorem forall_log_bind_iff {x : Logged ι α} {f : α → Logged ι β} {P : ι → Prop} {a : α}
    (h : x.result = some a) :
    (∀ e ∈ (x >>= f).log, P e) ↔ (∀ e ∈ x.log, P e) ∧ ∀ e ∈ (f a).log, P e := by
  rw [log_bind_of_result h, List.forall_mem_append]

theorem forall_log_tell_bind {es : List ι} {f : Unit → Logged ι β} {P : ι → Prop} :
    (∀ e ∈ (tell es >>= f).log, P e) ↔ (∀ e ∈ es, P e) ∧ ∀ e ∈ (f ()).log, P e := by
  rw [log_tell_bind, List.forall_mem_append]

/-- The two parts of a computation that came to a result. -/
theorem result_bind_eq_some {x : Logged ι α} {f : α → Logged ι β} {b : β}
    (h : (x >>= f).result = some b) : ∃ a, x.result = some a ∧ (f a).result = some b :=
  Option.bind_eq_some_iff.mp h

end Logged
end Ucore.Library
