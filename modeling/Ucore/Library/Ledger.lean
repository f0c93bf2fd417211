import Mathlib.Data.List.Nodup

/-!
Ledgers. Every unit of a store is free, owned by one owner, or in hand: taken by somebody
who has not entered it yet. Taking, giving back, entering and striking out keep a ledger.
-/
namespace Ucore.Library

variable {O B : Type*}

/-- `owns` says who owns what, `held` are the units in hand, `free` the free ones, and
`dom` all units there are. -/
structure Ledger (owns : O → B → Prop) (held : List B) (free dom : B → Prop) : Prop where
  once : ∀ o o' b, owns o b → owns o' b → o = o'
  nodup : held.Nodup
  apart : ∀ b ∈ held, ∀ o, ¬ owns o b
  taken : ∀ o b, owns o b → ¬ free b
  hand : ∀ b ∈ held, ¬ free b
  rest : ∀ b, dom b → (∀ o, ¬ owns o b) → b ∉ held → free b

namespace Ledger

variable {owns owns' : O → B → Prop} {held : List B} {free free' dom : B → Prop} {o : O} {b : B}

theorem congr (h : Ledger owns held free dom) (heq : ∀ o b, owns' o b ↔ owns o b) :
    Ledger owns' held free dom := by
  have hsame : owns' = owns := by
    funext o b
    exact propext (heq o b)
  exact hsame ▸ h

/-- The order of what is in hand does not matter. -/
theorem perm {held' : List B} (h : Ledger owns held free dom) (hp : held.Perm held') :
    Ledger owns held' free dom where
  once := h.once
  nodup := hp.nodup_iff.mp h.nodup
  apart c hc := h.apart c (hp.mem_iff.mpr hc)
  taken := h.taken
  hand c hc := h.hand c (hp.mem_iff.mpr hc)
  rest c hd hno hc := h.rest c hd hno (fun hin => hc (hp.mem_iff.mp hin))

/-- A free unit is owned by nobody and not in hand. -/
theorem free_unowned (h : Ledger owns held free dom) (hb : free b) :
    (∀ o, ¬ owns o b) ∧ b ∉ held :=
  ⟨fun o ho => h.taken o b ho hb, fun hin => h.hand b hin hb⟩

/-- A free unit is taken in hand. -/
theorem take (h : Ledger owns held free dom) (hb : free b)
    (hfree : ∀ c, free' c ↔ free c ∧ c ≠ b) : Ledger owns (b :: held) free' dom where
  once := h.once
  nodup := List.nodup_cons.mpr ⟨(h.free_unowned hb).2, h.nodup⟩
  apart c hc := by
    rcases List.mem_cons.mp hc with rfl | hc
    · exact (h.free_unowned hb).1
    · exact h.apart c hc
  taken o c hoc hfc := h.taken o c hoc ((hfree c).mp hfc).1
  hand c hc hfc := by
    obtain ⟨hfc, hne⟩ := (hfree c).mp hfc
    rcases List.mem_cons.mp hc with rfl | hc
    · exact hne rfl
    · exact h.hand c hc hfc
  rest c hd hno hc := by
    rw [List.mem_cons, not_or] at hc
    exact (hfree c).mpr ⟨h.rest c hd hno hc.2, hc.1⟩

/-- Several free units are taken in hand. -/
theorem takeAll {taken : List B} (h : Ledger owns held free dom) (hnodup : taken.Nodup)
    (hb : ∀ c ∈ taken, free c) (hfree : ∀ c, free' c ↔ free c ∧ c ∉ taken) :
    Ledger owns (taken ++ held) free' dom where
  once := h.once
  nodup := by
    refine List.nodup_append.mpr ⟨hnodup, h.nodup, ?_⟩
    intro c hc d hd heq
    exact (h.free_unowned (hb c hc)).2 (heq ▸ hd)
  apart c hc := by
    rcases List.mem_append.mp hc with hc | hc
    · exact (h.free_unowned (hb c hc)).1
    · exact h.apart c hc
  taken o c hoc hfc := h.taken o c hoc ((hfree c).mp hfc).1
  hand c hc hfc := by
    obtain ⟨hfc, hne⟩ := (hfree c).mp hfc
    rcases List.mem_append.mp hc with hc | hc
    · exact hne hc
    · exact h.hand c hc hfc
  rest c hd hno hc := by
    rw [List.mem_append, not_or] at hc
    exact (hfree c).mpr ⟨h.rest c hd hno hc.2, hc.1⟩

/-- A unit in hand is given back. -/
theorem give (h : Ledger owns (b :: held) free dom) (hfree : ∀ c, free' c ↔ free c ∨ c = b) :
    Ledger owns held free' dom where
  once := h.once
  nodup := (List.nodup_cons.mp h.nodup).2
  apart c hc := h.apart c (List.mem_cons_of_mem b hc)
  taken o c hoc hfc := by
    rcases (hfree c).mp hfc with hfc | rfl
    · exact h.taken o c hoc hfc
    · exact h.apart c List.mem_cons_self o hoc
  hand c hc hfc := by
    rcases (hfree c).mp hfc with hfc | rfl
    · exact h.hand c (List.mem_cons_of_mem b hc) hfc
    · exact (List.nodup_cons.mp h.nodup).1 hc
  rest c hd hno hc := by
    by_cases hcb : c = b
    · exact (hfree c).mpr (Or.inr hcb)
    · refine (hfree c).mpr (Or.inl (h.rest c hd hno ?_))
      rw [List.mem_cons, not_or]
      exact ⟨hcb, hc⟩

/-- A unit in hand is entered under an owner. -/
theorem enter (h : Ledger owns (b :: held) free dom)
    (howns : ∀ o' c, owns' o' c ↔ owns o' c ∨ o' = o ∧ c = b) : Ledger owns' held free dom where
  once o₁ o₂ c h₁ h₂ := by
    rcases (howns o₁ c).mp h₁ with h₁ | ⟨rfl, rfl⟩
    · rcases (howns o₂ c).mp h₂ with h₂ | ⟨rfl, rfl⟩
      · exact h.once o₁ o₂ c h₁ h₂
      · exact absurd h₁ (h.apart c List.mem_cons_self o₁)
    · rcases (howns o₂ c).mp h₂ with h₂ | ⟨rfl, -⟩
      · exact absurd h₂ (h.apart c List.mem_cons_self o₂)
      · rfl
  nodup := (List.nodup_cons.mp h.nodup).2
  apart c hc o' hoc := by
    rcases (howns o' c).mp hoc with hoc | ⟨-, rfl⟩
    · exact h.apart c (List.mem_cons_of_mem b hc) o' hoc
    · exact (List.nodup_cons.mp h.nodup).1 hc
  taken o' c hoc := by
    rcases (howns o' c).mp hoc with hoc | ⟨-, rfl⟩
    · exact h.taken o' c hoc
    · exact h.hand c List.mem_cons_self
  hand c hc := h.hand c (List.mem_cons_of_mem b hc)
  rest c hd hno hc := by
    refine h.rest c hd (fun o' ho' => hno o' ((howns o' c).mpr (Or.inl ho'))) ?_
    rw [List.mem_cons, not_or]
    refine ⟨?_, hc⟩
    intro heq
    exact hno o ((howns o c).mpr (Or.inr ⟨rfl, heq⟩))

/-- What an owner has is struck out, and is in hand then. -/
theorem strike (h : Ledger owns held free dom) (hob : owns o b) (honly : ∀ c, owns o c → c = b)
    (howns : ∀ o' c, owns' o' c ↔ owns o' c ∧ o' ≠ o) : Ledger owns' (b :: held) free dom where
  once o₁ o₂ c h₁ h₂ := h.once o₁ o₂ c ((howns o₁ c).mp h₁).1 ((howns o₂ c).mp h₂).1
  nodup := List.nodup_cons.mpr ⟨fun hin => h.apart b hin o hob, h.nodup⟩
  apart c hc o' hoc := by
    obtain ⟨hoc, hne⟩ := (howns o' c).mp hoc
    rcases List.mem_cons.mp hc with rfl | hc
    · exact hne (h.once o' o c hoc hob)
    · exact h.apart c hc o' hoc
  taken o' c hoc := h.taken o' c ((howns o' c).mp hoc).1
  hand c hc := by
    rcases List.mem_cons.mp hc with rfl | hc
    · exact h.taken o c hob
    · exact h.hand c hc
  rest c hd hno hc := by
    rw [List.mem_cons, not_or] at hc
    refine h.rest c hd (fun o' ho' => ?_) hc.2
    by_cases ho : o' = o
    · subst ho
      exact hc.1 (honly c ho')
    · exact hno o' ((howns o' c).mpr ⟨ho', ho⟩)

end Ledger
end Ucore.Library
