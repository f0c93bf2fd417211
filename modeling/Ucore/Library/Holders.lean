import Mathlib.Data.Finset.Card
import Mathlib.Logic.Function.Basic

/-!
Reference counting in general. Finitely many slots hold at most one resource
each; a resource is held by as many slots as its count says, a slot marked
exclusive is the only holder, and a free resource has no holder. The operations
below change one slot and adjust the counts; each keeps the invariant.
-/
namespace Ucore.Library

variable {κ P : Type*} [DecidableEq κ] [DecidableEq P]

omit [DecidableEq κ] in
/-- The number of slots that hold a resource. -/
def holders (S : Finset κ) (h : κ → Option P) (p : P) : ℕ :=
  (S.filter (fun k => h k = some p)).card

omit [DecidableEq κ] in
theorem holders_pos_iff {S : Finset κ} {h : κ → Option P} {p : P} :
    0 < holders S h p ↔ ∃ k ∈ S, h k = some p := by
  unfold holders
  rw [Finset.card_pos]
  constructor
  · rintro ⟨k, hk⟩
    rw [Finset.mem_filter] at hk
    exact ⟨k, hk⟩
  · rintro ⟨k, hk⟩
    exact ⟨k, Finset.mem_filter.mpr hk⟩

omit [DecidableEq κ] in
theorem holders_congr {S : Finset κ} {h h' : κ → Option P} (heq : ∀ k ∈ S, h' k = h k) (p : P) :
    holders S h' p = holders S h p := by
  unfold holders
  congr 1
  apply Finset.filter_congr
  intro k hk
  rw [heq k hk]

omit [DecidableEq κ] in
/-- A resource with one holder is held by no second slot. -/
theorem eq_of_holders_eq_one {S : Finset κ} {h : κ → Option P} {p : P} {a b : κ}
    (hone : holders S h p = 1) (ha : a ∈ S) (hb : b ∈ S)
    (hpa : h a = some p) (hpb : h b = some p) : a = b := by
  obtain ⟨c, hc⟩ := Finset.card_eq_one.mp hone
  have hac : a ∈ ({c} : Finset κ) := hc ▸ Finset.mem_filter.mpr ⟨ha, hpa⟩
  have hbc : b ∈ ({c} : Finset κ) := hc ▸ Finset.mem_filter.mpr ⟨hb, hpb⟩
  rw [Finset.mem_singleton.mp hac, Finset.mem_singleton.mp hbc]

/-- Rewriting one slot moves one unit from the old resource to the new one. -/
theorem holders_update {S : Finset κ} {k : κ} (hk : k ∈ S) (h : κ → Option P)
    (v : Option P) (p : P) :
    holders S (Function.update h k v) p + (if h k = some p then 1 else 0) =
      holders S h p + (if v = some p then 1 else 0) := by
  have split : ∀ g : κ → Option P, holders S g p =
      holders (S.erase k) g p + (if g k = some p then 1 else 0) := by
    intro g
    unfold holders
    conv_lhs => rw [← Finset.insert_erase hk, Finset.filter_insert]
    by_cases hg : g k = some p
    · rw [if_pos hg, if_pos hg, Finset.card_insert_of_notMem (by simp)]
    · rw [if_neg hg, if_neg hg, Nat.add_zero]
  have rest : holders (S.erase k) (Function.update h k v) p = holders (S.erase k) h p := by
    apply holders_congr
    intro j hj
    exact Function.update_of_ne (Finset.ne_of_mem_erase hj) _ _
  rw [split (Function.update h k v), split h, rest, Function.update_self]
  omega

/-- A new slot. -/
theorem holders_insert {S : Finset κ} {k : κ} (hk : k ∉ S) (h : κ → Option P) (v : Option P)
    (p : P) : holders (insert k S) (Function.update h k v) p =
      holders S h p + (if v = some p then 1 else 0) := by
  have hrest : holders S (Function.update h k v) p = holders S h p := by
    apply holders_congr
    intro j hj
    have hne : j ≠ k := by
      intro heq
      exact hk (heq ▸ hj)
    exact Function.update_of_ne hne _ _
  unfold holders at hrest ⊢
  rw [Finset.filter_insert, Function.update_self]
  by_cases hv : v = some p
  · rw [if_pos hv, if_pos hv, Finset.card_insert_of_notMem (by simp [hk]), hrest]
  · rw [if_neg hv, if_neg hv, hrest, Nat.add_zero]

/-- A slot that goes. -/
theorem holders_erase {S : Finset κ} {k : κ} (hk : k ∈ S) (h : κ → Option P) (p : P) :
    holders (S.erase k) h p + (if h k = some p then 1 else 0) = holders S h p := by
  unfold holders
  conv_rhs => rw [← Finset.insert_erase hk, Finset.filter_insert]
  by_cases hv : h k = some p
  · rw [if_pos hv, if_pos hv, Finset.card_insert_of_notMem (by simp)]
  · rw [if_neg hv, if_neg hv, Nat.add_zero]

/-- Counts agree with holders, exclusive slots hold alone, free resources are unheld. -/
structure Counted (S : Finset κ) (h : κ → Option P) (excl : κ → Prop)
    (ref : P → ℤ) (free : P → Prop) : Prop where
  ref_eq : ∀ p, 0 < holders S h p → ref p = holders S h p
  alone : ∀ k ∈ S, excl k → ∀ p, h k = some p → holders S h p = 1
  unused : ∀ p, free p → holders S h p = 0 ∧ ref p = 0

namespace Counted

variable {S : Finset κ} {h : κ → Option P} {excl : κ → Prop} {ref : P → ℤ} {free : P → Prop}

omit [DecidableEq κ] in
/-- The invariant depends on the slots, marks, counts and free resources only. -/
theorem congr (hc : Counted S h excl ref free) {h' : κ → Option P} {excl' : κ → Prop}
    {ref' : P → ℤ} {free' : P → Prop} (hh : ∀ k ∈ S, h' k = h k)
    (hx : ∀ k ∈ S, excl' k → excl k) (hr : ∀ p, 0 < holders S h p → ref' p = ref p)
    (hf : ∀ p, free' p → free p ∧ ref' p = ref p) : Counted S h' excl' ref' free' where
  ref_eq p hp := by
    rw [holders_congr hh] at hp ⊢
    rw [hr p hp]
    exact hc.ref_eq p hp
  alone k hk hxk p hp := by
    rw [holders_congr hh]
    exact hc.alone k hk (hx k hk hxk) p (hh k hk ▸ hp)
  unused p hp := by
    obtain ⟨hfp, hrp⟩ := hf p hp
    rw [holders_congr hh, hrp]
    exact hc.unused p hfp

/-- The same resource stays in its slot, with a new mark. -/
theorem mark (hc : Counted S h excl ref free) {k : κ} {p : P} {e : Prop}
    (hp : h k = some p) (he : e → holders S h p = 1) :
    Counted S h (Function.update excl k e) ref free where
  ref_eq := hc.ref_eq
  alone j hj hxj q hq := by
    by_cases hjk : j = k
    · subst hjk
      rw [Function.update_self] at hxj
      rw [hp] at hq
      exact Option.some.inj hq ▸ he hxj
    · rw [Function.update_of_ne hjk] at hxj
      exact hc.alone j hj hxj q hq
  unused := hc.unused

/-- A slot is emptied; its resource becomes free with its last holder. -/
theorem clear (hc : Counted S h excl ref free) {k : κ} {p : P} (hk : k ∈ S)
    (hp : h k = some p) {ref' : P → ℤ} {free' : P → Prop}
    (hrp : ref' p = ref p - 1) (hr : ∀ q, q ≠ p → ref' q = ref q)
    (hfp : free' p → ref p = 1) (hf : ∀ q, q ≠ p → (free' q ↔ free q)) :
    Counted S (Function.update h k none) (Function.update excl k False) ref' free' := by
  have hpos : 0 < holders S h p := holders_pos_iff.mpr ⟨k, hk, hp⟩
  have hcp : holders S (Function.update h k none) p + 1 = holders S h p := by
    have := holders_update hk h none p
    simpa [hp] using this
  have hcq : ∀ q, q ≠ p → holders S (Function.update h k none) q = holders S h q := by
    intro q hq
    have := holders_update hk h none q
    simpa [hp, hq.symm] using this
  have hrefp := hc.ref_eq p hpos
  refine ⟨?_, ?_, ?_⟩
  · intro q hq
    by_cases hqp : q = p
    · subst hqp
      rw [hrp, hrefp]
      omega
    · rw [hcq q hqp] at hq ⊢
      rw [hr q hqp]
      exact hc.ref_eq q hq
  · intro j hj hxj q hq
    by_cases hjk : j = k
    · subst hjk
      simp at hxj
    · rw [Function.update_of_ne hjk] at hxj hq
      have hone := hc.alone j hj hxj q hq
      by_cases hqp : q = p
      · subst hqp
        exact absurd (eq_of_holders_eq_one hone hj hk hq hp) hjk
      · rw [hcq q hqp]
        exact hone
  · intro q hq
    by_cases hqp : q = p
    · subst hqp
      have hone := hfp hq
      rw [hrp]
      omega
    · rw [hcq q hqp, hr q hqp]
      exact hc.unused q ((hf q hqp).mp hq)

/-- An empty slot receives a resource that is not free. -/
theorem fill (hc : Counted S h excl ref free) {k : κ} {p : P} {e : Prop} (hk : k ∈ S)
    (hnone : h k = none) (hnf : ¬ free p) (hfresh : ref p = holders S h p)
    (he : e → holders S h p = 0) (hold : ¬ e → ∀ j ∈ S, h j = some p → ¬ excl j)
    {ref' : P → ℤ} (hrp : ref' p = ref p + 1) (hr : ∀ q, q ≠ p → ref' q = ref q) :
    Counted S (Function.update h k (some p)) (Function.update excl k e) ref' free := by
  have hcp : holders S (Function.update h k (some p)) p = holders S h p + 1 := by
    have := holders_update hk h (some p) p
    simpa [hnone] using this
  have hcq : ∀ q, q ≠ p → holders S (Function.update h k (some p)) q = holders S h q := by
    intro q hq
    have := holders_update hk h (some p) q
    simpa [hnone, hq.symm] using this
  refine ⟨?_, ?_, ?_⟩
  · intro q hq
    by_cases hqp : q = p
    · subst hqp
      rw [hrp, hfresh, hcp]
      push_cast
      rfl
    · rw [hcq q hqp] at hq ⊢
      rw [hr q hqp]
      exact hc.ref_eq q hq
  · intro j hj hxj q hq
    by_cases hjk : j = k
    · subst hjk
      rw [Function.update_self] at hxj hq
      rw [← Option.some.inj hq, hcp, he hxj]
    · rw [Function.update_of_ne hjk] at hxj hq
      have hone := hc.alone j hj hxj q hq
      by_cases hqp : q = p
      · subst hqp
        by_cases hee : e
        · rw [he hee] at hone
          omega
        · exact absurd hxj (hold hee j hj hq)
      · rw [hcq q hqp]
        exact hone
  · intro q hq
    have hqp : q ≠ p := fun heq => hnf (heq ▸ hq)
    rw [hcq q hqp, hr q hqp]
    exact hc.unused q hq

end Counted
end Ucore.Library
