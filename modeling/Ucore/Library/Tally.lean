import Mathlib.Data.Multiset.AddSub
import Mathlib.Data.Multiset.Count

/-!
Tallies: a multiset of pairs says who has what, and the tally of a thing is the number of
pairs about it.
-/
namespace Ucore.Library

variable {ι κ : Type*} [DecidableEq ι] [DecidableEq κ]

omit [DecidableEq ι] in
/-- The number of pairs about `k`. -/
def tally (m : Multiset (ι × κ)) (k : κ) : ℕ := m.countP (fun x => x.2 = k)

omit [DecidableEq ι] in
@[simp] theorem tally_zero (k : κ) : tally (0 : Multiset (ι × κ)) k = 0 := Multiset.countP_zero _

omit [DecidableEq ι] in
theorem tally_cons (x : ι × κ) (m : Multiset (ι × κ)) (k : κ) :
    tally (x ::ₘ m) k = tally m k + if x.2 = k then 1 else 0 := by
  unfold tally
  rw [Multiset.countP_cons]

theorem tally_erase {x : ι × κ} {m : Multiset (ι × κ)} (h : x ∈ m) (k : κ) :
    tally (m.erase x) k + (if x.2 = k then 1 else 0) = tally m k := by
  conv_rhs => rw [← Multiset.cons_erase h]
  rw [tally_cons]

theorem tally_erase_of_ne {x : ι × κ} {m : Multiset (ι × κ)} (h : x ∈ m) {k : κ} (hk : x.2 ≠ k) :
    tally (m.erase x) k = tally m k := by
  rw [← tally_erase h k, if_neg hk, Nat.add_zero]

omit [DecidableEq ι] in
theorem tally_pos {m : Multiset (ι × κ)} {k : κ} : 0 < tally m k ↔ ∃ i, (i, k) ∈ m := by
  unfold tally
  rw [Multiset.countP_pos]
  constructor
  · rintro ⟨⟨i, k'⟩, hmem, heq⟩
    have hk : k' = k := heq
    exact ⟨i, hk ▸ hmem⟩
  · rintro ⟨i, hmem⟩
    exact ⟨(i, k), hmem, rfl⟩

omit [DecidableEq ι] in
theorem tally_pos_of_mem {m : Multiset (ι × κ)} {i : ι} {k : κ} (h : (i, k) ∈ m) : 0 < tally m k :=
  tally_pos.mpr ⟨i, h⟩

omit [DecidableEq ι] in
theorem notMem_of_tally {m : Multiset (ι × κ)} {k : κ} (h : tally m k = 0) (i : ι) : (i, k) ∉ m := by
  intro hmem
  have hpos := tally_pos_of_mem hmem
  omega

end Ucore.Library
