import Mathlib.Data.Set.Insert
import Mathlib.Order.Bounds.Basic
import Ucore.Library.Trace

/-!
Pools. A pool hands out the least unit that is free, refuses when none is, and takes units back.
A unit that was handed out stays out until it is put back.
-/
namespace Ucore.Library

variable {ι : Type*}

inductive PoolEvent (ι : Type*) where
  | take (i : ι)
  | refuse
  | put (i : ι)

/-- What happens to the free units; `all` are the units of the pool. -/
inductive PoolStep [Preorder ι] (all : Set ι) : Set ι → PoolEvent ι → Set ι → Prop
  | take {free : Set ι} (i : ι) (hleast : IsLeast free i) : PoolStep all free (.take i) (free \ {i})
  | refuse {free : Set ι} (hnone : free = ∅) : PoolStep all free .refuse free
  | put {free : Set ι} (i : ι) (hall : i ∈ all) (hout : i ∉ free) :
      PoolStep all free (.put i) (insert i free)

abbrev PoolRun [Preorder ι] (all : Set ι) : Set ι → List (PoolEvent ι) → Set ι → Prop :=
  Trace (PoolStep all)

/-- Handed out and not put back since. -/
def HandedOut (es : List (PoolEvent ι)) (i : ι) : Prop :=
  ∃ before after, es = before ++ .take i :: after ∧ .put i ∉ after

theorem HandedOut.cons {es : List (PoolEvent ι)} {i : ι} (h : HandedOut es i) (e : PoolEvent ι) :
    HandedOut (e :: es) i := by
  obtain ⟨before, after, rfl, hput⟩ := h
  exact ⟨e :: before, after, rfl, hput⟩

variable [Preorder ι] {all free free' : Set ι} {es es' : List (PoolEvent ι)} {e : PoolEvent ι} {i : ι}

namespace PoolStep

theorem subset (h : PoolStep all free e free') (hsub : free ⊆ all) : free' ⊆ all := by
  cases h with
  | take j hleast => exact fun i hi => hsub hi.1
  | refuse hnone => exact hsub
  | put j hall hout => exact Set.insert_subset hall hsub

/-- Only a `put` makes a unit free. -/
theorem stays_out (h : PoolStep all free e free') (hi : i ∉ free) (hput : e ≠ .put i) :
    i ∉ free' := by
  cases h with
  | take j hleast => exact fun hin => hi hin.1
  | refuse hnone => exact hi
  | put j hall hout =>
    intro hin
    rcases Set.mem_insert_iff.mp hin with heq | hin
    · exact hput (congrArg PoolEvent.put heq.symm)
    · exact hi hin

/-- Only a `take` makes a unit not free. -/
theorem stays_free (h : PoolStep all free e free') (hi : i ∈ free) (htake : e ≠ .take i) :
    i ∈ free' := by
  cases h with
  | take j hleast =>
    refine ⟨hi, fun heq => htake ?_⟩
    exact congrArg PoolEvent.take (Set.mem_singleton_iff.mp heq).symm
  | refuse hnone => exact hi
  | put j hall hout => exact Set.mem_insert_of_mem j hi

end PoolStep

namespace PoolRun

theorem subset (h : PoolRun all free es free') (hsub : free ⊆ all) : free' ⊆ all := by
  refine h.invariant (P := fun s => s ⊆ all) ?_ hsub
  intro s e s' hs hstep
  exact hstep.subset hs

/-- What is out stays out until it is put back. -/
theorem stays_out (h : PoolRun all free es free') (hi : i ∉ free) (hput : .put i ∉ es) :
    i ∉ free' := by
  induction h with
  | nil free => exact hi
  | cons hstep hrest ih =>
    rw [List.mem_cons, not_or] at hput
    exact ih (hstep.stays_out hi (Ne.symm hput.1)) hput.2

/-- The run behind a `take` starts without the unit. -/
theorem of_take (h : PoolRun all free (.take i :: es) free') :
    IsLeast free i ∧ PoolRun all (free \ {i}) es free' := by
  obtain ⟨mid, hstep, hrest⟩ := Trace.cons_iff.mp h
  cases hstep with
  | take _ hleast => exact ⟨hleast, hrest⟩

/-- Only units of the pool are handed out. -/
theorem taken_mem (h : PoolRun all free es free') (hsub : free ⊆ all) (htake : .take i ∈ es) :
    i ∈ all := by
  obtain ⟨before, after, rfl⟩ := List.append_of_mem htake
  obtain ⟨mid, hbefore, hafter⟩ := Trace.append_iff.mp h
  exact subset hbefore hsub (of_take hafter).1.1

/-- A unit is handed out twice only when it was put back in between. -/
theorem put_between {before between after : List (PoolEvent ι)}
    (h : PoolRun all free (before ++ .take i :: (between ++ .take i :: after)) free') :
    .put i ∈ between := by
  obtain ⟨free₁, -, hfirst⟩ := Trace.append_iff.mp h
  obtain ⟨free₂, hbetween, hsecond⟩ := Trace.append_iff.mp (of_take hfirst).2
  by_contra hput
  exact stays_out hbetween (fun hin => hin.2 rfl) hput (of_take hsecond).1.1

/-- What is not free at the end is out, or it was not free from the beginning on. -/
theorem handedOut_or (h : PoolRun all free es free') (hi : i ∉ free') :
    HandedOut es i ∨ i ∉ free ∧ .put i ∉ es := by
  induction h with
  | nil free => exact Or.inr ⟨hi, List.not_mem_nil⟩
  | @cons free mid _ e es hstep hrest ih =>
    rcases ih hi with hout | ⟨hmid, hput⟩
    · exact Or.inl (hout.cons e)
    by_cases htake : e = .take i
    · left
      exact ⟨[], es, by rw [htake, List.nil_append], hput⟩
    · right
      refine ⟨fun hin => hmid (hstep.stays_free hin htake), ?_⟩
      intro hmem
      rcases List.mem_cons.mp hmem with heq | hmem
      · subst heq
        cases hstep with
        | put _ hall hout => exact hmid (Set.mem_insert i free)
      · exact hput hmem

/-- In a run from the whole pool the units that are out are those that are not free. -/
theorem handedOut_iff (h : PoolRun all all es free) : HandedOut es i ↔ i ∈ all ∧ i ∉ free := by
  constructor
  · intro hout
    obtain ⟨before, after, rfl, hput⟩ := hout
    obtain ⟨mid, hbefore, htake⟩ := Trace.append_iff.mp h
    obtain ⟨hleast, hafter⟩ := of_take htake
    exact ⟨subset hbefore subset_rfl hleast.1, stays_out hafter (fun hin => hin.2 rfl) hput⟩
  · intro hi
    rcases handedOut_or h hi.2 with hout | ⟨hnot, -⟩
    · exact hout
    · exact absurd hi.1 hnot

end PoolRun

end Ucore.Library
