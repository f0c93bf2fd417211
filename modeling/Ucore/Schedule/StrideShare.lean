import Mathlib.Algebra.Order.Group.Int
import Mathlib.Algebra.Order.Group.Abs
import Mathlib.Data.Fintype.Basic
import Ucore.Library.Run
import Ucore.Schedule.StrideWindow

/-!
The share of the processor that a fixed set of runnable processes gets. From equal strides on
nobody joins, so the window holds for ever, and the unwrapped stride of a process counts its
picks.
-/
namespace Ucore.Schedule

open Libs Library

namespace Traced

variable {P : Type*} [DecidableEq P] {k : Sched P} {s : Traced P} {p : P}

/-- The processes that wait for the processor in `k` still do, with their priorities, and the
unwrapped stride of each is the one it had plus one pass for each pick. -/
structure Shares (k : Sched P) (s : Traced P) : Prop where
  inv : s.Inv
  counted : ∀ p, s.unwrapped p = (k.proc p).lab6Stride + s.picks p * (k.proc p).pass
  priority : ∀ p, (s.sched.proc p).lab6Priority = (k.proc p).lab6Priority
  contends : ∀ p, k.Contends p → s.sched.Contends p

theorem Shares.tick (h : Shares k s) :
    ∃ s', s.step .tick = some s' ∧ Shares k s' := by
  obtain ⟨v, hv, hrq, hstride, hstate, hprio⟩ : ∃ v : ProcStruct,
      s.sched.schedClassProcTick s.sched.current = s.sched.setProc s.sched.current v ∧
      v.rq = (s.sched.proc s.sched.current).rq ∧
      v.lab6Stride = (s.sched.proc s.sched.current).lab6Stride ∧
      v.state = (s.sched.proc s.sched.current).state ∧
      v.lab6Priority = (s.sched.proc s.sched.current).lab6Priority := by
    simp only [Sched.schedClassProcTick]
    split
    · exact ⟨_, rfl, rfl, rfl, rfl, rfl⟩
    · exact ⟨_, rfl, rfl, rfl, rfl, rfl⟩
  refine ⟨⟨s.sched.setProc s.sched.current v, s.unwrapped, s.picks⟩, ?_, ?_, h.counted, ?_, ?_⟩
  · rw [step, Sched.step, hv]
    rfl
  · exact h.inv.setProc ⟨hrq, hstride, Or.inl hstate⟩
  · exact fun p => (Sched.setProc_field ProcStruct.lab6Priority hprio p).trans (h.priority p)
  · intro p hp
    rcases h.contends p hp with hc | hc
    · exact Or.inl ((Sched.setProc_field ProcStruct.rq hrq p).trans hc)
    · refine Or.inr ⟨hc.1, hc.2.1, ?_⟩
      exact (Sched.setProc_field ProcStruct.state hstate p).trans hc.2.2

theorem Shares.schedule (h : Shares k s) :
    ∃ s', s.step .schedule = some s' ∧ Shares k s' := by
  obtain ⟨k', hrun, -, hsch, hnone, hsome⟩ :=
    Sched.schedule_spec h.inv.shape (fun _ _ _ hxy hyz => hxy.trans hyz) h.inv.decided
  obtain ⟨k'', hrun', hinv⟩ := h.inv.schedule
  have heq : k'' = k' := Option.some.inj (hrun'.symm.trans hrun)
  rw [heq] at hinv
  refine ⟨s.record k' .schedule, ?_, hinv, ?_, ?_, ?_⟩
  · rw [step, Sched.step, hrun, Option.map_some]
  · intro p
    cases hpick : s.sched.pickOf with
    | none =>
      rw [record_none hpick]
      exact h.counted p
    | some r =>
      rw [record_some hpick]
      by_cases hp : p = r
      · have hpass : (s.sched.proc r).pass = (k.proc r).pass := Sched.pass_congr (h.priority r)
        simp only [hp, Function.update_self, h.counted r, hpass]
        ring
      · simp only [Function.update_of_ne hp]
        exact h.counted p
  · intro p
    rw [← h.priority p, ← hsch.priority p]
    cases hpick : s.sched.pickOf with
    | none => rw [record_none hpick]
    | some r => rw [record_some hpick]
  · intro p hp
    have hc := h.contends p hp
    cases hpick : s.sched.pickOf with
    | none => exact absurd hc (hnone hpick p)
    | some r =>
      rw [record_some hpick]
      rw [hpick] at hsch
      by_cases hpr : p = r
      · obtain ⟨hrunnable, hidle, -⟩ := h.inv.shape.contends_ready hc
        refine Or.inr ⟨hpr.trans hsch.current.symm, ?_, (hsch.state p).trans hrunnable⟩
        exact fun heq => hidle (heq.trans hsch.idleproc)
      · exact Or.inl ((hsch.queued p).mpr ⟨hc, fun heq => hpr (Option.some.inj heq).symm⟩)

/-- Among processes that start with equal strides, the numbers of picks weighted with the
passes differ by at most `BIG_STRIDE`, after any number of calls of `schedule`. -/
theorem stride_share {idleproc : P} {before evs : List (Event P)}
    (hreach : runOps Sched.step (Sched.init idleproc) before = some k)
    (heq : ∀ p q, k.Contends p → k.Contends q →
      (k.proc p).lab6Stride = (k.proc q).lab6Stride)
    (hprio : ∀ p, k.Contends p →
      1 ≤ (k.proc p).lab6Priority ∧ (k.proc p).lab6Priority ≤ bigStride)
    (hevs : ∀ ev ∈ evs, ev = .schedule ∨ ev = .tick) :
    ∃ s, runOps step (start k) evs = some s ∧ ∀ p q, k.Contends p → k.Contends q →
      |((s.picks p * (bigStride / (k.proc p).lab6Priority) : ℕ) : ℤ) -
        (s.picks q * (bigStride / (k.proc q).lab6Priority) : ℕ)| ≤ bigStride := by
  have hkeep : ∀ (k : Sched P) ev k', k.Shape (fun _ _ => True) → k.step ev = some k' →
      k'.Shape (fun _ _ => True) := fun _ _ _ h hs => h.step hs
  have hshape : k.Shape (fun _ _ => True) :=
    runOps_invariant hkeep (Sched.init_shape idleproc) hreach
  have hstart : Shares k (start k) := by
    refine ⟨start_inv (hshape.order ?_) ?_, ?_, fun _ => rfl, fun _ => id⟩
    · exact fun p q hp hq _ => (heq p q (Or.inl hp) (Or.inl hq)).le
    · exact fun p q hp hq => (heq p q hp hq).le.trans (Nat.le_add_right _ _)
    · exact fun p => (Nat.zero_mul _ ▸ rfl)
  have htotal : ∀ s ev, Shares k s → (ev = .schedule ∨ ev = .tick) →
      ∃ s', step s ev = some s' ∧ Shares k s' := by
    intro s ev h hev
    rcases hev with hev | hev
    · exact hev ▸ h.schedule
    · exact hev ▸ h.tick
  obtain ⟨s, hrun, hs⟩ := runOps_total htotal hstart (RunMeets.of_forall fun _ => hevs)
  refine ⟨s, hrun, ?_⟩
  intro p q hp hq
  have hpass : ∀ p, k.Contends p → bigStride / (k.proc p).lab6Priority = (k.proc p).pass := by
    intro p hp
    have hpos := (hprio p hp).1
    rw [ProcStruct.pass, if_neg (by omega)]
  have hpq := hs.inv.window p q (hs.contends p hp) (hs.contends q hq)
  have hqp := hs.inv.window q p (hs.contends q hq) (hs.contends p hp)
  rw [hs.counted p, hs.counted q, heq p q hp hq] at hpq
  rw [hs.counted p, hs.counted q, heq p q hp hq] at hqp
  rw [hpass p hp, hpass q hq, abs_sub_le_iff]
  omega

/-- Process 1 sleeps after one pick and sets its priority to 2, process 2 to 5 after one. When
process 1 is woken both have the same stride. -/
theorem stride_share_two :
    ∃ k : Sched (Fin 3), runOps Sched.step (Sched.init 0)
      [.alloc 1, .wakeup 1, .schedule, .setPriority 2, .sleep, .alloc 2, .wakeup 2, .schedule,
        .setPriority 5, .wakeup 1] = some k ∧
      ∃ s, runOps step (start k) [.schedule, .tick, .schedule, .schedule] = some s ∧
        ∀ p q, k.Contends p → k.Contends q →
          |((s.picks p * (bigStride / (k.proc p).lab6Priority) : ℕ) : ℤ) -
            (s.picks q * (bigStride / (k.proc q).lab6Priority) : ℕ)| ≤ bigStride := by
  obtain ⟨k, hk⟩ := Option.isSome_iff_exists.mp (by decide +kernel :
    (runOps Sched.step (Sched.init (0 : Fin 3))
      [.alloc 1, .wakeup 1, .schedule, .setPriority 2, .sleep, .alloc 2, .wakeup 2, .schedule,
        .setPriority 5, .wakeup 1]).isSome = true)
  have hfacts : (∀ p q, k.Contends p → k.Contends q →
      (k.proc p).lab6Stride = (k.proc q).lab6Stride) ∧
      ∀ p, k.Contends p →
        1 ≤ (k.proc p).lab6Priority ∧ (k.proc p).lab6Priority ≤ bigStride := by
    have hsome : some k = some _ := hk.symm
    rw [Option.some.inj hsome]
    decide +kernel
  exact ⟨k, hk, stride_share hk hfacts.1 hfacts.2 (by decide)⟩

end Traced
end Ucore.Schedule
