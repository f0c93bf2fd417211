import Mathlib.Data.Fintype.Basic
import Ucore.Library.Run
import Ucore.Schedule.StrideWindow

/-!
Runs of the stride scheduler. As long as every process that is woken joins near those that
wait, each pick takes a smallest stride. `alloc_proc` starts a process at stride 0, and one
that sleeps keeps its stride: when the others are far ahead it falls out of the window, and
past the middle of the 32-bit range the comparator turns round.
-/
namespace Ucore.Schedule

open Libs Library

namespace Traced

variable {P : Type*} [DecidableEq P] {s : Traced P} {p q : P}

instance (s : Traced P) (p q : P) : Decidable (s.Near p q) :=
  inferInstanceAs (Decidable (_ ∧ _))

instance [Fintype P] (s : Traced P) (ev : Event P) : Decidable (s.Joins ev) :=
  match ev with
  | .wakeup p => inferInstanceAs (Decidable (_ ≠ _ → ∀ q, s.sched.Contends q → s.Near p q))
  | .alloc _ | .sleep | .exit | .reap _ | .setPriority _ | .tick | .schedule => isTrue trivial

/-- In a run that wakes every process near those that wait, each pick takes a process with a
smallest unwrapped stride. -/
theorem picks_smallest {idleproc : P} {evs : List (Event P)}
    (hjoin : RunMeets step Joins (start (Sched.init idleproc)) evs)
    (hrun : runOps step (start (Sched.init idleproc)) evs = some s) : s.PicksSmallest := by
  have hinv : s.Inv :=
    runOps_invariant_of_meets (fun _ _ _ h hj hs => h.step hj hs) (init_inv idleproc) hjoin hrun
  exact hinv.picksSmallest

/-- Two new processes join and are picked in turn. -/
theorem picks_smallest_two :
    ∃ s, runOps step (start (Sched.init (0 : Fin 3)))
      [.alloc 1, .wakeup 1, .alloc 2, .wakeup 2, .schedule, .schedule] = some s ∧
      s.PicksSmallest := by
  obtain ⟨s, hs⟩ := Option.isSome_iff_exists.mp (by decide +kernel :
    (runOps step (start (Sched.init (0 : Fin 3)))
      [.alloc 1, .wakeup 1, .alloc 2, .wakeup 2, .schedule, .schedule]).isSome = true)
  exact ⟨s, hs, picks_smallest (by decide +kernel) hs⟩

/-- Process `p` is the only one that wants the processor, with priority 1. -/
structure Lone (s : Traced P) (p : P) (m : ℕ) : Prop where
  inv : s.Inv
  only : ∀ q, s.sched.Contends q ↔ q = p
  priority : (s.sched.proc p).lab6Priority = 1
  unwrapped : s.unwrapped p = m * bigStride

theorem Lone.step {m : ℕ} (h : s.Lone p m) :
    ∃ s', s.step .schedule = some s' ∧ s'.Lone p (m + 1) ∧
      s'.sched.allocated = s.sched.allocated := by
  obtain ⟨k', hrun, -, hsch, hnone, hsome⟩ :=
    Sched.schedule_spec h.inv.shape (fun _ _ _ hxy hyz => hxy.trans hyz) h.inv.decided
  obtain ⟨k'', hrun', hinv⟩ := h.inv.schedule
  have heq : k'' = k' := Option.some.inj (hrun'.symm.trans hrun)
  rw [heq] at hinv
  have hp : s.sched.Contends p := (h.only p).mpr rfl
  have hpick : s.sched.pickOf = some p := by
    cases hc : s.sched.pickOf with
    | none => exact absurd hp (hnone hc p)
    | some r => rw [(h.only r).mp (hsome r hc).1]
  rw [hpick] at hsch
  refine ⟨s.record k' .schedule, ?_, ⟨hinv, ?_, ?_, ?_⟩, ?_⟩
  · rw [Traced.step, Sched.step, hrun, Option.map_some]
  · intro q
    rw [record_some hpick]
    constructor
    · intro hq
      rcases hq with hq | hq
      · exact (h.only q).mp ((hsch.queued q).mp hq).1
      · exact hq.1.trans hsch.current
    · intro hq
      have hready := h.inv.shape.contends_ready hp
      refine Or.inr ⟨hq.trans hsch.current.symm, ?_, ?_⟩
      · exact fun heq => hready.2.1 ((hq.symm.trans heq).trans hsch.idleproc)
      · rw [hq]
        exact (hsch.state p).trans hready.1
  · rw [record_some hpick]
    exact (hsch.priority p).trans h.priority
  · have hpass : (s.sched.proc p).pass = bigStride := by
      rw [ProcStruct.pass, h.priority]
      exact Nat.div_one _
    rw [record_some hpick]
    simp only [Function.update_self, hpass, h.unwrapped]
    ring
  · rw [record_some hpick]
    exact hsch.allocated

theorem Lone.run {m : ℕ} (h : s.Lone p m) (n : ℕ) :
    ∃ s', runOps Traced.step s (List.replicate n .schedule) = some s' ∧ s'.Lone p (m + n) ∧
      s'.sched.allocated = s.sched.allocated := by
  induction n generalizing s m with
  | zero => exact ⟨s, rfl, h, rfl⟩
  | succ n ih =>
    obtain ⟨s₁, hstep, h₁, halloc₁⟩ := h.step
    obtain ⟨s', hrun, h', halloc⟩ := ih h₁
    refine ⟨s', ?_, ?_, halloc.trans halloc₁⟩
    · rw [List.replicate_succ, runOps, hstep, Option.bind_some, hrun]
    · rw [Nat.add_right_comm] at h'
      exact h'

/-- A process arrives when the only other one has been picked 2148 times. -/
def lateArrival : List (Event (Fin 3)) :=
  [.alloc 1, .wakeup 1] ++ List.replicate 2148 .schedule ++ [.alloc 2, .wakeup 2]

theorem lone_start : ∃ s, runOps Traced.step (start (Sched.init (0 : Fin 3)))
    [.alloc 1, .wakeup 1] = some s ∧ s.Lone 1 0 ∧ s.sched.allocated 2 = false := by
  obtain ⟨s, hs⟩ := Option.isSome_iff_exists.mp (by decide +kernel :
    (runOps step (start (Sched.init (0 : Fin 3))) [.alloc 1, .wakeup 1]).isSome = true)
  have hinv : s.Inv := runOps_invariant_of_meets (fun _ _ _ h hj hs => h.step hj hs)
    (init_inv (0 : Fin 3)) (by decide +kernel) hs
  have hfacts : ((∀ q, s.sched.Contends q ↔ q = 1) ∧ (s.sched.proc 1).lab6Priority = 1 ∧
      s.unwrapped 1 = 0 ∧ s.sched.allocated 2 = false) := by
    have hsome : some s = some _ := hs.symm
    rw [Option.some.inj hsome]
    decide +kernel
  exact ⟨s, hs, ⟨hinv, hfacts.1, hfacts.2.1, hfacts.2.2.1⟩, hfacts.2.2.2⟩

/-- With its stride past the middle of the 32-bit range, the old process looks smaller than
a new one with stride 0. -/
theorem Lone.passed_over {m : ℕ} (h : s.Lone p m) (hm : 2 ^ 31 < m * bigStride)
    (hm' : m * bigStride < 2 ^ 32) (hq : s.sched.allocated q = false) :
    ∃ s', runOps Traced.step s [.alloc q, .wakeup q] = some s' ∧ ¬ s'.PicksSmallest := by
  obtain ⟨k, u, n⟩ := s
  obtain ⟨k₁, hk₁⟩ : ∃ k₁, k₁ = k.allocProc q := ⟨_, rfl⟩
  have hinv : Inv ⟨k₁, Function.update u q 0, n⟩ := hk₁ ▸ h.inv.allocProc hq
  have hpq : p ≠ q := fun heq =>
    h.inv.shape.not_contends hq ((h.only q).mpr heq.symm)
  have honly : ∀ x, k₁.Contends x ↔ x = p := by
    intro x
    rw [hk₁, h.inv.shape.contends_allocProc hq, h.only x]
    exact and_iff_left_of_imp fun heq => heq ▸ hpq
  have hfree : k₁.proc q = freshProc := by rw [hk₁, Sched.allocProc_proc_self]
  have hu : Function.update u q 0 p = m * bigStride :=
    (Function.update_of_ne hpq _ _).trans h.unwrapped
  have hu0 : Function.update u q 0 q = 0 := Function.update_self _ _ _
  have hstride : ∀ x, (k₁.proc x).lab6Stride = uint32 (Function.update u q 0 x) := hinv.carried
  -- the signed difference puts the old process below the new one
  have hbelow : procStrideCompF k₁.proc p q = -1 := by
    simp only [procStrideCompF, int32, Int.bmod_def, hstride, hu, hu0, uint32]
    push_cast
    omega
  have habove : procStrideCompF k₁.proc q p = 1 := by
    simp only [procStrideCompF, int32, Int.bmod_def, hstride, hu, hu0, uint32]
    push_cast
    omega
  have htrans : ∀ x y z, (x = p ∨ y = q) → (y = p ∨ z = q) → (x = p ∨ z = q) := by
    intro x y z hxy hyz
    rcases hxy with hx | hy
    · exact Or.inl hx
    · rcases hyz with hy' | hz
      · exact absurd (hy'.symm.trans hy) hpq
      · exact Or.inr hz
  have hdec : Sched.Decided k₁.proc (fun x y => x = p ∨ y = q) (fun x => x = p ∨ x = q) := by
    intro x hx y hy
    rcases hx with hx | hx
    · exact ⟨fun _ => Or.inl hx, fun hne => hy.imp_right fun hy => absurd (hx ▸ hy ▸ hbelow) hne⟩
    · rcases hy with hy | hy
      · refine ⟨fun heq => ?_, fun _ => Or.inl hy⟩
        rw [hx, hy, habove] at heq
        cases heq
      · exact ⟨fun _ => Or.inr hy, fun _ => Or.inr hx⟩
  have hshape : k₁.Shape (fun x y => x = p ∨ y = q) :=
    { hinv.shape with
      queue := hinv.shape.queue.congr (fun _ _ => rfl) rfl (fun _ => rfl)
        fun x _ hx _ _ => Or.inl ((honly x).mp (Or.inl hx)) }
  have ha : k₁.allocated q = true := by
    rw [hk₁]
    exact Function.update_self _ _ _
  obtain ⟨k₂, hrun₂, hshape₂, hwoken⟩ := Sched.wakeupProc_spec hshape htrans ha
    (by rw [hfree]; exact ProcState.noConfusion) (by rw [hfree]; exact ProcState.noConfusion)
    (hdec.congr (fun x hx => hx.imp_left fun hx => (honly x).mp (Or.inl hx)) (fun _ _ => rfl))
  have hcont₂ : ∀ x, k₂.Contends x ↔ x = p ∨ x = q := fun x => by
    rw [hwoken.contends x, honly x]
  obtain ⟨k₃, hrun₃, ⟨t, ht, hord⟩, hback⟩ := Sched.putBack_spec hshape₂ htrans
    (hdec.congr (fun x hx => (hcont₂ x).mp hx) (fun x _ => hwoken.stride x))
  have hmem : ∀ x, x ∈ LinkedTree.members t ↔ x = p ∨ x = q := fun x => by
    rw [ht.queued x, hback.queued x, hcont₂ x]
  refine ⟨⟨k₂, Function.update u q 0, n⟩, ?_, ?_⟩
  · have hstep₁ : Traced.step ⟨k, u, n⟩ (.alloc q) = some ⟨k₁, Function.update u q 0, n⟩ := by
      have hfree' : k.allocated q = false := hq
      simp only [Traced.step, Sched.step, hfree', Bool.false_eq_true, if_false, Option.map_some,
        record, hk₁]
    have hstep₂ : Traced.step ⟨k₁, Function.update u q 0, n⟩ (.wakeup q) =
        some ⟨k₂, Function.update u q 0, n⟩ := by
      simp only [Traced.step, Sched.step, ha, if_true, hrun₂, Option.map_some, record]
    rw [runOps, hstep₁, Option.bind_some, runOps, hstep₂]
    rfl
  · intro hpicks
    obtain ⟨k', hk', -, hleast⟩ := hpicks
    have heq : k' = k₃ := Option.some.inj (hk'.symm.trans hrun₃)
    have htop : LinkedTree.root t = some p := by
      cases hr : LinkedTree.root t with
      | none =>
        have hin := (hmem p).mpr (Or.inl rfl)
        rw [LinkedTree.root_eq_none_iff.mp hr] at hin
        cases hin
      | some r =>
        rcases (hmem r).mp (LinkedTree.root_mem hr) with hrp | hrq
        · rw [hrp]
        · have hle := hord.root_le hr ((hmem p).mpr (Or.inl rfl)) (fun heq => hpq (heq.trans hrq))
          rcases hle with heq | heq
          · exact absurd (heq.symm.trans hrq) hpq
          · exact absurd heq hpq
    rw [heq] at hleast
    have hpick : k₃.stridePickNext.2 = some p := by
      rw [stridePickNext_snd, ht.pool, htop]
    have hle : Function.update u q 0 p ≤ Function.update u q 0 q :=
      (hleast p hpick).2 q ((ht.queued q).mp ((hmem q).mpr (Or.inr rfl)))
    rw [hu, hu0] at hle
    omega

/-- The new process waits, and the old one is picked for the 2149th time. -/
theorem late_arrival_passed_over :
    ∃ s, runOps Traced.step (start (Sched.init (0 : Fin 3))) lateArrival = some s ∧
      ¬ s.PicksSmallest := by
  obtain ⟨s₀, hrun₀, hlone₀, hfree₀⟩ := lone_start
  obtain ⟨s₁, hrun₁, hlone₁, halloc₁⟩ := hlone₀.run 2148
  obtain ⟨s₂, hrun₂, hnot⟩ := hlone₁.passed_over (by decide) (by decide)
    ((congrFun halloc₁ 2).trans hfree₀)
  refine ⟨s₂, ?_, hnot⟩
  rw [lateArrival, runOps_append, runOps_append, hrun₀, Option.bind_some, hrun₁,
    Option.bind_some, hrun₂]

end Traced
end Ucore.Schedule
