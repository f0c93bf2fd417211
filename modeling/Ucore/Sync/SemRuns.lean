import Ucore.Library.Headcount
import Ucore.Library.Run
import Ucore.Sync.Sem

/-!
Any number of processes that call `up`, `down` and `try_down`, sleep and are killed in any
order. The accounts of every semaphore are right in all states reached, and no assertion
fails.
-/
namespace Ucore.Sync

open Library

/-- The semaphores with what happened so far: the completed calls of `up`, those of `down`
and `try_down` that got a unit, who went to sleep in `down` and who was taken off the queue,
in order; and who is between a `down` and an `up`. -/
structure SemRun (P S : Type*) where
  sems : Sems P S
  ups : S → ℕ
  downs : S → ℕ
  arrived : S → List P
  left : S → List P
  inside : S → List P

inductive SemOp (P S : Type*) where
  | up (p : P) (s : S)
  | down (p : P) (s : S)
  | tryDown (p : P) (s : S)
  | resume (p : P)
  | kill (p : P)
  | sleep (p : P)
  | timer (p : P)

variable {P S : Type*} [DecidableEq P] [DecidableEq S]

namespace SemRun

/-- A process has got a unit. -/
def got (x : SemRun P S) (p : P) (s : S) : SemRun P S :=
  { x with
    downs := Function.update x.downs s (x.downs s + 1)
    inside := Function.update x.inside s (p :: x.inside s) }

/-- A process may call when it is in no call that sleeps, and may go on when it is runnable. -/
def Enabled (x : SemRun P S) : SemOp P S → Prop
  | .up p _ => x.sems.place p = .outside
  | .down p _ => x.sems.place p = .outside
  | .tryDown p _ => x.sems.place p = .outside
  | .resume p => x.sems.place p ≠ .outside ∧ (x.sems.proc p).state = .runnable
  | .kill _ => True
  | .sleep p => x.sems.place p = .outside
  | .timer p => x.sems.place p = .inSleep

/-- One stretch with the interrupts off; `none` is a failed assertion. -/
def step (x : SemRun P S) : SemOp P S → Option (SemRun P S)
  | .up p s => (x.sems.up s).map (fun sems => { x with
      sems := sems
      ups := Function.update x.ups s (x.ups s + 1)
      left := Function.update x.left s (x.left s ++ (x.sems.sem s).queue.take 1)
      inside := Function.update x.inside s ((x.inside s).erase p) })
  | .down p s =>
    let x' := { x with sems := x.sems.downStart p s }
    some (if 0 < (x.sems.sem s).value then x'.got p s
      else { x' with arrived := Function.update x.arrived s (x.arrived s ++ [p]) })
  | .tryDown p s =>
    let r := x.sems.tryDown s
    let x' := { x with sems := r.1 }
    some (if r.2 = true then x'.got p s else x')
  | .resume p =>
    match x.sems.place p with
    | .outside => some x
    | .inDown s => (x.sems.downEnd p s).map (fun sems => { x with sems := sems }.got p s)
    | .inSleep => some { x with sems := x.sems.setPlace p .outside }
  | .kill p => some { x with sems := { x.sems with proc := doKill x.sems.proc p } }
  | .sleep p => some { x with sems := x.sems.sleepStart p }
  | .timer p => some { x with sems := { x.sems with proc := wakeupProc x.sems.proc p } }

def init (v0 : S → ℤ) : SemRun P S where
  sems := Sems.init v0
  ups := fun _ => 0
  downs := fun _ => 0
  arrived := fun _ => []
  left := fun _ => []
  inside := fun _ => []

/-- A process that was taken off the queue and has not gone on: a unit was handed to it. -/
def Handed (x : SemRun P S) (s : S) (p : P) : Prop :=
  x.sems.place p = .inDown s ∧ p ∉ (x.sems.sem s).queue

/-- The accounts of a semaphore that started with `v0` units. -/
structure Accounts (v0 : ℤ) (x : SemRun P S) (s : S) : Prop where
  nonneg : 0 ≤ (x.sems.sem s).value
  idle : 0 < (x.sems.sem s).value → (x.sems.sem s).queue = []
  units : Headcount (x.Handed s) (v0 + x.ups s - x.downs s - (x.sems.sem s).value)
  fifo : x.arrived s = x.left s ++ (x.sems.sem s).queue

/-- Callers that pair `down` with `up` on a semaphore. -/
def Paired (s : S) (x : SemRun P S) : SemOp P S → Prop
  | .up p t => t = s → p ∈ x.inside s
  | .down p t => t = s → p ∉ x.inside s
  | .tryDown p t => t = s → p ∉ x.inside s
  | _ => True

structure Inv (v0 : S → ℤ) (x : SemRun P S) : Prop where
  sound : x.sems.Sound
  accounts : ∀ s, Accounts (v0 s) x s

variable {v0 : S → ℤ} {x : SemRun P S}

omit [DecidableEq P] [DecidableEq S] in
theorem inv_init (hv0 : ∀ s, 0 ≤ v0 s) : Inv v0 (init v0 : SemRun P S) := by
  refine ⟨Sems.sound_init hv0, ?_⟩
  · intro s
    refine ⟨hv0 s, fun _ => rfl, ?_, rfl⟩
    have hnone : Headcount ((init v0 : SemRun P S).Handed s) 0 := by
      apply Headcount.zero
      intro p hp
      cases hp.1
    convert hnone using 1
    simp only [init, Sems.init]
    omega

omit [DecidableEq P] [DecidableEq S] in
/-- The accounts of a semaphore that a step does not concern. -/
theorem Accounts.congr {x' : SemRun P S} {v : ℤ} {s : S} (h : Accounts v x s)
    (hsem : x'.sems.sem s = x.sems.sem s) (hups : x'.ups s = x.ups s)
    (hdowns : x'.downs s = x.downs s) (harrived : x'.arrived s = x.arrived s)
    (hleft : x'.left s = x.left s)
    (hplace : ∀ p, x'.sems.place p = .inDown s ∧ p ∉ (x.sems.sem s).queue ↔
      x.sems.place p = .inDown s ∧ p ∉ (x.sems.sem s).queue) : Accounts v x' s := by
  refine ⟨?_, ?_, ?_, ?_⟩
  · rw [hsem]
    exact h.nonneg
  · rw [hsem]
    exact h.idle
  · rw [hups, hdowns, hsem]
    apply h.units.congr
    intro p
    unfold Handed
    rw [hsem, hplace p]
  · rw [harrived, hleft, hsem]
    exact h.fifo

/-- `up` keeps the accounts. -/
theorem Inv.up (h : Inv v0 x) (p : P) (s : S) :
    ∃ x', x.step (.up p s) = some x' ∧ Inv v0 x' := by
  obtain ⟨sems, hup, hsound, hplace, hsem⟩ := h.sound.up s
  refine ⟨_, by rw [step, hup]; rfl, hsound, ?_⟩
  intro t
  by_cases ht : t = s
  · subst ht
    have hunits := (h.accounts t).units
    have hfifo := (h.accounts t).fifo
    have hnonneg := (h.accounts t).nonneg
    rcases hq : (x.sems.sem t).queue with _ | ⟨q, rest⟩
    · have hnew : sems.sem t = ⟨(x.sems.sem t).value + 1, []⟩ := by
        rw [hsem, Function.update_self, Semaphore.up, hq]
      refine ⟨?_, ?_, ?_, ?_⟩
      · simp only [hnew]
        omega
      · simp only [hnew, implies_true]
      · have hsame : v0 t + ((x.ups t + 1 : ℕ) : ℤ) - x.downs t - ((x.sems.sem t).value + 1) =
            v0 t + x.ups t - x.downs t - (x.sems.sem t).value := by omega
        simp only [hnew, Function.update_self, hsame]
        apply hunits.congr
        intro r
        unfold Handed
        simp only [hplace, hnew, hq]
      · simp only [hnew, Function.update_self, hfifo, hq, List.take_nil, List.append_nil]
    · have hnew : sems.sem t = ⟨(x.sems.sem t).value, rest⟩ := by
        rw [hsem, Function.update_self, Semaphore.up, hq]
      have hvalue : (x.sems.sem t).value = 0 := by
        have hidle := (h.accounts t).idle
        rw [hq] at hidle
        by_contra hne
        exact List.cons_ne_nil _ _ (hidle (by omega))
      have hqplace := (h.sound.queued t q (by rw [hq]; exact List.mem_cons_self)).1
      have hqnodup := h.sound.nodup t
      rw [hq] at hqnodup
      have hnot := (List.nodup_cons.mp hqnodup).1
      refine ⟨?_, ?_, ?_, ?_⟩
      · simp only [hnew]
        omega
      · simp only [hnew]
        omega
      · have hsame : v0 t + ((x.ups t + 1 : ℕ) : ℤ) - x.downs t - (x.sems.sem t).value =
            v0 t + x.ups t - x.downs t - (x.sems.sem t).value + 1 := by omega
        simp only [hnew, Function.update_self, hsame]
        refine @Headcount.add _ _ _ _ q hunits ?_ ?_
        · intro hhanded
          have hout := hhanded.2
          rw [hq] at hout
          exact hout List.mem_cons_self
        · intro r
          unfold Handed
          simp only [hplace, hnew, hq, List.mem_cons, not_or]
          by_cases hr : r = q
          · simp only [hr, hqplace, hnot, not_false_eq_true, true_or, and_self]
          · simp only [hr, false_or, not_false_eq_true, true_and]
      · simp only [hnew, Function.update_self, hfifo, hq, List.take_succ_cons, List.take_zero,
          List.append_assoc, List.singleton_append]
  · apply (h.accounts t).congr
    · rw [hsem, Function.update_of_ne ht]
    · simp only [Function.update_of_ne ht]
    · rfl
    · rfl
    · simp only [Function.update_of_ne ht]
    · intro q
      rw [hplace]

omit [DecidableEq P] [DecidableEq S] in
/-- A unit that is in `value` is taken. -/
theorem Accounts.take {v : ℤ} {s : S} (h : Accounts v x s) (hv : 0 < (x.sems.sem s).value)
    {x' : SemRun P S} (hsem : x'.sems.sem s = ⟨(x.sems.sem s).value - 1, (x.sems.sem s).queue⟩)
    (hups : x'.ups s = x.ups s) (hdowns : x'.downs s = x.downs s + 1)
    (harrived : x'.arrived s = x.arrived s) (hleft : x'.left s = x.left s)
    (hplace : x'.sems.place = x.sems.place) : Accounts v x' s := by
  refine ⟨?_, ?_, ?_, ?_⟩
  · rw [hsem]
    simp only
    omega
  · rw [hsem]
    exact fun _ => h.idle hv
  · have hsame : v + x.ups s - ((x.downs s + 1 : ℕ) : ℤ) - ((x.sems.sem s).value - 1) =
        v + x.ups s - x.downs s - (x.sems.sem s).value := by omega
    rw [hups, hdowns, hsem]
    simp only [hsame]
    apply h.units.congr
    intro p
    unfold Handed
    rw [hsem, hplace]
  · rw [harrived, hleft, hsem]
    exact h.fifo

theorem Inv.down (h : Inv v0 x) {p : P} (hp : x.sems.place p = .outside) (s : S) :
    ∃ x', x.step (.down p s) = some x' ∧ Inv v0 x' := by
  have hsound := h.sound.downStart hp s
  rcases Sems.downStart_eq x.sems p s with ⟨hv, hplace, hsem⟩ | ⟨hv, hplace, hsem⟩
  · refine ⟨_, by rw [step, if_pos hv], hsound, ?_⟩
    intro t
    by_cases ht : t = s
    · subst ht
      apply (h.accounts t).take hv
      · simp only [got, hsem, Function.update_self]
      · rfl
      · simp only [got, Function.update_self]
      · rfl
      · rfl
      · exact hplace
    · apply (h.accounts t).congr
      · simp only [got, hsem, Function.update_of_ne ht]
      · rfl
      · simp only [got, Function.update_of_ne ht]
      · rfl
      · rfl
      · intro q
        simp only [got, hplace]
  · refine ⟨_, by rw [step, if_neg hv], hsound, ?_⟩
    intro t
    by_cases ht : t = s
    · subst ht
      refine ⟨?_, ?_, ?_, ?_⟩
      · simp only [hsem, Function.update_self]
        exact (h.accounts t).nonneg
      · simp only [hsem, Function.update_self]
        exact fun hpos => absurd hpos hv
      · simp only [hsem, Function.update_self]
        apply (h.accounts t).units.congr
        intro q
        unfold Handed
        simp only [hsem, hplace, Function.update_self, List.mem_append, List.mem_singleton, not_or]
        by_cases hq : q = p
        · simp only [hq, hp, reduceCtorEq, false_and, not_true_eq_false, and_false]
        · simp only [Function.update_of_ne hq, hq, not_false_eq_true, and_true]
      · simp only [hsem, Function.update_self, (h.accounts t).fifo, List.append_assoc]
    · apply (h.accounts t).congr
      · simp only [hsem, Function.update_of_ne ht]
      · rfl
      · rfl
      · simp only [Function.update_of_ne ht]
      · rfl
      · intro q
        simp only [hplace]
        by_cases hq : q = p
        · have hst : ¬ s = t := fun heq => ht heq.symm
          simp only [hq, Function.update_self, hp, Place.inDown.injEq, hst, reduceCtorEq]
        · simp only [Function.update_of_ne hq]

theorem Inv.tryDown (h : Inv v0 x) (p : P) (s : S) :
    ∃ x', x.step (.tryDown p s) = some x' ∧ Inv v0 x' := by
  have hsound := h.sound.tryDown s
  refine ⟨_, rfl, ?_⟩
  unfold Sems.tryDown at hsound ⊢
  by_cases hv : 0 < (x.sems.sem s).value
  · simp only [hv, if_true] at hsound ⊢
    refine ⟨hsound, ?_⟩
    intro t
    by_cases ht : t = s
    · subst ht
      apply (h.accounts t).take hv
      · simp only [got, Sems.setValue, Function.update_self]
      · rfl
      · simp only [got, Function.update_self]
      · rfl
      · rfl
      · rfl
    · apply (h.accounts t).congr
      · simp only [got, Sems.setValue, Function.update_of_ne ht]
      · rfl
      · simp only [got, Function.update_of_ne ht]
      · rfl
      · rfl
      · intro q
        exact Iff.rfl
  · simp only [hv, if_false, Bool.false_eq_true]
    exact ⟨h.sound, h.accounts⟩

/-- A process that was handed a unit goes on. -/
theorem Inv.leave (h : Inv v0 x) {p : P} {s : S} (hp : x.sems.place p = .inDown s)
    (hrun : (x.sems.proc p).state = .runnable) :
    ∃ x', x.step (.resume p) = some x' ∧ Inv v0 x' := by
  have hq := (h.sound.runnable_iff hp).mp hrun
  obtain ⟨sems, hend, hsound, hplace, hsem⟩ := h.sound.downEnd hp hq
  refine ⟨_, by simp only [step, hp, hend, Option.map_some]; rfl, hsound, ?_⟩
  intro t
  by_cases ht : t = s
  · subst ht
    refine ⟨?_, ?_, ?_, ?_⟩
    · simp only [got, hsem]
      exact (h.accounts t).nonneg
    · simp only [got, hsem]
      exact (h.accounts t).idle
    · have hsame : v0 t + x.ups t - ((x.downs t + 1 : ℕ) : ℤ) - (x.sems.sem t).value =
          v0 t + x.ups t - x.downs t - (x.sems.sem t).value - 1 := by omega
      simp only [got, hsem, Function.update_self, hsame]
      refine @Headcount.remove _ _ _ _ p _ (h.accounts t).units ⟨hp, hq⟩ ?_
      intro q
      unfold Handed
      simp only [hsem, hplace]
      by_cases hqp : q = p
      · simp only [hqp, ne_eq, not_true_eq_false, false_and, Function.update_self, reduceCtorEq]
      · simp only [hqp, ne_eq, not_false_eq_true, true_and, Function.update_of_ne hqp]
    · simp only [got, hsem]
      exact (h.accounts t).fifo
  · apply (h.accounts t).congr
    · simp only [got, hsem]
    · rfl
    · simp only [got, Function.update_of_ne ht]
    · rfl
    · rfl
    · intro q
      simp only [got, hplace]
      by_cases hqp : q = p
      · have hst : ¬ s = t := fun heq => ht heq.symm
        simp only [hqp, Function.update_self, hp, Place.inDown.injEq, hst, reduceCtorEq]
      · simp only [Function.update_of_ne hqp]

omit [DecidableEq P] [DecidableEq S] in
/-- A step that changes neither a semaphore nor who is in `down`. -/
theorem Inv.of_sems (h : Inv v0 x) {sems : Sems P S} (hsound : sems.Sound)
    (hsem : sems.sem = x.sems.sem)
    (hplace : ∀ p s, sems.place p = .inDown s ↔ x.sems.place p = .inDown s) :
    Inv v0 { x with sems := sems } := by
  refine ⟨hsound, ?_⟩
  intro s
  apply (h.accounts s).congr
  · rw [hsem]
  · rfl
  · rfl
  · rfl
  · rfl
  · intro p
    simp only [hplace]

omit [DecidableEq P] [DecidableEq S] in
/-- Neither a kill nor a timer wakes a process in `down`. -/
theorem Inv.wake (h : Inv v0 x) {proc : P → Sleeper}
    (hdown : ∀ p s, x.sems.place p = .inDown s → (proc p).state = (x.sems.proc p).state ∧
      ((x.sems.proc p).waitState = wtKsem → (proc p).waitState = wtKsem) ∧
      (proc p).wakeupFlags = (x.sems.proc p).wakeupFlags)
    (houtside : ∀ p, x.sems.place p = .outside → (proc p).state = .runnable) :
    Inv v0 { x with sems := { x.sems with proc := proc } } := by
  refine h.of_sems (h.sound.of_proc ?_ ?_ houtside) rfl (fun _ _ => Iff.rfl)
  · intro s p hp
    obtain ⟨hplace, hsleep, hwait⟩ := h.sound.queued s p hp
    obtain ⟨hstate, hkeep, _⟩ := hdown p s hplace
    exact ⟨hstate.trans hsleep, hkeep hwait⟩
  · intro p s hplace hq
    obtain ⟨hrun, hflags⟩ := h.sound.woken p s hplace hq
    obtain ⟨hstate, _, hsame⟩ := hdown p s hplace
    exact ⟨hstate.trans hrun, hsame.trans hflags⟩

theorem Inv.kill (h : Inv v0 x) (p : P) :
    ∃ x', x.step (.kill p) = some x' ∧ Inv v0 x' := by
  refine ⟨_, rfl, h.wake ?_ ?_⟩
  · intro q s hq
    by_cases hqp : q = p
    · subst hqp
      by_cases hin : q ∈ (x.sems.sem s).queue
      · have hwait := (h.sound.queued s q hin).2.2
        obtain ⟨hstate, hkeep⟩ := doKill_of_ksem hwait
        exact ⟨hstate, fun _ => hkeep, doKill_wakeupFlags _ _ _⟩
      · have hrun := (h.sound.woken q s hq hin).1
        refine ⟨(doKill_runnable hrun).trans hrun.symm, ?_, doKill_wakeupFlags _ _ _⟩
        intro hwait
        exact (doKill_of_ksem hwait).2
    · rw [doKill_of_ne hqp]
      exact ⟨rfl, fun hwait => hwait, rfl⟩
  · intro q hq
    have hrun := h.sound.outside q hq
    by_cases hqp : q = p
    · subst hqp
      exact doKill_runnable hrun
    · rw [doKill_of_ne hqp]
      exact hrun

theorem Inv.timer (h : Inv v0 x) {p : P} (hp : x.sems.place p = .inSleep) :
    ∃ x', x.step (.timer p) = some x' ∧ Inv v0 x' := by
  refine ⟨_, rfl, h.wake ?_ ?_⟩
  · intro q s hq
    have hqp : q ≠ p := by
      intro heq
      rw [heq, hp] at hq
      cases hq
    rw [wakeupProc_of_ne hqp]
    exact ⟨rfl, fun hwait => hwait, rfl⟩
  · intro q hq
    have hqp : q ≠ p := by
      intro heq
      rw [heq, hp] at hq
      cases hq
    rw [wakeupProc_of_ne hqp]
    exact h.sound.outside q hq

theorem Inv.sleep (h : Inv v0 x) {p : P} (hp : x.sems.place p = .outside) :
    ∃ x', x.step (.sleep p) = some x' ∧ Inv v0 x' := by
  have hne : ∀ q s, x.sems.place q = .inDown s → q ≠ p := by
    intro q s hq heq
    rw [heq, hp] at hq
    cases hq
  refine ⟨_, rfl, h.of_sems ?_ rfl ?_⟩
  · unfold Sems.sleepStart
    refine ⟨?_, h.sound.nodup, ?_, ?_, h.sound.nonneg, h.sound.empty⟩
    · intro s q hq
      have hqp := hne q s (h.sound.queued s q hq).1
      simp only [Function.update_of_ne hqp]
      exact h.sound.queued s q hq
    · intro q s hplace hq
      by_cases hqp : q = p
      · subst hqp
        simp only [Function.update_self, reduceCtorEq] at hplace
      · simp only [Function.update_of_ne hqp] at hplace ⊢
        exact h.sound.woken q s hplace hq
    · intro q hout
      by_cases hqp : q = p
      · subst hqp
        simp only [Function.update_self, reduceCtorEq] at hout
      · simp only [Function.update_of_ne hqp] at hout ⊢
        exact h.sound.outside q hout
  · intro q s
    unfold Sems.sleepStart
    by_cases hqp : q = p
    · subst hqp
      simp only [Function.update_self, reduceCtorEq, hp]
    · simp only [Function.update_of_ne hqp]

/-- A process goes on behind `do_sleep`. -/
theorem Inv.awake (h : Inv v0 x) {p : P} (hp : x.sems.place p = .inSleep)
    (hrun : (x.sems.proc p).state = .runnable) :
    ∃ x', x.step (.resume p) = some x' ∧ Inv v0 x' := by
  have hne : ∀ q s, x.sems.place q = .inDown s → q ≠ p := by
    intro q s hq heq
    rw [heq, hp] at hq
    cases hq
  refine ⟨{ x with sems := x.sems.setPlace p .outside }, by simp only [step, hp], ?_⟩
  refine h.of_sems ?_ rfl ?_
  · unfold Sems.setPlace
    refine ⟨?_, h.sound.nodup, ?_, ?_, h.sound.nonneg, h.sound.empty⟩
    · intro s q hq
      have hqp := hne q s (h.sound.queued s q hq).1
      simp only [Function.update_of_ne hqp]
      exact h.sound.queued s q hq
    · intro q s hplace hq
      by_cases hqp : q = p
      · subst hqp
        simp only [Function.update_self, reduceCtorEq] at hplace
      · simp only [Function.update_of_ne hqp] at hplace
        exact h.sound.woken q s hplace hq
    · intro q hout
      by_cases hqp : q = p
      · exact hqp ▸ hrun
      · simp only [Function.update_of_ne hqp] at hout
        exact h.sound.outside q hout
  · intro q s
    unfold Sems.setPlace
    by_cases hqp : q = p
    · subst hqp
      simp only [Function.update_self, reduceCtorEq, hp]
    · simp only [Function.update_of_ne hqp]

/-- Every enabled step has a result, so no assertion fails, and keeps the accounts. -/
theorem Inv.step (h : Inv v0 x) {op : SemOp P S} (hop : x.Enabled op) :
    ∃ x', x.step op = some x' ∧ Inv v0 x' := by
  cases op with
  | up p s => exact h.up p s
  | down p s => exact h.down hop s
  | tryDown p s => exact h.tryDown p s
  | resume p =>
    obtain ⟨hplace, hrun⟩ := hop
    rcases hp : x.sems.place p with _ | s | _
    · exact absurd hp hplace
    · exact h.leave hp hrun
    · exact h.awake hp hrun
  | kill p => exact h.kill p
  | sleep p => exact h.sleep hop
  | timer p => exact h.timer hop

/-- What the pairing of the calls on a semaphore keeps. -/
theorem inside_step {x' : SemRun P S} {op : SemOp P S} {s : S}
    (hpaired : Paired s x op) (hx : ((x.inside s).length : ℤ) + x.ups s = x.downs s)
    (hstep : x.step op = some x') : ((x'.inside s).length : ℤ) + x'.ups s = x'.downs s := by
  have hgot : ∀ (y : SemRun P S) p t, ((y.inside s).length : ℤ) + y.ups s = y.downs s →
      (((y.got p t).inside s).length : ℤ) + (y.got p t).ups s = (y.got p t).downs s := by
    intro y p t hy
    unfold got
    by_cases ht : s = t
    · subst ht
      simp only [Function.update_self, List.length_cons]
      omega
    · simp only [Function.update_of_ne ht]
      exact hy
  cases op with
  | up p t =>
    rw [SemRun.step, Option.map_eq_some_iff] at hstep
    obtain ⟨sems, _, rfl⟩ := hstep
    by_cases ht : s = t
    · subst ht
      have hlen := List.length_erase_of_mem (hpaired rfl)
      have hpos := List.length_pos_of_mem (hpaired rfl)
      simp only [Function.update_self, hlen]
      omega
    · simp only [Function.update_of_ne ht]
      exact hx
  | down p t =>
    obtain rfl := Option.some.inj hstep
    by_cases hv : 0 < (x.sems.sem t).value
    · rw [if_pos hv]
      exact hgot _ p t hx
    · rw [if_neg hv]
      exact hx
  | tryDown p t =>
    obtain rfl := Option.some.inj hstep
    by_cases hv : (x.sems.tryDown t).2 = true
    · rw [if_pos hv]
      exact hgot _ p t hx
    · rw [if_neg hv]
      exact hx
  | resume p =>
    rcases hp : x.sems.place p with _ | t | _
    · simp only [SemRun.step, hp] at hstep
      obtain rfl := Option.some.inj hstep
      exact hx
    · simp only [SemRun.step, hp, Option.map_eq_some_iff] at hstep
      obtain ⟨sems, _, rfl⟩ := hstep
      exact hgot _ p t hx
    · simp only [SemRun.step, hp] at hstep
      obtain rfl := Option.some.inj hstep
      exact hx
  | kill p =>
    obtain rfl := Option.some.inj hstep
    exact hx
  | sleep p =>
    obtain rfl := Option.some.inj hstep
    exact hx
  | timer p =>
    obtain rfl := Option.some.inj hstep
    exact hx

end SemRun
end Ucore.Sync
