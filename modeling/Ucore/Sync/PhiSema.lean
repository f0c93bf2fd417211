import Ucore.Library.Run
import Ucore.Sync.Sem

/-!
The philosophers of `check_sync.c` with semaphores, on a ring of any size from three on.
-/
namespace Ucore.Sync

open Library

inductive PhiState where
  | thinking
  | hungry
  | eating
  deriving DecidableEq

section Ring

variable {k : ℕ}

/-- `LEFT` -/
def left (i : Fin (k + 3)) : Fin (k + 3) :=
  ⟨(i.val + (k + 3) - 1) % (k + 3), Nat.mod_lt _ (Nat.succ_pos _)⟩

/-- `RIGHT` -/
def right (i : Fin (k + 3)) : Fin (k + 3) :=
  ⟨(i.val + 1) % (k + 3), Nat.mod_lt _ (Nat.succ_pos _)⟩

theorem val_right (i : Fin (k + 3)) :
    (right i).val = if i.val + 1 = k + 3 then 0 else i.val + 1 := by
  have hi := i.isLt
  unfold right
  by_cases hlast : i.val + 1 = k + 3
  · simp only [hlast, Nat.mod_self, if_true]
  · simp only [hlast, if_false]
    exact Nat.mod_eq_of_lt (by omega)

theorem val_left (i : Fin (k + 3)) :
    (left i).val = if i.val = 0 then k + 2 else i.val - 1 := by
  have hi := i.isLt
  unfold left
  by_cases hfirst : i.val = 0
  · have hsum : 0 + (k + 3) - 1 = k + 2 := by omega
    simp only [hfirst, if_true, hsum]
    exact Nat.mod_eq_of_lt (by omega)
  · simp only [hfirst, if_false]
    have hsum : i.val + (k + 3) - 1 = i.val - 1 + (k + 3) := by omega
    rw [hsum, Nat.add_mod_right]
    exact Nat.mod_eq_of_lt (by omega)

theorem right_left (i : Fin (k + 3)) : right (left i) = i := by
  apply Fin.ext
  have hi := i.isLt
  rw [val_right, val_left]
  by_cases hfirst : i.val = 0
  · simp only [hfirst, if_true]
  · simp only [hfirst, if_false]
    have hlast : ¬ i.val - 1 + 1 = k + 3 := by omega
    rw [if_neg hlast]
    omega

theorem left_right (i : Fin (k + 3)) : left (right i) = i := by
  apply Fin.ext
  have hi := i.isLt
  rw [val_left, val_right]
  by_cases hlast : i.val + 1 = k + 3
  · simp only [hlast, if_true]
    omega
  · simp only [hlast, if_false]
    have hfirst : ¬ i.val + 1 = 0 := by omega
    rw [if_neg hfirst]
    omega

theorem right_ne (i : Fin (k + 3)) : right i ≠ i := by
  intro heq
  have hval := congrArg Fin.val heq
  rw [val_right] at hval
  by_cases hlast : i.val + 1 = k + 3
  · rw [if_pos hlast] at hval
    omega
  · rw [if_neg hlast] at hval
    omega

theorem left_ne (i : Fin (k + 3)) : left i ≠ i := by
  intro heq
  have hright := right_left i
  rw [heq] at hright
  exact right_ne i hright

/-- No two neighbours eat. -/
def Apart (state : Fin (k + 3) → PhiState) : Prop :=
  ∀ i, ¬ (state i = .eating ∧ state (right i) = .eating)

/-- The condition of `phi_test_sema` and `phi_test_condvar`. -/
def CanEat (state : Fin (k + 3) → PhiState) (i : Fin (k + 3)) : Prop :=
  state i = .hungry ∧ state (left i) ≠ .eating ∧ state (right i) ≠ .eating

instance (state : Fin (k + 3) → PhiState) (i : Fin (k + 3)) : Decidable (CanEat state i) :=
  inferInstanceAs (Decidable (_ ∧ _ ∧ _))

theorem Apart.update {state : Fin (k + 3) → PhiState} (h : Apart state) {i : Fin (k + 3)}
    {v : PhiState} (hv : v ≠ .eating) : Apart (Function.update state i v) := by
  have hold : ∀ j, Function.update state i v j = .eating → state j = .eating := by
    intro j hj
    by_cases hji : j = i
    · rw [hji, Function.update_self] at hj
      exact absurd hj hv
    · rwa [Function.update_of_ne hji] at hj
  intro j hj
  exact h j ⟨hold j hj.1, hold (right j) hj.2⟩

/-- Who passes the test may eat. -/
theorem Apart.eat {state : Fin (k + 3) → PhiState} (h : Apart state) {i : Fin (k + 3)}
    (hi : CanEat state i) : Apart (Function.update state i .eating) := by
  intro j hj
  by_cases hji : j = i
  · subst hji
    rw [Function.update_of_ne (right_ne j)] at hj
    exact hi.2.2 hj.2
  · by_cases hri : right j = i
    · have hleft : left i = j := by rw [← hri, left_right]
      rw [Function.update_of_ne hji] at hj
      exact hi.2.1 (hleft ▸ hj.1)
    · rw [Function.update_of_ne hji, Function.update_of_ne hri] at hj
      exact h j hj

end Ring

inductive PhiSem (k : ℕ) where
  | mutex
  | s (i : Fin (k + 3))
  deriving DecidableEq

/-- Where a philosopher is: what is done next, or the `down` that is slept in. -/
inductive SemaPc where
  | thinking
  | takeMutex
  | takeTest
  | takeUp
  | takeDown
  | takeSleep
  | eating
  | putMutex
  | putTestLeft
  | putTestRight
  | putUp
  deriving DecidableEq

structure PhiSema (k : ℕ) where
  sems : Sems (Fin (k + 3)) (PhiSem k)
  stateSema : Fin (k + 3) → PhiState
  pc : Fin (k + 3) → SemaPc

namespace PhiSema

variable {k : ℕ}

def setPc (x : PhiSema k) (i : Fin (k + 3)) (pc : SemaPc) : PhiSema k :=
  { x with pc := Function.update x.pc i pc }

def setState (x : PhiSema k) (i : Fin (k + 3)) (v : PhiState) : PhiSema k :=
  { x with stateSema := Function.update x.stateSema i v }

def up (x : PhiSema k) (s : PhiSem k) : Option (PhiSema k) :=
  (x.sems.up s).map (fun sems => { x with sems := sems })

/-- `down`: through to `after`, or asleep at `asleep`. -/
def down (x : PhiSema k) (i : Fin (k + 3)) (s : PhiSem k) (after asleep : SemaPc) : PhiSema k :=
  { x with sems := x.sems.downStart i s }.setPc i
    (if 0 < (x.sems.sem s).value then after else asleep)

/-- `down` behind `schedule`. -/
def downEnd (x : PhiSema k) (i : Fin (k + 3)) (s : PhiSem k) (after : SemaPc) :
    Option (PhiSema k) :=
  (x.sems.downEnd i s).map (fun sems => { x with sems := sems }.setPc i after)

def phiTestSema (x : PhiSema k) (i : Fin (k + 3)) : Option (PhiSema k) :=
  if CanEat x.stateSema i then (x.setState i .eating).up (.s i) else some x

/-- The next step of a philosopher; `none` is a failed assertion. `phi_take_forks_sema` and
`phi_put_forks_sema` are cut behind each operation on a semaphore. -/
def step (x : PhiSema k) (i : Fin (k + 3)) : Option (PhiSema k) :=
  match x.pc i with
  | .thinking => some (x.down i .mutex .takeTest .takeMutex)
  | .takeMutex => x.downEnd i .mutex .takeTest
  | .takeTest => ((x.setState i .hungry).setPc i .takeUp).phiTestSema i
  | .takeUp => (x.setPc i .takeDown).up .mutex
  | .takeDown => some (x.down i (.s i) .eating .takeSleep)
  | .takeSleep => x.downEnd i (.s i) .eating
  | .eating => some (x.down i .mutex .putTestLeft .putMutex)
  | .putMutex => x.downEnd i .mutex .putTestLeft
  | .putTestLeft => ((x.setState i .thinking).setPc i .putTestRight).phiTestSema (left i)
  | .putTestRight => (x.setPc i .putUp).phiTestSema (right i)
  | .putUp => (x.setPc i .thinking).up .mutex

/-- A philosopher that sleeps has to be woken first. -/
def Enabled (x : PhiSema k) (i : Fin (k + 3)) : Prop := (x.sems.proc i).state = .runnable

/-- All think; `check_sync` has initialised the semaphores. -/
def init (k : ℕ) : PhiSema k where
  sems := Sems.init (fun s => if s = .mutex then 1 else 0)
  stateSema := fun _ => .thinking
  pc := fun _ => .thinking

/-- The units of `s[i]` that are not consumed: its value, and one that was handed to the
philosopher while it slept. -/
def unconsumed (x : PhiSema k) (i : Fin (k + 3)) : ℤ :=
  (x.sems.sem (.s i)).value +
    if x.pc i = .takeSleep ∧ i ∉ (x.sems.sem (.s i)).queue then 1 else 0

structure Safe (x : PhiSema k) : Prop where
  apart : Apart x.stateSema
  returned : ∀ i, x.pc i = .eating → x.stateSema i = .eating
  units : ∀ i, x.unconsumed i ≤ 1

end PhiSema

/-- The `down` that a philosopher sleeps in. -/
def SemaPc.place {k : ℕ} (i : Fin (k + 3)) : SemaPc → Place (PhiSem k)
  | .takeMutex => .inDown .mutex
  | .takeSleep => .inDown (.s i)
  | .putMutex => .inDown .mutex
  | _ => .outside

/-- Between `down(&mutex)` and `up(&mutex)`. -/
def SemaPc.Critical : SemaPc → Prop
  | .takeTest => True
  | .takeUp => True
  | .putTestLeft => True
  | .putTestRight => True
  | .putUp => True
  | _ => False

/-- Asleep in `down(&mutex)`. -/
def SemaPc.AtMutex : SemaPc → Prop
  | .takeMutex => True
  | .putMutex => True
  | _ => False

/-- A philosopher is in the critical section, or was let in and has not gone on. -/
def HoldsMutex {k : ℕ} (m : Semaphore (Fin (k + 3))) (pc : Fin (k + 3) → SemaPc)
    (i : Fin (k + 3)) : Prop :=
  (pc i).Critical ∨ (pc i).AtMutex ∧ i ∉ m.queue

/-- One philosopher at most holds `mutex`, and none while it is free. -/
structure Exclusive {k : ℕ} (m : Semaphore (Fin (k + 3))) (pc : Fin (k + 3) → SemaPc) : Prop where
  one : m.value ≤ 1
  free : 0 < m.value → ∀ i, ¬ HoldsMutex m pc i
  unique : ∀ i j, HoldsMutex m pc i → HoldsMutex m pc j → i = j

namespace Exclusive

variable {k : ℕ} {m : Semaphore (Fin (k + 3))} {pc : Fin (k + 3) → SemaPc} {i : Fin (k + 3)}
  {c : SemaPc}

theorem holds_update_of_ne {m' : Semaphore (Fin (k + 3))} {j : Fin (k + 3)} (hj : j ≠ i)
    (hqueue : j ∈ m'.queue ↔ j ∈ m.queue) :
    HoldsMutex m' (Function.update pc i c) j ↔ HoldsMutex m pc j := by
  unfold HoldsMutex
  rw [Function.update_of_ne hj, hqueue]

/-- A step that has nothing to do with `mutex`. -/
theorem move (h : Exclusive m pc) (hcritical : c.Critical ↔ (pc i).Critical)
    (hmutex : c.AtMutex ↔ (pc i).AtMutex) : Exclusive m (Function.update pc i c) := by
  have hsame : ∀ j, HoldsMutex m (Function.update pc i c) j ↔ HoldsMutex m pc j := by
    intro j
    by_cases hj : j = i
    · unfold HoldsMutex
      rw [hj, Function.update_self, hcritical, hmutex]
    · exact holds_update_of_ne hj Iff.rfl
  refine ⟨h.one, ?_, ?_⟩
  · intro hv j
    rw [hsame]
    exact h.free hv j
  · intro j l hj hl
    exact h.unique j l ((hsame j).mp hj) ((hsame l).mp hl)

/-- `down` finds `mutex` free. -/
theorem take (h : Exclusive m pc) (hv : 0 < m.value) :
    Exclusive { m with value := m.value - 1 } (Function.update pc i c) := by
  have hone := h.one
  have honly : ∀ j, HoldsMutex { m with value := m.value - 1 } (Function.update pc i c) j → j = i := by
    intro j hj
    by_contra hne
    rw [holds_update_of_ne hne Iff.rfl] at hj
    exact h.free hv j hj
  refine ⟨?_, ?_, ?_⟩
  · simp only
    omega
  · simp only
    omega
  · intro j l hj hl
    rw [honly j hj, honly l hl]

/-- `down` does not find it free. -/
theorem sleep (h : Exclusive m pc) (hpc : ¬ (pc i).Critical ∧ ¬ (pc i).AtMutex)
    (hc : ¬ c.Critical) : Exclusive { m with queue := m.queue ++ [i] } (Function.update pc i c) := by
  have hsame : ∀ j, HoldsMutex { m with queue := m.queue ++ [i] } (Function.update pc i c) j →
      HoldsMutex m pc j := by
    intro j hj
    by_cases hji : j = i
    · subst hji
      rcases hj with hj | ⟨_, hj⟩
      · rw [Function.update_self] at hj
        exact absurd hj hc
      · exact absurd (List.mem_append_right _ List.mem_cons_self) hj
    · rw [holds_update_of_ne hji] at hj
      · exact hj
      · simp only [List.mem_append, List.mem_singleton, hji, or_false]
  refine ⟨h.one, ?_, ?_⟩
  · intro hv j hj
    exact h.free hv j (hsame j hj)
  · intro j l hj hl
    exact h.unique j l (hsame j hj) (hsame l hl)

/-- A philosopher that was let in goes on. -/
theorem wake (h : Exclusive m pc) (hpc : (pc i).AtMutex) (hi : i ∉ m.queue) :
    Exclusive m (Function.update pc i c) := by
  have hsame : ∀ j, HoldsMutex m (Function.update pc i c) j → HoldsMutex m pc j := by
    intro j hj
    by_cases hji : j = i
    · rw [hji]
      exact Or.inr ⟨hpc, hi⟩
    · rwa [holds_update_of_ne hji Iff.rfl] at hj
  refine ⟨h.one, ?_, ?_⟩
  · intro hv j hj
    exact h.free hv j (hsame j hj)
  · intro j l hj hl
    exact h.unique j l (hsame j hj) (hsame l hl)

/-- `up` at the end of the critical section lets the first in the queue in. -/
theorem release (h : Exclusive m pc) (hpc : (pc i).Critical)
    (hc : ¬ c.Critical ∧ ¬ c.AtMutex) (hnonneg : 0 ≤ m.value) :
    Exclusive m.up (Function.update pc i c) := by
  have hi : HoldsMutex m pc i := Or.inl hpc
  have hvalue : m.value = 0 := by
    by_contra hne
    exact h.free (by omega) i hi
  have hnot : ¬ HoldsMutex m.up (Function.update pc i c) i := by
    intro hbad
    unfold HoldsMutex at hbad
    rw [Function.update_self] at hbad
    rcases hbad with hbad | ⟨hbad, _⟩
    · exact hc.1 hbad
    · exact hc.2 hbad
  unfold Semaphore.up at hnot ⊢
  rcases hq : m.queue with _ | ⟨q, rest⟩
  · simp only [hq] at hnot ⊢
    have hnone : ∀ j, ¬ HoldsMutex ⟨m.value + 1, []⟩ (Function.update pc i c) j := by
      intro j hj
      by_cases hji : j = i
      · exact hnot (hji ▸ hj)
      · rw [@holds_update_of_ne k m pc i c ⟨m.value + 1, []⟩ j hji (by rw [hq])] at hj
        exact hji (h.unique j i hj hi)
    refine ⟨?_, fun _ => hnone, ?_⟩
    · simp only
      omega
    · intro j l hj
      exact absurd hj (hnone j)
  · simp only [hq] at hnot ⊢
    have honly : ∀ j, HoldsMutex ⟨m.value, rest⟩ (Function.update pc i c) j → j = q := by
      intro j hj
      by_contra hjq
      by_cases hji : j = i
      · exact hnot (hji ▸ hj)
      · rw [@holds_update_of_ne k m pc i c ⟨m.value, rest⟩ j hji
          (by rw [hq, List.mem_cons]; simp only [hjq, false_or])] at hj
        exact hji (h.unique j i hj hi)
    refine ⟨?_, ?_, ?_⟩
    · simp only
      omega
    · simp only
      omega
    · intro j l hj hl
      rw [honly j hj, honly l hl]

end Exclusive

namespace PhiSema

variable {k : ℕ}

/-- The entry of a philosopher, by where it is: `value` is that of `s[i]`, and `queued` says
that it sleeps there and was not woken. -/
def Entry (value : ℤ) (queued : Prop) (v : PhiState) : SemaPc → Prop
  | .thinking => value = 0 ∧ v = .thinking
  | .takeMutex => value = 0 ∧ v = .thinking
  | .takeTest => value = 0 ∧ v = .thinking
  | .takeUp => value = 0 ∧ v = .hungry ∨ value = 1 ∧ v = .eating
  | .takeDown => value = 0 ∧ v = .hungry ∨ value = 1 ∧ v = .eating
  | .takeSleep => value = 0 ∧ (queued ∧ v = .hungry ∨ ¬ queued ∧ v = .eating)
  | .eating => value = 0 ∧ v = .eating
  | .putMutex => value = 0 ∧ v = .eating
  | .putTestLeft => value = 0 ∧ v = .eating
  | .putTestRight => value = 0 ∧ v = .thinking
  | .putUp => value = 0 ∧ v = .thinking

structure Inv (x : PhiSema k) : Prop where
  sound : x.sems.Sound
  place : ∀ i, x.sems.place i = (x.pc i).place i
  mutex : Exclusive (x.sems.sem .mutex) x.pc
  apart : Apart x.stateSema
  entry : ∀ i, Entry (x.sems.sem (.s i)).value (i ∈ (x.sems.sem (.s i)).queue) (x.stateSema i)
    (x.pc i)

theorem inv_init (k : ℕ) : (init k).Inv := by
  refine ⟨Sems.sound_init ?_, fun _ => rfl, ⟨?_, ?_, ?_⟩, ?_, fun _ => ⟨rfl, rfl⟩⟩
  · intro s
    split
    · omega
    · omega
  · change (1 : ℤ) ≤ 1
    omega
  · intro _ i hi
    rcases hi with hi | hi
    · exact hi
    · exact hi.1
  · intro i j hi
    rcases hi with hi | hi
    · exact hi.elim
    · exact hi.1.elim
  · intro i hi
    cases hi.1

variable {x : PhiSema k} {i : Fin (k + 3)}

/-- One philosopher moves on, and perhaps its entry changes, between semaphore operations. -/
theorem Inv.move (h : x.Inv) {c : SemaPc} {v : PhiState}
    (hplace : c.place i = (x.pc i).place i)
    (hcritical : c.Critical ↔ (x.pc i).Critical) (hmutex : c.AtMutex ↔ (x.pc i).AtMutex)
    (hapart : Apart (Function.update x.stateSema i v))
    (hentry : Entry (x.sems.sem (.s i)).value (i ∈ (x.sems.sem (.s i)).queue) v c) :
    ((x.setState i v).setPc i c).Inv := by
  refine ⟨h.sound, ?_, h.mutex.move hcritical hmutex, hapart, ?_⟩
  · intro j
    unfold setPc setState
    by_cases hj : j = i
    · subst hj
      simp only [Function.update_self, h.place, hplace]
    · simp only [Function.update_of_ne hj]
      exact h.place j
  · intro j
    unfold setPc setState
    by_cases hj : j = i
    · subst hj
      simp only [Function.update_self]
      exact hentry
    · simp only [Function.update_of_ne hj]
      exact h.entry j

/-- Only the philosopher itself sleeps on its semaphore. -/
theorem Inv.mem_queue (h : x.Inv) {j : Fin (k + 3)} (hj : j ∈ (x.sems.sem (.s i)).queue) :
    j = i ∧ x.pc j = .takeSleep := by
  have hplace := (h.sound.queued (.s i) j hj).1
  rw [h.place] at hplace
  rcases hpc : x.pc j with _ | _ | _ | _ | _ | _ | _ | _ | _ | _ | _ <;> rw [hpc] at hplace
  case takeSleep => exact ⟨PhiSem.s.inj (Place.inDown.inj hplace), rfl⟩
  all_goals cases hplace

/-- `phi_test_sema` hands the philosopher a unit exactly when it may eat. -/
theorem Inv.phiTestSema (h : x.Inv) (j : Fin (k + 3)) :
    ∃ x', x.phiTestSema j = some x' ∧ x'.Inv := by
  unfold PhiSema.phiTestSema
  by_cases hcan : CanEat x.stateSema j
  · rw [if_pos hcan]
    obtain ⟨sems, hup, hsound, hplace, hsem⟩ := h.sound.up (.s j)
    have hmutex : sems.sem .mutex = x.sems.sem .mutex := by
      rw [hsem, Function.update_of_ne (fun heq => by cases heq)]
    refine ⟨{ x.setState j .eating with sems := sems }, ?_, hsound, ?_, ?_, h.apart.eat hcan, ?_⟩
    · unfold PhiSema.up
      rw [setState, hup]
      rfl
    · intro i
      exact (congrFun hplace i).trans (h.place i)
    · rw [hmutex]
      exact h.mutex
    · intro i
      have hold := h.entry i
      unfold setState
      by_cases hi : i = j
      · subst hi
        rw [hcan.1] at hold
        simp only [hsem, Function.update_self, Semaphore.up]
        rcases hq : (x.sems.sem (.s i)).queue with _ | ⟨q, rest⟩
        · rw [hq] at hold
          rcases hpc : x.pc i with _ | _ | _ | _ | _ | _ | _ | _ | _ | _ | _ <;> rw [hpc] at hold <;>
            simp only [Entry, reduceCtorEq, and_false, or_false, List.not_mem_nil,
              not_false_eq_true, and_true] at hold ⊢
          · omega
          · omega
        · obtain ⟨rfl, hpc⟩ := h.mem_queue (i := i) (j := q) (by rw [hq]; exact List.mem_cons_self)
          have hnodup := h.sound.nodup (.s q)
          rw [hq] at hnodup
          rw [hpc] at hold ⊢
          exact ⟨hold.1, Or.inr ⟨(List.nodup_cons.mp hnodup).1, rfl⟩⟩
      · have hne : PhiSem.s i ≠ PhiSem.s j := fun heq => hi (PhiSem.s.inj heq)
        simp only [hsem, Function.update_of_ne hne, Function.update_of_ne hi]
        exact hold
  · rw [if_neg hcan]
    exact ⟨x, rfl, h⟩

/-- `down(&mutex)`. -/
theorem Inv.downMutex (h : x.Inv) {after asleep : SemaPc} (hout : (x.pc i).place i = .outside)
    (hpc : ¬ (x.pc i).Critical ∧ ¬ (x.pc i).AtMutex)
    (hasleep : ¬ asleep.Critical) (hplaces : after.place i = .outside ∧
      asleep.place i = .inDown .mutex)
    (hentry : ∀ value queued v, Entry value queued v (x.pc i) →
      Entry value queued v after ∧ Entry value queued v asleep) :
    (x.down i .mutex after asleep).Inv := by
  have hplace : x.sems.place i = .outside := (h.place i).trans hout
  have hsound := h.sound.downStart hplace .mutex
  have hentries : ∀ c, Entry (x.sems.sem (.s i)).value (i ∈ (x.sems.sem (.s i)).queue)
      (x.stateSema i) c → ∀ j, Entry ((x.sems.downStart i .mutex).sem (.s j)).value
        (j ∈ ((x.sems.downStart i .mutex).sem (.s j)).queue) (x.stateSema j)
        (Function.update x.pc i c j) := by
    intro c hc j
    have hsame : (x.sems.downStart i .mutex).sem (.s j) = x.sems.sem (.s j) := by
      rcases Sems.downStart_eq x.sems i .mutex with ⟨_, _, hsem⟩ | ⟨_, _, hsem⟩ <;>
        rw [hsem, Function.update_of_ne (fun heq => by cases heq)]
    rw [hsame]
    by_cases hj : j = i
    · rw [hj, Function.update_self]
      exact hc
    · rw [Function.update_of_ne hj]
      exact h.entry j
  obtain ⟨hentry₁, hentry₂⟩ := hentry _ _ _ (h.entry i)
  unfold PhiSema.down setPc
  rcases Sems.downStart_eq x.sems i .mutex with ⟨hv, hplaces', hsem⟩ | ⟨hv, hplaces', hsem⟩
  · rw [if_pos hv]
    refine ⟨hsound, ?_, ?_, h.apart, hentries after hentry₁⟩
    · intro j
      simp only [hplaces', h.place]
      by_cases hj : j = i
      · rw [hj, Function.update_self, hplaces.1, hout]
      · rw [Function.update_of_ne hj]
    · simp only [hsem, Function.update_self]
      exact h.mutex.take hv
  · rw [if_neg hv]
    refine ⟨hsound, ?_, ?_, h.apart, hentries asleep hentry₂⟩
    · intro j
      simp only [hplaces']
      by_cases hj : j = i
      · rw [hj, Function.update_self, Function.update_self, hplaces.2]
      · rw [Function.update_of_ne hj, Function.update_of_ne hj, h.place]
    · simp only [hsem, Function.update_self]
      exact h.mutex.sleep hpc hasleep

/-- A philosopher goes on behind a `down` it slept in. -/
theorem Inv.downEnd (h : x.Inv) {s : PhiSem k} {after : SemaPc}
    (hpc : (x.pc i).place i = .inDown s) (hrun : x.Enabled i) (hafter : after.place i = .outside)
    (hmutex : i ∉ (x.sems.sem s).queue →
      Exclusive (x.sems.sem .mutex) (Function.update x.pc i after))
    (hentry : i ∉ (x.sems.sem s).queue → Entry (x.sems.sem (.s i)).value
      (i ∈ (x.sems.sem (.s i)).queue) (x.stateSema i) after) :
    ∃ x', x.downEnd i s after = some x' ∧ x'.Inv := by
  have hplace : x.sems.place i = .inDown s := (h.place i).trans hpc
  have hq := (h.sound.runnable_iff hplace).mp hrun
  obtain ⟨sems, hend, hsound, hplaces, hsem⟩ := h.sound.downEnd hplace hq
  refine ⟨{ x with sems := sems }.setPc i after, by rw [PhiSema.downEnd, hend]; rfl, hsound, ?_,
    ?_, h.apart, ?_⟩
  · intro j
    unfold setPc
    simp only [hplaces]
    by_cases hj : j = i
    · rw [hj, Function.update_self, Function.update_self, hafter]
    · rw [Function.update_of_ne hj, Function.update_of_ne hj, h.place]
  · unfold setPc
    simp only [hsem]
    exact hmutex hq
  · intro j
    unfold setPc
    simp only [hsem]
    by_cases hj : j = i
    · rw [hj, Function.update_self]
      exact hentry hq
    · rw [Function.update_of_ne hj]
      exact h.entry j

/-- `up(&mutex)`. -/
theorem Inv.upMutex (h : x.Inv) {c : SemaPc} (hpc : (x.pc i).Critical)
    (hout : (x.pc i).place i = .outside) (hc : ¬ c.Critical ∧ ¬ c.AtMutex)
    (hplace : c.place i = .outside)
    (hentry : ∀ value queued v, Entry value queued v (x.pc i) → Entry value queued v c) :
    ∃ x', (x.setPc i c).up .mutex = some x' ∧ x'.Inv := by
  obtain ⟨sems, hup, hsound, hplaces, hsem⟩ := h.sound.up .mutex
  refine ⟨{ x.setPc i c with sems := sems }, ?_, hsound, ?_, ?_, h.apart, ?_⟩
  · unfold PhiSema.up
    rw [setPc, hup]
    rfl
  · intro j
    unfold setPc
    simp only [hplaces]
    by_cases hj : j = i
    · rw [hj, Function.update_self, hplace, h.place, hout]
    · rw [Function.update_of_ne hj, h.place]
  · unfold setPc
    simp only [hsem, Function.update_self]
    exact h.mutex.release hpc hc (h.sound.nonneg .mutex)
  · intro j
    have hne : PhiSem.s j ≠ .mutex := fun heq => by cases heq
    unfold setPc
    simp only [hsem, Function.update_of_ne hne]
    by_cases hj : j = i
    · rw [hj, Function.update_self]
      exact hentry _ _ _ (h.entry i)
    · rw [Function.update_of_ne hj]
      exact h.entry j

/-- `down(&s[i])`. -/
theorem Inv.downSelf (h : x.Inv) (hpc : x.pc i = .takeDown) :
    (x.down i (.s i) .eating .takeSleep).Inv := by
  have hplace : x.sems.place i = .outside := by
    rw [h.place, hpc]
    rfl
  have hsound := h.sound.downStart hplace (.s i)
  have hmutex : (x.sems.downStart i (.s i)).sem .mutex = x.sems.sem .mutex := by
    rcases Sems.downStart_eq x.sems i (.s i) with ⟨_, _, hsem⟩ | ⟨_, _, hsem⟩ <;>
      rw [hsem, Function.update_of_ne (fun heq => by cases heq)]
  have hself := h.entry i
  rw [hpc] at hself
  unfold PhiSema.down setPc
  rcases Sems.downStart_eq x.sems i (.s i) with ⟨hv, hplaces, hsem⟩ | ⟨hv, hplaces, hsem⟩
  · rw [if_pos hv]
    refine ⟨hsound, ?_, ?_, h.apart, ?_⟩
    · intro j
      simp only [hplaces, h.place]
      by_cases hj : j = i
      · rw [hj, Function.update_self, hpc]
        rfl
      · rw [Function.update_of_ne hj]
    · simp only [hmutex]
      apply h.mutex.move
      · rw [hpc]
        exact Iff.rfl
      · rw [hpc]
        exact Iff.rfl
    · intro j
      simp only [hsem]
      by_cases hj : j = i
      · subst hj
        rw [Function.update_self, Function.update_self]
        rcases hself with ⟨hzero, _⟩ | ⟨hone, heat⟩
        · omega
        · refine ⟨?_, heat⟩
          simp only
          omega
      · have hne : PhiSem.s j ≠ .s i := fun heq => hj (PhiSem.s.inj heq)
        rw [Function.update_of_ne hne, Function.update_of_ne hj]
        exact h.entry j
  · rw [if_neg hv]
    refine ⟨hsound, ?_, ?_, h.apart, ?_⟩
    · intro j
      simp only [hplaces]
      by_cases hj : j = i
      · rw [hj, Function.update_self, Function.update_self]
        rfl
      · rw [Function.update_of_ne hj, Function.update_of_ne hj, h.place]
    · simp only [hmutex]
      apply h.mutex.move
      · rw [hpc]
        exact Iff.rfl
      · rw [hpc]
        exact Iff.rfl
    · intro j
      simp only [hsem]
      by_cases hj : j = i
      · subst hj
        rw [Function.update_self, Function.update_self]
        rcases hself with ⟨hzero, hhungry⟩ | ⟨hone, _⟩
        · exact ⟨hzero, Or.inl ⟨List.mem_append_right _ List.mem_cons_self, hhungry⟩⟩
        · omega
      · have hne : PhiSem.s j ≠ .s i := fun heq => hj (PhiSem.s.inj heq)
        rw [Function.update_of_ne hne, Function.update_of_ne hj]
        exact h.entry j

theorem Inv.step (h : x.Inv) (hi : x.Enabled i) : ∃ x', x.step i = some x' ∧ x'.Inv := by
  have hentry := h.entry i
  unfold PhiSema.step
  rcases hpc : x.pc i with _ | _ | _ | _ | _ | _ | _ | _ | _ | _ | _ <;> rw [hpc] at hentry
  case thinking =>
    refine ⟨_, rfl, h.downMutex ?_ ?_ id ⟨rfl, rfl⟩ ?_⟩
    all_goals rw [hpc]
    · rfl
    · exact ⟨id, id⟩
    · exact fun _ _ _ he => ⟨he, he⟩
  case takeMutex =>
    refine h.downEnd ?_ hi rfl (fun hq => h.mutex.wake ?_ hq) (fun _ => hentry)
    all_goals rw [hpc]
    · rfl
    · trivial
  case takeTest =>
    refine Inv.phiTestSema (h.move ?_ ?_ ?_ (h.apart.update (fun heq => by cases heq)) ?_) i
    · rw [hpc]
      rfl
    · rw [hpc]
      exact Iff.rfl
    · rw [hpc]
      exact Iff.rfl
    · exact Or.inl ⟨hentry.1, rfl⟩
  case takeUp =>
    refine h.upMutex ?_ ?_ ⟨id, id⟩ rfl ?_
    all_goals rw [hpc]
    · trivial
    · rfl
    · exact fun _ _ _ he => he
  case takeDown => exact ⟨_, rfl, h.downSelf hpc⟩
  case takeSleep =>
    refine h.downEnd ?_ hi rfl (fun _ => h.mutex.move ?_ ?_) ?_
    · rw [hpc]
      rfl
    · rw [hpc]
      exact Iff.rfl
    · rw [hpc]
      exact Iff.rfl
    · intro hq
      rcases hentry with ⟨hzero, ⟨hin, _⟩ | ⟨_, heat⟩⟩
      · exact absurd hin hq
      · exact ⟨hzero, heat⟩
  case eating =>
    refine ⟨_, rfl, h.downMutex ?_ ?_ id ⟨rfl, rfl⟩ ?_⟩
    all_goals rw [hpc]
    · rfl
    · exact ⟨id, id⟩
    · exact fun _ _ _ he => ⟨he, he⟩
  case putMutex =>
    refine h.downEnd ?_ hi rfl (fun hq => h.mutex.wake ?_ hq) (fun _ => hentry)
    all_goals rw [hpc]
    · rfl
    · trivial
  case putTestLeft =>
    refine Inv.phiTestSema (h.move ?_ ?_ ?_ (h.apart.update (fun heq => by cases heq)) ?_) (left i)
    · rw [hpc]
      rfl
    · rw [hpc]
      exact Iff.rfl
    · rw [hpc]
      exact Iff.rfl
    · exact ⟨hentry.1, rfl⟩
  case putTestRight =>
    have hmove : ((x.setState i (x.stateSema i)).setPc i .putUp).Inv := by
      refine h.move ?_ ?_ ?_ ?_ hentry
      · rw [hpc]
        rfl
      · rw [hpc]
        exact Iff.rfl
      · rw [hpc]
        exact Iff.rfl
      · rw [Function.update_eq_self]
        exact h.apart
    have hsame : x.setState i (x.stateSema i) = x := by
      unfold setState
      rw [Function.update_eq_self]
    rw [hsame] at hmove
    exact hmove.phiTestSema (right i)
  case putUp =>
    refine h.upMutex ?_ ?_ ⟨id, id⟩ rfl ?_
    all_goals rw [hpc]
    · trivial
    · rfl
    · exact fun _ _ _ he => he

theorem Inv.safe (h : x.Inv) : x.Safe := by
  refine ⟨h.apart, ?_, ?_⟩
  · intro i hpc
    have hentry := h.entry i
    rw [hpc] at hentry
    exact hentry.2
  · intro i
    have hentry := h.entry i
    unfold unconsumed
    rcases hpc : x.pc i with _ | _ | _ | _ | _ | _ | _ | _ | _ | _ | _ <;> rw [hpc] at hentry
    case takeSleep =>
      have hzero := hentry.1
      rw [hzero]
      by_cases hq : i ∈ (x.sems.sem (.s i)).queue
      · simp only [hq, not_true_eq_false, and_false, if_false]
        omega
      · simp only [hq, not_false_eq_true, and_self, if_true]
        omega
    all_goals
      simp only [Entry] at hentry
      simp only [reduceCtorEq, false_and, if_false]
      omega

/-- The philosophers with semaphores, in any order of their steps. -/
theorem run_safe (k : ℕ) {ops : List (Fin (k + 3))}
    (hops : RunMeets step Enabled (init k) ops) :
    ∃ t, runOps step (init k) ops = some t ∧ t.Safe := by
  obtain ⟨t, hrun, hinv⟩ := runOps_total (fun x i (h : x.Inv) hi => h.step hi) (inv_init k) hops
  exact ⟨t, hrun, hinv.safe⟩

end PhiSema
end Ucore.Sync
