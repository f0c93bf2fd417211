import Ucore.Sync.Wait

/-!
The semaphores of `sem.c` on the wait queues. A process that finds no unit sleeps in `down`
until `up` takes it off the queue; the unit is then handed to it without passing through
`value`.
-/
namespace Ucore.Sync

def wtTimer : ℕ := 0x00000002 ||| wtInterrupted

structure Semaphore (P : Type*) where
  value : ℤ
  queue : List P

/-- Where a process is: in no call that sleeps, in `schedule` called from `__down`, or in
`schedule` called from `do_sleep`. -/
inductive Place (S : Type*) where
  | outside
  | inDown (s : S)
  | inSleep
  deriving DecidableEq

structure Sems (P S : Type*) where
  proc : P → Sleeper
  place : P → Place S
  sem : S → Semaphore P

variable {P S : Type*} [DecidableEq P] [DecidableEq S]

/-- What `up` does to a semaphore. -/
def Semaphore.up (m : Semaphore P) : Semaphore P :=
  match m.queue with
  | [] => ⟨m.value + 1, []⟩
  | _ :: rest => ⟨m.value, rest⟩

namespace Sems

def waiters (x : Sems P S) (s : S) : Waiters P := ⟨x.proc, (x.sem s).queue⟩

def setWaiters (x : Sems P S) (s : S) (w : Waiters P) : Sems P S :=
  { x with
    proc := w.proc
    sem := Function.update x.sem s { x.sem s with queue := w.queue } }

def setValue (x : Sems P S) (s : S) (value : ℤ) : Sems P S :=
  { x with sem := Function.update x.sem s { x.sem s with value := value } }

def setPlace (x : Sems P S) (p : P) (place : Place S) : Sems P S :=
  { x with place := Function.update x.place p place }

/-- `up`; the assertion is about the `wait_state` of the first waiter. -/
def up (x : Sems P S) (s : S) : Option (Sems P S) :=
  match (x.sem s).queue with
  | [] => some (x.setValue s ((x.sem s).value + 1))
  | p :: _ =>
    if (x.proc p).waitState = wtKsem then
      some (x.setWaiters s ((x.waiters s).wakeupWait p wtKsem))
    else none

/-- `down` up to `schedule`. -/
def downStart (x : Sems P S) (p : P) (s : S) : Sems P S :=
  if 0 < (x.sem s).value then x.setValue s ((x.sem s).value - 1)
  else (x.setWaiters s ((x.waiters s).waitCurrentSet p wtKsem)).setPlace p (.inDown s)

/-- `down` behind `schedule`; the assertion is that `__down` returns 0. -/
def downEnd (x : Sems P S) (p : P) (s : S) : Option (Sems P S) :=
  let x := x.setWaiters s ((x.waiters s).waitCurrentDel p)
  let flags := if (x.proc p).wakeupFlags ≠ wtKsem then (x.proc p).wakeupFlags else 0
  if flags = 0 then some (x.setPlace p .outside) else none

/-- `try_down` and whether it got a unit. -/
def tryDown (x : Sems P S) (s : S) : Sems P S × Bool :=
  if 0 < (x.sem s).value then (x.setValue s ((x.sem s).value - 1), true) else (x, false)

/-- `do_sleep` up to `schedule`. -/
def sleepStart (x : Sems P S) (p : P) : Sems P S :=
  { x with
    proc := Function.update x.proc p { x.proc p with state := .sleeping, waitState := wtTimer }
    place := Function.update x.place p .inSleep }

/-- The processes run, and every semaphore has its first value (`sem_init`). -/
def init (v0 : S → ℤ) : Sems P S where
  proc := fun _ => ⟨.runnable, 0, false, 0⟩
  place := fun _ => .outside
  sem := fun s => ⟨v0 s, []⟩

/-- The semaphores and the processes fit together: who is in a queue sleeps in that `down`,
and who is in `down` but in no queue was woken by `up`. -/
structure Sound (x : Sems P S) : Prop where
  queued : ∀ s, ∀ p ∈ (x.sem s).queue, x.place p = .inDown s ∧
    (x.proc p).state = .sleeping ∧ (x.proc p).waitState = wtKsem
  nodup : ∀ s, (x.sem s).queue.Nodup
  woken : ∀ p s, x.place p = .inDown s → p ∉ (x.sem s).queue →
    (x.proc p).state = .runnable ∧ (x.proc p).wakeupFlags = wtKsem
  outside : ∀ p, x.place p = .outside → (x.proc p).state = .runnable
  nonneg : ∀ s, 0 ≤ (x.sem s).value
  empty : ∀ s, 0 < (x.sem s).value → (x.sem s).queue = []

omit [DecidableEq P] [DecidableEq S] in
theorem sound_init {v0 : S → ℤ} (hv0 : ∀ s, 0 ≤ v0 s) : (init v0 : Sems P S).Sound := by
  refine ⟨?_, fun _ => List.nodup_nil, ?_, fun _ _ => rfl, hv0, fun _ _ => rfl⟩
  · intro s p hp
    cases hp
  · intro p s hp
    cases hp

omit [DecidableEq P] [DecidableEq S] in
/-- In `down`, a process can go on when it is not in the queue any more. -/
theorem Sound.runnable_iff {x : Sems P S} (h : x.Sound) {p : P} {s : S}
    (hp : x.place p = .inDown s) : (x.proc p).state = .runnable ↔ p ∉ (x.sem s).queue := by
  constructor
  · intro hrun hq
    have hsleep := (h.queued s p hq).2.1
    rw [hrun] at hsleep
    cases hsleep
  · intro hq
    exact (h.woken p s hp hq).1

omit [DecidableEq P] [DecidableEq S] in
/-- A process is in one queue at most. -/
theorem Sound.queue_unique {x : Sems P S} (h : x.Sound) {p : P} {s t : S}
    (hs : p ∈ (x.sem s).queue) (ht : p ∈ (x.sem t).queue) : s = t := by
  have h₁ := (h.queued s p hs).1
  have h₂ := (h.queued t p ht).1
  rw [h₁] at h₂
  exact Place.inDown.inj h₂

omit [DecidableEq P] in
/-- The count of a semaphore changes, and its queue is empty if the new one is positive. -/
theorem Sound.setValue {x : Sems P S} (h : x.Sound) {s : S} {value : ℤ} (hnonneg : 0 ≤ value)
    (hv : 0 < value → (x.sem s).queue = []) : (x.setValue s value).Sound := by
  have hqueue : ∀ t, ((x.setValue s value).sem t).queue = (x.sem t).queue := by
    intro t
    unfold Sems.setValue
    by_cases ht : t = s
    · subst ht
      simp only [Function.update_self]
    · simp only [Function.update_of_ne ht]
  refine ⟨?_, ?_, ?_, h.outside, ?_, ?_⟩
  · intro t p hp
    rw [hqueue] at hp
    exact h.queued t p hp
  · intro t
    rw [hqueue]
    exact h.nodup t
  · intro p t hplace hp
    rw [hqueue] at hp
    exact h.woken p t hplace hp
  · intro t
    unfold Sems.setValue
    by_cases hts : t = s
    · subst hts
      simp only [Function.update_self]
      exact hnonneg
    · simp only [Function.update_of_ne hts]
      exact h.nonneg t
  · intro t ht
    rw [hqueue]
    by_cases hts : t = s
    · subst hts
      unfold Sems.setValue at ht
      simp only [Function.update_self] at ht
      exact hv ht
    · unfold Sems.setValue at ht
      simp only [Function.update_of_ne hts] at ht
      exact h.empty t ht

/-- What `wakeup_wait` from `up` makes of a sleeping process. -/
theorem proc_wakeupWait {w : Waiters P} {p : P} (hp : (w.proc p).state = .sleeping) :
    (w.wakeupWait p wtKsem).proc = Function.update w.proc p { w.proc p with
      state := .runnable, waitState := 0, wakeupFlags := wtKsem } := by
  have hne : ¬ ProcState.sleeping = .runnable := by decide
  unfold Waiters.wakeupWait wakeupProc
  simp only [Function.update_self, hp, ne_eq, hne, not_false_eq_true, if_true,
    Function.update_idem]

/-- `up` adds a unit, or hands one to the first waiter; its assertion holds. -/
theorem Sound.up {x : Sems P S} (h : x.Sound) (s : S) : ∃ x', x.up s = some x' ∧ x'.Sound ∧
    x'.place = x.place ∧ x'.sem = Function.update x.sem s (x.sem s).up := by
  unfold Sems.up Semaphore.up
  rcases hq : (x.sem s).queue with _ | ⟨p, rest⟩
  · have hvalue := h.nonneg s
    refine ⟨_, rfl, h.setValue (by omega) (fun _ => hq), rfl, ?_⟩
    unfold Sems.setValue
    simp only [hq]
  · have hmem : p ∈ (x.sem s).queue := by
      rw [hq]
      exact List.mem_cons_self
    obtain ⟨hplace, hsleep, hwait⟩ := h.queued s p hmem
    have hproc : ((x.waiters s).wakeupWait p wtKsem).proc = Function.update x.proc p
        { x.proc p with state := .runnable, waitState := 0, wakeupFlags := wtKsem } :=
      proc_wakeupWait hsleep
    have hqueue : ((x.waiters s).wakeupWait p wtKsem).queue = rest := by
      unfold Waiters.wakeupWait waiters
      simp only [hq, List.erase_cons_head]
    have hnodup := h.nodup s
    rw [hq] at hnodup
    have hnot : p ∉ rest := (List.nodup_cons.mp hnodup).1
    simp only [hwait, if_true]
    refine ⟨_, rfl, ?_, rfl, ?_⟩
    · unfold setWaiters
      rw [hproc, hqueue]
      refine ⟨?_, ?_, ?_, ?_, ?_, ?_⟩
      · intro t q hqt
        have hin : q ∈ (x.sem t).queue ∧ q ≠ p := by
          by_cases ht : t = s
          · subst ht
            simp only [Function.update_self] at hqt
            exact ⟨hq ▸ List.mem_cons_of_mem p hqt, fun heq => hnot (heq ▸ hqt)⟩
          · simp only [Function.update_of_ne ht] at hqt
            refine ⟨hqt, fun heq => ht ?_⟩
            subst heq
            exact h.queue_unique hqt hmem
        simp only [Function.update_of_ne hin.2]
        exact h.queued t q hin.1
      · intro t
        by_cases ht : t = s
        · subst ht
          simp only [Function.update_self]
          exact (List.nodup_cons.mp hnodup).2
        · simp only [Function.update_of_ne ht]
          exact h.nodup t
      · intro q t hqt hnq
        by_cases hqp : q = p
        · subst hqp
          simp only [Function.update_self, and_self]
        · simp only [Function.update_of_ne hqp]
          apply h.woken q t hqt
          intro hin
          apply hnq
          by_cases ht : t = s
          · subst ht
            rw [hq] at hin
            simp only [Function.update_self]
            rcases List.mem_cons.mp hin with heq | hin
            · exact absurd heq hqp
            · exact hin
          · simp only [Function.update_of_ne ht]
            exact hin
      · intro q hout
        by_cases hqp : q = p
        · subst hqp
          simp only [Function.update_self]
        · simp only [Function.update_of_ne hqp]
          exact h.outside q hout
      · intro t
        by_cases ht : t = s
        · subst ht
          simp only [Function.update_self]
          exact h.nonneg t
        · simp only [Function.update_of_ne ht]
          exact h.nonneg t
      · intro t ht
        by_cases hts : t = s
        · subst hts
          simp only [Function.update_self] at ht
          have hnil := h.empty t ht
          rw [hq] at hnil
          cases hnil
        · simp only [Function.update_of_ne hts] at ht ⊢
          exact h.empty t ht
    · unfold setWaiters
      rw [hqueue]

/-- `down` takes a unit, or the process goes to the end of the queue. -/
theorem Sound.downStart {x : Sems P S} (h : x.Sound) {p : P} (hp : x.place p = .outside) (s : S) :
    (x.downStart p s).Sound := by
  have hno : ∀ t, p ∉ (x.sem t).queue := by
    intro t hin
    have hplace := (h.queued t p hin).1
    rw [hp] at hplace
    cases hplace
  unfold Sems.downStart
  by_cases hv : 0 < (x.sem s).value
  · rw [if_pos hv]
    exact h.setValue (by omega) (fun _ => h.empty s hv)
  · rw [if_neg hv]
    unfold setPlace setWaiters Waiters.waitCurrentSet waiters
    refine ⟨?_, ?_, ?_, ?_, ?_, ?_⟩
    · intro t q hq
      by_cases hqp : q = p
      · subst hqp
        by_cases ht : t = s
        · subst ht
          simp only [Function.update_self, and_self]
        · simp only [Function.update_of_ne ht] at hq
          exact absurd hq (hno t)
      · have hin : q ∈ (x.sem t).queue := by
          by_cases ht : t = s
          · subst ht
            simp only [Function.update_self, List.mem_append, List.mem_singleton, hqp,
              or_false] at hq
            exact hq
          · simp only [Function.update_of_ne ht] at hq
            exact hq
        simp only [Function.update_of_ne hqp]
        exact h.queued t q hin
    · intro t
      by_cases ht : t = s
      · subst ht
        simp only [Function.update_self]
        refine List.nodup_append.mpr ⟨h.nodup t, List.pairwise_singleton _ p, ?_⟩
        intro q hq r hr heq
        rw [heq, List.mem_singleton.mp hr] at hq
        exact hno t hq
      · simp only [Function.update_of_ne ht]
        exact h.nodup t
    · intro q t hqt hnq
      by_cases hqp : q = p
      · subst hqp
        simp only [Function.update_self] at hqt
        obtain rfl := Place.inDown.inj hqt
        simp only [Function.update_self] at hnq
        exact absurd (List.mem_append_right _ List.mem_cons_self) hnq
      · simp only [Function.update_of_ne hqp] at hqt ⊢
        apply h.woken q t hqt
        intro hin
        apply hnq
        by_cases ht : t = s
        · subst ht
          simp only [Function.update_self]
          exact List.mem_append_left _ hin
        · simp only [Function.update_of_ne ht]
          exact hin
    · intro q hout
      by_cases hqp : q = p
      · subst hqp
        simp only [Function.update_self] at hout
        cases hout
      · simp only [Function.update_of_ne hqp] at hout ⊢
        exact h.outside q hout
    · intro t
      by_cases ht : t = s
      · subst ht
        simp only [Function.update_self]
        exact h.nonneg t
      · simp only [Function.update_of_ne ht]
        exact h.nonneg t
    · intro t ht
      by_cases hts : t = s
      · subst hts
        simp only [Function.update_self] at ht
        exact absurd ht hv
      · simp only [Function.update_of_ne hts] at ht ⊢
        exact h.empty t ht

/-- The semaphore and the place behind the first half of `down`. -/
theorem downStart_eq (x : Sems P S) (p : P) (s : S) :
    0 < (x.sem s).value ∧ (x.downStart p s).place = x.place ∧ (x.downStart p s).sem =
      Function.update x.sem s { x.sem s with value := (x.sem s).value - 1 } ∨
    ¬ 0 < (x.sem s).value ∧ (x.downStart p s).place = Function.update x.place p (.inDown s) ∧
      (x.downStart p s).sem =
        Function.update x.sem s { x.sem s with queue := (x.sem s).queue ++ [p] } := by
  unfold downStart
  by_cases hv : 0 < (x.sem s).value
  · left
    rw [if_pos hv]
    exact ⟨hv, rfl, rfl⟩
  · right
    rw [if_neg hv]
    exact ⟨hv, rfl, rfl⟩

/-- A process leaves `down`: the assertion holds, and no semaphore changes. -/
theorem Sound.downEnd {x : Sems P S} (h : x.Sound) {p : P} {s : S} (hp : x.place p = .inDown s)
    (hq : p ∉ (x.sem s).queue) : ∃ x', x.downEnd p s = some x' ∧ x'.Sound ∧
    x'.place = Function.update x.place p .outside ∧ x'.sem = x.sem := by
  obtain ⟨hrun, hflags⟩ := h.woken p s hp hq
  have hsame : x.setWaiters s ((x.waiters s).waitCurrentDel p) = x := by
    unfold setWaiters Waiters.waitCurrentDel waiters
    simp only [List.erase_of_not_mem hq, Function.update_eq_self]
  refine ⟨x.setPlace p .outside, ?_, ?_, rfl, rfl⟩
  · unfold Sems.downEnd
    simp only [hsame, hflags, ne_eq, not_true_eq_false, if_false, if_true]
  · refine ⟨?_, h.nodup, ?_, ?_, h.nonneg, h.empty⟩
    · intro t q hqt
      obtain ⟨hplace, hrest⟩ := h.queued t q hqt
      have hqp : q ≠ p := by
        intro heq
        subst heq
        rw [hp] at hplace
        obtain rfl := Place.inDown.inj hplace
        exact hq hqt
      unfold setPlace
      simp only [Function.update_of_ne hqp]
      exact ⟨hplace, hrest⟩
    · intro q t hqt hnq
      unfold setPlace at hqt
      by_cases hqp : q = p
      · subst hqp
        simp only [Function.update_self] at hqt
        cases hqt
      · simp only [Function.update_of_ne hqp] at hqt
        exact h.woken q t hqt hnq
    · intro q hout
      unfold setPlace at hout
      by_cases hqp : q = p
      · subst hqp
        exact hrun
      · simp only [Function.update_of_ne hqp] at hout
        exact h.outside q hout

omit [DecidableEq P] in
theorem Sound.tryDown {x : Sems P S} (h : x.Sound) (s : S) : (x.tryDown s).1.Sound := by
  unfold Sems.tryDown
  by_cases hv : 0 < (x.sem s).value
  · rw [if_pos hv]
    exact h.setValue (by omega) (fun _ => h.empty s hv)
  · rw [if_neg hv]
    exact h

omit [DecidableEq P] [DecidableEq S] in
/-- A process in a `down` of another is not concerned when one process changes. -/
theorem Sound.of_proc {x : Sems P S} (h : x.Sound) {proc : P → Sleeper}
    (hqueued : ∀ s, ∀ p ∈ (x.sem s).queue, (proc p).state = .sleeping ∧ (proc p).waitState = wtKsem)
    (hwoken : ∀ p s, x.place p = .inDown s → p ∉ (x.sem s).queue →
      (proc p).state = .runnable ∧ (proc p).wakeupFlags = wtKsem)
    (houtside : ∀ p, x.place p = .outside → (proc p).state = .runnable) :
    Sound { x with proc := proc } :=
  ⟨fun s p hp => ⟨(h.queued s p hp).1, hqueued s p hp⟩, h.nodup, hwoken, houtside, h.nonneg, h.empty⟩

end Sems
end Ucore.Sync
