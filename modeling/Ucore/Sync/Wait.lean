import Mathlib.Data.Nat.Bitwise
import Mathlib.Logic.Function.Basic

/-!
Waiting and waking up: the wait queues of `wait.c` with `wakeup_proc` and the part of
`do_kill` that wakes a process. A process has one `wait_t` at most, on its stack, so the
queue is a list of processes and the flags of the `wait_t` stand beside the process.
-/
namespace Ucore.Sync

def wtInterrupted : ℕ := 0x80000000

def wtKbd : ℕ := 0x00000004 ||| wtInterrupted

def wtKsem : ℕ := 0x00000100

/-- The states a process can have that may wait: `PROC_RUNNABLE` and `PROC_SLEEPING`. -/
inductive ProcState where
  | runnable
  | sleeping
  deriving DecidableEq

/-- The fields of a process that waiting and waking up read and write; `wakeupFlags` is the
field of its `wait_t`, and `exiting` the bit `PF_EXITING` of its flags. -/
structure Sleeper where
  state : ProcState
  waitState : ℕ
  exiting : Bool
  wakeupFlags : ℕ

/-- The processes and one wait queue. -/
structure Waiters (P : Type*) where
  proc : P → Sleeper
  queue : List P

variable {P : Type*} [DecidableEq P]

/-- `wakeup_proc`, without the run queue. -/
def wakeupProc (proc : P → Sleeper) (p : P) : P → Sleeper :=
  if (proc p).state ≠ .runnable then
    Function.update proc p { proc p with state := .runnable, waitState := 0 }
  else proc

/-- `do_kill`, as far as a process is woken. -/
def doKill (proc : P → Sleeper) (p : P) : P → Sleeper :=
  if (proc p).exiting = false then
    let marked := Function.update proc p { proc p with exiting := true }
    if (marked p).waitState.testBit 31 then wakeupProc marked p else marked
  else proc

namespace Waiters

/-- `wait_current_set` for the process `current`. -/
def waitCurrentSet (w : Waiters P) (current : P) (waitState : ℕ) : Waiters P where
  proc := Function.update w.proc current { w.proc current with
    state := .sleeping
    waitState := waitState
    wakeupFlags := wtInterrupted }
  queue := w.queue ++ [current]

/-- `wait_current_del`: the `wait_t` is taken out if it is still in the queue. -/
def waitCurrentDel (w : Waiters P) (current : P) : Waiters P :=
  { w with queue := w.queue.erase current }

/-- `wakeup_wait` with `del` set. -/
def wakeupWait (w : Waiters P) (p : P) (flags : ℕ) : Waiters P where
  proc := wakeupProc (Function.update w.proc p { w.proc p with wakeupFlags := flags }) p
  queue := w.queue.erase p

/-- `wakeup_queue` with `del` set: the first process is woken until there is none. -/
def wakeupQueue (w : Waiters P) (flags : ℕ) : Waiters P :=
  w.queue.foldl (fun w' p => w'.wakeupWait p flags) w

end Waiters

theorem wakeupProc_of_ne {proc : P → Sleeper} {p q : P} (h : q ≠ p) :
    wakeupProc proc p q = proc q := by
  unfold wakeupProc
  by_cases hs : (proc p).state ≠ .runnable
  · rw [if_pos hs, Function.update_of_ne h]
  · rw [if_neg hs]

theorem wakeupProc_state (proc : P → Sleeper) (p : P) :
    (wakeupProc proc p p).state = .runnable := by
  unfold wakeupProc
  by_cases hs : (proc p).state ≠ .runnable
  · rw [if_pos hs, Function.update_self]
  · rw [if_neg hs]
    exact not_not.mp hs

theorem wakeupProc_wakeupFlags (proc : P → Sleeper) (p q : P) :
    (wakeupProc proc p q).wakeupFlags = (proc q).wakeupFlags := by
  by_cases hq : q = p
  · subst hq
    unfold wakeupProc
    by_cases hs : (proc q).state ≠ .runnable
    · rw [if_pos hs, Function.update_self]
    · rw [if_neg hs]
  · rw [wakeupProc_of_ne hq]

theorem doKill_of_ne {proc : P → Sleeper} {p q : P} (h : q ≠ p) : doKill proc p q = proc q := by
  unfold doKill
  by_cases he : (proc p).exiting = false
  · rw [if_pos he]
    by_cases hb : (Function.update proc p { proc p with exiting := true } p).waitState.testBit 31
    · rw [if_pos hb, wakeupProc_of_ne h, Function.update_of_ne h]
    · rw [if_neg hb, Function.update_of_ne h]
  · rw [if_neg he]

theorem doKill_wakeupFlags (proc : P → Sleeper) (p q : P) :
    (doKill proc p q).wakeupFlags = (proc q).wakeupFlags := by
  by_cases hq : q = p
  · subst hq
    unfold doKill
    by_cases he : (proc q).exiting = false
    · rw [if_pos he]
      by_cases hb : (Function.update proc q { proc q with exiting := true } q).waitState.testBit 31
      · rw [if_pos hb, wakeupProc_wakeupFlags, Function.update_self]
      · rw [if_neg hb, Function.update_self]
    · rw [if_neg he]
  · rw [doKill_of_ne hq]

/-- A runnable process stays so. -/
theorem doKill_runnable {proc : P → Sleeper} {p : P} (h : (proc p).state = .runnable) :
    (doKill proc p p).state = .runnable := by
  unfold doKill
  by_cases he : (proc p).exiting = false
  · rw [if_pos he]
    by_cases hb : (Function.update proc p { proc p with exiting := true } p).waitState.testBit 31
    · rw [if_pos hb]
      exact wakeupProc_state _ p
    · rw [if_neg hb, Function.update_self]
      exact h
  · rw [if_neg he]
    exact h

/-- A process that waits for a semaphore is not woken by `do_kill`. -/
theorem doKill_of_ksem {proc : P → Sleeper} {p : P} (h : (proc p).waitState = wtKsem) :
    (doKill proc p p).state = (proc p).state ∧ (doKill proc p p).waitState = wtKsem := by
  unfold doKill
  by_cases he : (proc p).exiting = false
  · rw [if_pos he]
    have hbit : ¬ (Function.update proc p { proc p with exiting := true } p).waitState.testBit 31 := by
      rw [Function.update_self, h]
      decide
    rw [if_neg hbit, Function.update_self]
    exact ⟨rfl, h⟩
  · rw [if_neg he]
    exact ⟨rfl, h⟩

end Ucore.Sync
