import Ucore.Schedule.Stride
import Ucore.Library.DeltaList
import Ucore.Library.Run

/-!
The timers of `sched.c`: `add_timer`, `del_timer` and `run_timer_list`, and `do_sleep` that
uses them. Of a process only what waking it up reads and writes is kept.
-/
namespace Ucore.Schedule

/-- The assertions that can fail: those of `add_timer`, the two of `run_timer_list` and the
one of `wakeup_proc`. -/
inductive TimerPanic where
  | badTimer
  | linked
  | headExpired
  | notInterruptible
  | zombie
  deriving DecidableEq

def wtInterrupted : ℕ := 0x80000000

def wtTimer : ℕ := 0x00000002 ||| wtInterrupted

structure Waiter where
  state : ProcState
  waitState : ℕ

/-- `timerList` are the timers that are linked into `timer_list`, in their order. A timer
without a process has a NULL pointer. -/
structure Timers (T P : Type*) where
  expires : T → ℕ
  proc : T → Option P
  timerList : List T
  procs : P → Waiter

section Loops

variable {T : Type*} [DecidableEq T]

/-- The loop of `add_timer` from the entry at hand on. -/
def addLoop (expires : T → ℕ) (t : T) : List T → (T → ℕ) × List T
  | [] => (expires, [t])
  | next :: rest =>
    if expires t < expires next then
      (Function.update expires next (expires next - expires t), t :: next :: rest)
    else
      let r := addLoop (Function.update expires t (expires t - expires next)) t rest
      (r.1, next :: r.2)

/-- `list_next`, unless that is the head of the list. -/
def timerAfter (t : T) : List T → Option T
  | [] => none
  | x :: rest => if x = t then rest.head? else timerAfter t rest

end Loops

namespace Timers

variable {T P : Type*} [DecidableEq T] [DecidableEq P]

/-- After `sched_init`. -/
def init (procs : P → Waiter) : Timers T P := ⟨fun _ => 0, fun _ => none, [], procs⟩

def timerInit (s : Timers T P) (t : T) (p : P) (expires : ℕ) : Timers T P :=
  { s with expires := Function.update s.expires t expires
           proc := Function.update s.proc t (some p) }

def setProc (s : Timers T P) (p : P) (w : Waiter) : Timers T P :=
  { s with procs := Function.update s.procs p w }

def addTimer (s : Timers T P) (t : T) : Except TimerPanic (Timers T P) :=
  if ¬ (0 < s.expires t ∧ s.proc t ≠ none) then .error .badTimer
  else if t ∈ s.timerList then .error .linked
  else
    let r := addLoop s.expires t s.timerList
    .ok { s with expires := r.1, timerList := r.2 }

/-- What `del_timer` adds to the timer behind the one that goes, an `unsigned int`. -/
def passOn (s : Timers T P) (t : T) : T → ℕ :=
  if s.expires t ≠ 0 then
    match timerAfter t s.timerList with
    | some next => Function.update s.expires next ((s.expires next + s.expires t) % 2 ^ 32)
    | none => s.expires
  else s.expires

def delTimer (s : Timers T P) (t : T) : Timers T P :=
  if t ∈ s.timerList then { s with expires := s.passOn t, timerList := s.timerList.erase t } else s

/-- A runnable process is only warned about. -/
def wakeupProc (s : Timers T P) (p : P) : Except TimerPanic (Timers T P) :=
  if (s.procs p).state = .zombie then .error .zombie
  else if (s.procs p).state ≠ .runnable then .ok (s.setProc p ⟨.runnable, 0⟩)
  else .ok s

/-- What `run_timer_list` does to the process of an expired timer. -/
def wakeTimer (s : Timers T P) (t : T) : Except TimerPanic (Timers T P) :=
  match s.proc t with
  | none => .error .badTimer
  | some p =>
    if (s.procs p).waitState ≠ 0 ∧ (s.procs p).waitState &&& wtInterrupted = 0 then
      .error .notInterruptible
    else s.wakeupProc p

/-- The loop of `run_timer_list` from the timer at hand on, and the timers it unlinks. -/
def expireLoop (s : Timers T P) : List T → Except TimerPanic (List T × Timers T P)
  | [] => .ok ([], s)
  | t :: rest =>
    if s.expires t = 0 then
      (s.wakeTimer t).bind fun s' =>
        (expireLoop (s'.delTimer t) rest).map fun r => (t :: r.1, r.2)
    else .ok ([], s)

def runTimerList (s : Timers T P) : Except TimerPanic (List T × Timers T P) :=
  match s.timerList with
  | [] => .ok ([], s)
  | t :: rest =>
    if s.expires t = 0 then .error .headExpired
    else expireLoop { s with expires := Function.update s.expires t (s.expires t - 1) } (t :: rest)

/-- `do_sleep` up to `schedule()`; when it is back from there it deletes the timer. -/
def doSleep (s : Timers T P) (t : T) (p : P) (time : ℕ) : Except TimerPanic (Timers T P) :=
  if time = 0 then .ok s
  else ((s.timerInit t p time).setProc p ⟨.sleeping, wtTimer⟩).addTimer t

end Timers

/-- `setProc` is whatever else happens to a process. -/
inductive TimerOp (T P : Type*) where
  | add (t : T) (p : P) (expires : ℕ)
  | sleep (t : T) (p : P) (time : ℕ)
  | del (t : T)
  | tick
  | setProc (p : P) (w : Waiter)

/-- Timers with their history: `clock` counts the ticks, `added` says when a timer was added
and with which time, `deleted` when it was first deleted, and `woken` when a timer woke its
process. -/
structure TimerRun (T P : Type*) where
  timers : Timers T P
  clock : ℕ
  added : T → Option (ℕ × ℕ)
  deleted : T → Option ℕ
  woken : List (T × ℕ)

namespace TimerRun

variable {T P : Type*} [DecidableEq T] [DecidableEq P]

def init (procs : P → Waiter) : TimerRun T P :=
  ⟨Timers.init procs, 0, fun _ => none, fun _ => none, []⟩

/-- A timer that is added once, with an `unsigned int`. -/
def mayAdd (s : TimerRun T P) (t : T) (e : ℕ) : Bool :=
  (s.added t).isNone && decide (0 < e) && decide (e < 2 ^ 32)

def recordAdd (s : TimerRun T P) (t : T) (e : ℕ) (timers : Timers T P) : TimerRun T P :=
  { s with timers := timers, added := Function.update s.added t (some (s.clock, e)) }

def recordDel (s : TimerRun T P) (t : T) : TimerRun T P :=
  { s with
    timers := s.timers.delTimer t
    deleted := Function.update s.deleted t (some ((s.deleted t).getD s.clock)) }

def recordTick (s : TimerRun T P) (r : List T × Timers T P) : TimerRun T P :=
  { s with timers := r.2, clock := s.clock + 1, woken := s.woken ++ r.1.map (fun t => (t, s.clock + 1)) }

/-- No result where the kernel panics. -/
def step (s : TimerRun T P) : TimerOp T P → Option (TimerRun T P)
  | .add t p e =>
    if s.mayAdd t e then (((s.timers.timerInit t p e).addTimer t).toOption).map (s.recordAdd t e)
    else none
  | .sleep t p time =>
    if time = 0 then some s
    else if s.mayAdd t time then ((s.timers.doSleep t p time).toOption).map (s.recordAdd t time)
    else none
  | .del t => if s.added t = none then none else some (s.recordDel t)
  | .tick => (s.timers.runTimerList.toOption).map s.recordTick
  | .setProc p w => some { s with timers := s.timers.setProc p w }

/-- The tick at which a timer is due. -/
def due (s : TimerRun T P) (t : T) : ℕ := (s.added t).elim 0 (fun a => a.1 + a.2)

/-- A timer wakes its process at its tick, once, and only if it was not deleted before; the
list is in the order of the ticks and its head has time left. -/
structure Exact (s : TimerRun T P) : Prop where
  woken : ∀ t c, (t, c) ∈ s.woken ↔
    ∃ a e, s.added t = some (a, e) ∧ c = a + e ∧ c ≤ s.clock ∧ ∀ d, s.deleted t = some d → c ≤ d
  once : s.woken.Nodup
  order : s.timers.timerList.Pairwise (fun t u => s.due t ≤ s.due u)
  pending : ∀ t, t ∈ s.timers.timerList ↔
    ∃ a e, s.added t = some (a, e) ∧ s.clock < a + e ∧ s.deleted t = none
  head : ∀ t, s.timers.timerList.head? = some t → s.timers.expires t ≠ 0

/-- `run_timer_list` may wake the process of `t`. -/
def CanWake (s : Timers T P) (t : T) : Prop :=
  ∀ p, s.proc t = some p → (s.procs p).state ≠ .zombie ∧
    ((s.procs p).waitState ≠ 0 → (s.procs p).waitState &&& wtInterrupted ≠ 0)

end TimerRun
end Ucore.Schedule
