import Ucore.Libs.ListH
import Ucore.Schedule.Timer
import Ucore.Sync.Sem

/-!
The processes of lab 8: `do_fork`, `do_exit`, `do_wait`, `do_kill` and `do_sleep` of `proc.c`,
`wakeup_proc`, `schedule` and `run_timer_list` of `sched.c` with the run queue of
`default_sched.c`, and the semaphores of `sem.c`. Processes are named in the order of their
creation, so that a name is never used again.
-/
namespace Ucore.Process.Table

open Library Libs
open Schedule (Timers maxTimeSlice wtInterrupted wtTimer)
open Sync (Semaphore wtKsem)

def idleproc : ℕ := 0

def initproc : ℕ := 1

def wtChild : ℕ := 0x00000001 ||| wtInterrupted

def maxProcess : ℕ := 4096

/-- `exiting` is the flag `PF_EXITING`, `waitPid` the process that the last `do_wait` was called
for, where `none` stands for a pid of 0, and `wakeupFlags` a field of the `wait_t` of the process.
`rq` says whether `proc->rq` is the run queue. -/
structure ProcStruct where
  state : Schedule.ProcState
  runs : ℕ
  needResched : Bool
  exiting : Bool
  exitCode : ℤ
  waitState : ℕ
  waitPid : Option ℕ
  wakeupFlags : ℕ
  rq : Bool
  timeSlice : ℕ

/-- The fields of `proc_struct` for the relations between processes. -/
structure Relations where
  parent : ℕ
  cptr : Option ℕ
  yptr : Option ℕ
  optr : Option ℕ

/-- `runLink` are the links of `run_list`, which is `none`, and of the processes. The timer of a
process has its name. `created` counts the processes made so far. -/
structure ProcTable where
  proc : ℕ → ProcStruct
  rel : ℕ → Relations
  procList : List ℕ
  nrProcess : ℕ
  created : ℕ
  current : ℕ
  runLink : Links (Option ℕ)
  procNum : ℕ
  expires : ℕ → ℕ
  timerList : List ℕ
  sem : ℕ → Semaphore ℕ

/-! The relations between processes. -/

def setRel (rel : ℕ → Relations) (p : ℕ) (f : Relations → Relations) : ℕ → Relations :=
  Function.update rel p (f (rel p))

/-- `setRel` where the pointer is not NULL. -/
def setRelOf (rel : ℕ → Relations) (p : Option ℕ) (f : Relations → Relations) : ℕ → Relations :=
  match p with
  | none => rel
  | some p => setRel rel p f

/-- The child goes in front of the other children of a process, as in `set_links`. -/
def pushChild (rel : ℕ → Relations) (parent c : ℕ) : ℕ → Relations :=
  let first := (rel parent).cptr
  let rel := setRel rel c fun r => { r with yptr := none, optr := first }
  let rel := setRelOf rel first fun r => { r with yptr := some c }
  setRel rel parent fun r => { r with cptr := some c }

/-- The child goes out of the list of its siblings, as in `remove_links`. -/
def dropChild (rel : ℕ → Relations) (c : ℕ) : ℕ → Relations :=
  let r := rel c
  let rel := setRelOf rel r.optr fun o => { o with yptr := r.yptr }
  match r.yptr with
  | some y => setRel rel y fun y => { y with optr := r.optr }
  | none => setRel rel r.parent fun p => { p with cptr := r.optr }

/-- What `alloc_proc` fills in. -/
def freshProc : ProcStruct := ⟨.uninit, 0, false, false, 0, 0, none, 0, false, 0⟩

namespace ProcTable

def setProc (s : ProcTable) (p : ℕ) (f : ProcStruct → ProcStruct) : ProcTable :=
  { s with proc := Function.update s.proc p (f (s.proc p)) }

/-! The run queue. -/

/-- What `RR_enqueue` writes into the process. -/
def refill (p : ProcStruct) : ProcStruct :=
  { p with
    timeSlice := if p.timeSlice = 0 ∨ maxTimeSlice < p.timeSlice then maxTimeSlice else p.timeSlice
    rq := true }

/-- `RR_enqueue` -/
def rrEnqueue (s : ProcTable) (p : ℕ) : Option ProcTable :=
  if listEmpty s.runLink (some p) then
    some { s.setProc p refill with
      runLink := listAddBefore s.runLink none (some p)
      procNum := s.procNum + 1 }
  else none

/-- `RR_dequeue` -/
def rrDequeue (s : ProcTable) (p : ℕ) : Option ProcTable :=
  if ¬ listEmpty s.runLink (some p) ∧ (s.proc p).rq then
    some { s with
      runLink := listDelInit s.runLink (some p)
      procNum := s.procNum - 1 }
  else none

/-- `RR_pick_next` -/
def rrPickNext (s : ProcTable) : Option ℕ := s.runLink.next none

/-- `RR_proc_tick` -/
def rrProcTick (s : ProcTable) (p : ℕ) : ProcTable :=
  s.setProc p fun q => { q with
    timeSlice := q.timeSlice - 1
    needResched := if q.timeSlice - 1 = 0 then true else q.needResched }

def schedClassEnqueue (s : ProcTable) (p : ℕ) : Option ProcTable :=
  if p ≠ idleproc then s.rrEnqueue p else some s

def schedClassProcTick (s : ProcTable) (p : ℕ) : ProcTable :=
  if p ≠ idleproc then s.rrProcTick p else s.setProc p fun q => { q with needResched := true }

/-- What `wakeup_proc` writes into the process. -/
def awake (p : ProcStruct) : ProcStruct := { p with state := .runnable, waitState := 0 }

/-- A runnable process is only warned about, a zombie stops the kernel. -/
def wakeupProc (s : ProcTable) (p : ℕ) : Option ProcTable :=
  if (s.proc p).state = .zombie then none
  else if (s.proc p).state ≠ .runnable then
    let t := s.setProc p awake
    if p ≠ s.current then t.schedClassEnqueue p else some t
  else some s

/-- The end of `schedule`, with `proc_run`. -/
def runNext (s : ProcTable) (next : ℕ) : ProcTable :=
  { s.setProc next fun q => { q with runs := q.runs + 1 } with current := next }

def schedule (s : ProcTable) : Option ProcTable :=
  let s := s.setProc s.current fun q => { q with needResched := false }
  (if (s.proc s.current).state = .runnable then s.schedClassEnqueue s.current else some s).bind
    fun s =>
      match s.rrPickNext with
      | none => some (s.runNext idleproc)
      | some next => (s.rrDequeue next).map fun s => s.runNext next

/-! Timers. -/

def timers (s : ProcTable) : Timers ℕ ℕ :=
  ⟨s.expires, some, s.timerList, fun p => ⟨(s.proc p).state, (s.proc p).waitState⟩⟩

def setTimers (s : ProcTable) (timers : Timers ℕ ℕ) : ProcTable :=
  { s with expires := timers.expires, timerList := timers.timerList }

def addTimer (s : ProcTable) (t : ℕ) : Option ProcTable :=
  (s.timers.addTimer t).toOption.map s.setTimers

def delTimer (s : ProcTable) (t : ℕ) : ProcTable := s.setTimers (s.timers.delTimer t)

/-- What `run_timer_list` does to the process of an expired timer. -/
def wakeTimer (s : ProcTable) (t : ℕ) : Option ProcTable :=
  if (s.proc t).waitState ≠ 0 ∧ (s.proc t).waitState &&& wtInterrupted = 0 then none
  else s.wakeupProc t

/-- The loop of `run_timer_list` from the timer at hand on. -/
def expireLoop (s : ProcTable) : List ℕ → Option ProcTable
  | [] => some s
  | t :: rest =>
    if s.expires t = 0 then (s.wakeTimer t).bind fun s' => expireLoop (s'.delTimer t) rest
    else some s

/-- `run_timer_list` up to the tick of the current process. -/
def expireTimers (s : ProcTable) : Option ProcTable :=
  match s.timerList with
  | [] => some s
  | t :: rest =>
    if s.expires t = 0 then none
    else
      expireLoop { s with expires := Function.update s.expires t (s.expires t - 1) } (t :: rest)

def runTimerList (s : ProcTable) : Option ProcTable :=
  s.expireTimers.map fun s => s.schedClassProcTick s.current

/-! Creating and ending a process. -/

def setLinks (s : ProcTable) (c : ℕ) : ProcTable :=
  { s with
    rel := pushChild s.rel (s.rel c).parent c
    procList := c :: s.procList
    nrProcess := s.nrProcess + 1 }

def removeLinks (s : ProcTable) (c : ℕ) : ProcTable :=
  { s with
    rel := dropChild s.rel c
    procList := s.procList.erase c
    nrProcess := s.nrProcess - 1 }

/-- `alloc_proc`, with the parent that `do_fork` sets. -/
def allocProc (s : ProcTable) : ProcTable :=
  { s with
    proc := Function.update s.proc s.created freshProc
    rel := Function.update s.rel s.created ⟨s.current, none, none, none⟩
    runLink := listInit s.runLink (some s.created)
    created := s.created + 1 }

/-- `do_fork`; `alloc` says whether `alloc_proc` finds memory, `ok` whether everything behind it
does. -/
def doFork (s : ProcTable) (alloc ok : Bool) : Option ProcTable :=
  if maxProcess ≤ s.nrProcess ∨ ¬ alloc then some s
  else
    let t := s.setProc s.current fun p => { p with waitState := 0 }
    if ok then (t.allocProc.setLinks s.created).wakeupProc s.created else some t

/-- One turn of the loop of `do_exit`: the child goes to `initproc`. -/
def adopt (s : ProcTable) (c : ℕ) : ProcTable :=
  let rel := setRel s.rel s.current fun r => { r with cptr := (s.rel c).optr }
  let rel := setRel rel c fun r => { r with parent := initproc }
  { s with rel := pushChild rel initproc c }

/-- The loop of `do_exit`; the first argument bounds its turns. -/
def adoptLoop : ℕ → ProcTable → Option ProcTable
  | 0, s => some s
  | turns + 1, s =>
    match (s.rel s.current).cptr with
    | none => some s
    | some c =>
      let s := s.adopt c
      (if (s.proc c).state = .zombie ∧ (s.proc initproc).waitState = wtChild then
        s.wakeupProc initproc else some s).bind (adoptLoop turns)

/-- `do_exit` up to its call of `schedule`. -/
def doExit (s : ProcTable) (code : ℤ) : Option ProcTable :=
  if s.current = idleproc ∨ s.current = initproc then none
  else
    let parent := (s.rel s.current).parent
    let t := s.setProc s.current fun p => { p with state := .zombie, exitCode := code }
    (if (t.proc parent).waitState = wtChild then t.wakeupProc parent else some t).bind
      (adoptLoop s.created)

/-- The loop of `do_wait` over the children: whether there is one, and the first zombie. -/
def scanChildren (s : ProcTable) : ℕ → Option ℕ → Bool → Bool × Option ℕ
  | 0, _, haskid => (haskid, none)
  | _, none, haskid => (haskid, none)
  | turns + 1, some c, _ =>
    if (s.proc c).state = .zombie then (true, some c)
    else s.scanChildren turns (s.rel c).optr true

def findChild (s : ProcTable) : Option ℕ → Bool × Option ℕ
  | none => s.scanChildren s.created (s.rel s.current).cptr false
  | some c =>
    if c ∈ s.procList ∧ (s.rel c).parent = s.current then
      (true, if (s.proc c).state = .zombie then some c else none)
    else (false, none)

/-- `do_wait` from `repeat` up to its call of `schedule` or its end, with the child that it found
and what it stores. -/
def doWait (s : ProcTable) (pid : Option ℕ) : Option (Option (ℕ × ℤ) × ProcTable) :=
  match s.findChild pid with
  | (_, some c) =>
    if c = idleproc ∨ c = initproc then none
    else some (some (c, (s.proc c).exitCode), s.removeLinks c)
  | (true, none) =>
    some (none, s.setProc s.current fun p =>
      { p with state := .sleeping, waitState := wtChild, waitPid := pid })
  | (false, none) => some (none, s)

def doKill (s : ProcTable) (p : ℕ) : Option ProcTable :=
  if p ∈ s.procList ∧ (s.proc p).exiting = false then
    let t := s.setProc p fun q => { q with exiting := true }
    if (s.proc p).waitState &&& wtInterrupted ≠ 0 then t.wakeupProc p else some t
  else some s

/-- `do_sleep` up to its call of `schedule`. -/
def doSleep (s : ProcTable) (time : ℕ) : Option ProcTable :=
  if time = 0 then some s
  else
    let s := { s with expires := Function.update s.expires s.current time }
    (s.setProc s.current fun p => { p with state := .sleeping, waitState := wtTimer }).addTimer
      s.current

/-! Semaphores. -/

def setSem (s : ProcTable) (m : ℕ) (f : Semaphore ℕ → Semaphore ℕ) : ProcTable :=
  { s with sem := Function.update s.sem m (f (s.sem m)) }

/-- `down` up to its call of `schedule`, with `wait_current_set`. -/
def down (s : ProcTable) (m : ℕ) : ProcTable :=
  if 0 < (s.sem m).value then s.setSem m fun x => { x with value := x.value - 1 }
  else
    (s.setProc s.current fun p => { p with
      state := .sleeping
      waitState := wtKsem
      wakeupFlags := wtInterrupted }).setSem m fun x => { x with queue := x.queue ++ [s.current] }

/-- `down` behind `schedule`; the assertion is that `__down` returns 0. -/
def downEnd (s : ProcTable) (m : ℕ) : Option ProcTable :=
  if (s.proc s.current).wakeupFlags = wtKsem then
    some (s.setSem m fun x => { x with queue := x.queue.erase s.current })
  else none

def up (s : ProcTable) (m : ℕ) : Option ProcTable :=
  match (s.sem m).queue with
  | [] => some (s.setSem m fun x => { x with value := x.value + 1 })
  | p :: rest =>
    if (s.proc p).waitState = wtKsem then
      ((s.setSem m fun x => { x with queue := rest }).setProc p fun q =>
        { q with wakeupFlags := wtKsem }).wakeupProc p
    else none

/-- `proc_init` before its call of `kernel_thread`. -/
def boot (values : ℕ → ℤ) : ProcTable where
  proc := Function.update (fun _ => freshProc) idleproc
    { freshProc with state := .runnable, needResched := true }
  rel := fun _ => ⟨idleproc, none, none, none⟩
  procList := []
  nrProcess := 1
  created := 1
  current := idleproc
  runLink := ⟨id, id⟩
  procNum := 0
  expires := fun _ => 0
  timerList := []
  sem := fun m => ⟨values m, []⟩

end ProcTable

/-- What happens: the calls of the current process, up to `schedule` and behind it, `schedule`
itself, and a timer interrupt. -/
inductive ProcOp where
  | fork (alloc ok : Bool)
  | exit (code : ℤ)
  | wait (pid : Option ℕ)
  | kill (p : ℕ)
  | sleep (time : ℕ)
  | sleepEnd
  | down (m : ℕ)
  | downEnd (m : ℕ)
  | up (m : ℕ)
  | wakeup (p : ℕ)
  | yield
  | tick
  | schedule

namespace ProcTable

/-- A call of the current process. Of `idleproc` there is only the fork of `proc_init`. -/
def call (s : ProcTable) : ProcOp → Option ProcTable
  | .fork alloc ok => if s.current ≠ idleproc ∨ s.created = 1 then s.doFork alloc ok else none
  | .yield => some (s.setProc s.current fun p => { p with needResched := true })
  | .exit code => s.doExit code
  | .wait pid => if s.current ≠ idleproc then (s.doWait pid).map Prod.snd else none
  | .kill p => s.doKill p
  | .sleep time => if s.current ≠ idleproc then s.doSleep time else none
  | .sleepEnd => some (s.delTimer s.current)
  | .down m => if s.current ≠ idleproc then some (s.down m) else none
  | .downEnd m => s.downEnd m
  | .up m => s.up m
  | .wakeup p => if p ∈ s.procList then s.wakeupProc p else none
  | .tick | .schedule => none

/-- Once a process is no longer runnable it makes no call until it was chosen again. -/
def step (s : ProcTable) : ProcOp → Option ProcTable
  | .tick => s.runTimerList
  | .schedule => s.schedule
  | op => if (s.proc s.current).state = .runnable then s.call op else none

end ProcTable
end Ucore.Process.Table
