import Ucore.Library.Around
import Ucore.Schedule.Timer

/-!
The scheduler of lab 5, which looks for the next runnable process on `proc_list`, with the
calls of `proc.c` that make a process, end it, wait for it and wake it up. Processes are
named in the order of their creation, so that a name is never used again.
-/
namespace Ucore.Schedule.RoundRobin

open Library

def idleproc : ℕ := 0

def initproc : ℕ := 1

def wtChild : ℕ := 0x00000001 ||| wtInterrupted

/-- `exiting` is the flag `PF_EXITING`. `children` are `cptr` and the `optr` links behind it. -/
structure ProcStruct where
  state : ProcState
  runs : ℕ
  needResched : Bool
  exiting : Bool
  waitState : ℕ
  parent : ℕ
  children : List ℕ

/-- `created` counts the processes made so far. -/
structure ProcTable where
  proc : ℕ → ProcStruct
  procList : List ℕ
  current : ℕ
  created : ℕ

def freshProc (parent : ℕ) : ProcStruct := ⟨.runnable, 0, false, false, 0, parent, []⟩

/-- The loop of `schedule` over the entries it comes to, of which `none` is `proc_list` itself.
Where it finds nothing, `next` is the last process it looked at. -/
def scanLoop (proc : ℕ → ProcStruct) (next : Option ℕ) : List (Option ℕ) → Option ℕ
  | [] => next
  | none :: rest => scanLoop proc next rest
  | some p :: rest => if (proc p).state = .runnable then some p else scanLoop proc (some p) rest

namespace ProcTable

def setProc (s : ProcTable) (p : ℕ) (f : ProcStruct → ProcStruct) : ProcTable :=
  { s with proc := Function.update s.proc p (f (s.proc p)) }

/-- The circular list through `proc_list`. -/
def ring (s : ProcTable) : List (Option ℕ) := none :: s.procList.map some

/-- The entry `last` of `schedule`. -/
def last (s : ProcTable) : Option ℕ := if s.current = idleproc then none else some s.current

/-- The process that `schedule` chooses. -/
def pick (s : ProcTable) : ℕ :=
  match scanLoop s.proc none (around s.ring s.last) with
  | none => idleproc
  | some p => if (s.proc p).state ≠ .runnable then idleproc else p

def schedule (s : ProcTable) : ProcTable :=
  let s' := s.setProc s.current fun p => { p with needResched := false }
  let s'' := s'.setProc s'.pick fun p => { p with runs := p.runs + 1 }
  { s'' with current := s'.pick }

/-- A runnable process is only warned about, a zombie stops the kernel. -/
def wakeupProc (s : ProcTable) (p : ℕ) : Option ProcTable :=
  if (s.proc p).state = .zombie then none
  else if (s.proc p).state ≠ .runnable then
    some (s.setProc p fun q => { q with state := .runnable, waitState := 0 })
  else some s

def doFork (s : ProcTable) : ProcTable :=
  let s' := s.setProc s.current fun p =>
    { p with waitState := 0, children := s.created :: p.children }
  { s'.setProc s.created (fun _ => freshProc s.current) with
    procList := s.created :: s.procList
    created := s.created + 1 }

/-- The loop of `do_exit` that gives the children of the process to `initproc`. -/
def adoptLoop : List ℕ → ProcTable → Option ProcTable
  | [], s => some s
  | c :: rest, s =>
    let s' := (s.setProc c fun p => { p with parent := initproc }).setProc initproc
      fun p => { p with children := c :: p.children }
    if (s'.proc c).state = .zombie ∧ (s'.proc initproc).waitState = wtChild then
      (s'.wakeupProc initproc).bind (adoptLoop rest)
    else adoptLoop rest s'

/-- `do_exit` up to its call of `schedule`. -/
def doExit (s : ProcTable) : Option ProcTable :=
  if s.current = idleproc ∨ s.current = initproc then none
  else
    let s' := s.setProc s.current fun p => { p with state := .zombie }
    let parent := (s.proc s.current).parent
    (if (s'.proc parent).waitState = wtChild then s'.wakeupProc parent else some s').bind fun t =>
      adoptLoop (s.proc s.current).children
        (t.setProc s.current fun p => { p with children := [] })

/-- `remove_links` and the `kfree` behind it. -/
def removeLinks (s : ProcTable) (p : ℕ) : ProcTable :=
  { s.setProc (s.proc p).parent (fun q => { q with children := q.children.erase p }) with
    procList := s.procList.erase p }

/-- The children that `do_wait` looks at. A pid of 0 stands for all of them. -/
def waitedFor (s : ProcTable) : Option ℕ → List ℕ
  | none => (s.proc s.current).children
  | some p => if p ∈ s.procList ∧ (s.proc p).parent = s.current then [p] else []

/-- One round of `do_wait`, and whether it ends in a call of `schedule`. -/
def doWait (s : ProcTable) (pid : Option ℕ) : Option (ProcTable × Bool) :=
  match (s.waitedFor pid).find? (fun p => (s.proc p).state = .zombie) with
  | some p => if p = idleproc ∨ p = initproc then none else some (s.removeLinks p, false)
  | none =>
    if s.waitedFor pid ≠ [] then
      some (s.setProc s.current fun p => { p with state := .sleeping, waitState := wtChild }, true)
    else some (s, false)

def doKill (s : ProcTable) (p : ℕ) : Option ProcTable :=
  if p ∈ s.procList ∧ (s.proc p).exiting = false then
    let s' := s.setProc p fun q => { q with exiting := true }
    if (s'.proc p).waitState &&& wtInterrupted ≠ 0 then s'.wakeupProc p else some s'
  else some s

/-- `proc_init` before its call of `kernel_thread`. -/
def boot : ProcTable :=
  ⟨fun _ => { freshProc idleproc with needResched := true }, [], idleproc, 1⟩

end ProcTable

/-- What the current process does. `resched` is a timer tick or `do_yield`. -/
inductive Op where
  | fork
  | exit
  | wait (pid : Option ℕ)
  | kill (p : ℕ)
  | resched
  | schedule

/-- The table behind an operation, and whether a call of `schedule` follows. Of `idleproc` there
is only the fork of `proc_init` and the loop of `cpu_idle`. -/
def ProcTable.perform (s : ProcTable) : Op → Option (ProcTable × Bool)
  | .fork => some (s.doFork, false)
  | .exit => s.doExit.map fun t => (t, true)
  | .wait pid => if s.current = idleproc then none else s.doWait pid
  | .kill p => if s.current = idleproc then none else (s.doKill p).map fun t => (t, false)
  | .resched => some (s.setProc s.current fun p => { p with needResched := true }, false)
  | .schedule => some (s, true)

/-- The table, and the processes that `schedule` has chosen, the newest first. -/
structure Scheduled where
  table : ProcTable
  chosen : List ℕ

namespace Scheduled

def boot : Scheduled := ⟨ProcTable.boot, []⟩

def step (s : Scheduled) (op : Op) : Option Scheduled :=
  (s.table.perform op).map fun r =>
    if r.2 then ⟨r.1.schedule, r.1.schedule.current :: s.chosen⟩ else ⟨r.1, s.chosen⟩

end Scheduled

end Ucore.Schedule.RoundRobin
