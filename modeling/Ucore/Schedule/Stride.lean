import Mathlib.Data.Int.Order.Basic
import Mathlib.Tactic.Ring
import Ucore.Libs.Defs
import Ucore.Libs.SkewHeap

/-!
The stride scheduler of `default_sched_stride.c` under the scheduling framework of
`sched.c`, with the places of `proc.c` that make a process, put it to sleep, end it and set
its priority. Of a process only what scheduling reads and writes is kept.
-/
namespace Ucore.Schedule

open Libs Library Library.LinkedTree

def bigStride : ℕ := 1000000

def maxTimeSlice : ℕ := 5

/-- The value of an `int32_t` that is assigned `v`. -/
def int32 (v : ℤ) : ℤ := v.bmod (2 ^ 32)

inductive ProcState where
  | uninit
  | sleeping
  | runnable
  | zombie
deriving DecidableEq

structure ProcStruct where
  state : ProcState
  runs : ℕ
  needResched : Bool
  /-- `proc->rq` is the run queue, or NULL. -/
  rq : Bool
  timeSlice : ℕ
  lab6Stride : ℕ
  lab6Priority : ℕ
deriving DecidableEq

structure RunQueue (P : Type*) where
  procNum : ℕ
  maxTimeSlice : ℕ
  lab6RunPool : Option P

/-- `links` are the `lab6_run_pool` entries of the processes, and `allocated` tells which of
them `kmalloc` has handed out. -/
structure Sched (P : Type*) where
  proc : P → ProcStruct
  links : P → SkewHeapEntry P
  allocated : P → Bool
  rq : RunQueue P
  current : P
  idleproc : P

/-- What `alloc_proc` fills in. -/
def freshProc : ProcStruct := ⟨.uninit, 0, false, false, 0, 0, 1⟩

/-- What a pick adds to the stride. -/
def ProcStruct.pass (p : ProcStruct) : ℕ :=
  bigStride / (if p.lab6Priority = 0 then 1 else p.lab6Priority)

def procStrideCompF {P : Type*} (proc : P → ProcStruct) (a b : P) : ℤ :=
  let c := int32 ((proc a).lab6Stride - (proc b).lab6Stride)
  if c > 0 then 1 else if c = 0 then 0 else -1

def strideInit (P : Type*) : RunQueue P := ⟨0, Schedule.maxTimeSlice, none⟩

namespace Sched

variable {P : Type*} [DecidableEq P]

/-- After `sched_init` and the first lines of `proc_init`. -/
def init (idleproc : P) : Sched P where
  proc := Function.update (fun _ => freshProc) idleproc
    { freshProc with state := .runnable, needResched := true }
  links _ := ⟨none, none, none⟩
  allocated := Function.update (fun _ => false) idleproc true
  rq := strideInit P
  current := idleproc
  idleproc := idleproc

def setProc (k : Sched P) (p : P) (v : ProcStruct) : Sched P :=
  { k with proc := Function.update k.proc p v }

/-- `alloc_proc` on a block that `kmalloc` has found. -/
def allocProc (k : Sched P) (p : P) : Sched P :=
  { k.setProc p freshProc with
    links := skewHeapInit k.links p
    allocated := Function.update k.allocated p true }

/-- What enqueueing leaves when the pool has been linked again. -/
def enqueued (k : Sched P) (p : P) (links : P → SkewHeapEntry P) (pool : Option P) : Sched P :=
  { k with
    links := links
    rq := { k.rq with lab6RunPool := pool, procNum := k.rq.procNum + 1 }
    proc := Function.update k.proc p { k.proc p with
      timeSlice := if k.rq.maxTimeSlice > 0 then k.rq.maxTimeSlice else 1
      rq := true } }

def dequeued (k : Sched P) (p : P) (links : P → SkewHeapEntry P) (pool : Option P) : Sched P :=
  { k with
    links := links
    rq := { k.rq with lab6RunPool := pool, procNum := k.rq.procNum - 1 }
    proc := Function.update k.proc p { k.proc p with rq := false } }

/-- No merge of the pool goes deeper than it has entries. -/
def strideEnqueue (k : Sched P) (p : P) : Option (Sched P) :=
  if (k.proc p).rq then none
  else (skewHeapInsert (procStrideCompF k.proc) (k.rq.procNum + 2) k.links
    k.rq.lab6RunPool p).map fun m => k.enqueued p m.1 m.2

def strideDequeue (k : Sched P) (p : P) : Option (Sched P) :=
  if (k.proc p).rq then
    (skewHeapRemove (procStrideCompF k.proc) (k.rq.procNum + 1) k.links
      k.rq.lab6RunPool p).map fun m => k.dequeued p m.1 m.2
  else none

def stridePickNext (k : Sched P) : Sched P × Option P :=
  match k.rq.lab6RunPool with
  | none => (k, none)
  | some p =>
    (k.setProc p { k.proc p with
      lab6Stride := uint32 ((k.proc p).lab6Stride + (k.proc p).pass) }, some p)

def strideProcTick (k : Sched P) (p : P) : Sched P :=
  let slice := (k.proc p).timeSlice - 1
  k.setProc p { k.proc p with
    timeSlice := slice
    needResched := if slice = 0 then true else (k.proc p).needResched }

def schedClassEnqueue (k : Sched P) (p : P) : Option (Sched P) :=
  if p ≠ k.idleproc then k.strideEnqueue p else some k

def schedClassProcTick (k : Sched P) (p : P) : Sched P :=
  if p ≠ k.idleproc then k.strideProcTick p
  else k.setProc p { k.proc p with needResched := true }

/-- A failed assertion is no result. -/
def wakeupProc (k : Sched P) (p : P) : Option (Sched P) :=
  if (k.proc p).state = .zombie then none
  else if (k.proc p).state ≠ .runnable then
    let k := k.setProc p { k.proc p with state := .runnable }
    if p ≠ k.current then k.schedClassEnqueue p else some k
  else some k

/-- The first lines of `schedule`, up to the pick. -/
def putBack (k : Sched P) : Option (Sched P) :=
  let k := k.setProc k.current { k.proc k.current with needResched := false }
  if (k.proc k.current).state = .runnable then k.schedClassEnqueue k.current else some k

/-- The last lines of `schedule`: `proc_run` makes the chosen process the current one. -/
def runNext (k : Sched P) (next : P) : Sched P :=
  { k.setProc next { k.proc next with runs := (k.proc next).runs + 1 } with current := next }

def schedule (k : Sched P) : Option (Sched P) :=
  k.putBack.bind fun k =>
    match k.stridePickNext with
    | (k, some next) => (k.strideDequeue next).map (fun k => k.runNext next)
    | (k, none) => some (k.runNext k.idleproc)

def lab6SetPriority (k : Sched P) (priority : ℕ) : Sched P :=
  k.setProc k.current { k.proc k.current with
    lab6Priority := if uint32 priority = 0 then 1 else uint32 priority }

end Sched

/-- What happens to the processes between two picks. -/
inductive Event (P : Type*) where
  | alloc (p : P)
  | wakeup (p : P)
  | sleep
  | exit
  | reap (p : P)
  | setPriority (priority : ℕ)
  | tick
  | schedule
deriving DecidableEq

namespace Sched

variable {P : Type*} [DecidableEq P]

def step (k : Sched P) : Event P → Option (Sched P)
  -- `do_fork` fills in a block that is not in use
  | .alloc p =>
    if k.allocated p then none
    else some (k.allocProc p)
  | .wakeup p => if k.allocated p then k.wakeupProc p else none
  -- the running process marks itself in `do_wait` or `do_exit` and then calls `schedule`
  | .sleep =>
    if k.current ≠ k.idleproc ∧ (k.proc k.current).state = .runnable then
      some (k.setProc k.current { k.proc k.current with state := .sleeping })
    else none
  | .exit =>
    if k.current ≠ k.idleproc ∧ (k.proc k.current).state = .runnable then
      some (k.setProc k.current { k.proc k.current with state := .zombie })
    else none
  -- the parent frees a dead child
  | .reap p =>
    if k.allocated p ∧ (k.proc p).state = .zombie ∧ p ≠ k.current then
      some { k with allocated := Function.update k.allocated p false }
    else none
  | .setPriority priority => some (k.lab6SetPriority priority)
  | .tick => some (k.schedClassProcTick k.current)
  | .schedule => k.schedule

end Sched
end Ucore.Schedule
