import Mathlib.Data.Finset.Insert
import Mathlib.Data.Finset.Erase
import Mathlib.Data.Int.Notation
import Mathlib.Logic.Function.Basic

/-!
Processes and the page tables they run on: `mm`, `pgdir` and the register `satp` through
`do_fork`, `do_execve`, `do_exit` and the calls of `schedule()` in between.
-/
namespace Ucore.Process

inductive ProcState where
  | uninit
  | sleeping
  | runnable
  | zombie
  deriving DecidableEq

/-- How far a process is in `do_fork`, `do_execve` or `do_exit`. It is `loading` in
`load_icode` and `exiting` between `mm_count_dec` and the last `schedule()` of `do_exit`;
`released` says that it had an `mm` and gave it up. `newMm` is the `mm` of `load_icode`. -/
inductive Pc where
  | plain
  | forking (child : ℕ)
  | loading (released : Bool) (newMm : Option ℕ)
  | exiting (released : Bool)
  deriving DecidableEq

structure Proc where
  state : ProcState
  mm : Option ℕ
  pgdir : ℕ
  pc : Pc

/-- `pgdir` is the page of the page directory. -/
structure MmStruct where
  mmCount : ℤ
  pgdir : ℕ

/-- `mm` holds the `mm_struct`s on which `put_pgdir` has not been called. -/
structure Procs where
  pids : Finset ℕ
  proc : ℕ → Proc
  mm : ℕ → Option MmStruct
  current : ℕ
  satp : ℕ

/-- The page of `boot_pgdir_pa`. -/
def bootPgdir : ℕ := 0

def idleproc : ℕ := 0

def initproc : ℕ := 1

/-- Calls of the current process, or parts of them between which it may block. `wakeup` is
the work of anyone else. -/
inductive ProcOp where
  | fork (child : ℕ) (cloneVm : Bool) (mm page : ℕ)
  | forkDone
  | forkUndo
  | execve
  | loadMm (mm page : ℕ)
  | loadDone
  | loadFail
  | exit
  | zombie (next : ℕ)
  | block (next : ℕ)
  | yield (next : ℕ)
  | wakeup (p : ℕ)
  | wait (child : ℕ)

namespace Procs

def cur (s : Procs) : Proc := s.proc s.current

def setProc (s : Procs) (p : ℕ) (pr : Proc) : Procs := { s with proc := Function.update s.proc p pr }

def setCur (s : Procs) (pr : Proc) : Procs := s.setProc s.current pr

def setMm (s : Procs) (m : ℕ) (a : Option MmStruct) : Procs :=
  { s with mm := Function.update s.mm m a }

def setPids (s : Procs) (pids : Finset ℕ) : Procs := { s with pids := pids }

def setSatp (s : Procs) (satp : ℕ) : Procs := { s with satp := satp }

/-- `alloc_proc` -/
def allocProc : Proc := ⟨.uninit, none, bootPgdir, .plain⟩

/-- `mm_count_dec`, and the last one frees the page directory; `none` where the `mm` is gone. -/
def dropMm (s : Procs) (m : ℕ) : Option Procs :=
  (s.mm m).map (fun a =>
    if a.mmCount - 1 = 0 then s.setMm m none else s.setMm m (some { a with mmCount := a.mmCount - 1 }))

/-- `copy_mm`: the child shares the `mm` or gets a new one. -/
def copyMm (s : Procs) (cloneVm : Bool) (mm page : ℕ) : Option (Procs × Proc) :=
  match s.cur.mm with
  | none => some (s, allocProc)
  | some old =>
    (s.mm old).map (fun a =>
      if cloneVm then
        (s.setMm old (some { a with mmCount := a.mmCount + 1 }),
          { allocProc with mm := some old, pgdir := a.pgdir })
      else (s.setMm mm (some ⟨1, page⟩), { allocProc with mm := some mm, pgdir := page }))

def fork (s : Procs) (child : ℕ) (cloneVm : Bool) (mm page : ℕ) : Option Procs :=
  (s.copyMm cloneVm mm page).map (fun r =>
    ((r.1.setPids (insert child r.1.pids)).setProc child r.2).setCur
      { s.cur with pc := .forking child })

def setState (s : Procs) (p : ℕ) (state : ProcState) : Procs :=
  s.setProc p { s.proc p with state := state }

@[simp] theorem setState_pids (s : Procs) (p : ℕ) (st : ProcState) : (s.setState p st).pids = s.pids := rfl

@[simp] theorem setState_current (s : Procs) (p : ℕ) (st : ProcState) :
    (s.setState p st).current = s.current := rfl

/-- The end of `do_fork`. -/
def forkDone (s : Procs) (child : ℕ) : Procs :=
  (s.setState child .runnable).setCur { s.cur with pc := .plain }

/-- `bad_fork_cleanup_fs` -/
def forkUndo (s : Procs) (child : ℕ) : Option Procs :=
  (match (s.proc child).mm with
    | none => some s
    | some m => s.dropMm m).map (fun s' : Procs =>
      (s'.setPids (s'.pids.erase child)).setCur { s.cur with pc := .plain })

/-- `lsatp(boot_pgdir_pa)`, `mm_count_dec` and `current->mm = NULL`; `current->pgdir` stays. -/
def releaseMm (s : Procs) (pc : Bool → Pc) : Option Procs :=
  match s.cur.mm with
  | none => some (s.setCur { s.cur with pc := pc false })
  | some m =>
    (s.dropMm m).map (fun s' =>
      (s'.setSatp bootPgdir).setCur { s.cur with mm := none, pc := pc true })

/-- `current->mm = mm`, `current->pgdir = PADDR(mm->pgdir)` and `lsatp`. -/
def loadDone (s : Procs) (m : ℕ) : Option Procs :=
  (s.mm m).map (fun a =>
    ((s.setMm m (some { a with mmCount := 1 })).setSatp a.pgdir).setCur
      { s.cur with mm := some m, pgdir := a.pgdir, pc := .plain })

/-- `exit_mmap`, `put_pgdir` and `mm_destroy` for the `mm` that `load_icode` has made, if any. -/
def dropNew (s : Procs) : Option ℕ → Procs
  | none => s
  | some m => s.setMm m none

/-- `panic` in `do_exit`. -/
def mayExit (s : Procs) : Prop := s.current ≠ idleproc ∧ s.current ≠ initproc

instance (s : Procs) : Decidable s.mayExit := inferInstanceAs (Decidable (_ ∧ _))

/-- `schedule()` once the next process is chosen; the queue holds runnable processes only.
`proc_run` loads `satp` if the process changes. -/
def schedule (s : Procs) (next : ℕ) : Option Procs :=
  if next ∈ s.pids ∧ (next = idleproc ∨ (s.proc next).state = .runnable) then
    if next = s.current then some s
    else some { s with current := next, satp := (s.proc next).pgdir }
  else none

def step (s : Procs) : ProcOp → Option Procs
  | .fork child cloneVm mm page => if s.cur.pc = .plain then s.fork child cloneVm mm page else none
  | .forkDone =>
    match s.cur.pc with
    | .forking child => some (s.forkDone child)
    | _ => none
  | .forkUndo =>
    match s.cur.pc with
    | .forking child => s.forkUndo child
    | _ => none
  | .execve => if s.cur.pc = .plain then s.releaseMm (fun released => .loading released none) else none
  | .loadMm mm page =>
    match s.cur.pc with
    | .loading released none =>
      some ((s.setMm mm (some ⟨0, page⟩)).setCur { s.cur with pc := .loading released (some mm) })
    | _ => none
  | .loadDone =>
    match s.cur.pc with
    | .loading _ (some m) => s.loadDone m
    | _ => none
  | .loadFail =>
    match s.cur.pc with
    | .loading released newMm =>
      if s.mayExit then some ((s.dropNew newMm).setCur { s.cur with pc := .exiting released })
      else none
    | _ => none
  | .exit => if s.cur.pc = .plain ∧ s.mayExit then s.releaseMm .exiting else none
  | .zombie next =>
    match s.cur.pc with
    | .exiting _ => (s.setState s.current .zombie).schedule next
    | _ => none
  | .block next => (s.setState s.current .sleeping).schedule next
  | .yield next => s.schedule next
  | .wakeup p => if (s.proc p).state ≠ .zombie then some (s.setState p .runnable) else none
  | .wait child =>
    if child ∈ s.pids ∧ (s.proc child).state = .zombie then
      some { s with pids := s.pids.erase child }
    else none

/-- What `kmalloc` and `alloc_page` return is not in use, and only a process on the lists is
woken up. -/
def Allowed (s : Procs) : ProcOp → Prop
  | .fork child _ mm page => child ∉ s.pids ∧ s.mm mm = none ∧ page ≠ bootPgdir
  | .loadMm mm page => s.mm mm = none ∧ page ≠ bootPgdir
  | .wakeup p => p ∈ s.pids ∧ (s.proc p).state ≠ .uninit
  | _ => True

instance (s : Procs) : (op : ProcOp) → Decidable (s.Allowed op)
  | .fork child _ mm page =>
    inferInstanceAs (Decidable (child ∉ s.pids ∧ s.mm mm = none ∧ page ≠ bootPgdir))
  | .loadMm mm page => inferInstanceAs (Decidable (s.mm mm = none ∧ page ≠ bootPgdir))
  | .wakeup p => inferInstanceAs (Decidable (p ∈ s.pids ∧ (s.proc p).state ≠ .uninit))
  | .forkDone => inferInstanceAs (Decidable True)
  | .forkUndo => inferInstanceAs (Decidable True)
  | .execve => inferInstanceAs (Decidable True)
  | .loadDone => inferInstanceAs (Decidable True)
  | .loadFail => inferInstanceAs (Decidable True)
  | .exit => inferInstanceAs (Decidable True)
  | .zombie _ => inferInstanceAs (Decidable True)
  | .block _ => inferInstanceAs (Decidable True)
  | .yield _ => inferInstanceAs (Decidable True)
  | .wait _ => inferInstanceAs (Decidable True)

/-- The process that `proc_run` switches to. -/
def switched (s : Procs) : ProcOp → Option ℕ
  | .zombie next => if next = s.current then none else some next
  | .block next => if next = s.current then none else some next
  | .yield next => if next = s.current then none else some next
  | _ => none

/-- After `start_kernel`: the idle process. -/
def boot : Procs :=
  { pids := {idleproc}, proc := fun _ => { allocProc with state := .runnable }, mm := fun _ => none,
    current := idleproc, satp := bootPgdir }

end Procs
end Ucore.Process
