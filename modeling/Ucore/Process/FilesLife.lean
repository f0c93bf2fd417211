import Ucore.Vfs.FileTable
import Ucore.Library.Headcount

/-!
The life of a `files_struct` through `do_fork`, `kernel_thread`, `do_execve` and `do_exit`,
with the calls on open files in between.
-/
namespace Ucore.Process.FilesLife

open Library Vfs

/-- How far a process is in `do_execve`. It is `opening` behind `files_closeall`, `loading`
once its old `mm` is gone, and `failed` at `execve_exit`. -/
inductive ExecPlace where
  | running
  | opening
  | opened (fd : ℕ)
  | loading (fd : ℕ)
  | failed

/-- How `load_icode` ends. A file with another magic number than that of ELF gives no `mm`
and no error, as `ret` is still the zero of the read before. -/
inductive LoadEnd where
  | loaded
  | badMagic
  | failed

/-- `live` says which processes were created and have not exited, and `mm` which of them
have an `mm_struct`. -/
structure ProcTable where
  vfs : VfsState
  live : ℕ → Bool
  mm : ℕ → Bool
  place : ℕ → ExecPlace

def idleproc : ℕ := 0

def initproc : ℕ := 1

def cloneVm : ℕ := 0x100

def cloneFs : ℕ := 0x800

/-- `ready` says whether what `do_fork` does before `copy_files` succeeds, `kmem` whether
`files_create` has memory, and `args` whether the arguments of `do_execve` are accepted. -/
inductive FilesOp where
  | fork (p child flags : ℕ) (ready kmem : Bool)
  | kernelThread (p child flags : ℕ) (ready kmem : Bool)
  | execve (p : ℕ) (args : Bool)
  | execOpen (p : ℕ) (path : Except VfsError (List Char))
  | releaseMm (p : ℕ)
  | loadIcode (p : ℕ) (result : LoadEnd)
  | exit (p : ℕ)
  | file (op : FsOp)

/-- `put_files` of a process. -/
def putFilesOf (io : VfsIo) (p : ℕ) : VfsCall PUnit := do
  let filesp ← Call.read (fun s => s.files.filesp p)
  match filesp with
  | none => pure ⟨⟩
  | some t => putFiles io p t

namespace ProcTable

variable {α : Type}

def setVfs (s : ProcTable) (vfs : VfsState) : ProcTable := { s with vfs := vfs }

def setLive (s : ProcTable) (p : ℕ) (live : Bool) : ProcTable :=
  { s with live := Function.update s.live p live }

def setMm (s : ProcTable) (p : ℕ) (mm : Bool) : ProcTable :=
  { s with mm := Function.update s.mm p mm }

def setPlace (s : ProcTable) (p : ℕ) (place : ExecPlace) : ProcTable :=
  { s with place := Function.update s.place p place }

/-- A call of a process on its table, which is asserted to be there. -/
def onTable (s : ProcTable) (p : ℕ) (x : ℕ → VfsCall α) : Option (Except VfsError α × VfsState) :=
  match s.vfs.files.filesp p with
  | none => none
  | some t => x t s.vfs

/-- By `copy_mm` a child has an `mm` if its parent has one, with any flags. -/
def addProc (s : ProcTable) (p child : ℕ) : ProcTable :=
  ((s.setLive child true).setMm child (s.mm p)).setPlace child .running

def doFork (s : ProcTable) (io : VfsIo) (p child flags : ℕ) (ready kmem : Bool) : Option ProcTable :=
  if ready then
    (s.onTable p (fun t => copyFiles t child (hasFlag flags cloneFs) kmem)).bind fun r =>
      match r.1 with
      | .ok _ => some ((s.setVfs r.2).addProc p child)
      | .error _ => (putFilesOf io child r.2).map fun r => s.setVfs r.2
  else some s

/-- The first part of `do_execve`, up to `files_closeall`. -/
def execve (s : ProcTable) (io : VfsIo) (p : ℕ) (args : Bool) : Option ProcTable :=
  if args then
    (s.onTable p (filesCloseall io)).map fun r => (s.setVfs r.2).setPlace p .opening
  else some s

def execOpen (s : ProcTable) (io : VfsIo) (p : ℕ) (path : Except VfsError (List Char)) :
    Option ProcTable :=
  (s.onTable p (fun t => withPath path (fun path => fileOpen io t path oRdonly))).map fun r =>
    match r.1 with
    | .ok fd => (s.setVfs r.2).setPlace p (.opened fd)
    | .error _ => (s.setVfs r.2).setPlace p .failed

def releaseMm (s : ProcTable) (p fd : ℕ) : ProcTable := (s.setMm p false).setPlace p (.loading fd)

/-- `load_icode` closes the file however it ends, and what `sysfile_close` returns is dropped. -/
def loadIcode (s : ProcTable) (io : VfsIo) (p fd : ℕ) (result : LoadEnd) : Option ProcTable :=
  (s.onTable p (fun t => fileClose io t fd)).map fun r =>
    match result with
    | .loaded => ((s.setVfs r.2).setMm p true).setPlace p .running
    | .badMagic => (s.setVfs r.2).setPlace p .running
    | .failed => (s.setVfs r.2).setPlace p .failed

/-- The table is put only together with the `mm`. -/
def doExit (s : ProcTable) (io : VfsIo) (p : ℕ) : Option ProcTable :=
  if p = idleproc ∨ p = initproc then none
  else if s.mm p then
    (putFilesOf io p s.vfs).map fun r => ((s.setVfs r.2).setMm p false).setLive p false
  else some (s.setLive p false)

/-- What a process may call on open files: in `load_icode` it only reads its file. -/
def mayCall : ExecPlace → FsOp → Bool
  | .running, .fork _ _ _ _ _ => false
  | .running, .closeall _ => false
  | .running, .exit _ => false
  | .running, _ => true
  | .loading fd, .ioStart _ fd' write => decide (fd' = fd) && !write
  | .loading _, .ioEnd _ _ _ _ => true
  | _, _ => false

/-- A process that is not inside `file_read` or `file_write`. -/
def free (s : ProcTable) (p : ℕ) : Bool := s.live p && (s.vfs.files.ioFile p).isNone

/-- A new `proc_struct` has no table. -/
def fresh (s : ProcTable) (child : ℕ) : Bool :=
  !s.live child && (s.vfs.files.filesp child).isNone

def forkFrom (s : ProcTable) (io : VfsIo) (p child flags : ℕ) (ready kmem : Bool) : Option ProcTable :=
  match s.place p with
  | .running => if s.free p && s.fresh child then s.doFork io p child flags ready kmem else none
  | _ => none

/-- The part of a system call, or nothing where the process is not at it. -/
def step (s : ProcTable) (op : FilesOp × VfsIo) : Option ProcTable :=
  match op.1 with
  | .fork p child flags ready kmem => s.forkFrom op.2 p child flags ready kmem
  | .kernelThread p child flags ready kmem => s.forkFrom op.2 p child (flags ||| cloneVm) ready kmem
  | .execve p args =>
    match s.place p with
    | .running => if s.free p then s.execve op.2 p args else none
    | _ => none
  | .execOpen p path =>
    match s.place p with
    | .opening => if s.free p then s.execOpen op.2 p path else none
    | _ => none
  | .releaseMm p =>
    match s.place p with
    | .opened fd => if s.free p then some (s.releaseMm p fd) else none
    | _ => none
  | .loadIcode p result =>
    match s.place p with
    | .loading fd => if s.free p then s.loadIcode op.2 p fd result else none
    | _ => none
  | .exit p =>
    match s.place p with
    | .running => if s.free p then s.doExit op.2 p else none
    | .failed => if s.free p then s.doExit op.2 p else none
    | _ => none
  | .file call =>
    if s.live call.caller && mayCall (s.place call.caller) call then
      (s.vfs.step (call, op.2)).map s.setVfs
    else none

/-- `idleproc` with its table, as `proc_init` leaves it before it creates `initproc`. -/
def boot (blocks : ℕ) : ProcTable where
  vfs := VfsState.boot blocks
  live := fun p => decide (p = idleproc)
  mm := fun _ => false
  place := fun _ => .running

/-- Process `p` has not exited and works on table `t`. -/
def Uses (s : ProcTable) (t p : ℕ) : Prop := s.live p = true ∧ s.vfs.files.filesp p = some t

/-- A table that was ever created is in memory as long as a process uses it, its count is
the number of these processes, and once it is gone its descriptors are closed. -/
structure Counted (s : ProcTable) : Prop where
  alive : ∀ t < s.vfs.files.nextTable, t ∈ s.vfs.files.tables ↔ ∃ p, s.Uses t p
  count : ∀ t ∈ s.vfs.files.tables, Headcount (s.Uses t) (s.vfs.files.table t).filesCount
  closed : ∀ t < s.vfs.files.nextTable, t ∉ s.vfs.files.tables →
    ∀ i < filesStructNentry, (s.vfs.files.file t i).status = .none

/-- A process that exits has an `mm`. -/
def ExitsWithMm (s : ProcTable) (op : FilesOp × VfsIo) : Prop :=
  match op.1 with
  | .exit p => s.mm p = true
  | _ => True

end ProcTable
end Ucore.Process.FilesLife
