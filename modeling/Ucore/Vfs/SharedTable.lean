import Ucore.Library.Lease
import Ucore.Vfs.FileTable

/-!
One `files_struct` that several processes share: the calls of `file.c`, and `files_closeall`, cut
at the operations of the inodes. Such an operation may block, and then other processes run. Of an
operation only its answer is kept.
-/
namespace Ucore.Vfs.SharedTable

open Library

def eInval : ℤ := 3

def eBusy : ℤ := 15

def eMaxOpen : ℤ := 22

def lseekSet : ℤ := 0

def lseekCur : ℤ := 1

def lseekEnd : ℤ := 2

/-- What a call returns; `copied` is what `file_read` and `file_write` store. -/
structure Result where
  ret : ℤ
  copied : ℕ

/-- What an operation of an inode answers; each uses some of the fields. -/
structure Answer where
  ret : ℤ
  node : ℕ
  size : ℕ
  copied : ℕ

/-- What follows `vfs_close` in `fd_array_free`: the end of the call, or the rest of the loop of
`files_closeall`. -/
inductive After where
  | finish (r : Result)
  | closeall (rest : List ℕ)

/-- The operation that a process is in, with what the call around it has at hand. In `closing` it
is the `vfs_close` of the entry, in `undoOpen` that of an inode that no entry has. -/
inductive Place where
  | outside
  | vfsOpen (i flags : ℕ) (mode : Bool × Bool)
  | openStat (i node : ℕ) (mode : Bool × Bool)
  | undoOpen (i : ℕ) (ret : ℤ)
  | transfer (i : ℕ)
  | seekStat (i : ℕ) (pos : ℤ)
  | tryseek (i : ℕ) (pos : ℤ)
  | query (i : ℕ)
  | closing (i : ℕ) (after : After)

/-- The events of an entry: `take` and `drop` are its way to `FD_INIT` and back, `open` is
`fd_array_open`, `close` is `fd_array_close`, `give` and `given` are `vfs_close` and its end. -/
abbrev FdEvent := Lease.Event ℕ ℕ

structure Table where
  filesCount : ℤ
  file : ℕ → File
  place : ℕ → Place
  result : ℕ → Result
  log : List (ℕ × FdEvent)

/-- The events of one entry. -/
def history (log : List (ℕ × FdEvent)) (i : ℕ) : List FdEvent :=
  log.filterMap fun e => if e.1 = i then some e.2 else none

namespace Table

def setFile (s : Table) (i : ℕ) (f : File → File) : Table :=
  { s with file := Function.update s.file i (f (s.file i)) }

def emit (s : Table) (i : ℕ) (e : FdEvent) : Table := { s with log := s.log ++ [(i, e)] }

def enter (s : Table) (p : ℕ) (place : Place) : Table :=
  { s with place := Function.update s.place p place }

def finish (s : Table) (p : ℕ) (r : Result) : Table :=
  { s.enter p .outside with result := Function.update s.result p r }

section

variable (s : Table) (i p : ℕ) (f : File → File) (e : FdEvent) (place : Place) (r : Result)

@[simp] theorem setFile_file :
    (s.setFile i f).file = Function.update s.file i (f (s.file i)) := rfl

@[simp] theorem setFile_log : (s.setFile i f).log = s.log := rfl

@[simp] theorem setFile_place : (s.setFile i f).place = s.place := rfl

@[simp] theorem setFile_filesCount : (s.setFile i f).filesCount = s.filesCount := rfl

@[simp] theorem emit_file : (s.emit i e).file = s.file := rfl

@[simp] theorem emit_log : (s.emit i e).log = s.log ++ [(i, e)] := rfl

@[simp] theorem emit_place : (s.emit i e).place = s.place := rfl

@[simp] theorem emit_filesCount : (s.emit i e).filesCount = s.filesCount := rfl

@[simp] theorem enter_place : (s.enter p place).place = Function.update s.place p place := rfl

@[simp] theorem finish_place : (s.finish p r).place = Function.update s.place p .outside := rfl

end

/-! The entries. A failed assertion is `none`. -/

def freeEntry (s : Table) : Option ℕ :=
  (List.range filesStructNentry).find? fun i => decide ((s.file i).status = .none)

/-- What `fd_array_alloc` chooses, or its error. -/
def chooseEntry (s : Table) (fd : ℤ) : Except ℤ ℕ :=
  if fd = noFd then
    match s.freeEntry with
    | none => .error (-eMaxOpen)
    | some i => .ok i
  else if testfd fd then
    if (s.file fd.toNat).status = .none then .ok fd.toNat else .error (-eBusy)
  else .error (-eInval)

/-- `fd_array_alloc` behind `found`. -/
def initEntry (s : Table) (i : ℕ) : Option Table :=
  if (s.file i).openCount = 0 then
    some ((s.setFile i fun f => { f with status := .init, node := none }).emit i .take)
  else none

/-- The first part of `fd_array_free`, and whether it is in `vfs_close` now. -/
def fdArrayFree (s : Table) (i : ℕ) : Option (Table × Bool) :=
  if ((s.file i).status = .init ∨ (s.file i).status = .closed) ∧ (s.file i).openCount = 0 then
    if (s.file i).status = .closed then
      (s.file i).node.map fun node => (s.emit i (.give node), true)
    else some ((s.setFile i fun f => { f with status := .none }).emit i .drop, false)
  else none

/-- The end of `fd_array_free` behind `vfs_close`. -/
def fdArrayFreed (s : Table) (i : ℕ) : Table :=
  (s.setFile i fun f => { f with status := .none }).emit i .given

def fdArrayAcquire (s : Table) (p i : ℕ) : Option Table :=
  if (s.file i).status = .opened then
    some ((s.setFile i fun f => { f with openCount := f.openCount + 1 }).emit i (.acquire p))
  else none

def fdArrayRelease (s : Table) (p i : ℕ) : Option (Table × Bool) :=
  if ((s.file i).status = .opened ∨ (s.file i).status = .closed) ∧ 0 < (s.file i).openCount then
    let t := (s.setFile i fun f => { f with openCount := f.openCount - 1 }).emit i (.release p)
    if (t.file i).openCount = 0 then t.fdArrayFree i else some (t, false)
  else none

def fdArrayOpen (s : Table) (i : ℕ) : Option Table :=
  if (s.file i).status = .init then
    (s.file i).node.map fun node =>
      (s.setFile i fun f => { f with status := .opened, openCount := f.openCount + 1 }).emit i
        (.open node)
  else none

def fdArrayClose (s : Table) (i : ℕ) : Option (Table × Bool) :=
  if (s.file i).status = .opened ∧ 0 < (s.file i).openCount then
    let t := (s.setFile i fun f =>
      { f with status := .closed, openCount := f.openCount - 1 }).emit i .close
    if (t.file i).openCount = 0 then t.fdArrayFree i else some (t, false)
  else none

/-- `fd_array_dup` from entry `j` to entry `i`; the counts of the inode are left out. -/
def fdArrayDup (s : Table) (i j : ℕ) : Option Table :=
  if (s.file i).status = .init ∧ (s.file j).status = .opened then
    (s.setFile i fun f => { f with
      pos := (s.file j).pos
      readable := (s.file j).readable
      writable := (s.file j).writable
      node := (s.file j).node }).fdArrayOpen i
  else none

/-- `fd2file` -/
def fd2file (s : Table) (fd : ℤ) : Option ℕ :=
  if testfd fd ∧ (s.file fd.toNat).status = .opened ∧ (s.file fd.toNat).fd = fd then some fd.toNat
  else none

/-! Calls, from one operation of an inode to the next. -/

/-- The process goes into `vfs_close`, or its call is over. -/
def leave (p i : ℕ) (r : Result) (x : Option (Table × Bool)) : Option Table :=
  x.map fun y => if y.2 then y.1.enter p (.closing i (.finish r)) else y.1.finish p r

/-- `fd_array_release` at the end of a call. -/
def release (s : Table) (p i : ℕ) (r : Result) : Option Table :=
  leave p i r (s.fdArrayRelease p i)

/-- The assertion of `get_fd_array`. -/
def getFdArray (s : Table) : Option Table := if 0 < s.filesCount then some s else none

/-- A call that begins with `fd2file`. -/
def onFile (s : Table) (p : ℕ) (fd : ℤ) (f : ℕ → Option Table) : Option Table :=
  if testfd fd then
    s.getFdArray.bind fun s =>
      match s.fd2file fd with
      | none => some (s.finish p ⟨-eInval, 0⟩)
      | some i => f i
  else some (s.finish p ⟨-eInval, 0⟩)

/-- A call that begins with `fd_array_alloc`. -/
def withEntry (s : Table) (p : ℕ) (fd : ℤ) (f : Table → ℕ → Option Table) : Option Table :=
  s.getFdArray.bind fun s =>
    match s.chooseEntry fd with
    | .error e => some (s.finish p ⟨e, 0⟩)
    | .ok i => (s.initEntry i).bind fun s => f s i

def fileOpen (s : Table) (p flags : ℕ) : Option Table :=
  match accessMode flags with
  | none => some (s.finish p ⟨-eInval, 0⟩)
  | some mode => s.withEntry p noFd fun s i => some (s.enter p (.vfsOpen i flags mode))

/-- The end of `file_open`. -/
def openEnd (s : Table) (p i node pos : ℕ) (mode : Bool × Bool) : Option Table :=
  ((s.setFile i fun f =>
    { f with pos := pos, node := some node, readable := mode.1, writable := mode.2 }).fdArrayOpen
      i).map fun s => s.finish p ⟨(s.file i).fd, 0⟩

def fileClose (s : Table) (p : ℕ) (fd : ℤ) : Option Table :=
  s.onFile p fd fun i => leave p i ⟨0, 0⟩ (s.fdArrayClose i)

/-- `file_read` and `file_write`; `may` is the flag of the entry that is asked for. -/
def fileTransfer (s : Table) (p : ℕ) (fd : ℤ) (may : File → Bool) : Option Table :=
  s.onFile p fd fun i =>
    if may (s.file i) then (s.fdArrayAcquire p i).map fun s => s.enter p (.transfer i)
    else some (s.finish p ⟨-eInval, 0⟩)

def fileRead (s : Table) (p : ℕ) (fd : ℤ) : Option Table := s.fileTransfer p fd File.readable

def fileWrite (s : Table) (p : ℕ) (fd : ℤ) : Option Table := s.fileTransfer p fd File.writable

def fileSeek (s : Table) (p : ℕ) (fd pos whence : ℤ) : Option Table :=
  s.onFile p fd fun i => (s.fdArrayAcquire p i).bind fun s =>
    if whence = lseekSet then some (s.enter p (.tryseek i pos))
    else if whence = lseekCur then some (s.enter p (.tryseek i (pos + (s.file i).pos)))
    else if whence = lseekEnd then some (s.enter p (.seekStat i pos))
    else s.release p i ⟨-eInval, 0⟩

/-- `file_fstat`, `file_fsync` and `file_getdirentry`. -/
def fileQuery (s : Table) (p : ℕ) (fd : ℤ) : Option Table :=
  s.onFile p fd fun i => (s.fdArrayAcquire p i).map fun s => s.enter p (.query i)

def fileDup (s : Table) (p : ℕ) (fd1 fd2 : ℤ) : Option Table :=
  s.onFile p fd1 fun j => s.withEntry p fd2 fun s i =>
    (s.fdArrayDup i j).map fun s => s.finish p ⟨(s.file i).fd, 0⟩

/-- The loop of `files_closeall` over the entries that are left. -/
def closeallLoop (p : ℕ) : List ℕ → Table → Option Table
  | [], s => some (s.finish p ⟨0, 0⟩)
  | i :: rest, s =>
    if (s.file i).status = .opened then
      (s.fdArrayClose i).bind fun y =>
        if y.2 then some (y.1.enter p (.closing i (.closeall rest))) else closeallLoop p rest y.1
    else closeallLoop p rest s

def filesCloseall (s : Table) (p : ℕ) : Option Table :=
  if 0 < s.filesCount then closeallLoop p (List.range' 2 (filesStructNentry - 2)) s else none

/-- The operation that the process is in comes to its end. -/
def resume (s : Table) (p : ℕ) (a : Answer) : Option Table :=
  match s.place p with
  | .outside => some s
  | .vfsOpen i flags mode =>
    if a.ret ≠ 0 then leave p i ⟨a.ret, 0⟩ (s.fdArrayFree i)
    else if hasFlag flags oAppend then some (s.enter p (.openStat i a.node mode))
    else s.openEnd p i a.node 0 mode
  | .openStat i node mode =>
    if a.ret ≠ 0 then some (s.enter p (.undoOpen i a.ret)) else s.openEnd p i node a.size mode
  | .undoOpen i ret => leave p i ⟨ret, 0⟩ (s.fdArrayFree i)
  | .transfer i =>
    let s := if (s.file i).status = .opened then
      s.setFile i fun f => { f with pos := f.pos + a.copied } else s
    s.release p i ⟨a.ret, a.copied⟩
  | .seekStat i pos =>
    if a.ret = 0 then some (s.enter p (.tryseek i (pos + a.size))) else s.release p i ⟨a.ret, 0⟩
  | .tryseek i pos =>
    let s := if a.ret = 0 then s.setFile i fun f => { f with pos := pos.toNat } else s
    s.release p i ⟨a.ret, 0⟩
  | .query i => s.release p i ⟨a.ret, 0⟩
  | .closing i after =>
    let s := s.fdArrayFreed i
    match after with
    | .finish r => some (s.finish p r)
    | .closeall rest => closeallLoop p rest s

end Table

inductive FdCall where
  | open (flags : ℕ)
  | close (fd : ℤ)
  | read (fd : ℤ)
  | write (fd : ℤ)
  | seek (fd pos whence : ℤ)
  | query (fd : ℤ)
  | dup (fd1 fd2 : ℤ)
  | closeall

/-- A process begins a call, or the operation that it is in ends. -/
inductive FdOp where
  | call (p : ℕ) (c : FdCall)
  | resume (p : ℕ) (a : Answer)

namespace Table

def perform (s : Table) (p : ℕ) : FdCall → Option Table
  | .open flags => s.fileOpen p flags
  | .close fd => s.fileClose p fd
  | .read fd => s.fileRead p fd
  | .write fd => s.fileWrite p fd
  | .seek fd pos whence => s.fileSeek p fd pos whence
  | .query fd => s.fileQuery p fd
  | .dup fd1 fd2 => s.fileDup p fd1 fd2
  | .closeall => s.filesCloseall p

/-- A process that is in an operation does not begin another call. -/
def step (s : Table) : FdOp → Option Table
  | .call p c =>
    match s.place p with
    | .outside => s.perform p c
    | _ => some s
  | .resume p a => s.resume p a

/-- `files_create`, and the table belongs to `n + 1` processes. -/
def start (n : ℕ) : Table := ⟨n + 1, emptyFile, fun _ => .outside, fun _ => ⟨0, 0⟩, []⟩

end Table
end Ucore.Vfs.SharedTable
