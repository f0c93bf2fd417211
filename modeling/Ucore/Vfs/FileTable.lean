import Ucore.Vfs.Inode
import Ucore.Library.Holders
import Ucore.Library.Run
import Mathlib.Data.Finset.Prod
import Mathlib.Data.Finset.Range

/-!
The tables of open files: `file_open`, `file_close` and `file_dup`, the working directory,
and the tables through `do_fork`, `do_execve` and `do_exit`.
-/
namespace Ucore.Vfs

open Library

inductive FdStatus where
  | none
  | init
  | opened
  | closed
  deriving DecidableEq

structure File where
  status : FdStatus
  readable : Bool
  writable : Bool
  fd : ℕ
  pos : ℕ
  node : Option ℕ
  openCount : ℤ

structure FilesStruct where
  pwd : Option ℕ
  fdArray : ℕ → File
  filesCount : ℤ

/-- `FILES_STRUCT_NENTRY`: what a page holds beside a `files_struct`. -/
def filesStructNentry : ℕ := (4096 - 48) / 56

def noFd : ℤ := -0x9527

/-- `tables` are the `files_struct`s in memory, numbered in the order of their creation, and
`filesp` says which one a process works on. `ioFile` is the entry of a process that is inside
`file_read` or `file_write`. -/
structure Files where
  tables : Finset ℕ
  table : ℕ → FilesStruct
  nextTable : ℕ
  filesp : ℕ → Option ℕ
  ioFile : ℕ → Option ℕ
  bootfs : Option ℕ
  vdevList : List Vdev

structure VfsState where
  store : InodeStore
  files : Files

abbrev VfsCall (α : Type) := Call VfsState VfsError α

namespace Files

def file (f : Files) (t i : ℕ) : File := (f.table t).fdArray i

def setTable (f : Files) (t : ℕ) (tab : FilesStruct) : Files :=
  { f with table := Function.update f.table t tab }

def setFile (f : Files) (t i : ℕ) (file : File) : Files :=
  f.setTable t { f.table t with fdArray := Function.update (f.table t).fdArray i file }

def setPwd (f : Files) (t : ℕ) (pwd : Option ℕ) : Files := f.setTable t { f.table t with pwd := pwd }

def setFilesCount (f : Files) (t : ℕ) (count : ℤ) : Files :=
  f.setTable t { f.table t with filesCount := count }

def roots (f : Files) (t : ℕ) : Roots := ⟨(f.table t).pwd, f.bootfs, f.vdevList⟩

end Files

def onStore {α : Type} (x : StoreCall α) : VfsCall α :=
  Call.zoom VfsState.store (fun st s => { s with store := st }) x

def onFiles (g : Files → Files) : VfsCall PUnit := Call.modify (fun s => { s with files := g s.files })

def getFile (t i : ℕ) : VfsCall File := Call.read (fun s => s.files.file t i)

def setFile (t i : ℕ) (file : File) : VfsCall PUnit := onFiles (fun f => f.setFile t i file)

/-! The entries of a table. -/

def testfd (fd : ℤ) : Bool := decide (0 ≤ fd ∧ fd < filesStructNentry)

def freeEntry (tab : FilesStruct) : Option ℕ :=
  (List.range filesStructNentry).find? (fun i => decide ((tab.fdArray i).status = .none))

def chooseEntry (tab : FilesStruct) (fd : ℤ) : Except VfsError ℕ :=
  if fd = noFd then
    match freeEntry tab with
    | none => .error .maxOpen
    | some i => .ok i
  else if testfd fd then
    if (tab.fdArray fd.toNat).status = .none then .ok fd.toNat else .error .busy
  else .error .inval

/-- `get_fd_array` -/
def getFdArray (t : ℕ) : VfsCall FilesStruct := do
  Call.require (fun s => 0 < (s.files.table t).filesCount)
  Call.read (fun s => s.files.table t)

def initEntry (t i : ℕ) : VfsCall ℕ := do
  let file ← getFile t i
  Call.require (fun _ => file.openCount = 0)
  setFile t i { file with status := .init, node := none }
  pure i

def fdArrayAlloc (t : ℕ) (fd : ℤ) : VfsCall ℕ := do
  let tab ← getFdArray t
  match chooseEntry tab fd with
  | .error e => Call.fail e
  | .ok i => initEntry t i

/-- A closed entry gives its inode back. -/
def closeNode (io : VfsIo) (file : File) : VfsCall PUnit :=
  if file.status = .closed then
    match file.node with
    | some n => onStore (vfsClose io n)
    | none => Call.panic
  else pure ⟨⟩

def fdArrayFree (io : VfsIo) (t i : ℕ) : VfsCall PUnit := do
  let file ← getFile t i
  Call.require (fun _ => (file.status = .init ∨ file.status = .closed) ∧ file.openCount = 0)
  closeNode io file
  setFile t i { file with status := .none }

def fdArrayAcquire (t i : ℕ) : VfsCall PUnit := do
  let file ← getFile t i
  Call.require (fun _ => file.status = .opened)
  setFile t i { file with openCount := file.openCount + 1 }

def fdArrayRelease (io : VfsIo) (t i : ℕ) : VfsCall PUnit := do
  let file ← getFile t i
  Call.require (fun _ => (file.status = .opened ∨ file.status = .closed) ∧ 0 < file.openCount)
  setFile t i { file with openCount := file.openCount - 1 }
  if file.openCount - 1 = 0 then fdArrayFree io t i else pure ⟨⟩

def fdArrayOpen (t i : ℕ) : VfsCall PUnit := do
  let file ← getFile t i
  Call.require (fun _ => file.status = .init ∧ file.node ≠ none)
  setFile t i { file with status := .opened, openCount := file.openCount + 1 }

def fdArrayClose (io : VfsIo) (t i : ℕ) : VfsCall PUnit := do
  let file ← getFile t i
  Call.require (fun _ => file.status = .opened ∧ 0 < file.openCount)
  setFile t i { file with status := .closed, openCount := file.openCount - 1 }
  if file.openCount - 1 = 0 then fdArrayFree io t i else pure ⟨⟩

/-- From entry `j` of table `u` to entry `i` of table `t`. -/
def fdArrayDup (t i u j : ℕ) : VfsCall PUnit := do
  let dst ← getFile t i
  let src ← getFile u j
  Call.require (fun _ => dst.status = .init ∧ src.status = .opened)
  match src.node with
  | none => Call.panic
  | some n => do
    let _ ← onStore (inodeRefInc n)
    onStore (inodeOpenInc n)
    setFile t i { dst with pos := src.pos, readable := src.readable, writable := src.writable,
                           node := some n }
    fdArrayOpen t i

def fd2file (t : ℕ) (fd : ℤ) : VfsCall ℕ := do
  let tab ← getFdArray t
  if testfd fd ∧ (tab.fdArray fd.toNat).status = .opened ∧ (tab.fdArray fd.toNat).fd = fd then
    pure fd.toNat
  else Call.fail .inval

/-! Files. -/

def getMode (flags : ℕ) : VfsCall (Bool × Bool) :=
  match accessMode flags with
  | none => Call.fail .inval
  | some mode => pure mode

def vfsOpenAt (io : VfsIo) (t : ℕ) (path : List Char) (flags : ℕ) : VfsCall ℕ := do
  let r ← Call.read (fun s => s.files.roots t)
  onStore (vfsOpen io r path flags)

def openPos (node flags : ℕ) : StoreCall ℕ :=
  if hasFlag flags oAppend then vopFstat node else pure 0

/-- The clean-up of `file_open` after `vop_fstat`. -/
def undoOpen (io : VfsIo) (t i node : ℕ) : VfsCall PUnit := do
  onStore (vfsClose io node)
  fdArrayFree io t i

def fileOpen (io : VfsIo) (t : ℕ) (path : List Char) (flags : ℕ) : VfsCall ℕ := do
  let mode ← getMode flags
  let i ← fdArrayAlloc t noFd
  let node ← Call.onError (vfsOpenAt io t path flags) (fdArrayFree io t i)
  let pos ← Call.onError (onStore (openPos node flags)) (undoOpen io t i node)
  let file ← getFile t i
  setFile t i { file with pos := pos, node := some node, readable := mode.1, writable := mode.2 }
  fdArrayOpen t i
  pure file.fd

def fileClose (io : VfsIo) (t : ℕ) (fd : ℤ) : VfsCall ℕ := do
  let i ← fd2file t fd
  fdArrayClose io t i
  pure 0

def fileDup (t : ℕ) (fd1 fd2 : ℤ) : VfsCall ℕ := do
  let j ← fd2file t fd1
  let i ← fdArrayAlloc t fd2
  fdArrayDup t i t j
  let file ← getFile t i
  pure file.fd

/-! Working directories. -/

/-- `vop_ref_dec` unless the pointer is NULL. -/
def dropRef (io : VfsIo) : Option ℕ → VfsCall PUnit
  | none => pure ⟨⟩
  | some n => onStore (inodeRefDec io n)

def vfsSetCurdir (io : VfsIo) (t dir : ℕ) : VfsCall PUnit := do
  let old ← Call.read (fun s => (s.files.table t).pwd)
  if old = some dir then pure ⟨⟩
  else do
    let isDir ← onStore (vopIsDir dir)
    if isDir then do
      let _ ← onStore (inodeRefInc dir)
      onFiles (fun f => f.setPwd t (some dir))
      dropRef io old
    else Call.fail .notDir

def vfsChdir (io : VfsIo) (t : ℕ) (path : List Char) : VfsCall PUnit := do
  let r ← Call.read (fun s => s.files.roots t)
  let node ← onStore (vfsLookup io r path)
  Call.onError (vfsSetCurdir io t node) (onStore (inodeRefDec io node))
  onStore (inodeRefDec io node)

def changeBootfs (io : VfsIo) (node : Option ℕ) : VfsCall PUnit := do
  let old ← Call.read (fun s => s.files.bootfs)
  onFiles (fun f => { f with bootfs := node })
  dropRef io old

def vfsSetBootfs (io : VfsIo) (t : ℕ) : Option (List Char) → VfsCall PUnit
  | none => changeBootfs io none
  | some fsname =>
    if fsname.dropWhile (· != ':') ≠ [':'] then Call.fail .inval
    else do
      vfsChdir io t fsname
      let r ← Call.read (fun s => s.files.roots t)
      let node ← onStore (vfsGetCurdir r)
      changeBootfs io (some node)

/-! Tables. -/

/-- What `fd_array_init` leaves in an entry. -/
def emptyFile (fd : ℕ) : File := ⟨.none, false, false, fd, 0, none, 0⟩

def emptyTable : FilesStruct := ⟨none, emptyFile, 0⟩

/-- `kmem` says whether `kmalloc` has memory. -/
def filesCreate (kmem : Bool) : VfsCall ℕ :=
  if kmem then do
    let t ← Call.read (fun s => s.files.nextTable)
    onFiles (fun f => { f.setTable t emptyTable with tables := insert t f.tables, nextTable := t + 1 })
    pure t
  else Call.fail .noMem

/-- One round of the loop of `dup_files`. -/
def dupEntry (dst src i : ℕ) : VfsCall PUnit := do
  let file ← getFile src i
  if file.status = .opened then do
    let new ← getFile dst i
    setFile dst i { new with status := .init }
    fdArrayDup dst i src i
  else pure ⟨⟩

def dupPwd (dst : ℕ) : Option ℕ → VfsCall PUnit
  | none => onFiles (fun f => f.setPwd dst none)
  | some n => do
    onFiles (fun f => f.setPwd dst (some n))
    let _ ← onStore (inodeRefInc n)
    pure ⟨⟩

def dupFiles (dst src : ℕ) : VfsCall PUnit := do
  Call.require (fun s => (s.files.table dst).filesCount = 0 ∧ 0 < (s.files.table src).filesCount)
  let pwd ← Call.read (fun s => (s.files.table src).pwd)
  dupPwd dst pwd
  Call.each (dupEntry dst src) (List.range filesStructNentry)

/-- `files_count_inc` and `proc->filesp = filesp` -/
def goodFilesStruct (p t : ℕ) : VfsCall PUnit :=
  onFiles (fun f =>
    { f.setFilesCount t ((f.table t).filesCount + 1) with filesp := Function.update f.filesp p (some t) })

def copyFiles (old child : ℕ) (cloneFs kmem : Bool) : VfsCall PUnit :=
  if cloneFs then goodFilesStruct child old
  else do
    let t ← filesCreate kmem
    dupFiles t old
    goodFilesStruct child t

/-- The loops of `files_closeall` and `files_destroy`. -/
def closeOpened (io : VfsIo) (t i : ℕ) : VfsCall PUnit := do
  let file ← getFile t i
  if file.status = .opened then fdArrayClose io t i else pure ⟨⟩

def closeForGood (io : VfsIo) (t i : ℕ) : VfsCall PUnit := do
  closeOpened io t i
  Call.require (fun s => (s.files.file t i).status = .none)

def filesCloseall (io : VfsIo) (t : ℕ) : VfsCall PUnit := do
  Call.require (fun s => 0 < (s.files.table t).filesCount)
  Call.each (closeOpened io t) (List.range' 2 (filesStructNentry - 2))

def filesDestroy (io : VfsIo) (t : ℕ) : VfsCall PUnit := do
  Call.require (fun s => (s.files.table t).filesCount = 0)
  let pwd ← Call.read (fun s => (s.files.table t).pwd)
  dropRef io pwd
  Call.each (closeForGood io t) (List.range filesStructNentry)
  onFiles (fun f => { f with tables := f.tables.erase t })

/-- The process has given its table up and does not use it again. -/
def putFiles (io : VfsIo) (p t : ℕ) : VfsCall PUnit := do
  onFiles (fun f => { f with filesp := Function.update f.filesp p none })
  let tab ← Call.read (fun s => s.files.table t)
  onFiles (fun f => f.setFilesCount t (tab.filesCount - 1))
  if tab.filesCount - 1 = 0 then filesDestroy io t else pure ⟨⟩

/-- `do_fork` fails behind `copy_files` where `done` is false, and `bad_fork_cleanup_fs` runs. -/
def forkFiles (io : VfsIo) (old child : ℕ) (cloneFs kmem done : Bool) : VfsCall PUnit := do
  copyFiles old child cloneFs kmem
  let filesp ← Call.read (fun s => s.files.filesp child)
  match filesp, done with
  | some t, false => putFiles io child t
  | _, _ => pure ⟨⟩

/-! A process inside `file_read` or `file_write` holds its entry and may block, on `stdin` say. -/

def ioStart (p t : ℕ) (fd : ℤ) (write : Bool) : VfsCall PUnit := do
  let i ← fd2file t fd
  let file ← getFile t i
  if write && !file.writable || !write && !file.readable then Call.fail .inval
  else do
    fdArrayAcquire t i
    match file.node with
    | none => Call.panic
    | some n => do
      let inode ← onStore (inodeCheck n)
      Call.require (fun _ => isDir inode = false)
      onFiles (fun f => { f with ioFile := Function.update f.ioFile p (some i) })

/-- What a write leaves in the inode. -/
def setSize (n size : ℕ) (dirty : Bool) : StoreCall PUnit := do
  let i ← getInode n
  match i.info with
  | .sfs sin => setInode n { i with info := .sfs { sin with size := size, dirty := dirty } }
  | .device _ => pure ⟨⟩

def sizeOf (size : ℕ) (dirty : Bool) : Option ℕ → VfsCall PUnit
  | none => Call.panic
  | some n => onStore (setSize n size dirty)

def advance (t i copied : ℕ) : VfsCall PUnit := do
  let file ← getFile t i
  if file.status = .opened then setFile t i { file with pos := file.pos + copied } else pure ⟨⟩

def ioEnd (io : VfsIo) (p t i copied size : ℕ) (dirty : Bool) : VfsCall PUnit := do
  onFiles (fun f => { f with ioFile := Function.update f.ioFile p none })
  let file ← getFile t i
  sizeOf size dirty file.node
  advance t i copied
  fdArrayRelease io t i

/-! The system. -/

/-- A system call of process `p`, or one half of it where it may block. A path is what
`copy_path` returns. -/
inductive FsOp where
  | open (p : ℕ) (path : Except VfsError (List Char)) (flags : ℕ)
  | close (p : ℕ) (fd : ℤ)
  | dup (p : ℕ) (fd1 fd2 : ℤ)
  | chdir (p : ℕ) (path : Except VfsError (List Char))
  | setBootfs (p : ℕ) (fsname : Option (List Char))
  | fork (p child : ℕ) (cloneFs kmem done : Bool)
  | closeall (p : ℕ)
  | exit (p : ℕ)
  | ioStart (p : ℕ) (fd : ℤ) (write : Bool)
  | ioEnd (p copied size : ℕ) (dirty : Bool)

namespace FsOp

/-- The process whose call it is. -/
def caller : FsOp → ℕ
  | .open p _ _ => p
  | .close p _ => p
  | .dup p _ _ => p
  | .chdir p _ => p
  | .setBootfs p _ => p
  | .fork p _ _ _ _ => p
  | .closeall p => p
  | .exit p => p
  | .ioStart p _ _ => p
  | .ioEnd p _ _ _ => p

end FsOp

def withPath {α : Type} (path : Except VfsError (List Char)) (f : List Char → VfsCall α) : VfsCall α :=
  match path with
  | .error e => Call.fail e
  | .ok path => f path

/-- A call that returns zero unless it fails. -/
def zeroOf (x : VfsCall PUnit) : VfsCall ℕ := do
  x
  pure 0

/-- The call of `p` on its table `t`; a new process has no table yet. -/
def perform (io : VfsIo) (t : ℕ) : FsOp → VfsCall ℕ
  | .open _ path flags => withPath path (fun path => fileOpen io t path flags)
  | .close _ fd => fileClose io t fd
  | .dup _ fd1 fd2 => fileDup t fd1 fd2
  | .chdir _ path => withPath path (fun path => zeroOf (vfsChdir io t path))
  | .setBootfs _ fsname => zeroOf (vfsSetBootfs io t fsname)
  | .fork _ child cloneFs kmem done => do
    Call.require (fun s => s.files.filesp child = none)
    zeroOf (forkFiles io t child cloneFs kmem done)
  | .closeall _ => zeroOf (filesCloseall io t)
  | .exit p => zeroOf (putFiles io p t)
  | .ioStart p fd write => zeroOf (ioStart p t fd write)
  | .ioEnd p copied size dirty => do
    let i ← Call.read (fun s => s.files.ioFile p)
    match i with
    | none => Call.panic
    | some i => zeroOf (ioEnd io p t i copied size dirty)

/-- A process inside a call does nothing else. -/
def mayCall (f : Files) (op : FsOp) : Bool :=
  match op with
  | .ioEnd _ _ _ _ => true
  | _ => (f.ioFile op.caller).isNone

namespace VfsState

/-- The result of a call, unless the kernel panics. -/
def exec (s : VfsState) (op : FsOp × VfsIo) : Option (Except VfsError ℕ × VfsState) :=
  match s.files.filesp op.1.caller with
  | none => none
  | some t => if mayCall s.files op.1 && decide (t ∈ s.files.tables) then perform op.2 t op.1 s else none

def step (s : VfsState) (op : FsOp × VfsIo) : Option VfsState := (s.exec op).map Prod.snd

/-- After `fs_init` and the creation of the table of `idleproc`: three devices, and a file
system on `disk0`. -/
def boot (blocks : ℕ) : VfsState where
  store :=
    { inode := fun n =>
        match n with
        | 0 => some ⟨1, 0, .device .stdin⟩
        | 1 => some ⟨1, 0, .device .stdout⟩
        | 2 => some ⟨1, 0, .device (.disk0 blocks)⟩
        | _ => none
      hashList := fun _ _ => []
      nextNode := 3 }
  files :=
    { tables := {0}
      table := fun _ => { emptyTable with filesCount := 1 }
      nextTable := 1
      filesp := fun p => if p = 0 then some 0 else none
      ioFile := fun _ => none
      bootfs := none
      vdevList := [⟨"disk0".toList, some 2, some 0, true⟩, ⟨"stdout".toList, some 1, none, false⟩,
        ⟨"stdin".toList, some 0, none, false⟩] }

end VfsState

/-! Counting. -/

/-- The inode of an entry that is open or closed but still in use. -/
def File.held (file : File) : Option ℕ :=
  match file.status with
  | .opened => file.node
  | .closed => file.node
  | _ => none

namespace Files

def entries (f : Files) : Finset (ℕ × ℕ) := f.tables ×ˢ Finset.range filesStructNentry

def entryNode (f : Files) (e : ℕ × ℕ) : Option ℕ := (f.file e.1 e.2).held

/-- The entries that point to an inode. -/
def entryCount (f : Files) (n : ℕ) : ℕ := holders f.entries f.entryNode n

/-- The tables that have an inode as their working directory. -/
def pwdCount (f : Files) (n : ℕ) : ℕ := holders f.tables (fun t => (f.table t).pwd) n

/-- The references of the devices and of the boot file system. -/
def fsCount (f : Files) (n : ℕ) : ℕ :=
  f.vdevList.countP (fun v => v.devnode == some n) + if f.bootfs = some n then 1 else 0

def refHolders (f : Files) (n : ℕ) : ℕ := f.entryCount n + f.pwdCount n + f.fsCount n

/-- The tables agree; what is in an entry that nobody uses does not matter. -/
structure Same (f g : Files) : Prop where
  tables : g.tables = f.tables
  filesp : g.filesp = f.filesp
  bootfs : g.bootfs = f.bootfs
  vdevList : g.vdevList = f.vdevList
  pwd : ∀ t, (g.table t).pwd = (f.table t).pwd
  filesCount : ∀ t, (g.table t).filesCount = (f.table t).filesCount
  status : ∀ t i, (g.file t i).status = (f.file t i).status
  file : ∀ t i, (f.file t i).status ≠ .none → g.file t i = f.file t i

end Files

namespace VfsState

structure Balanced (s : VfsState) : Prop where
  opens : ∀ n, s.store.openCount n = s.files.entryCount n
  refs : ∀ n, s.store.refCount n = s.files.refHolders n

/-- Neither a count nor a table changes. -/
structure Unchanged (s s' : VfsState) : Prop where
  opens : ∀ n, s'.store.openCount n = s.store.openCount n
  refs : ∀ n, s'.store.refCount n = s.store.refCount n
  files : s.files.Same s'.files

end VfsState
end Ucore.Vfs
