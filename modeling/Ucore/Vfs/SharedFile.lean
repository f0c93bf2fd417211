import Ucore.Fs.FileCalls
import Ucore.Vfs.SysRead
import Ucore.Vfs.World

/-!
One regular file and the descriptors that are open on it: `sysfile_open`, `sysfile_dup`,
`sysfile_seek`, `sysfile_read`, `sysfile_write` and `sysfile_close`, down to the blocks of the file.
-/
namespace Ucore.Vfs

open Library Libs Call Fs Vm

/-- `struct file` of a descriptor. -/
structure Descriptor where
  readable : Bool
  writable : Bool
  pos : Int64

/-- The file with its inode, and the descriptors in the order in which they were opened. The inode
is in memory if `loaded`; `nlinks`, `refCount` and `openCount` are then its counts. -/
structure SharedFile where
  sfs : Sfs
  ino : ℕ
  nlinks : ℕ
  loaded : Bool
  refCount : ℕ
  openCount : ℕ
  files : List (Option Descriptor)

/-- A call; `none` is a failed assertion. -/
abbrev FileCall (α : Type) := Call SharedFile VfsError α

/-- A buffer of a process for `sysfile_read` and `sysfile_write`: the memory of the process, the
range, and what `kmalloc` gives for the buffer of the kernel. -/
structure UserBuffer where
  mm : Option AreaList
  mem : UInt64 → UInt8
  base : UInt64
  len : UInt64
  kbuf : Option Bytes

/-- What `file_write` gives back: its result, the file system, the file and `*copied_store`. -/
structure FileWrite where
  ret : ℤ
  sfs : Sfs
  file : Descriptor
  alen : ℕ

/-- The variables of `sysfile_write`, the file system and the file. -/
structure WriteState where
  mm : Option AreaList
  mem : UInt64 → UInt8
  sfs : Sfs
  file : Descriptor
  buffer : Bytes
  base : UInt64
  len : ℕ
  copied : ℕ

namespace WriteState

/-- `copy_from_user` -/
def copyIn (st : WriteState) (alen : ℕ) : Bool × WriteState :=
  let (ok, mm) := userMemCheck st.mm st.base (UInt64.ofNat alen) false
  if ok then
    (true, { st with
      mm := mm
      buffer := patch st.buffer (fun i => st.mem (st.base + UInt64.ofNat i)) 0 alen })
  else (false, { st with mm := mm })

end WriteState

namespace SharedFile

/-- The file of a descriptor that is open. -/
def file (st : SharedFile) (fd : ℕ) : Option Descriptor := st.files.getD fd none

def setFile (st : SharedFile) (fd : ℕ) (d : Option Descriptor) : SharedFile :=
  { st with files := st.files.set fd d }

def size (st : SharedFile) : ℕ := (st.sfs.din st.ino).size

variable [SfsDevice]

def onFs {α : Type} (x : SfsCall α) : FileCall α := fun st =>
  (x st.sfs).map (fun r => (r.1.mapError sfsError, { st with sfs := r.2 }))

/-- The end of `vfs_lookup`: `sfs_load_inode` finds the inode in memory or reads it. -/
def loadInode : FileCall PUnit := do
  let st ← Call.read (fun st => st)
  if st.loaded = true then
    Call.modify (fun st => { st with refCount := st.refCount + 1 })
  else do
    onFs (Fs.sfsLoadInode st.ino)
    Call.modify (fun st => { st with
      nlinks := nlinksOf (st.sfs.disk st.ino)
      loaded := true
      refCount := 1 })

/-- `vop_reclaim` when the last reference is gone; a message is all that comes of an error. -/
def reclaim : FileCall PUnit := do
  let st ← Call.read (fun st => st)
  Call.warn (do
    onFs (Fs.sfsReclaim st.ino st.nlinks)
    Call.modify (fun st => { st with loaded := false }))

def inodeRefDec : FileCall PUnit := do
  Call.require (fun st => 0 < st.refCount)
  Call.modify (fun st => { st with refCount := st.refCount - 1 })
  let st ← Call.read (fun st => st)
  if st.refCount = 0 then reclaim else pure ⟨⟩

def inodeOpenDec : FileCall PUnit := do
  Call.require (fun st => 0 < st.openCount)
  Call.modify (fun st => { st with openCount := st.openCount - 1 })
  let st ← Call.read (fun st => st)
  if st.openCount = 0 then Call.warn (onFs (sfsClose st.ino st.nlinks)) else pure ⟨⟩

def vfsClose : FileCall PUnit := do
  inodeOpenDec
  inodeRefDec

/-- `vop_truncate` in `vfs_open`, with what undoes the open if it fails. -/
def truncateIf (flags : ℕ) : FileCall PUnit := do
  let st ← Call.read (fun st => st)
  if hasFlag flags oTrunc || hasFlag flags oCreat then
    Call.onError (onFs (Fs.sfsTruncfile st.ino 0)) vfsClose
  else pure ⟨⟩

/-- `vfs_open` with a path that leads to the file. -/
def vfsOpen (flags : ℕ) : FileCall PUnit :=
  if vfsFlagsOk flags then do
    loadInode
    if hasFlag flags oExcl && hasFlag flags oCreat then Call.fail .exist
    else do
      Call.modify (fun st => { st with openCount := st.openCount + 1 })
      truncateIf flags
  else Call.fail .inval

/-- A new descriptor; the result is its number. -/
def addFile (d : Descriptor) : FileCall ℤ := do
  let st ← Call.read (fun st => st)
  Call.modify (fun st => { st with files := st.files ++ [some d] })
  pure st.files.length

def fileOpen (flags : ℕ) : FileCall ℤ :=
  match accessMode flags with
  | none => Call.fail .inval
  | some (readable, writable) => do
    vfsOpen flags
    let st ← Call.read (fun st => st)
    addFile ⟨readable, writable, if hasFlag flags oAppend then Int64.ofNat st.size else 0⟩

def fd2file (fd : ℕ) : FileCall Descriptor := fun st =>
  match st.file fd with
  | none => some (.error .inval, st)
  | some d => some (.ok d, st)

/-- `file_dup` when there is an entry for the new descriptor. -/
def fileDup (fd : ℕ) : FileCall ℤ := do
  let d ← fd2file fd
  Call.modify (fun st => { st with refCount := st.refCount + 1, openCount := st.openCount + 1 })
  addFile d

/-- The new position that `file_seek` asks for. -/
def seekPos (d : Descriptor) (size : ℕ) (pos : Int64) (whence : ℤ) : Option Int64 :=
  if whence = 0 then some pos
  else if whence = 1 then some (pos + d.pos)
  else if whence = 2 then some (pos + Int64.ofNat size)
  else none

def fileSeek (fd : ℕ) (pos : Int64) (whence : ℤ) : FileCall ℤ := do
  let d ← fd2file fd
  let st ← Call.read (fun st => st)
  match seekPos d st.size pos whence with
  | none => Call.fail .inval
  | some pos => do
    onFs (sfsTryseek st.ino pos.toInt)
    Call.modify (fun st => st.setFile fd (some { d with pos := pos }))
    pure 0

def fileClose (fd : ℕ) : FileCall ℤ := do
  let _ ← fd2file fd
  Call.modify (fun st => st.setFile fd none)
  vfsClose
  pure 0

/-- `sysfile_read` -/
def sysfileRead (fd : ℕ) (u : UserBuffer) : FileCall ℤ := fun st =>
  match st.file fd with
  | none => some (if u.len = 0 then .ok 0 else .error .inval, st)
  | some d =>
    (Vfs.sysfileRead u.mm u.mem ⟨d.readable, d.pos, .file st.sfs st.ino⟩ u.kbuf u.base u.len).map
      (fun r => (.ok r.1, { st.setFile fd (some { d with pos := r.2.file.pos }) with
        sfs := match r.2.file.node with
          | .file s _ => s
          | _ => st.sfs }))

def fileWrite (s : Sfs) (ino : ℕ) (d : Descriptor) (buffer : Bytes) (len : ℕ) : Option FileWrite :=
  if d.writable = false then some ⟨-eInval, s, d, 0⟩
  else do
    let r ← sfsIoNolock s ino buffer d.pos.toInt len true
    -- `iobuf_skip`
    if r.alen ≤ len then
      some ⟨sfsCode r.ret, r.sfs, { d with pos := d.pos + Int64.ofNat r.alen }, r.alen⟩
    else none

/-- The loop of `sysfile_write`; the first argument bounds its turns. -/
def writeLoop (ino : ℕ) : ℕ → WriteState → Option (ℤ × WriteState)
  | 0, st => some (0, st)
  | turns + 1, st =>
    if st.len = 0 then some (0, st)
    else
      match st.copyIn (min ioBufSize st.len) with
      | (false, st) => some (-eInval, st)
      | (true, st) => do
        let r ← fileWrite st.sfs ino st.file st.buffer (min ioBufSize st.len)
        if st.len < r.alen then none
        else
          let st := { st with
            sfs := r.sfs
            file := r.file
            base := st.base + UInt64.ofNat r.alen
            len := st.len - r.alen
            copied := st.copied + r.alen }
          if r.ret ≠ 0 ∨ r.alen = 0 then some (r.ret, st) else writeLoop ino turns st

/-- `sysfile_write`, whose result is an `int`. -/
def sysfileWrite (fd : ℕ) (u : UserBuffer) : FileCall ℤ := fun st =>
  if u.len = 0 then some (.ok 0, st)
  else
    match st.file fd with
    | none => some (.error .inval, st)
    | some d =>
      if d.writable = false then some (.error .inval, st)
      else
        match u.kbuf with
        | none => some (.error .noMem, st)
        | some buffer =>
          (writeLoop st.ino u.len.toNat
            ⟨u.mm, u.mem, st.sfs, d, buffer, u.base, u.len.toNat, 0⟩).map (fun r =>
            (.ok (if r.2.copied ≠ 0 then (Int32.ofNat r.2.copied).toInt else r.1),
              { st.setFile fd (some r.2.file) with sfs := r.2.sfs }))

end SharedFile

/-- A system call for the file. An open or a dup that finds no entry in the table, or whose path
does not get to the file, ends early. -/
inductive SharedOp where
  | open (early : Option VfsError) (flags : ℕ)
  | dup (early : Option VfsError) (fd : ℕ)
  | seek (fd : ℕ) (pos : Int64) (whence : ℤ)
  | read (fd : ℕ) (u : UserBuffer)
  | write (fd : ℕ) (u : UserBuffer)
  | close (fd : ℕ)

namespace SharedFile

variable [SfsDevice]

def perform : SharedOp → FileCall ℤ
  | .open none flags => fileOpen flags
  | .open (some e) _ => Call.fail e
  | .dup none fd => fileDup fd
  | .dup (some e) _ => Call.fail e
  | .seek fd pos whence => fileSeek fd pos whence
  | .read fd u => sysfileRead fd u
  | .write fd u => sysfileWrite fd u
  | .close fd => fileClose fd

def step (st : SharedFile) (op : SharedOp) : Option SharedFile := (perform op st).map Prod.snd

end SharedFile
end Ucore.Vfs
