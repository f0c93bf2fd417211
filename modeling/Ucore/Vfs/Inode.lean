import Ucore.Fs.InodeCache
import Ucore.Fs.Sfs

/-!
Inodes under their reference counts: `vfs_lookup`, `vfs_open` and `vfs_close` with the
operations of the devices and of the simple file system below them. A failed assertion and
the use of a freed inode are panics.
-/
namespace Ucore.Vfs

open Library
open Fs (FileType blkSize blknRoot sinHashfn)

inductive VfsError where
  | inval
  | noMem
  | noDev
  | naDev
  | busy
  | noEnt
  | isDir
  | notDir
  | maxOpen
  | exist
  deriving DecidableEq

/-! The flags of `open`. -/

def oRdonly : ℕ := 0

def oWronly : ℕ := 1

def oCreat : ℕ := 0x4

def oExcl : ℕ := 0x8

def oTrunc : ℕ := 0x10

def oAppend : ℕ := 0x20

def oAccmode : ℕ := 3

def hasFlag (flags flag : ℕ) : Bool := flags &&& flag != 0

/-- Readable and writable, by the access mode. -/
def accessMode (flags : ℕ) : Option (Bool × Bool) :=
  match flags &&& oAccmode with
  | 0 => some (true, false)
  | 1 => some (false, true)
  | 2 => some (true, true)
  | _ => none

def maxInodeCount : ℕ := 0x10000

def maxFnameLen : ℕ := 255

inductive VfsDevice where
  | stdin
  | stdout
  | disk0 (blocks : ℕ)

namespace VfsDevice

/-- `d_open` -/
def dOpen (flags : ℕ) : VfsDevice → Except VfsError Unit
  | stdin => if flags ≠ oRdonly then .error .inval else .ok ⟨⟩
  | stdout => if flags ≠ oWronly then .error .inval else .ok ⟨⟩
  | disk0 _ => .ok ⟨⟩

/-- `st_size` of `dev_fstat` -/
def size : VfsDevice → ℕ
  | stdin => 0
  | stdout => 0
  | disk0 blocks => blocks * blkSize

end VfsDevice

/-- The inode of a file system; `size`, `type` and `nlinks` are those of its disk inode. -/
structure SfsNode where
  fs : ℕ
  ino : ℕ
  type : FileType
  size : ℕ
  nlinks : ℕ
  dirty : Bool
  reclaimCount : ℕ

inductive InodeInfo where
  | device (dev : VfsDevice)
  | sfs (sin : SfsNode)

structure VfsInode where
  refCount : ℕ
  openCount : ℕ
  info : InodeInfo

/-- The inodes in memory, numbered in the order of their creation, and the hash lists of the
file systems. -/
structure InodeStore where
  inode : ℕ → Option VfsInode
  hashList : ℕ → ℕ → List ℕ
  nextNode : ℕ

/-- The counts of an inode; one that is not in memory has none. -/
def InodeStore.refCount (st : InodeStore) (n : ℕ) : ℕ := (st.inode n).elim 0 VfsInode.refCount

def InodeStore.openCount (st : InodeStore) (n : ℕ) : ℕ := (st.inode n).elim 0 VfsInode.openCount

abbrev StoreCall (α : Type) := Call InodeStore VfsError α

/-- What the load of an inode finds; `unused` is a block that is not in use. -/
inductive LoadedInode where
  | unused
  | failed (e : VfsError)
  | inode (type : FileType) (size nlinks : ℕ)

/-- What memory and the disk give to a call: the result of the search in a directory, the
inodes on disk, and how write-backs and truncations go. A truncation that fails may have cut
off blocks. -/
structure VfsIo where
  direntSearch : ℕ → ℕ → List Char → Except VfsError ℕ
  diskInode : ℕ → ℕ → LoadedInode
  fsync : ℕ → ℕ → Except VfsError Unit
  truncate : ℕ → ℕ → Except (VfsError × Bool) Unit

def getInode (n : ℕ) : StoreCall VfsInode := fun st => (st.inode n).map (fun i => (.ok i, st))

def setInode (n : ℕ) (i : VfsInode) : StoreCall PUnit :=
  Call.modify (fun st => { st with inode := Function.update st.inode n (some i) })

def inodeRefInc (n : ℕ) : StoreCall ℕ := do
  let i ← getInode n
  setInode n { i with refCount := i.refCount + 1 }
  pure (i.refCount + 1)

def inodeOpenInc (n : ℕ) : StoreCall PUnit := do
  let i ← getInode n
  setInode n { i with openCount := i.openCount + 1 }

def inodeCheck (n : ℕ) : StoreCall VfsInode := do
  let i ← getInode n
  Call.require (fun _ => i.openCount ≤ i.refCount ∧ i.refCount < maxInodeCount ∧
    i.openCount < maxInodeCount)
  pure i

/-! The operations of the inodes; a device has no `vop_fsync`, `vop_truncate` and
`vop_reclaim`, a directory no `vop_truncate` and a file no `vop_lookup`. -/

def sfsFsync (io : VfsIo) (n : ℕ) (i : VfsInode) (sin : SfsNode) : StoreCall PUnit :=
  if sin.dirty then
    match io.fsync sin.fs sin.ino with
    | .ok _ => setInode n { i with info := .sfs { sin with dirty := false } }
    | .error e => Call.fail e
  else pure ⟨⟩

def vopFsync (io : VfsIo) (n : ℕ) : StoreCall PUnit := do
  let i ← inodeCheck n
  match i.info with
  | .sfs sin => sfsFsync io n i sin
  | .device _ => Call.panic

def vopClose (io : VfsIo) (n : ℕ) : StoreCall PUnit := do
  let i ← inodeCheck n
  match i.info with
  | .sfs _ => vopFsync io n
  | .device _ => pure ⟨⟩

/-- `sfs_truncfile` to length zero. -/
def sfsTruncfile (io : VfsIo) (n : ℕ) (i : VfsInode) (sin : SfsNode) : StoreCall PUnit :=
  if sin.size = 0 then pure ⟨⟩
  else
    match io.truncate sin.fs sin.ino with
    | .ok _ => setInode n { i with info := .sfs { sin with size := 0, dirty := true } }
    | .error (e, cut) => do
      setInode n { i with info := .sfs { sin with dirty := sin.dirty || cut } }
      Call.fail e

def vopTruncate (io : VfsIo) (n : ℕ) : StoreCall PUnit := do
  let i ← inodeCheck n
  match i.info with
  | .sfs sin => if sin.type = .file then sfsTruncfile io n i sin else Call.panic
  | .device _ => Call.panic

def vopFstat (n : ℕ) : StoreCall ℕ := do
  let i ← inodeCheck n
  match i.info with
  | .sfs sin => pure sin.size
  | .device dev => pure dev.size

def isDir (i : VfsInode) : Bool :=
  match i.info with
  | .sfs sin => decide (sin.type = .dir)
  | .device _ => false

/-- `vop_gettype` and `S_ISDIR` -/
def vopIsDir (n : ℕ) : StoreCall Bool := do
  let i ← inodeCheck n
  pure (isDir i)

/-- `dev_open`, `sfs_opendir` and `sfs_openfile` -/
def openCheck (flags : ℕ) : InodeInfo → Except VfsError Unit
  | .device dev =>
    if hasFlag flags oCreat || hasFlag flags oTrunc || hasFlag flags oExcl || hasFlag flags oAppend then
      .error .inval
    else dev.dOpen flags
  | .sfs sin =>
    if sin.type = .dir then
      if flags &&& oAccmode ≠ oRdonly then .error .isDir
      else if hasFlag flags oAppend then .error .isDir
      else .ok ⟨⟩
    else .ok ⟨⟩

def vopOpen (n flags : ℕ) : StoreCall PUnit := do
  let i ← inodeCheck n
  match openCheck flags i.info with
  | .ok _ => pure ⟨⟩
  | .error e => Call.fail e

/-- The end of `sfs_reclaim`: the inode leaves the hash list and `inode_kill` frees it. -/
def inodeKill (n : ℕ) (sin : SfsNode) : StoreCall PUnit := do
  Call.modify (fun st => { st with
    hashList := Function.update st.hashList sin.fs (fun h => (st.hashList sin.fs h).erase n) })
  let i ← getInode n
  Call.require (fun _ => i.refCount = 0 ∧ i.openCount = 0)
  Call.modify (fun st => { st with inode := Function.update st.inode n none })

def syncIfDirty (io : VfsIo) (n : ℕ) : StoreCall PUnit := do
  let i ← getInode n
  match i.info with
  | .sfs sin => if sin.dirty then vopFsync io n else pure ⟨⟩
  | .device _ => Call.panic

/-- A dirty inode is written back before it goes. -/
def syncAndKill (io : VfsIo) (n : ℕ) (sin : SfsNode) : StoreCall PUnit := do
  syncIfDirty io n
  inodeKill n sin

def sfsReclaim (io : VfsIo) (n : ℕ) (i : VfsInode) (sin : SfsNode) : StoreCall PUnit := do
  Call.require (fun _ => 0 < sin.reclaimCount)
  setInode n { i with info := .sfs { sin with reclaimCount := sin.reclaimCount - 1 } }
  if sin.reclaimCount - 1 ≠ 0 ∨ i.refCount ≠ 0 then Call.fail .busy
  else if sin.nlinks = 0 then do
    vopTruncate io n
    syncAndKill io n sin
  else syncAndKill io n sin

def vopReclaim (io : VfsIo) (n : ℕ) : StoreCall PUnit := do
  let i ← inodeCheck n
  match i.info with
  | .sfs sin => sfsReclaim io n i sin
  | .device _ => Call.panic

def inodeRefDec (io : VfsIo) (n : ℕ) : StoreCall PUnit := do
  let i ← getInode n
  Call.require (fun _ => 0 < i.refCount)
  setInode n { i with refCount := i.refCount - 1 }
  if i.refCount - 1 = 0 then Call.warn (vopReclaim io n) else pure ⟨⟩

def inodeOpenDec (io : VfsIo) (n : ℕ) : StoreCall PUnit := do
  let i ← getInode n
  Call.require (fun _ => 0 < i.openCount)
  setInode n { i with openCount := i.openCount - 1 }
  if i.openCount - 1 = 0 then Call.warn (vopClose io n) else pure ⟨⟩

/-! Loading. -/

/-- The loop of `lookup_sfs_nolock`. -/
def searchHash (st : InodeStore) (ino : ℕ) : List ℕ → Option (Option ℕ)
  | [] => some none
  | n :: rest =>
    match st.inode n with
    | some ⟨_, _, .sfs sin⟩ => if sin.ino = ino then some (some n) else searchHash st ino rest
    | _ => none

def findHash (fs ino : ℕ) : StoreCall (Option ℕ) := fun st =>
  (searchHash st ino (st.hashList fs (sinHashfn ino))).map (fun r => (.ok r, st))

/-- A first reference accounts for one more reclaim. -/
def countReclaim (n : ℕ) : StoreCall PUnit := do
  let i ← getInode n
  match i.info with
  | .sfs sin => setInode n { i with info := .sfs { sin with reclaimCount := sin.reclaimCount + 1 } }
  | .device _ => Call.panic

def lookupHit (n : ℕ) : StoreCall ℕ := do
  let refs ← inodeRefInc n
  if refs = 1 then do
    countReclaim n
    pure n
  else pure n

/-- `sfs_create_inode` and `sfs_set_links` -/
def sfsCreateInode (fs ino : ℕ) (type : FileType) (size nlinks : ℕ) : StoreCall ℕ := do
  Call.require (fun _ => type = .dir ∨ type = .file)
  let n ← Call.read (fun st => st.nextNode)
  Call.modify (fun st => { st with
    inode := Function.update st.inode n (some ⟨1, 0, .sfs ⟨fs, ino, type, size, nlinks, false, 1⟩⟩)
    hashList := Function.update st.hashList fs (Function.update (st.hashList fs) (sinHashfn ino)
      (n :: st.hashList fs (sinHashfn ino)))
    nextNode := n + 1 })
  pure n

def sfsLoadInode (io : VfsIo) (fs ino : ℕ) : StoreCall ℕ := do
  let found ← findHash fs ino
  match found with
  | some n => lookupHit n
  | none =>
    match io.diskInode fs ino with
    | .unused => Call.panic
    | .failed e => Call.fail e
    | .inode type size nlinks => do
      Call.require (fun _ => nlinks ≠ 0)
      sfsCreateInode fs ino type size nlinks

def sfsGetRoot (io : VfsIo) (fs : ℕ) : StoreCall ℕ := Call.orPanic (sfsLoadInode io fs blknRoot)

def sfsLookupOnce (io : VfsIo) (sin : SfsNode) (name : List Char) : StoreCall ℕ := do
  Call.require (fun _ => name.length ≤ maxFnameLen)
  match io.direntSearch sin.fs sin.ino name with
  | .error e => Call.fail e
  | .ok ino => sfsLoadInode io sin.fs ino

/-- The whole path is taken for one name. -/
def sfsLookup (io : VfsIo) (n : ℕ) (sin : SfsNode) (path : List Char) : StoreCall ℕ := do
  Call.require (fun _ => path ≠ [] ∧ path.head? ≠ some '/')
  let _ ← inodeRefInc n
  let subnode ← Call.onError (sfsLookupOnce io sin path) (inodeRefDec io n)
  inodeRefDec io n
  pure subnode

def devLookup (n : ℕ) (path : List Char) : StoreCall ℕ :=
  if path ≠ [] then Call.fail .noEnt
  else do
    let _ ← inodeRefInc n
    pure n

def vopLookup (io : VfsIo) (n : ℕ) (path : List Char) : StoreCall ℕ := do
  let i ← inodeCheck n
  match i.info with
  | .device _ => devLookup n path
  | .sfs sin => if sin.type = .dir then sfsLookup io n sin path else Call.panic

/-- No inode has a `vop_create`. -/
def vopCreate (_dir : ℕ) (_name : List Char) (_excl : Bool) : StoreCall ℕ := Call.panic

/-! Paths. -/

/-- A device of `vdev_list`. -/
structure Vdev where
  devname : List Char
  devnode : Option ℕ
  fs : Option ℕ
  mountable : Bool

/-- Where a lookup may start. -/
structure Roots where
  pwd : Option ℕ
  bootfs : Option ℕ
  vdevList : List Vdev

inductive PathStart where
  | curdir
  | device (name : List Char)
  | bootfs
  | curfs

/-- The loop of `get_device` and the choice after it, with the rest of the path. -/
def pathStart (path : List Char) : PathStart × List Char :=
  match path.span (fun c => c != ':' && c != '/') with
  | ([], ':' :: rest) => (.curfs, rest.dropWhile (· == '/'))
  | (name, ':' :: rest) => (.device name, rest.dropWhile (· == '/'))
  | ([], '/' :: rest) => (.bootfs, rest.dropWhile (· == '/'))
  | _ => (.curdir, path)

/-- The path as `get_device` leaves it in its buffer: the colon is overwritten. -/
def pathLeft (path : List Char) : List Char :=
  match (pathStart path).1 with
  | .device name => name
  | _ => path

/-- A reference to a node of the roots. -/
def takeRoot (e : VfsError) : Option ℕ → StoreCall ℕ
  | none => Call.fail e
  | some n => do
    let _ ← inodeRefInc n
    pure n

def vfsGetCurdir (r : Roots) : StoreCall ℕ := takeRoot .noEnt r.pwd

def vfsGetBootfs (r : Roots) : StoreCall ℕ := takeRoot .noEnt r.bootfs

def vfsGetRoot (io : VfsIo) (r : Roots) (devname : List Char) : StoreCall ℕ :=
  match r.vdevList.find? (fun v => v.devname == devname) with
  | none => Call.fail .noDev
  | some v =>
    match v.fs with
    | some fs => sfsGetRoot io fs
    | none => if v.mountable then Call.fail .naDev else Call.orPanic (takeRoot .naDev v.devnode)

/-- `assert(node->in_fs != NULL)` and `fsop_get_root` -/
def rootOf (io : VfsIo) (n : ℕ) : StoreCall ℕ := do
  let i ← getInode n
  match i.info with
  | .sfs sin => sfsGetRoot io sin.fs
  | .device _ => Call.panic

def getDevice (io : VfsIo) (r : Roots) : PathStart → StoreCall ℕ
  | .curdir => vfsGetCurdir r
  | .device name => vfsGetRoot io r name
  | .bootfs => vfsGetBootfs r
  | .curfs => do
    let node ← vfsGetCurdir r
    let root ← rootOf io node
    inodeRefDec io node
    pure root

def vfsLookup (io : VfsIo) (r : Roots) (path : List Char) : StoreCall ℕ := do
  let node ← getDevice io r (pathStart path).1
  if (pathStart path).2 ≠ [] then do
    let found ← Call.onError (vopLookup io node (pathStart path).2) (inodeRefDec io node)
    inodeRefDec io node
    pure found
  else pure node

def vfsLookupParent (io : VfsIo) (r : Roots) (path : List Char) : StoreCall (ℕ × List Char) := do
  let node ← getDevice io r (pathStart path).1
  pure (node, (pathStart path).2)

/-! Opening and closing. -/

/-- The checks of the flags at the start of `vfs_open`. -/
def vfsFlagsOk (flags : ℕ) : Bool :=
  match accessMode flags with
  | none => false
  | some mode => !hasFlag flags oTrunc || mode.2

def checkFlags (flags : ℕ) : StoreCall PUnit :=
  if vfsFlagsOk flags then pure ⟨⟩ else Call.fail .inval

/-- The lookup or the creation in `vfs_open`. -/
def findOrCreate (io : VfsIo) (r : Roots) (path : List Char) (flags : ℕ) : StoreCall ℕ :=
  Call.branch (vfsLookup io r path)
    (fun node => if hasFlag flags oExcl && hasFlag flags oCreat then Call.fail .exist else pure node)
    (fun e =>
      if e = .noEnt ∧ hasFlag flags oCreat then do
        let dir ← vfsLookupParent io r (pathLeft path)
        vopCreate dir.1 dir.2 (hasFlag flags oExcl)
      else Call.fail e)

def truncateIf (io : VfsIo) (node flags : ℕ) : StoreCall PUnit :=
  if hasFlag flags oTrunc || hasFlag flags oCreat then vopTruncate io node else pure ⟨⟩

def vfsClose (io : VfsIo) (node : ℕ) : StoreCall PUnit := do
  inodeOpenDec io node
  inodeRefDec io node

def vfsOpen (io : VfsIo) (r : Roots) (path : List Char) (flags : ℕ) : StoreCall ℕ := do
  checkFlags flags
  let node ← findOrCreate io r path flags
  Call.onError (vopOpen node flags) (inodeRefDec io node)
  inodeOpenInc node
  Call.onError (truncateIf io node flags) (vfsClose io node)
  pure node

end Ucore.Vfs
