import Ucore.Libs.Defs
import Ucore.Library.Run
import Ucore.Library.Tally
import Mathlib.Data.List.Nodup

/-!
The inodes in memory: `sfs_load_inode` looks them up in the hash list or creates them,
`inode_ref_dec` starts a reclaim when the count reaches zero, and `sfs_reclaim` decides
under the lock of the file system whether the inode goes. A step is one critical section or
one change of a count.
-/
namespace Ucore.Fs

open Libs Library

/-- `serial` tells apart the inodes that were at one address at different times. -/
structure MemInode where
  ino : ℕ
  refCount : ℕ
  openCount : ℕ
  reclaimCount : ℕ
  dirty : Bool
  nlinks : ℕ
  serial : ℕ

/-- `held` are the references with the processes that hold them. A process in `reclaiming`
has brought a count to zero and waits for the lock, one in `killing` has left the critical
section of `sfs_reclaim` and has the inode to kill. `killed` and `failures` list the inodes
that were killed, and those with a failed write-back in `sfs_reclaim`. -/
structure InodeCache where
  inode : ℕ → Option MemInode
  hashList : ℕ → List ℕ
  held : Multiset (ℕ × ℕ)
  reclaiming : Multiset (ℕ × ℕ)
  killing : Multiset (ℕ × ℕ)
  nextSerial : ℕ
  killed : List ℕ
  failures : List ℕ

/-- How the load of an inode that is not in memory goes. -/
inductive LoadResult where
  | noMem
  | readError
  | created (node nlinks : ℕ)

/-- How the input and output in `sfs_reclaim` goes: `truncate` leaves a new `dirty` or fails. -/
structure WriteBack where
  truncate : Option Bool
  fsync : Bool

inductive CacheOp where
  | load (p ino : ℕ) (result : LoadResult)
  | refInc (p node : ℕ)
  | write (p node : ℕ)
  | refDec (p node : ℕ)
  | reclaim (p node : ℕ) (io : WriteBack)
  | kill (p node : ℕ)

def sinHashfn (x : ℕ) : ℕ := uint32 (x * 0x9e370001) / 2 ^ 22

namespace InodeCache

def empty : InodeCache :=
  { inode := fun _ => none, hashList := fun _ => [], held := 0, reclaiming := 0, killing := 0,
    nextSerial := 0, killed := [], failures := [] }

def setInode (c : InodeCache) (n : ℕ) (i : MemInode) : InodeCache :=
  { c with inode := Function.update c.inode n (some i) }

/-- The loop of `lookup_sfs_nolock`; a link to freed memory is a fault. -/
def searchList (c : InodeCache) (ino : ℕ) : List ℕ → Option (Option ℕ)
  | [] => some none
  | n :: rest => (c.inode n).bind (fun i => if i.ino = ino then some (some n) else searchList c ino rest)

/-- `inode_ref_inc` and the process that gets the reference. -/
def refInc (c : InodeCache) (p n : ℕ) (i : MemInode) : InodeCache :=
  { c.setInode n { i with refCount := i.refCount + 1 } with held := (p, n) ::ₘ c.held }

/-- A hit in the hash list; the first reference accounts for one more reclaim. -/
def hit (c : InodeCache) (p n : ℕ) (i : MemInode) : InodeCache :=
  if i.refCount + 1 = 1 then c.refInc p n { i with reclaimCount := i.reclaimCount + 1 }
  else c.refInc p n i

def newInode (c : InodeCache) (ino nlinks : ℕ) : MemInode :=
  { ino := ino, refCount := 1, openCount := 0, reclaimCount := 1, dirty := false, nlinks := nlinks,
    serial := c.nextSerial }

/-- `sfs_create_inode` and `sfs_set_links`. -/
def create (c : InodeCache) (p ino n nlinks : ℕ) : InodeCache :=
  { c.setInode n (c.newInode ino nlinks) with
    hashList := Function.update c.hashList (sinHashfn ino) (n :: c.hashList (sinHashfn ino))
    held := (p, n) ::ₘ c.held
    nextSerial := c.nextSerial + 1 }

def sfsLoadInode (c : InodeCache) (p ino : ℕ) (result : LoadResult) : Option InodeCache :=
  (c.searchList ino (c.hashList (sinHashfn ino))).bind (fun found =>
    match found, result with
    | some n, _ => (c.inode n).map (fun i => c.hit p n i)
    | none, .noMem => some c
    | none, .readError => some c
    | none, .created n nlinks => if nlinks ≠ 0 then some (c.create p ino n nlinks) else none)

def inodeRefDec (c : InodeCache) (p n : ℕ) (i : MemInode) : Option InodeCache :=
  if 0 < i.refCount then
    let c' := { c.setInode n { i with refCount := i.refCount - 1 } with held := c.held.erase (p, n) }
    if i.refCount - 1 = 0 then some { c' with reclaiming := (p, n) ::ₘ c'.reclaiming } else some c'
  else none

/-- The write-back fails, and the inode stays in memory. -/
def fail (c : InodeCache) (n : ℕ) (i : MemInode) : InodeCache :=
  { c.setInode n i with failures := i.serial :: c.failures }

/-- `sfs_remove_links`; what is left is `vop_kill`, outside the lock. -/
def removeLinks (c : InodeCache) (p n : ℕ) (i : MemInode) : InodeCache :=
  { c.setInode n i with
    hashList := fun h => (c.hashList h).erase n
    killing := (p, n) ::ₘ c.killing }

/-- From the write-back on. -/
def writeBack (c : InodeCache) (p n : ℕ) (i : MemInode) (io : WriteBack) : InodeCache :=
  if i.dirty then
    if io.fsync then c.removeLinks p n { i with dirty := false } else c.fail n i
  else c.removeLinks p n i

/-- The critical section of `sfs_reclaim`. An inode without links is truncated first. -/
def sfsReclaim (c : InodeCache) (p n : ℕ) (i : MemInode) (io : WriteBack) : Option InodeCache :=
  if 0 < i.reclaimCount then
    let i' := { i with reclaimCount := i.reclaimCount - 1 }
    let c' := { c with reclaiming := c.reclaiming.erase (p, n) }
    if i'.reclaimCount ≠ 0 ∨ i'.refCount ≠ 0 then some (c'.setInode n i')
    else if i'.nlinks = 0 then
      match io.truncate with
      | none => some (c'.fail n i')
      | some dirty => some (c'.writeBack p n { i' with dirty := dirty } io)
    else some (c'.writeBack p n i' io)
  else none

def inodeKill (c : InodeCache) (p n : ℕ) (i : MemInode) : Option InodeCache :=
  if i.refCount = 0 ∧ i.openCount = 0 then
    some { c with
      inode := Function.update c.inode n none
      killing := c.killing.erase (p, n)
      killed := i.serial :: c.killed }
  else none

/-- `none` is a failed assertion or a use of freed memory. -/
def step (c : InodeCache) : CacheOp → Option InodeCache
  | .load p ino result => c.sfsLoadInode p ino result
  | .refInc p n => (c.inode n).map (fun i => c.refInc p n i)
  | .write _ n => (c.inode n).map (fun i => c.setInode n { i with dirty := true })
  | .refDec p n => (c.inode n).bind (fun i => c.inodeRefDec p n i)
  | .reclaim p n io => (c.inode n).bind (fun i => c.sfsReclaim p n i io)
  | .kill p n => (c.inode n).bind (fun i => c.inodeKill p n i)

/-- What the processes do: an inode number in use is loaded, memory that is not in use is
allocated, and a process only works on inodes it holds or has to reclaim or to kill. -/
def Allowed (c : InodeCache) : CacheOp → Prop
  | .load _ _ (.created n nlinks) => c.inode n = none ∧ nlinks ≠ 0
  | .load _ _ _ => True
  | .refInc p n => (p, n) ∈ c.held
  | .write p n => (p, n) ∈ c.held
  | .refDec p n => (p, n) ∈ c.held
  | .reclaim p n _ => (p, n) ∈ c.reclaiming
  | .kill p n => (p, n) ∈ c.killing

instance (c : InodeCache) : (op : CacheOp) → Decidable (c.Allowed op)
  | .load _ _ (.created n nlinks) => inferInstanceAs (Decidable (c.inode n = none ∧ nlinks ≠ 0))
  | .load _ _ .noMem => inferInstanceAs (Decidable True)
  | .load _ _ .readError => inferInstanceAs (Decidable True)
  | .refInc p n => inferInstanceAs (Decidable ((p, n) ∈ c.held))
  | .write p n => inferInstanceAs (Decidable ((p, n) ∈ c.held))
  | .refDec p n => inferInstanceAs (Decidable ((p, n) ∈ c.held))
  | .reclaim p n _ => inferInstanceAs (Decidable ((p, n) ∈ c.reclaiming))
  | .kill p n => inferInstanceAs (Decidable ((p, n) ∈ c.killing))

end InodeCache
end Ucore.Fs
