import Ucore.Fs.Bitmap
import Ucore.Libs.Defs
import Ucore.Library.Call

/-!
The simple file system: the state of a mounted volume and the block input and output of
`sfs_io.c`. A block is its bytes; the entries of an indirect block are read from and
written into bytes.
-/
namespace Ucore.Fs

open Library Libs

def blkSize : ℕ := 4096

def nDirect : ℕ := 12

/-- The number of entries in an indirect block. -/
def blkNEntry : ℕ := blkSize / 4

def maxFileSize : ℕ := 1024 * 1024 * 128

def blknRoot : ℕ := 1

def blknFreemap : ℕ := 2

def blkBits : ℕ := blkSize * 8

abbrev Bytes := ℕ → UInt8

inductive FileType where
  | inval
  | file
  | dir
  | link
  deriving DecidableEq

/-- The inode as it is on disk. -/
structure DiskInode where
  size : ℕ
  type : FileType
  blocks : ℕ
  direct : ℕ → ℕ
  indirect : ℕ

structure SfsInode where
  din : DiskInode
  dirty : Bool

/-- A mounted file system. `inos` are the inode numbers in use, `inodes` the inodes, loaded
or not, and `imgSize` the length of the disk image in bytes. -/
structure Sfs where
  superBlocks : ℕ
  unusedBlocks : ℕ
  superDirty : Bool
  freemap : Bitmap
  imgSize : ℕ
  disk : ℕ → Bytes
  inos : List ℕ
  inodes : ℕ → SfsInode

inductive SfsError where
  | noMem
  | inval
  deriving DecidableEq

abbrev SfsCall (α : Type) := Call Sfs SfsError α

/-- The device of the file system: whether it refuses to write (or read) a block, which may
depend on everything that happened before. -/
class SfsDevice where
  refuses : Sfs → Bool → ℕ → Bool

/-- A device that carries out what it is asked to. -/
abbrev workingDevice : SfsDevice := ⟨fun _ _ _ => false⟩

namespace Sfs

/-- `d_blocks`: the size of the image goes through an `unsigned int`, then sectors of 512
bytes are counted, then blocks of eight sectors. -/
def dBlocks (s : Sfs) : ℕ := uint32 s.imgSize / 512 / 8

def din (s : Sfs) (ino : ℕ) : DiskInode := (s.inodes ino).din

/-- Writing the inode in memory. -/
def setDin (s : Sfs) (ino : ℕ) (din : DiskInode) : Sfs :=
  { s with inodes := Function.update s.inodes ino { s.inodes ino with din := din } }

def setDirty (s : Sfs) (ino : ℕ) : Sfs :=
  { s with inodes := Function.update s.inodes ino { s.inodes ino with dirty := true } }

end Sfs

/-! Numbers of four bytes, low byte first. -/

def get32 (b : Bytes) : ℕ :=
  (b 0).toNat + 256 * (b 1).toNat + 256 ^ 2 * (b 2).toNat + 256 ^ 3 * (b 3).toNat

def put32 (v : ℕ) : Bytes := fun i => UInt8.ofNat (v / 256 ^ i)

/-- The bytes `[offset, offset + len)` of a block are replaced. -/
def patch (blk buf : Bytes) (offset len : ℕ) : Bytes := fun i =>
  if offset ≤ i ∧ i < offset + len then buf (i - offset) else blk i

variable [SfsDevice]

/-- One block between the buffer and the disk; the result is the buffer. The offset on the
device is computed in 32 bits, and the device checks it. -/
def sfsRwblockNolock (buf : Bytes) (blkno : ℕ) (write : Bool) : SfsCall Bytes := fun s =>
  if blkno ≠ 0 ∧ blkno < s.superBlocks then
    let dev := uint32 (blkno * blkSize) / blkSize
    if dev + 1 > s.dBlocks ∨ SfsDevice.refuses s write blkno = true then some (.error .inval, s)
    else if write then some (.ok buf, { s with disk := Function.update s.disk dev buf })
    else some (.ok (s.disk dev), s)
  else none

/-- `nblks` blocks in a row. -/
def sfsRwblock (write : Bool) : ℕ → Bytes → ℕ → SfsCall Bytes
  | 0, buf, _ => pure buf
  | nblks + 1, buf, blkno => do
    let first ← sfsRwblockNolock buf blkno write
    let others ← sfsRwblock write nblks (fun i => buf (i + blkSize)) (blkno + 1)
    pure (fun i => if i < blkSize then first i else others (i - blkSize))

def sfsRblock (buf : Bytes) (blkno nblks : ℕ) : SfsCall Bytes := sfsRwblock false nblks buf blkno

def sfsWblock (buf : Bytes) (blkno nblks : ℕ) : SfsCall Bytes := sfsRwblock true nblks buf blkno

/-- `len` bytes of a block from `offset` on. -/
def sfsRbuf (len blkno offset : ℕ) : SfsCall Bytes := do
  Call.require (fun _ => offset < blkSize ∧ offset + len ≤ blkSize)
  let blk ← sfsRwblockNolock (fun _ => 0) blkno false
  pure (fun i => blk (offset + i))

/-- `len` bytes of a block are replaced: the block is read, changed and written. -/
def sfsWbuf (buf : Bytes) (len blkno offset : ℕ) : SfsCall PUnit := do
  Call.require (fun _ => offset < blkSize ∧ offset + len ≤ blkSize)
  let blk ← sfsRwblockNolock (fun _ => 0) blkno false
  let _ ← sfsRwblockNolock (patch blk buf offset len) blkno true
  pure ⟨⟩

def sfsClearBlock : ℕ → ℕ → SfsCall PUnit
  | _, 0 => pure ⟨⟩
  | blkno, nblks + 1 => do
    let _ ← sfsRwblockNolock (fun _ => 0) blkno true
    sfsClearBlock (blkno + 1) nblks

/-! Allocation of blocks. -/

/-- `bitmap_alloc` on the free map; without a free block it is `-E_NO_MEM`. -/
def allocBit : SfsCall ℕ := fun s =>
  match s.freemap.bitmapAlloc with
  | none => none
  | some (none, b) => some (.error .noMem, { s with freemap := b })
  | some (some ino, b) => some (.ok ino, { s with freemap := b })

/-- `bitmap_free` on the free map. -/
def freeBit (ino : ℕ) : SfsCall PUnit := fun s =>
  match s.freemap.bitmapFree ino with
  | none => none
  | some b => some (.ok ⟨⟩, { s with freemap := b })

def sfsBlockInuse (ino : ℕ) : SfsCall Bool := fun s =>
  if ino ≠ 0 ∧ ino < s.superBlocks then
    (s.freemap.bitmapTest ino).map (fun free => (.ok !free, s))
  else none

def assertInuse (ino : ℕ) : SfsCall PUnit := do
  let inuse ← sfsBlockInuse ino
  Call.require (fun _ => inuse = true)

def sfsBlockAlloc : SfsCall ℕ := do
  let ino ← allocBit
  Call.require (fun s => 0 < s.unusedBlocks)
  Call.modify (fun s => { s with unusedBlocks := s.unusedBlocks - 1, superDirty := true })
  assertInuse ino
  sfsClearBlock ino 1
  pure ino

def sfsBlockFree (ino : ℕ) : SfsCall PUnit := do
  assertInuse ino
  freeBit ino
  Call.modify (fun s => { s with unusedBlocks := s.unusedBlocks + 1, superDirty := true })

end Ucore.Fs
