import Ucore.Fs.Mount

/-!
The image builder `mksfs.c`: blocks are handed out in ascending order, file data and
directory entries are written at once, inodes and indirect blocks are kept in hash tables
until the image is closed.
-/
namespace Ucore.Tools

open Fs Libs Library

def maxNblks : ℕ := 1024 * 512

def maxFnameLen : ℕ := 255

def hashListSize : ℕ := 1024

/-- `__hash32` with `HASH_SHIFT` bits. -/
def hash32 (val : ℕ) : ℕ := uint32 (val * 0x9e370001) / 2 ^ 22

def hash64 (val : ℕ) : ℕ := hash32 (uint32 val)

abbrev Words := ℕ → ℕ

/-- A buffer of words as the bytes of a block. -/
def wordBytes (data : Words) : Bytes := fun i => put32 (data (i / 4)) (i % 4)

def FileType.code : FileType → ℕ
  | .inval => 0
  | .file => 1
  | .dir => 2
  | .link => 3

/-- The inode as the builder lays it out. -/
structure HostInode where
  size : ℕ
  type : FileType
  nlinks : ℕ
  blocks : ℕ
  direct : ℕ → ℕ
  indirect : ℕ
  dbIndirect : ℕ

/-- `size` is the first word, `type` and `nlinks` share the second one. -/
def HostInode.words (inode : HostInode) : Words := fun i =>
  if i = 0 then inode.size
  else if i = 1 then FileType.code inode.type + 2 ^ 16 * inode.nlinks
  else if i = 2 then inode.blocks
  else if i < 3 + nDirect then inode.direct (i - 3)
  else if i = 3 + nDirect then inode.indirect
  else if i = 4 + nDirect then inode.dbIndirect
  else 0

/-- A cache block is named by its block number, also in `l1` and `l2`. -/
structure CacheInode where
  inode : HostInode
  real : ℕ
  nblks : ℕ
  l1 : Option ℕ
  l2 : Option ℕ

/-- The image file. `writes` are the numbers of the blocks written so far. -/
structure Image where
  block : ℕ → Bytes
  writes : List ℕ

/-- `inodes` and `blocks` are the hash tables, `cacheInode` and `cacheBlock` what their
members hold, and `entryName` the name in the static buffer of `add_entry`. -/
structure MkSfs where
  ninos : ℕ
  nextIno : ℕ
  superBlocks : ℕ
  unusedBlocks : ℕ
  image : Image
  entryName : Bytes
  cacheInode : ℕ → CacheInode
  inodes : ℕ → List ℕ
  cacheBlock : ℕ → Words
  blocks : ℕ → List ℕ

/-- A failed `assert` and `bug` end the program, so there are no errors to pass on. -/
abbrev MkCall (α : Type) := Call MkSfs Empty α

def rootIno : ℕ := blknRoot

def emptyInode (type : FileType) : HostInode :=
  { size := 0, type := type, nlinks := 0, blocks := 0, direct := fun _ => 0, indirect := 0,
    dbIndirect := 0 }

def newCacheInode (real : ℕ) (type : FileType) : CacheInode :=
  { inode := emptyInode type, real := real, nblks := 0, l1 := none, l2 := none }

/-- The first block after the free map. -/
def freemapEnd (ninos : ℕ) : ℕ := blknFreemap + (ninos + blkBits - 1) / blkBits

/-- The number of blocks goes through a `uint32_t` before it is cut at the maximum. -/
def imgBlocks (stSize : ℕ) : ℕ :=
  if uint32 (stSize / blkSize) > maxNblks then maxNblks else uint32 (stSize / blkSize)

/-- `none` where the image file is too small. -/
def createSfs (stSize : ℕ) (img : ℕ → Bytes) : Option MkSfs :=
  let ninos := imgBlocks stSize
  if freemapEnd ninos ≥ ninos then none
  else some
    { ninos := ninos, nextIno := freemapEnd ninos, superBlocks := ninos,
      unusedBlocks := ninos - freemapEnd ninos, image := ⟨img, []⟩, entryName := fun _ => 0,
      cacheInode := fun _ => newCacheInode 0 .dir,
      inodes := Function.update (fun _ => []) (hash64 0) [rootIno],
      cacheBlock := fun _ _ => 0, blocks := fun _ => [] }

def sfsAllocIno : MkCall ℕ := fun s =>
  if s.nextIno < s.ninos then
    some (.ok s.nextIno,
      { s with unusedBlocks := s.unusedBlocks - 1, nextIno := s.nextIno + 1 })
  else none

/-- The rest of the block is zero. -/
def Image.write (img : Image) (data : Bytes) (len ino : ℕ) : Image :=
  ⟨Function.update img.block ino (fun i => if i < len then data i else 0), ino :: img.writes⟩

def writeBlock (data : Bytes) (len ino : ℕ) : MkCall PUnit := do
  Call.require (fun s => len ≤ blkSize ∧ ino < s.ninos)
  Call.modify (fun s => { s with image := s.image.write data len ino })

/-- The bucket is that of the argument, also where the number is a new one. -/
def allocCacheBlock (ino : ℕ) : MkCall ℕ := do
  let cb ← if ino ≠ 0 then pure ino else sfsAllocIno
  Call.modify (fun s => { s with
    cacheBlock := Function.update s.cacheBlock cb (fun _ => 0)
    blocks := Function.update s.blocks (hash32 ino) (cb :: s.blocks (hash32 ino)) })
  pure cb

def searchCacheBlock (s : MkSfs) (ino : ℕ) : Option ℕ := (s.blocks (hash32 ino)).find? (· = ino)

def allocCacheInode (real ino : ℕ) (type : FileType) : MkCall ℕ := do
  let ci ← if ino ≠ 0 then pure ino else sfsAllocIno
  Call.modify (fun s => { s with
    cacheInode := Function.update s.cacheInode ci (newCacheInode real type)
    inodes := Function.update s.inodes (hash64 real) (ci :: s.inodes (hash64 real)) })
  pure ci

def searchCacheInode (s : MkSfs) (real : ℕ) : Option ℕ :=
  (s.inodes (hash64 real)).find? (fun ci => (s.cacheInode ci).real = real)

/-! Files and directories. -/

def blkNEntryHost : ℕ := blkSize / 4

def l1Nblks : ℕ := blkNEntryHost + nDirect

def l2Nblks : ℕ := blkNEntryHost * blkNEntryHost + l1Nblks

def lnNblks : ℕ := maxFileSize / blkSize

/-- The cache block behind a block number, a new one for 0. The result is the new value of
the pointer and of the number. -/
def updateCache (cb : Option ℕ) (ino : ℕ) : MkCall ℕ := do
  if ino = 0 then allocCacheBlock 0
  else if cb = some ino then pure ino
  else do
    Call.require (fun s => searchCacheBlock s ino = some ino)
    pure ino

def setCacheInode (file : ℕ) (f : CacheInode → CacheInode) : MkCall PUnit :=
  Call.modify (fun s => { s with
    cacheInode := Function.update s.cacheInode file (f (s.cacheInode file)) })

def setCacheWord (cb i v : ℕ) : MkCall PUnit :=
  Call.modify (fun s => { s with
    cacheBlock := Function.update s.cacheBlock cb (Function.update (s.cacheBlock cb) i v) })

def CacheInode.setDirect (ci : CacheInode) (i ino : ℕ) : CacheInode :=
  { ci with inode := { ci.inode with direct := Function.update ci.inode.direct i ino } }

def CacheInode.setL1 (ci : CacheInode) (l1 indirect : ℕ) : CacheInode :=
  { ci with l1 := some l1, inode := { ci.inode with indirect := indirect } }

def CacheInode.setL2 (ci : CacheInode) (l2 dbIndirect : ℕ) : CacheInode :=
  { ci with l2 := some l2, inode := { ci.inode with dbIndirect := dbIndirect } }

def CacheInode.grow (ci : CacheInode) (size : ℕ) : CacheInode :=
  { ci with
    nblks := ci.nblks + 1
    inode := { ci.inode with size := ci.inode.size + size, blocks := ci.inode.blocks + 1 } }

/-- The three cases of `append_block`: the block goes into a direct slot, into the indirect
block, or into a block behind the double indirect one. -/
def linkBlock (file ino : ℕ) (ci : CacheInode) : MkCall PUnit :=
  if ci.nblks ≥ lnNblks then Call.panic
  else if ci.nblks < nDirect then setCacheInode file (fun ci => ci.setDirect ci.nblks ino)
  else if ci.nblks < l1Nblks then do
    let l1 ← updateCache ci.l1 ci.inode.indirect
    setCacheInode file (fun ci => ci.setL1 l1 l1)
    setCacheWord l1 (ci.nblks - nDirect) ino
  else if ci.nblks < l2Nblks then do
    let nblks := ci.nblks - l1Nblks
    let l2 ← updateCache ci.l2 ci.inode.dbIndirect
    setCacheInode file (fun ci => ci.setL2 l2 l2)
    let entry ← Call.read (fun s => s.cacheBlock l2 (nblks / blkNEntryHost))
    let l1 ← updateCache ci.l1 entry
    setCacheInode file (fun ci => { ci with l1 := some l1 })
    setCacheWord l2 (nblks / blkNEntryHost) l1
    setCacheWord l1 (nblks % blkNEntryHost) ino
  else pure ⟨⟩

/-- `ino` becomes the next block of the file, with `size` bytes. -/
def appendBlock (file size ino : ℕ) : MkCall PUnit := do
  Call.require (fun _ => size ≤ blkSize)
  let ci ← Call.read (fun s => s.cacheInode file)
  linkBlock file ino ci
  setCacheInode file (fun ci => ci.grow size)

/-- The bytes after the terminator stay. -/
def strcpy (buf : Bytes) (name : List UInt8) : Bytes := fun i =>
  if i < name.length then name.getD i 0 else if i = name.length then 0 else buf i

def entryBytes (ino : ℕ) (name : Bytes) : Bytes := fun i => if i < 4 then put32 ino i else name (i - 4)

/-- `sizeof(entry->name)` -/
def entryNameSize : ℕ := maxFnameLen + 1

/-- The length written is that of the name, not that of the whole entry. -/
def addEntry (current file : ℕ) (name : List UInt8) : MkCall PUnit := do
  Call.require (fun s => (s.cacheInode current).inode.type = .dir ∧ name.length ≤ maxFnameLen)
  Call.modify (fun s => { s with entryName := strcpy s.entryName name })
  let entryIno ← sfsAllocIno
  let entry ← Call.read (fun s => entryBytes file s.entryName)
  writeBlock entry entryNameSize entryIno
  appendBlock current entryNameSize entryIno
  setCacheInode file (fun ci => { ci with inode := { ci.inode with nlinks := (ci.inode.nlinks + 1) % 2 ^ 16 } })

/-- One turn of the loop of `open_file` with `size` bytes read. -/
def addData (file : ℕ) (data : Bytes) (size : ℕ) : MkCall PUnit := do
  let ino ← sfsAllocIno
  writeBlock data size ino
  appendBlock file size ino

/-- A file of the host: `read` delivers blocks until the end is reached. -/
structure Content where
  size : ℕ
  bytes : Bytes

def openFile (file : ℕ) (c : Content) (offset : ℕ) : MkCall PUnit :=
  if offset < c.size then do
    let ret := min blkSize (c.size - offset)
    addData file (fun i => c.bytes (offset + i)) ret
    openFile file c (offset + ret)
  else pure ⟨⟩
termination_by c.size - offset
decreasing_by
  unfold blkSize
  omega

mutual

/-- A directory or a regular file of the host, with its inode number there. -/
inductive Node where
  | file (real : ℕ) (content : Content)
  | dir (real : ℕ) (entries : Entries)

/-- The entries of a directory in the order of `readdir`, without `.` and `..`. -/
inductive Entries where
  | nil
  | cons (name : List UInt8) (node : Node) (rest : Entries)

end

def dot : UInt8 := 46

mutual

def addNode (current : ℕ) (name : List UInt8) : Node → MkCall PUnit
  | .file real content => do
    let known ← Call.read (fun s => searchCacheInode s real)
    match known with
    | some file => addEntry current file name
    | none => do
      let file ← allocCacheInode real 0 .file
      openFile file content 0
      addEntry current file name
  | .dir real entries => do
    Call.require (fun s => searchCacheInode s real = none)
    let dir ← allocCacheInode real 0 .dir
    addEntry dir dir [dot]
    addEntry dir current [dot, dot]
    addEntries dir entries
    addEntry current dir name

def addEntries (current : ℕ) : Entries → MkCall PUnit
  | .nil => pure ⟨⟩
  | .cons name node rest => do
    if name.head? = some dot then addEntries current rest
    else do
      if name.length > maxFnameLen then Call.panic
      addNode current name node
      addEntries current rest

end

/-- `open_dir` of the home directory. -/
def openRoot (entries : Entries) : MkCall PUnit := do
  addEntry rootIno rootIno [dot]
  addEntry rootIno rootIno [dot, dot]
  addEntries rootIno entries

/-! Closing the image. -/

/-- The inner loop over a buffer of the free map: `left` bits are set from bit `j` on. -/
def markBits : ℕ → ℕ → (ℕ → BitVec 32) → (ℕ → BitVec 32)
  | 0, _, data => data
  | left + 1, j, data =>
    markBits left (j + 1)
      (Function.update data (j / wordBits) (data (j / wordBits) ||| Bitmap.mask (j % wordBits)))

/-- The buffer for the bits from `i` on. -/
def freemapBuffer (ninos nextIno i : ℕ) : ℕ → BitVec 32 :=
  if i + blkBits > nextIno then
    let start := if i < nextIno then nextIno - i else 0
    let stop := if i + blkBits > ninos then ninos - i else blkBits
    markBits (stop - start) start (fun _ => 0)
  else fun _ => 0

def freemapBytes (data : ℕ → BitVec 32) : Bytes := wordBytes (fun i => (data i).toNat)

/-- The loop over the blocks of the free map. -/
def writeFreemap (ninos nextIno ino i : ℕ) : MkCall PUnit :=
  if i < ninos then do
    writeBlock (freemapBytes (freemapBuffer ninos nextIno i)) blkSize ino
    writeFreemap ninos nextIno (ino + 1) (i + blkBits)
  else pure ⟨⟩
termination_by ninos - i
decreasing_by
  unfold blkBits blkSize
  omega

/-- `magic`, `blocks` and `unused_blocks`; the label after them is only printed. -/
def superWords (s : MkSfs) : Words := fun i =>
  if i = 0 then sfsMagic
  else if i = 1 then s.superBlocks
  else if i = 2 then s.unusedBlocks
  else 0

def superSize : ℕ := 44

def flushCacheBlock (cb : ℕ) : MkCall PUnit := do
  let data ← Call.read (fun s => wordBytes (s.cacheBlock cb))
  writeBlock data blkSize cb

def hostInodeSize : ℕ := 68

def flushCacheInode (ci : ℕ) : MkCall PUnit := do
  let data ← Call.read (fun s => wordBytes (s.cacheInode ci).inode.words)
  writeBlock data hostInodeSize ci

def forEach (f : ℕ → MkCall PUnit) : List ℕ → MkCall PUnit
  | [] => pure ⟨⟩
  | x :: xs => do
    f x
    forEach f xs

/-- The buckets from `i` on, blocks before inodes. -/
def flushBuckets : ℕ → ℕ → MkCall PUnit
  | 0, _ => pure ⟨⟩
  | left + 1, i => do
    let cbs ← Call.read (fun s => s.blocks i)
    forEach flushCacheBlock cbs
    let cis ← Call.read (fun s => s.inodes i)
    forEach flushCacheInode cis
    flushBuckets left (i + 1)

def closeSfs : MkCall PUnit := do
  let s ← Call.read (fun s => s)
  writeFreemap s.ninos s.nextIno blknFreemap 0
  let data ← Call.read (fun s => wordBytes (superWords s))
  writeBlock data superSize blknSuper
  flushBuckets hashListSize 0

def createImg (entries : Entries) : MkCall PUnit := do
  openRoot entries
  closeSfs

end Ucore.Tools
