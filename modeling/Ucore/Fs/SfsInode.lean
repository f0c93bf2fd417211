import Ucore.Fs.Sfs

/-!
Reading, writing and resizing a file, as `sfs_inode.c` does it. A file is named by the
number of its inode.
-/
namespace Ucore.Fs

open Library Libs

variable [SfsDevice]

/-- The second half of `sfs_bmap_get_sub_nolock`: a data block is allocated and entered. If
that fails, a new indirect block is given back. -/
def enterBlock (entp ent offset : ℕ) : SfsCall (ℕ × ℕ) :=
  Call.onError
    (do
      let ino ← sfsBlockAlloc
      Call.onError (sfsWbuf (put32 ino) 4 ent offset) (sfsBlockFree ino)
      pure (ent, ino))
    (if ent ≠ entp then sfsBlockFree ent else pure ⟨⟩)

/-- Entry `index` of the indirect block `entp`; the result is the indirect block and the
data block. -/
def sfsBmapGetSubNolock (entp index : ℕ) (create : Bool) : SfsCall (ℕ × ℕ) := do
  Call.require (fun _ => index < blkNEntry)
  let offset := index * 4
  if entp ≠ 0 then do
    let entry ← sfsRbuf 4 entp offset
    let ino := get32 entry
    if ino ≠ 0 ∨ create = false then pure (entp, ino)
    else enterBlock entp entp offset
  else if create = false then pure (entp, 0)
  else do
    let ent ← sfsBlockAlloc
    enterBlock entp ent offset

/-- The block at a direct index. -/
def getDirect (sin index : ℕ) (create : Bool) : SfsCall ℕ := do
  let din ← Call.read (fun s => s.din sin)
  if din.direct index = 0 ∧ create = true then do
    let ino ← sfsBlockAlloc
    Call.modify (fun s => (s.setDin sin { s.din sin with
      direct := Function.update (s.din sin).direct index ino }).setDirty sin)
    pure ino
  else pure (din.direct index)

/-- The block at an index behind the direct ones, counted from there. -/
def getIndirect (sin index : ℕ) (create : Bool) : SfsCall ℕ := do
  let din ← Call.read (fun s => s.din sin)
  let (ent, ino) ← sfsBmapGetSubNolock din.indirect index create
  if ent ≠ din.indirect then do
    Call.require (fun s => (s.din sin).indirect = 0)
    Call.modify (fun s => (s.setDin sin { s.din sin with indirect := ent }).setDirty sin)
    pure ino
  else pure ino

def sfsBmapGetNolock (sin index : ℕ) (create : Bool) : SfsCall ℕ := do
  let ino ←
    if index < nDirect then getDirect sin index create
    else if index - nDirect < blkNEntry then getIndirect sin (index - nDirect) create
    else Call.panic
  if ino = 0 then pure ino
  else do
    assertInuse ino
    pure ino

def sfsBmapFreeSubNolock (ent index : ℕ) : SfsCall PUnit := do
  assertInuse ent
  Call.require (fun _ => index < blkNEntry)
  let offset := index * 4
  let entry ← sfsRbuf 4 ent offset
  let ino := get32 entry
  if ino ≠ 0 then do
    sfsWbuf (put32 0) 4 ent offset
    sfsBlockFree ino
  else pure ⟨⟩

def sfsBmapFreeNolock (sin index : ℕ) : SfsCall PUnit := do
  let din ← Call.read (fun s => s.din sin)
  if index < nDirect then
    if din.direct index ≠ 0 then do
      sfsBlockFree (din.direct index)
      Call.modify (fun s => (s.setDin sin { s.din sin with
        direct := Function.update (s.din sin).direct index 0 }).setDirty sin)
    else pure ⟨⟩
  else if index - nDirect < blkNEntry ∧ din.indirect ≠ 0 then
    sfsBmapFreeSubNolock din.indirect (index - nDirect)
  else pure ⟨⟩

def sfsBmapLoadNolock (sin index : ℕ) : SfsCall ℕ := do
  Call.require (fun s => index ≤ (s.din sin).blocks)
  let din ← Call.read (fun s => s.din sin)
  let create := decide (index = din.blocks)
  let ino ← sfsBmapGetNolock sin index create
  assertInuse ino
  if create = true then do
    Call.modify (fun s => s.setDin sin { s.din sin with blocks := (s.din sin).blocks + 1 })
    pure ino
  else pure ino

def sfsBmapTruncateNolock (sin : ℕ) : SfsCall PUnit := do
  Call.require (fun s => (s.din sin).blocks ≠ 0)
  let din ← Call.read (fun s => s.din sin)
  sfsBmapFreeNolock sin (din.blocks - 1)
  Call.modify (fun s => (s.setDin sin { s.din sin with
    blocks := (s.din sin).blocks - 1 }).setDirty sin)

/-! `sfs_io_nolock`. -/

/-- The variables of `sfs_io_nolock` that change: the buffer, the place in it (`data`), the
place in the file, what is done so far, and the number of the next block. -/
structure SfsIo where
  sfs : Sfs
  buf : Bytes
  data : ℕ
  offset : ℕ
  alen : ℕ
  blkno : ℕ

abbrev IoCall (α : Type) := Call SfsIo SfsError α

def onSfs {α : Type} (x : SfsCall α) : IoCall α := fun io =>
  (x io.sfs).map (fun r => (r.1, { io with sfs := r.2 }))

/-- `sfs_buf_op` on the next `size` bytes of the buffer. -/
def sfsBufOp (write : Bool) (size ino blkoff : ℕ) : IoCall PUnit := do
  let io ← Call.read (fun io => io)
  if write = true then
    onSfs (sfsWbuf (fun i => io.buf (io.data + i)) size ino blkoff)
  else do
    let bytes ← onSfs (sfsRbuf size ino blkoff)
    Call.modify (fun io => { io with buf := patch io.buf bytes io.data size })

/-- `sfs_block_op` on the next block of the buffer. -/
def sfsBlockOp (write : Bool) (ino : ℕ) : IoCall PUnit := do
  let io ← Call.read (fun io => io)
  let bytes ← onSfs (if write = true then sfsWblock (fun i => io.buf (io.data + i)) ino 1
    else sfsRblock (fun i => io.buf (io.data + i)) ino 1)
  Call.modify (fun io => { io with
    buf := if write = true then io.buf else patch io.buf bytes io.data blkSize })

def advance (io : SfsIo) (size : ℕ) : SfsIo :=
  { io with
    data := io.data + size
    offset := io.offset + size
    alen := io.alen + size
    blkno := io.blkno + 1 }

/-- The part of the first block. -/
def ioHead (sin endpos nblks : ℕ) (write : Bool) : IoCall PUnit := do
  let io ← Call.read (fun io => io)
  let blkoff := io.offset % blkSize
  if blkoff ≠ 0 then do
    let size := if nblks ≠ 0 then blkSize - blkoff else endpos - io.offset
    let ino ← onSfs (sfsBmapLoadNolock sin io.blkno)
    sfsBufOp write size ino blkoff
    Call.modify (fun io => advance io size)
  else pure ⟨⟩

/-- The whole blocks; `left` bounds the turns of the loop. -/
def ioBlocks (sin endpos : ℕ) (write : Bool) : ℕ → IoCall PUnit
  | 0 => Call.require (fun io => ¬ io.offset + blkSize ≤ endpos)
  | left + 1 => do
    let io ← Call.read (fun io => io)
    if io.offset + blkSize ≤ endpos then do
      let ino ← onSfs (sfsBmapLoadNolock sin io.blkno)
      sfsBlockOp write ino
      Call.modify (fun io => advance io blkSize)
      ioBlocks sin endpos write left
    else pure ⟨⟩

/-- The part of the last block. -/
def ioTail (sin endpos : ℕ) (write : Bool) : IoCall PUnit := do
  let io ← Call.read (fun io => io)
  if io.offset < endpos then do
    let size := endpos - io.offset
    let ino ← onSfs (sfsBmapLoadNolock sin io.blkno)
    sfsBufOp write size ino 0
    Call.modify (fun io => { io with alen := io.alen + size })
  else pure ⟨⟩

def ioBody (sin endpos nblks : ℕ) (write : Bool) : IoCall PUnit := do
  ioHead sin endpos nblks write
  ioBlocks sin endpos write (endpos / blkSize + 1)
  ioTail sin endpos write

/-- What `sfs_io_nolock` gives back: its result, `*alenp`, the buffer and the file system. -/
structure IoResult where
  ret : Except SfsError PUnit
  alen : ℕ
  buf : Bytes
  sfs : Sfs

/-- The update of the size at `out`. -/
def growSize (s : Sfs) (sin startpos alen : ℕ) (write : Bool) : Sfs :=
  if write = true ∧ alen ≠ 0 ∧ startpos + alen > (s.din sin).size then
    (s.setDin sin { s.din sin with size := uint32 (startpos + alen) }).setDirty sin
  else s

/-- Conversion to `off_t`. -/
def toOff (v : ℤ) : ℤ := Int.bmod v (2 ^ 64)

def sfsIoNolock (s : Sfs) (sin : ℕ) (buf : Bytes) (offset : ℤ) (alen : ℕ) (write : Bool) :
    Option IoResult :=
  let size := (s.din sin).size
  let endpos := toOff (offset + alen)
  if (s.din sin).type = .dir then none
  else if offset < 0 ∨ offset ≥ maxFileSize ∨ offset > endpos then some ⟨.error .inval, 0, buf, s⟩
  else if offset = endpos then some ⟨.ok ⟨⟩, 0, buf, s⟩
  else
    let startpos := offset.toNat
    let endpos := if endpos > maxFileSize then maxFileSize else endpos.toNat
    if write = false ∧ startpos ≥ size then some ⟨.ok ⟨⟩, 0, buf, s⟩
    else
      let endpos := if write = false ∧ endpos > size then size else endpos
      let blkno := startpos / blkSize
      let nblks := endpos / blkSize - blkno
      (ioBody sin endpos nblks write ⟨s, buf, 0, startpos, 0, blkno⟩).map (fun r =>
        ⟨r.1, r.2.alen, r.2.buf, growSize r.2.sfs sin startpos r.2.alen write⟩)

/-! `sfs_truncfile`. -/

def enlarge (sin : ℕ) : ℕ → ℕ → SfsCall PUnit
  | 0, _ => pure ⟨⟩
  | left + 1, nblks => do
    let _ ← sfsBmapLoadNolock sin nblks
    enlarge sin left (nblks + 1)

def shrink (sin : ℕ) : ℕ → SfsCall PUnit
  | 0 => pure ⟨⟩
  | left + 1 => do
    sfsBmapTruncateNolock sin
    shrink sin left

def sfsTruncfile (sin : ℕ) (len : ℤ) : SfsCall PUnit := do
  if len < 0 ∨ len > maxFileSize then Call.fail .inval
  else do
    let din ← Call.read (fun s => s.din sin)
    let tblks := (len.toNat + blkSize - 1) / blkSize
    if din.size = len.toNat then Call.require (fun s => tblks = (s.din sin).blocks)
    else do
      let nblks := din.blocks
      if nblks < tblks then enlarge sin (tblks - nblks) nblks
      else shrink sin (nblks - tblks)
      Call.require (fun s => (s.din sin).blocks = tblks)
      Call.modify (fun s => (s.setDin sin { s.din sin with size := len.toNat }).setDirty sin)

def sfsTryseek (sin : ℕ) (pos : ℤ) : SfsCall PUnit := do
  if pos < 0 ∨ pos ≥ maxFileSize then Call.fail .inval
  else do
    let din ← Call.read (fun s => s.din sin)
    if pos > din.size then sfsTruncfile sin pos else pure ⟨⟩

end Ucore.Fs
