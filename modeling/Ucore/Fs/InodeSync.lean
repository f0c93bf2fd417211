import Ucore.Fs.FreeMap

/-!
An inode between memory and its disk block: `sfs_load_inode` reads it and `sfs_fsync` writes it.
The count of links stays what it was when the inode was loaded, and is not part of the model's
inode.
-/
namespace Ucore.Fs

open Library Libs Call

def get16 (b : Bytes) : ℕ := (b 0).toNat + 256 * (b 1).toNat

/-- `SFS_TYPE_INVAL` to `SFS_TYPE_LINK`. -/
def FileType.number : FileType → ℕ
  | inval => 0
  | file => 1
  | dir => 2
  | link => 3

def FileType.ofNumber (n : ℕ) : FileType :=
  if n = 1 then .file else if n = 2 then .dir else if n = 3 then .link else .inval

/-- `sizeof(struct sfs_disk_inode)` -/
def diskInodeSize : ℕ := 64

/-- The fields of `struct sfs_disk_inode` at their places. -/
def diskInode (b : Bytes) : DiskInode where
  size := get32 b
  type := FileType.ofNumber (get16 (fun i => b (4 + i)))
  blocks := get32 (fun i => b (8 + i))
  direct k := if k < nDirect then get32 (fun i => b (12 + k * 4 + i)) else 0
  indirect := get32 (fun i => b (60 + i))

def nlinksOf (b : Bytes) : ℕ := get16 (fun i => b (6 + i))

def inodeBytes (d : DiskInode) (nlinks : ℕ) : Bytes := fun i =>
  if i < 4 then put32 d.size i
  else if i < 6 then put32 d.type.number (i - 4)
  else if i < 8 then put32 nlinks (i - 6)
  else if i < 12 then put32 d.blocks (i - 8)
  else if i < 60 then put32 (d.direct ((i - 12) / 4)) ((i - 12) % 4)
  else put32 d.indirect (i - 60)

namespace Sfs

/-- The inode that the disk block holds. -/
def storedInode (s : Sfs) (ino : ℕ) : DiskInode := diskInode (s.disk ino)

/-- The inode of the disk block is in memory, not changed so far. -/
def loaded (s : Sfs) (ino : ℕ) : Sfs :=
  { s with inodes := Function.update s.inodes ino ⟨s.storedInode ino, false⟩ }

def setClean (s : Sfs) (ino : ℕ) : Sfs :=
  { s with inodes := Function.update s.inodes ino { s.inodes ino with dirty := false } }

end Sfs

theorem get16_put32 {v : ℕ} (h : v < 2 ^ 16) : get16 (put32 v) = v := by
  unfold get16 put32
  simp only [UInt8.toNat_ofNat']
  omega

theorem get16_congr {b b' : Bytes} (h : ∀ i < 2, b i = b' i) : get16 b = get16 b' := by
  unfold get16
  rw [h 0 (by omega), h 1 (by omega)]

theorem get16_lt (b : Bytes) : get16 b < 2 ^ 16 := by
  have h0 := (b 0).toNat_lt
  have h1 := (b 1).toNat_lt
  unfold get16
  omega

theorem FileType.ofNumber_number (f : FileType) : FileType.ofNumber f.number = f := by
  cases f with
  | inval => rfl
  | file => rfl
  | dir => rfl
  | link => rfl

/-- The fields fit in their 32 bits. -/
structure DiskInode.Words (d : DiskInode) : Prop where
  size : d.size < 2 ^ 32
  blocks : d.blocks < 2 ^ 32
  direct : ∀ k < nDirect, d.direct k < 2 ^ 32
  indirect : d.indirect < 2 ^ 32

/-- The same in all fields that there are on disk. -/
structure DiskInode.Same (d d' : DiskInode) : Prop where
  size : d.size = d'.size
  type : d.type = d'.type
  blocks : d.blocks = d'.blocks
  direct : ∀ k < nDirect, d.direct k = d'.direct k
  indirect : d.indirect = d'.indirect

variable {d : DiskInode} {nlinks : ℕ} {b b' : Bytes}

theorem diskInode_congr (h : ∀ i < diskInodeSize, b i = b' i) : diskInode b = diskInode b' := by
  unfold diskInodeSize at h
  have hdirect : (diskInode b).direct = (diskInode b').direct := by
    funext k
    unfold diskInode
    by_cases hk : k < nDirect
    · simp only [if_pos hk]
      unfold nDirect at hk
      exact get32_congr (fun i hi => h _ (by omega))
    · simp only [if_neg hk]
  have hsize : get32 b = get32 b' := get32_congr (fun i hi => h _ (by omega))
  have htype : get16 (fun i => b (4 + i)) = get16 (fun i => b' (4 + i)) :=
    get16_congr (fun i hi => h _ (by omega))
  have hblocks : get32 (fun i => b (8 + i)) = get32 (fun i => b' (8 + i)) :=
    get32_congr (fun i hi => h _ (by omega))
  have hindirect : get32 (fun i => b (60 + i)) = get32 (fun i => b' (60 + i)) :=
    get32_congr (fun i hi => h _ (by omega))
  unfold diskInode at hdirect ⊢
  dsimp only at hdirect
  rw [hsize, htype, hblocks, hindirect, hdirect]

theorem nlinksOf_inodeBytes (h : nlinks < 2 ^ 16) : nlinksOf (inodeBytes d nlinks) = nlinks := by
  refine Eq.trans (get16_congr ?_) (get16_put32 h)
  intro i hi
  unfold inodeBytes
  rw [if_neg (by omega), if_neg (by omega), if_pos (by omega), Nat.add_sub_cancel_left]

/-- What was written is read back. -/
theorem diskInode_inodeBytes (h : d.Words) : (diskInode (inodeBytes d nlinks)).Same d := by
  refine ⟨?_, ?_, ?_, ?_, ?_⟩
  · refine Eq.trans (get32_congr ?_) (get32_put32 h.size)
    intro i hi
    unfold inodeBytes
    rw [if_pos hi]
  · have hnumber : get16 (fun i => inodeBytes d nlinks (4 + i)) = d.type.number := by
      refine Eq.trans (get16_congr ?_) (get16_put32 ?_)
      · intro i hi
        unfold inodeBytes
        rw [if_neg (by omega), if_pos (by omega), Nat.add_sub_cancel_left]
      · cases d.type with
        | inval => decide
        | file => decide
        | dir => decide
        | link => decide
    unfold diskInode
    dsimp only
    rw [hnumber, FileType.ofNumber_number]
  · change get32 (fun i => inodeBytes d nlinks (8 + i)) = d.blocks
    refine Eq.trans (get32_congr ?_) (get32_put32 h.blocks)
    intro i hi
    unfold inodeBytes
    rw [if_neg (by omega), if_neg (by omega), if_neg (by omega), if_pos (by omega),
      Nat.add_sub_cancel_left]
  · intro k hk
    unfold diskInode
    dsimp only
    rw [if_pos hk]
    refine Eq.trans (get32_congr ?_) (get32_put32 (h.direct k hk))
    intro i hi
    unfold nDirect at hk
    unfold inodeBytes
    rw [if_neg (by omega), if_neg (by omega), if_neg (by omega), if_neg (by omega),
      if_pos (by omega), show (12 + k * 4 + i - 12) / 4 = k by omega,
      show (12 + k * 4 + i - 12) % 4 = i by omega]
  · change get32 (fun i => inodeBytes d nlinks (60 + i)) = d.indirect
    refine Eq.trans (get32_congr ?_) (get32_put32 h.indirect)
    intro i hi
    unfold inodeBytes
    rw [if_neg (by omega), if_neg (by omega), if_neg (by omega), if_neg (by omega),
      if_neg (by omega), Nat.add_sub_cancel_left]

theorem diskInode_inodeBytes_eq (h : d.Words) (hdirect : ∀ k, nDirect ≤ k → d.direct k = 0) :
    diskInode (inodeBytes d nlinks) = d := by
  have hsame : (diskInode (inodeBytes d nlinks)).Same d := diskInode_inodeBytes h
  have hslots : (diskInode (inodeBytes d nlinks)).direct = d.direct := by
    funext k
    by_cases hk : k < nDirect
    · exact hsame.direct k hk
    · rw [hdirect k (Nat.le_of_not_lt hk)]
      exact if_neg hk
  cases hd : diskInode (inodeBytes d nlinks) with
  | mk size type blocks direct indirect =>
    rw [hd] at hsame hslots
    obtain ⟨rfl, rfl, rfl, -, rfl⟩ := hsame
    obtain rfl : direct = d.direct := hslots
    rfl

/-- The checks of `sfs_load_inode`. -/
structure Loadable (s : Sfs) (ino : ℕ) : Prop where
  nonzero : ino ≠ 0
  range : ino < s.superBlocks
  used : s.freemap.bit ino = false
  nlinks : nlinksOf (s.disk ino) ≠ 0
  type : (s.storedInode ino).type = .file ∨ (s.storedInode ino).type = .dir

variable [SfsDevice] {s t : Sfs} {ino : ℕ}

/-- `sfs_load_inode` for an inode that is not in memory yet, when there is memory for it;
`sfs_get_ops` knows files and directories. -/
def sfsLoadInode (ino : ℕ) : SfsCall PUnit := do
  assertInuse ino
  let bytes ← sfsRbuf diskInodeSize ino 0
  Call.require (fun _ => nlinksOf bytes ≠ 0)
  Call.require (fun _ => (diskInode bytes).type = .file ∨ (diskInode bytes).type = .dir)
  Call.modify (fun s => { s with
    inodes := Function.update s.inodes ino ⟨diskInode bytes, false⟩ })

def sfsFsync (ino nlinks : ℕ) : SfsCall PUnit := do
  let sin ← Call.read (fun s => s.inodes ino)
  if sin.dirty = true then do
    Call.modify (fun s => s.setClean ino)
    Call.onError (sfsWbuf (inodeBytes sin.din nlinks) diskInodeSize ino 0)
      (Call.modify (fun s => s.setDirty ino))
  else pure ⟨⟩

def sfsClose (ino nlinks : ℕ) : SfsCall PUnit := sfsFsync ino nlinks

/-- `sfs_reclaim` for a file that nobody uses any more. -/
def sfsReclaim (ino nlinks : ℕ) : SfsCall PUnit := do
  if nlinks = 0 then sfsTruncfile ino 0 else pure ⟨⟩
  let sin ← Call.read (fun s => s.inodes ino)
  if sin.dirty = true then sfsFsync ino nlinks else pure ⟨⟩
  if nlinks = 0 then do
    sfsBlockFree ino
    let din ← Call.read (fun s => s.din ino)
    if din.indirect ≠ 0 then sfsBlockFree din.indirect else pure ⟨⟩
  else pure ⟨⟩

/-- An inode with links only has to be written. -/
theorem sfsReclaim_eq (hlinks : nlinks ≠ 0) : sfsReclaim ino nlinks s = sfsFsync ino nlinks s := by
  have hreclaim : sfsReclaim ino nlinks s =
      (if (s.inodes ino).dirty = true then sfsFsync ino nlinks >>= fun _ => pure ⟨⟩
        else pure ⟨⟩ : SfsCall PUnit) s := by
    unfold sfsReclaim
    simp only [if_neg hlinks]
    rfl
  rw [hreclaim]
  by_cases hdirty : (s.inodes ino).dirty = true
  · rw [if_pos hdirty]
    change Call.andThen (sfsFsync ino nlinks) (fun _ => pure ⟨⟩) s = sfsFsync ino nlinks s
    unfold Call.andThen
    rcases sfsFsync ino nlinks s with _ | ⟨_ | _, t⟩
    · rfl
    · rfl
    · rfl
  · rw [if_neg hdirty]
    have hsync : sfsFsync ino nlinks s =
        (if (s.inodes ino).dirty = true then _ else pure ⟨⟩ : SfsCall PUnit) s := rfl
    rw [hsync, if_neg hdirty]

/-- On a working device an inode is loaded if it passes the checks. -/
theorem sfsLoadInode_ok_iff (hw : ¬ Faulty) (hm : Mounted s) :
    sfsLoadInode ino s = some (.ok ⟨⟩, t) ↔ Loadable s ino ∧ t = s.loaded ino := by
  have hbytes : (fun i => s.disk ino (0 + i)) = s.disk ino := by
    funext i
    rw [Nat.zero_add]
  have hfit : 0 < blkSize ∧ 0 + diskInodeSize ≤ blkSize := by decide
  constructor
  · intro hload
    have hends : Ends True (sfsLoadInode ino) s (fun _ t => Loadable s ino ∧ t = s.loaded ino)
        (fun _ _ => True) := by
      unfold sfsLoadInode
      refine Ends.bind (assertInuse_ends hm (fun _ => trivial) ?_)
      intro h0 hlt hbit
      refine Ends.bind (sfsRbuf_ends hm hfit (fun _ => trivial) (fun _ => trivial) ?_)
      intro _ _ _
      rw [hbytes]
      refine Ends.bind (Ends.require (fun hlinks => ?_) (fun _ => trivial))
      refine Ends.bind (Ends.require (fun htype => ?_) (fun _ => trivial))
      exact Ends.modify ⟨⟨h0, hlt, hbit, hlinks, htype⟩, rfl⟩
    exact hends.of_ok hload
  · intro h
    obtain ⟨hl, rfl⟩ := h
    have hends : Ends False (sfsLoadInode ino) s (fun _ t => t = s.loaded ino)
        (fun _ _ => False) := by
      unfold sfsLoadInode
      refine Ends.bind (assertInuse_ends hm
        (fun hbad => hbad ⟨hl.nonzero, hl.range, hl.used⟩) ?_)
      intro _ _ _
      refine Ends.bind (sfsRbuf_ends hm hfit (fun hbad => hbad ⟨hl.nonzero, hl.range⟩)
        (fun hr => hw ⟨_, _, _, hr⟩) ?_)
      intro _ _ _
      rw [hbytes]
      refine Ends.bind (Ends.require (fun _ => ?_) (fun hbad => hbad hl.nlinks))
      refine Ends.bind (Ends.require (fun _ => ?_) (fun hbad => hbad hl.type))
      exact Ends.modify rfl
    obtain ⟨⟨ret, u⟩, hu⟩ := hends.exists
    cases ret with
    | error e => exact (hends.of_error hu).elim
    | ok a => rw [hu, hends.of_ok hu]

/-- On a working device `sfs_fsync` writes an inode that has changed. -/
theorem sfsFsync_eq (hw : ¬ Faulty) (hm : Mounted s) (h0 : ino ≠ 0)
    (hlt : ino < s.superBlocks) :
    sfsFsync ino nlinks s = some (.ok ⟨⟩, if (s.inodes ino).dirty = true
      then (s.setClean ino).putBlock ino
        (patch (s.disk ino) (inodeBytes (s.din ino) nlinks) 0 diskInodeSize)
      else s) := by
  have hends : Ends False (sfsFsync ino nlinks) s (fun _ t => t = if (s.inodes ino).dirty = true
      then (s.setClean ino).putBlock ino
        (patch (s.disk ino) (inodeBytes (s.din ino) nlinks) 0 diskInodeSize)
      else s) (fun _ _ => False) := by
    unfold sfsFsync
    refine Ends.bind (Ends.read ?_)
    by_cases hdirty : (s.inodes ino).dirty = true
    · rw [if_pos hdirty, if_pos hdirty]
      refine Ends.bind (Ends.modify (Ends.onError ?_))
      have hm' : Mounted (s.setClean ino) := ⟨hm.device, hm.nbits, hm.nwords, hm.count⟩
      refine sfsWbuf_ends hm' (by decide) (fun hbad => hbad ⟨h0, hlt⟩) ?_ ?_
      · intro hr
        rcases hr with hr | hr
        · exact (hw ⟨_, _, _, hr⟩).elim
        · exact (hw ⟨_, _, _, hr⟩).elim
      · intro _ _
        rfl
    · rw [if_neg hdirty, if_neg hdirty]
      exact Ends.pure rfl
  obtain ⟨⟨ret, u⟩, hu⟩ := hends.exists
  cases ret with
  | error e => exact (hends.of_error hu).elim
  | ok a => rw [hu, hends.of_ok hu]

end Ucore.Fs
