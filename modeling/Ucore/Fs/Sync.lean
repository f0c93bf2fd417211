import Ucore.Fs.FileCalls
import Ucore.Fs.Mount

/-!
`sfs_sync`: the inodes in memory, the super block and the free map go to their blocks on disk, where
a mount reads them.
-/
namespace Ucore.Fs

open Library Libs Call

/-- `struct sfs_super`, in a block of zeros. -/
def superBytes (blocks unusedBlocks : ℕ) (info : Bytes) : Bytes := fun i =>
  if i < 4 then put32 sfsMagic i
  else if i < 8 then put32 blocks (i - 4)
  else if i < 12 then put32 unusedBlocks (i - 8)
  else if i < 44 then info (i - 12)
  else 0

def Bitmap.bitmapGetdata (b : Bitmap) : Bytes := fun i => put32 (b.map (i / 4)).toNat (i % 4)

section Calls

variable [SfsDevice]

/-- `sfs_rwblock_nolock` where `check` is 0, so that block 0 is let through. -/
def sfsRwblockUnchecked (buf : Bytes) (blkno : ℕ) (write : Bool) : SfsCall Bytes := fun s =>
  if blkno < s.superBlocks then
    let dev := uint32 (blkno * blkSize) / blkSize
    if dev + 1 > s.dBlocks ∨ SfsDevice.refuses s write blkno = true then some (.error .inval, s)
    else if write then some (.ok buf, { s with disk := Function.update s.disk dev buf })
    else some (.ok (s.disk dev), s)
  else none

def sfsSyncSuper (info : Bytes) : SfsCall PUnit := do
  let s ← Call.read (fun s => s)
  let _ ← sfsRwblockUnchecked (superBytes s.superBlocks s.unusedBlocks info) blknSuper true
  pure ⟨⟩

def sfsSyncFreemap : SfsCall PUnit := do
  let s ← Call.read (fun s => s)
  let _ ← sfsWblock s.freemap.bitmapGetdata blknFreemap (sfsFreemapBlocks s.superBlocks)
  pure ⟨⟩

/-- The errors of `vop_fsync` are dropped. -/
def sfsSync (inodeList : List ℕ) (nlinks : ℕ → ℕ) (info : Bytes) : SfsCall PUnit := do
  Call.each (fun ino => Call.warn (sfsFsync ino (nlinks ino))) inodeList
  let dirty ← Call.read (fun s => s.superDirty)
  if dirty = true then do
    Call.modify (fun s => { s with superDirty := false })
    Call.onError (sfsSyncSuper info) (Call.modify (fun s => { s with superDirty := true }))
    Call.onError sfsSyncFreemap (Call.modify (fun s => { s with superDirty := true }))
  else pure ⟨⟩

end Calls

/-- What a mount reads of the volume is on disk. -/
structure OnDisk (s : Sfs) : Prop where
  magic : get32 (s.disk blknSuper) = sfsMagic
  blocks : get32 (fun i => s.disk blknSuper (4 + i)) = s.superBlocks
  unused : get32 (fun i => s.disk blknSuper (8 + i)) = s.unusedBlocks
  map : ∀ k < s.freemapBlocks, ∀ w < blkNEntry,
    BitVec.ofNat 32 (get32 (fun j => s.disk (blknFreemap + k) (w * 4 + j))) =
      s.freemap.map (k * blkNEntry + w)

/-- The words of the array; there are none behind it. -/
def Bitmap.trim (b : Bitmap) : Bitmap :=
  { b with map := fun i => if i < b.nwords then b.map i else 0 }

/-- The volume after a mount. No inode is loaded, each is as it is on disk. -/
def Sfs.remounted (s : Sfs) (m : MountedFs) : Sfs where
  superBlocks := m.superBlocks
  unusedBlocks := m.unusedBlocks
  superDirty := m.superDirty
  freemap := m.freemap.trim
  imgSize := s.imgSize
  disk := s.disk
  inos := s.inos
  inodes ino := ⟨s.storedInode ino, false⟩

/-- A volume in memory whose inodes on disk are up to date unless they are marked, and the same for
the super block and the free map; `inodeList` are the inodes in memory. -/
structure Backed (s : Sfs) (inodeList : List ℕ) (nlinks : ℕ → ℕ) : Prop where
  inv : Inv False s
  cached : ∀ ino ∈ s.inos, Cached s ino
  room : blknFreemap + s.freemapBlocks ≤ s.superBlocks
  range : ∀ ino ∈ s.inos, ino < s.superBlocks
  list : ∀ ino ∈ inodeList, ino ∈ s.inos ∧ nlinksOf (s.disk ino) = nlinks ino
  marked : ∀ ino ∈ s.inos, (s.storedInode ino).Same (s.din ino) ∨
    ino ∈ inodeList ∧ (s.inodes ino).dirty = true
  super : s.superDirty = true ∨ OnDisk s

/-- From `s` to `t` some inodes, the super block or the free map were written. -/
structure Settled (s t : Sfs) : Prop where
  volume : SameVolume s t
  files : ∀ o b ino, Owner.OfFile ino o → s.owns o b → t.disk b = s.disk b

/-- From `s` to `t` some inodes were written. -/
structure Synced (s t : Sfs) : Prop where
  volume : SameVolume s t
  disk : ∀ b, b ∉ s.inos → t.disk b = s.disk b
  superDirty : t.superDirty = s.superDirty
  stored : ∀ j ∈ s.inos, (s.storedInode j).Same (s.din j) → (t.storedInode j).Same (t.din j)

variable {s t u : Sfs} {ino b : ℕ} {inodeList : List ℕ} {nlinks : ℕ → ℕ} {info : Bytes}

theorem SameVolume.refl (s : Sfs) : SameVolume s s :=
  ⟨rfl, rfl, rfl, rfl, rfl, fun _ _ => DiskInode.Same.refl _, fun _ _ _ => rfl⟩

theorem SameVolume.trans (h : SameVolume s t) (h' : SameVolume t u) : SameVolume s u where
  superBlocks := h'.superBlocks.trans h.superBlocks
  imgSize := h'.imgSize.trans h.imgSize
  inos := h'.inos.trans h.inos
  freemap := h'.freemap.trans h.freemap
  unused := h'.unused.trans h.unused
  din j hj := (h'.din j (h.inos.symm ▸ hj)).trans (h.din j hj)
  entry j hj hind := by
    have hsame := (h.din j hj).indirect
    have hnext := h'.entry j (h.inos.symm ▸ hj) (hsame.symm ▸ hind)
    rw [hsame] at hnext
    exact hnext.trans (h.entry j hj hind)

/-- A volume with the same numbers, and another disk on which the blocks of the files are the
same. -/
theorem Settled.of_disk {disk : ℕ → Bytes} {superDirty : Bool}
    (h : ∀ o b ino, Owner.OfFile ino o → s.owns o b → disk b = s.disk b) :
    Settled s { s with disk := disk, superDirty := superDirty } := by
  refine ⟨⟨rfl, rfl, rfl, rfl, rfl, fun _ _ => DiskInode.Same.refl _, ?_⟩, h⟩
  intro j hj hind
  exact h (.indirect j) _ j rfl (Sfs.owns_indirect hj hind)

theorem Settled.trans (h : Settled s t) (h' : Settled t u) : Settled s u := by
  refine ⟨h.volume.trans h'.volume, ?_⟩
  intro o b ino hfile howns
  rw [h'.files o b ino hfile ((h.volume.owns o).mpr howns), h.files o b ino hfile howns]

theorem Synced.refl (s : Sfs) : Synced s s :=
  ⟨SameVolume.refl s, fun _ _ => rfl, rfl, fun _ _ h => h⟩

theorem Synced.trans (h : Synced s t) (h' : Synced t u) : Synced s u := by
  refine ⟨h.volume.trans h'.volume, ?_, h'.superDirty.trans h.superDirty, ?_⟩
  · intro b hb
    rw [h'.disk b (h.volume.inos.symm ▸ hb), h.disk b hb]
  · intro j hj hstored
    exact h'.stored j (h.volume.inos.symm ▸ hj) (h.stored j hj hstored)

/-- A block of a file is no inode. -/
theorem notMem_inos (hi : Inv False s) {o : Owner} (hfile : Owner.OfFile ino o)
    (howns : s.owns o b) : b ∉ s.inos := by
  intro hb
  have hnode : s.owns (.inode b) b := ⟨hb, rfl⟩
  rw [hi.accounts.ledger.once _ _ _ howns hnode] at hfile
  exact hfile

theorem Synced.settled (h : Synced s t) (hi : Inv False s) : Settled s t :=
  ⟨h.volume, fun _ b _ hfile howns => h.disk b (notMem_inos hi hfile howns)⟩

/-- Every file has the bytes that it had. -/
theorem Settled.content (h : Settled s t) (hi : Inv False s) (hino : ino ∈ s.inos) (i : ℕ) :
    t.content ino i = s.content ino i := by
  unfold Sfs.content
  rw [(h.volume.din ino hino).blocks, h.volume.blockOf hino]
  by_cases hk : i / blkSize < (s.din ino).blocks
  · rw [if_pos hk, if_pos hk]
    have hfile : Owner.OfFile ino (Sfs.slotOwner ino (i / blkSize)) := by
      unfold Sfs.slotOwner
      split
      · exact rfl
      · exact rfl
    rw [h.files _ _ ino hfile (owns_blockOf hi hino hk)]
  · rw [if_neg hk, if_neg hk]

/-! The super block and the free map as bytes. -/

theorem get32_superBytes {blocks unused : ℕ} (info : Bytes) (hblocks : blocks < 2 ^ 32)
    (hunused : unused < 2 ^ 32) :
    get32 (superBytes blocks unused info) = sfsMagic ∧
      get32 (fun i => superBytes blocks unused info (4 + i)) = blocks ∧
      get32 (fun i => superBytes blocks unused info (8 + i)) = unused := by
  unfold superBytes
  refine ⟨?_, ?_, ?_⟩
  · refine Eq.trans (get32_congr ?_) (get32_put32 (by decide : sfsMagic < 2 ^ 32))
    intro i hi
    exact if_pos hi
  · refine Eq.trans (get32_congr ?_) (get32_put32 hblocks)
    intro i hi
    rw [if_neg (by omega), if_pos (by omega), Nat.add_sub_cancel_left]
  · refine Eq.trans (get32_congr ?_) (get32_put32 hunused)
    intro i hi
    rw [if_neg (by omega), if_neg (by omega), if_pos (by omega), Nat.add_sub_cancel_left]

theorem get32_bitmapGetdata (m : Bitmap) (k w : ℕ) :
    BitVec.ofNat 32 (get32 (fun j => m.bitmapGetdata (w * 4 + j + k * blkSize))) =
      m.map (k * blkNEntry + w) := by
  have hword : get32 (fun j => m.bitmapGetdata (w * 4 + j + k * blkSize)) =
      (m.map (k * blkNEntry + w)).toNat := by
    refine Eq.trans (get32_congr ?_) (get32_put32 (m.map (k * blkNEntry + w)).isLt)
    intro j hj
    unfold Bitmap.bitmapGetdata blkNEntry blkSize
    rw [show (w * 4 + j + k * 4096) / 4 = k * (4096 / 4) + w by omega,
      show (w * 4 + j + k * 4096) % 4 = j by omega]
  rw [hword, BitVec.ofNat_toNat, BitVec.setWidth_eq]

theorem Mounted.nwords_eq (hm : Mounted s) : s.freemap.nwords = s.freemapBlocks * blkNEntry := by
  have hwords := hm.nwords
  have hbits := hm.nbits
  unfold wordBits at hwords
  unfold blkBits blkSize at hbits
  unfold blkNEntry blkSize
  omega

/-- Behind the array there is nothing, as no bit is set there. -/
theorem Inv.freemap_trim (hi : Inv False s) {i : ℕ} (h : s.freemap.nwords ≤ i) :
    s.freemap.map i = 0 := by
  have hm := hi.accounts.mounted
  have hs := hi.sound (fun hbad => hbad)
  refine BitVec.eq_of_getLsbD_eq ?_
  intro j hj
  change _ = (0#32).getLsbD j
  rw [BitVec.getLsbD_zero]
  apply Bool.eq_false_iff.mpr
  intro hset
  have hbit : s.freemap.bit (i * 32 + j) = true := by
    unfold Bitmap.bit wordBits
    rw [show (i * 32 + j) / 32 = i by omega, show (i * 32 + j) % 32 = j by omega]
    exact hset
  have hlt := hs.beyond _ hbit
  have hle := hm.superBlocks_le
  have hwords := hm.nwords
  unfold wordBits at hwords
  omega

/-! The mount. -/

/-- The free map that is read is the one in memory. -/
theorem OnDisk.readFreemap (h : OnDisk s) (hi : Inv False s)
    (hroom : blknFreemap + s.freemapBlocks ≤ s.superBlocks) {empty : Bitmap}
    (hbits : empty.nbits = s.freemap.nbits) (hwords : empty.nwords = s.freemap.nwords) :
    ∃ freemap, Fs.readFreemap (disk0 s.imgSize s.disk) s.freemapBlocks blknFreemap 0 empty =
      .ok freemap ∧ freemap.trim = s.freemap ∧ freemap.nbits = s.freemap.nbits ∧
      freemap.setBits = s.freemap.setBits := by
  have hm := hi.accounts.mounted
  have hlt := hm.superBlocks_lt
  have hdev : blknFreemap + s.freemapBlocks ≤ (disk0 s.imgSize s.disk).dBlocks :=
    hroom.trans hm.device
  have htop : (blknFreemap + s.freemapBlocks) * blkSize ≤ 2 ^ 32 := by
    unfold blkSize
    omega
  obtain ⟨freemap, hread, hnbits, hnwords, -, hmap⟩ :=
    @readFreemap_map _ _ _ 0 empty hdev htop
  have hsame : ∀ i < s.freemap.nwords, freemap.map i = s.freemap.map i := by
    intro i hi
    rw [hm.nwords_eq] at hi
    have hk : i / blkNEntry < s.freemapBlocks := Nat.div_lt_of_lt_mul (Nat.mul_comm .. ▸ hi)
    have hw : i % blkNEntry < blkNEntry := Nat.mod_lt i (by decide)
    have hword := (hmap _ hk _ hw).trans (h.map _ hk _ hw)
    rw [Nat.zero_add, Nat.div_add_mod'] at hword
    exact hword
  refine ⟨freemap, hread, ?_, hnbits.trans hbits, ?_⟩
  · have htrim : freemap.trim.map = s.freemap.map := by
      funext i
      unfold Bitmap.trim
      dsimp only
      rw [hnwords, hwords]
      split
      · rename_i hi
        exact hsame i hi
      · rename_i hge
        exact (hi.freemap_trim (Nat.le_of_not_lt hge)).symm
    have hall : freemap.trim = ⟨freemap.nbits, freemap.nwords, freemap.trim.map⟩ := rfl
    rw [hall, htrim, hnbits, hnwords, hbits, hwords]
  · unfold Bitmap.setBits
    rw [hnbits, hbits]
    congr 1
    refine Finset.filter_congr fun i hrange => ?_
    have hword : i / wordBits < s.freemap.nwords := by
      have hbit := Finset.mem_range.mp hrange
      have hwords := hm.nwords
      unfold wordBits at *
      omega
    unfold Bitmap.bit
    rw [hsame _ hword]

/-- A volume that is on disk can be mounted, with all that was in memory. -/
theorem OnDisk.mount (h : OnDisk s) (hi : Inv False s)
    (hroom : blknFreemap + s.freemapBlocks ≤ s.superBlocks) {kmalloc : MountAlloc → Bool}
    (hmem : ∀ a, kmalloc a = true) :
    ∃ freemap, sfsDoMount (disk0 s.imgSize s.disk) kmalloc =
      some (.ok ⟨s.superBlocks, s.unusedBlocks, false, freemap⟩) ∧ freemap.trim = s.freemap := by
  have hm := hi.accounts.mounted
  have hlt := hm.superBlocks_lt
  have hpos : 0 < s.superBlocks := by
    unfold blknFreemap at hroom
    omega
  have hbits : sfsFreemapBits s.superBlocks = s.freemap.nbits := by
    rw [hm.nbits]
    unfold sfsFreemapBits Sfs.freemapBlocks blkBits blkSize
    exact uint32_of_lt (by omega)
  have hnonzero : sfsFreemapBits s.superBlocks ≠ 0 := by
    have hle := hm.superBlocks_le
    omega
  obtain ⟨empty, hcreate, hnbits, hnwords, -⟩ :=
    Bitmap.bitmapCreate_made hnonzero ⟨hmem .bitmap, hmem .map⟩
  rw [hbits] at hnbits
  have hwords : empty.nwords = s.freemap.nwords := by
    have hmul := hm.nwords
    rw [hnwords, hbits]
    unfold Bitmap.roundupDiv wordBits at *
    omega
  obtain ⟨freemap, hread, htrim, hfbits, hcount⟩ := h.readFreemap hi hroom hnbits hwords
  have hinit : sfsInitFreemap (disk0 s.imgSize s.disk) empty blknFreemap s.freemapBlocks =
      some (.ok freemap) := by
    unfold sfsInitFreemap
    rw [hread, if_pos]
    rw [hwords, hm.nwords_eq, uint32_of_lt (by unfold blkSize; omega)]
    unfold blkNEntry blkSize
    omega
  have hall : freemap.countBits (sfsFreemapBits s.superBlocks) 0 0 = some s.unusedBlocks := by
    rw [hbits, ← hfbits, Bitmap.countBits_nbits, hcount, hm.count]
  have hload := @loadFreemap_eq _ _ s.superBlocks _ _ _ _ _ hcreate hinit hall
  have hsuper : sfsInitRead (disk0 s.imgSize s.disk) blknSuper = .ok (s.disk blknSuper) := by
    have hdev := hm.device
    have hnone : ¬ blknSuper + 1 > (disk0 s.imgSize s.disk).dBlocks := by
      change ¬ 0 + 1 > s.dBlocks
      omega
    exact if_neg hnone
  have hfits : ¬ s.superBlocks > (disk0 s.imgSize s.disk).dBlocks := Nat.not_lt.mpr hm.device
  refine ⟨freemap, ?_, htrim⟩
  unfold sfsDoMount
  rw [if_neg (fun hbad => hbad rfl), hmem .fs, hmem .buffer, Bool.and_self, if_pos rfl, hsuper]
  dsimp only
  rw [h.magic, if_neg (fun hbad => hbad rfl), h.blocks, if_neg hfits, hmem .hashList, if_pos rfl,
    h.unused]
  exact hload

/-! What is written. -/

theorem Cached.same (hc : Cached s ino) (h : SameVolume s t) : Cached t ino := by
  have hsame := h.din ino hc.ino
  refine ⟨h.inos.symm ▸ hc.ino, h.inv hc.inv, ?_, ?_⟩
  · rw [hsame.size, hsame.blocks]
    exact hc.room
  · intro k hk hge
    rw [hsame.blocks] at hge
    rw [hsame.direct k hk]
    exact hc.tail k hk hge

/-- The block of an inode is neither the super block nor in the free map. -/
theorem Inv.inode_ne (hi : Inv False s) (hino : ino ∈ s.inos) :
    ino ≠ blknSuper ∧ ∀ k < s.freemapBlocks, ino ≠ blknFreemap + k := by
  have hnode : s.owns (.inode ino) ino := ⟨hino, rfl⟩
  refine ⟨?_, ?_⟩
  · intro h0
    exact Owner.noConfusion (hi.accounts.ledger.once (.inode ino) .super ino hnode h0)
  · intro k hk heq
    exact Owner.noConfusion (hi.accounts.ledger.once (.inode ino) (.freemap k) ino hnode ⟨hk, heq⟩)

theorem OnDisk.congr (h : OnDisk s) (hblocks : t.superBlocks = s.superBlocks)
    (hunused : t.unusedBlocks = s.unusedBlocks) (hmap : t.freemap = s.freemap)
    (hsuper : t.disk blknSuper = s.disk blknSuper)
    (hdisk : ∀ k < s.freemapBlocks, t.disk (blknFreemap + k) = s.disk (blknFreemap + k)) :
    OnDisk t := by
  refine ⟨?_, ?_, ?_, ?_⟩
  · rw [hsuper]
    exact h.magic
  · rw [hsuper, hblocks]
    exact h.blocks
  · rw [hsuper, hunused]
    exact h.unused
  · unfold Sfs.freemapBlocks
    rw [hblocks, hmap]
    intro k hk
    rw [hdisk k hk]
    exact h.map k hk

theorem Synced.onDisk (h : Synced s t) (hi : Inv False s) (hdisk : OnDisk s) : OnDisk t := by
  refine hdisk.congr h.volume.superBlocks h.volume.unused h.volume.freemap ?_ ?_
  · exact h.disk _ fun hbad => (hi.inode_ne hbad).1 rfl
  · exact fun k hk => h.disk _ fun hbad => (hi.inode_ne hbad).2 k hk rfl

/-- The same volume, as long as the inodes and what a mount reads are on disk or marked. -/
theorem Backed.same (h : Backed s inodeList nlinks) (hvol : SameVolume s t)
    (hlinks : ∀ j ∈ inodeList, nlinksOf (t.disk j) = nlinksOf (s.disk j))
    (hmarked : ∀ j ∈ s.inos, (t.storedInode j).Same (t.din j) ∨
      j ∈ inodeList ∧ (t.inodes j).dirty = true)
    (hsuper : t.superDirty = true ∨ OnDisk t) : Backed t inodeList nlinks := by
  have hinos := hvol.inos
  have hblocks := hvol.superBlocks
  refine ⟨hvol.inv h.inv, ?_, ?_, ?_, ?_, ?_, hsuper⟩
  · intro j hj
    exact (h.cached j (hinos ▸ hj)).same hvol
  · unfold Sfs.freemapBlocks
    rw [hblocks]
    exact h.room
  · intro j hj
    rw [hblocks]
    exact h.range j (hinos ▸ hj)
  · intro j hj
    obtain ⟨hin, hn⟩ := h.list j hj
    exact ⟨hinos.symm ▸ hin, (hlinks j hj).trans hn⟩
  · intro j hj
    exact hmarked j (hinos ▸ hj)

theorem Backed.synced (h : Backed s inodeList nlinks) (hst : Synced s t)
    (hlinks : ∀ j ∈ inodeList, nlinksOf (t.disk j) = nlinksOf (s.disk j))
    (hmarked : ∀ j ∈ s.inos, (t.storedInode j).Same (t.din j) ∨
      j ∈ inodeList ∧ (t.inodes j).dirty = true) : Backed t inodeList nlinks := by
  refine h.same hst.volume hlinks hmarked ?_
  rw [hst.superDirty]
  exact h.super.imp_right (hst.onDisk h.inv)

theorem Synced.putInode {blk : Bytes} {n : ℕ} (hi : Inv False s) (hin : ino ∈ s.inos)
    (hstored : Stored s ino n ((s.setClean ino).putBlock ino blk)) :
    Synced s ((s.setClean ino).putBlock ino blk) := by
  have hvol : SameVolume s ((s.setClean ino).putBlock ino blk) := putInode_sameVolume hi hin
  refine ⟨hvol, ?_, rfl, ?_⟩
  · intro b hb
    exact hstored.disk b fun heq => hb (heq ▸ hin)
  · intro j hj hsame
    by_cases hji : j = ino
    · rw [hji]
      exact hstored.same.trans (hvol.din ino hin).symm
    · unfold Sfs.storedInode
      rw [hstored.disk j hji]
      exact hsame.trans (hvol.din j hj).symm

/-- The blocks that are written in a row. -/
def putBlocks (disk : ℕ → Bytes) (blkno n : ℕ) (buf : Bytes) : ℕ → Bytes := fun b =>
  if blkno ≤ b ∧ b < blkno + n then fun i => buf (i + (b - blkno) * blkSize) else disk b

/-- The super block and the free map are on disk. -/
def Sfs.superDisk (s : Sfs) (info : Bytes) : ℕ → Bytes :=
  putBlocks (Function.update s.disk blknSuper (superBytes s.superBlocks s.unusedBlocks info))
    blknFreemap s.freemapBlocks s.freemap.bitmapGetdata

theorem superDisk_of_owns (hi : Inv False s) {o : Owner} (hfile : Owner.OfFile ino o)
    (howns : s.owns o b) : s.superDisk info b = s.disk b := by
  have honce := hi.accounts.ledger.once
  have h0 : b ≠ blknSuper := by
    intro heq
    rw [honce o .super b howns heq] at hfile
    exact hfile
  have hmap : ¬ (blknFreemap ≤ b ∧ b < blknFreemap + s.freemapBlocks) := by
    intro hrange
    have hfree : s.owns (.freemap (b - blknFreemap)) b := ⟨by omega, by omega⟩
    rw [honce o _ b howns hfree] at hfile
    exact hfile
  unfold Sfs.superDisk putBlocks
  rw [if_neg hmap, Function.update_of_ne h0]

theorem superDisk_inode (hi : Inv False s) (hino : ino ∈ s.inos) :
    s.superDisk info ino = s.disk ino := by
  obtain ⟨h0, hmap⟩ := hi.inode_ne hino
  unfold Sfs.superDisk putBlocks
  rw [if_neg, Function.update_of_ne h0]
  intro hrange
  exact hmap (ino - blknFreemap) (by omega) (by omega)

theorem superDisk_onDisk (hm : Mounted s) {superDirty : Bool} :
    OnDisk { s with disk := s.superDisk info, superDirty := superDirty } := by
  have hlt := hm.superBlocks_lt
  have hunused : s.unusedBlocks < 2 ^ 32 := by
    have hle : s.freemap.setBits ≤ s.freemap.nbits :=
      (Finset.card_filter_le _ _).trans_eq (Finset.card_range _)
    have hbits := hm.nbits
    have hcount := hm.count
    unfold Sfs.freemapBlocks blkBits blkSize at hbits
    omega
  obtain ⟨hmagic, hblocks, hfree⟩ :=
    get32_superBytes info (hlt.trans (by decide)) hunused
  have hsuper : s.superDisk info blknSuper = superBytes s.superBlocks s.unusedBlocks info := by
    unfold Sfs.superDisk putBlocks blknFreemap blknSuper
    rw [if_neg (by omega), Function.update_self]
  refine ⟨?_, ?_, ?_, ?_⟩
  · dsimp only
    rw [hsuper]
    exact hmagic
  · dsimp only
    rw [hsuper]
    exact hblocks
  · dsimp only
    rw [hsuper]
    exact hfree
  · intro k hk w _
    have hblock : s.superDisk info (blknFreemap + k) =
        fun i => s.freemap.bitmapGetdata (i + k * blkSize) := by
      have hlast : blknFreemap + k < blknFreemap + s.freemapBlocks := Nat.add_lt_add_left hk _
      unfold Sfs.superDisk putBlocks
      rw [if_pos ⟨Nat.le_add_right _ _, hlast⟩, Nat.add_sub_cancel_left]
    dsimp only
    rw [hblock]
    exact get32_bitmapGetdata s.freemap k w

section Working

variable [SfsDevice]

/-- One inode is written. -/
theorem Backed.fsync (hw : ¬ Faulty) (h : Backed s inodeList nlinks) (hino : ino ∈ inodeList) :
    ∃ t, sfsFsync ino (nlinks ino) s = some (.ok ⟨⟩, t) ∧ Backed t inodeList nlinks ∧
      Synced s t ∧ (t.storedInode ino).Same (t.din ino) := by
  have hm := h.inv.accounts.mounted
  obtain ⟨hin, hlinks⟩ := h.list ino hino
  have hsync : sfsFsync ino (nlinks ino) s = _ :=
    sfsFsync_eq hw hm (h.inv.inode_ne hin).1 (h.range ino hin)
  by_cases hdirty : (s.inodes ino).dirty = true
  · rw [if_pos hdirty] at hsync
    have hsmall : nlinks ino < 2 ^ 16 := hlinks ▸ get16_lt _
    have hstored := setClean_stored hm (h.cached ino hin).words hsmall
    have hst := Synced.putInode h.inv hin hstored
    have hself := hstored.same.trans (hst.volume.din ino hin).symm
    refine ⟨_, hsync, h.synced hst ?_ ?_, hst, hself⟩
    · intro j hj
      by_cases hji : j = ino
      · rw [hji, hstored.nlinks, hlinks]
      · rw [hstored.disk j hji]
    · intro j hj
      by_cases hji : j = ino
      · rw [hji]
        exact Or.inl hself
      · refine (h.marked j hj).imp (hst.stored j hj) fun hdirty' => ⟨hdirty'.1, ?_⟩
        exact (congrArg SfsInode.dirty (Function.update_of_ne hji _ _)).trans hdirty'.2
  · rw [if_neg hdirty] at hsync
    have hself := (h.marked ino hin).resolve_right fun hbad => hdirty hbad.2
    exact ⟨s, hsync, h, Synced.refl s, hself⟩

/-- The loop over the inodes in memory. -/
theorem Backed.fsyncAll (hw : ¬ Faulty) (h : Backed s inodeList nlinks) :
    Ends False (Call.each (fun ino => Call.warn (sfsFsync ino (nlinks ino))) inodeList) s
      (fun _ t => Backed t inodeList nlinks ∧ Synced s t ∧
        ∀ j ∈ s.inos, (t.storedInode j).Same (t.din j)) (fun _ _ => False) := by
  have hloop : Ends False
      (Call.each (fun ino => Call.warn (sfsFsync ino (nlinks ino))) inodeList) s
      (fun _ t => Backed t inodeList nlinks ∧ Synced s t ∧
        ∀ j ∈ [] ++ inodeList, (t.storedInode j).Same (t.din j)) (fun _ _ => False) := by
    refine Ends.eachDone (I := fun done t => Backed t inodeList nlinks ∧ Synced s t ∧
      ∀ j ∈ done, (t.storedInode j).Same (t.din j)) ?_ ⟨h, Synced.refl s, ?_⟩
    · intro pre ino post hlist t ht
      obtain ⟨hback, hst, hdone⟩ := ht
      have hmem : ∀ j ∈ pre ++ [ino], j ∈ inodeList := by
        intro j hj
        rw [List.nil_append] at hlist
        rw [hlist, List.append_cons]
        exact List.mem_append_left post hj
      obtain ⟨u, hsync, hback', hst', hself⟩ :=
        hback.fsync hw (hmem ino List.mem_concat_self)
      refine Ends.warn (Ends.of_eq_ok hsync ⟨hback', hst.trans hst', ?_⟩)
      intro j hj
      rcases List.mem_append.mp hj with hj' | hj'
      · exact hst'.stored j (hback.list j (hmem j hj)).1 (hdone j hj')
      · rw [List.mem_singleton.mp hj']
        exact hself
    · exact fun j hj => absurd hj List.not_mem_nil
  refine hloop.mono (fun _ t ht => ⟨ht.1, ht.2.1, fun j hj => ?_⟩) (fun _ _ hbad => hbad)
  rcases h.marked j hj with hsame | hlist
  · exact ht.2.1.stored j hj hsame
  · exact ht.2.2 j hlist.1

theorem sfsRwblock_write {blkno n : ℕ} {buf : Bytes} (hw : ¬ Faulty) (hm : Mounted s)
    (h0 : blkno ≠ 0) (hlt : blkno + n ≤ s.superBlocks) :
    Ends False (sfsRwblock true n buf blkno) s
      (fun _ t => t = { s with disk := putBlocks s.disk blkno n buf }) (fun _ _ => False) := by
  induction n generalizing s blkno buf with
  | zero =>
    refine Ends.pure ?_
    have hnone : putBlocks s.disk blkno 0 buf = s.disk := by
      funext b
      exact if_neg (by omega)
    rw [hnone]
  | succ n ih =>
    unfold sfsRwblock
    refine Ends.bind (write_ends hm (fun hbad => hbad ⟨h0, by omega⟩)
      (fun hr => absurd ⟨_, _, _, hr⟩ hw) ?_)
    intro _ _ _
    have hm' : Mounted { s with disk := Function.update s.disk blkno buf } :=
      ⟨hm.device, hm.nbits, hm.nwords, hm.count⟩
    refine Ends.bind ((ih hm' (Nat.succ_ne_zero blkno) (by dsimp only; omega)).mono ?_
      (fun _ _ hbad => hbad))
    intro _ t ht
    refine Ends.pure (ht.trans ?_)
    have hdisk : putBlocks (Function.update s.disk blkno buf) (blkno + 1) n
        (fun i => buf (i + blkSize)) = putBlocks s.disk blkno (n + 1) buf := by
      funext b
      unfold putBlocks
      by_cases hb : b = blkno
      · rw [hb, if_neg (by omega), if_pos (by omega), Function.update_self]
        funext i
        rw [Nat.sub_self, Nat.zero_mul, Nat.add_zero]
      · rw [Function.update_of_ne hb]
        by_cases hin : blkno + 1 ≤ b ∧ b < blkno + 1 + n
        · rw [if_pos hin, if_pos (by omega)]
          funext i
          dsimp only
          rw [show b - blkno = b - (blkno + 1) + 1 by omega, Nat.succ_mul, ← Nat.add_assoc]
        · rw [if_neg hin, if_neg (by omega)]
    dsimp only
    rw [hdisk]

theorem sfsSyncSuper_ends (hw : ¬ Faulty) (hm : Mounted s) (hpos : blknSuper < s.superBlocks) :
    Ends False (sfsSyncSuper info) s
      (fun _ t => t = s.putBlock blknSuper (superBytes s.superBlocks s.unusedBlocks info))
      (fun _ _ => False) := by
  have hdev := hm.device
  have hwrite : ∀ buf : Bytes, sfsRwblockUnchecked buf blknSuper true s =
      some (.ok buf, { s with disk := Function.update s.disk blknSuper buf }) := by
    intro buf
    have hblk : uint32 (blknSuper * blkSize) / blkSize = blknSuper := rfl
    unfold sfsRwblockUnchecked
    rw [if_pos hpos, hblk]
    dsimp only
    rw [if_neg, if_pos rfl]
    intro hbad
    rcases hbad with hbad | hbad
    · unfold blknSuper at hbad
      omega
    · exact hw ⟨_, _, _, hbad⟩
  unfold sfsSyncSuper
  exact Ends.bind (Ends.read (Ends.bind (Ends.of_eq_ok (hwrite _) (Ends.pure rfl))))

theorem sfsSyncFreemap_ends (hw : ¬ Faulty) (hm : Mounted s)
    (hroom : blknFreemap + s.freemapBlocks ≤ s.superBlocks) :
    Ends False sfsSyncFreemap s
      (fun _ t => t = { s with
        disk := putBlocks s.disk blknFreemap s.freemapBlocks s.freemap.bitmapGetdata })
      (fun _ _ => False) := by
  unfold sfsSyncFreemap
  refine Ends.bind (Ends.read (Ends.bind ?_))
  refine (sfsRwblock_write hw hm (by decide) hroom).mono ?_ (fun _ _ hbad => hbad)
  exact fun _ t ht => Ends.pure ht

/-- After `sfs_sync` the whole volume is on disk, and no file has changed. -/
theorem Backed.sync (hw : ¬ Faulty) (h : Backed s inodeList nlinks) (info : Bytes) :
    Ends False (sfsSync inodeList nlinks info) s (fun _ t => Settled s t ∧
      Backed t inodeList nlinks ∧ OnDisk t ∧ ∀ j ∈ s.inos, (t.storedInode j).Same (t.din j))
      (fun _ _ => False) := by
  unfold sfsSync
  refine Ends.bind ((h.fsyncAll hw).mono ?_ (fun _ _ hbad => hbad))
  intro _ t ht
  obtain ⟨hback, hst, hstored⟩ := ht
  have hsettled := hst.settled h.inv
  have hinos := hst.volume.inos
  refine Ends.bind (Ends.read ?_)
  by_cases hdirty : t.superDirty = true
  · rw [if_pos hdirty]
    have hm := hback.inv.accounts.mounted
    have hm' : Mounted { t with superDirty := false } := ⟨hm.device, hm.nbits, hm.nwords, hm.count⟩
    have hpos : blknSuper < t.superBlocks := by
      have hroom := hback.room
      unfold blknFreemap at hroom
      unfold blknSuper
      omega
    refine Ends.bind (Ends.modify ?_)
    refine Ends.bind (Ends.onError ((sfsSyncSuper_ends hw hm' hpos).mono ?_
      (fun _ _ hbad => hbad.elim)))
    intro _ u hu
    have hmu : Mounted u := by
      rw [hu]
      exact ⟨hm.device, hm.nbits, hm.nwords, hm.count⟩
    have hroom : blknFreemap + u.freemapBlocks ≤ u.superBlocks := by
      rw [hu]
      exact hback.room
    refine Ends.onError ((sfsSyncFreemap_ends hw hmu hroom).mono ?_ (fun _ _ hbad => hbad.elim))
    intro _ v hv
    rw [hu] at hv
    have hall : v = { t with disk := t.superDisk info, superDirty := false } := hv
    have hsuper : Settled t v := by
      rw [hall]
      exact Settled.of_disk fun _ _ _ hfile howns => superDisk_of_owns hback.inv hfile howns
    have hnode : ∀ j ∈ t.inos, v.disk j = t.disk j := by
      rw [hall]
      exact fun j hj => superDisk_inode hback.inv hj
    have hon : OnDisk v := by
      rw [hall]
      exact superDisk_onDisk hm
    have hsame : ∀ j ∈ s.inos, (v.storedInode j).Same (v.din j) := by
      intro j hj
      have hdin : v.din j = t.din j := by rw [hall]; rfl
      unfold Sfs.storedInode
      rw [hnode j (hinos.symm ▸ hj), hdin]
      exact hstored j hj
    refine ⟨hsettled.trans hsuper, ?_, hon, hsame⟩
    refine hback.same hsuper.volume ?_ ?_ (Or.inr hon)
    · intro j hj
      rw [hnode j (hback.list j hj).1]
    · intro j hj
      exact Or.inl (hsame j (hinos ▸ hj))
  · rw [if_neg hdirty]
    exact Ends.pure ⟨hsettled, hback, hback.super.resolve_left hdirty, hstored⟩

end Working

/-- A volume that is on disk is the same one after a mount, and its inodes are up to date. -/
theorem Backed.remounted (h : Backed s inodeList nlinks) (hon : OnDisk s)
    (hstored : ∀ j ∈ s.inos, (s.storedInode j).Same (s.din j)) {kmalloc : MountAlloc → Bool}
    (hmem : ∀ a, kmalloc a = true) :
    ∃ m, sfsDoMount (disk0 s.imgSize s.disk) kmalloc = some (.ok m) ∧
      Settled s (s.remounted m) ∧ ∀ n, Backed (s.remounted m) [] n := by
  obtain ⟨freemap, hmount, htrim⟩ := hon.mount h.inv h.room hmem
  have hvol : SameVolume s (s.remounted ⟨s.superBlocks, s.unusedBlocks, false, freemap⟩) :=
    ⟨rfl, rfl, rfl, htrim, rfl, hstored, fun _ _ _ => rfl⟩
  refine ⟨_, hmount, ⟨hvol, fun _ _ _ _ _ => rfl⟩, fun n => ?_⟩
  have hnone : Backed s [] n := by
    refine ⟨h.inv, h.cached, h.room, h.range, ?_, fun j hj => Or.inl (hstored j hj), Or.inr hon⟩
    exact fun j hj => absurd hj List.not_mem_nil
  refine hnone.same hvol ?_ ?_ (Or.inr (hon.congr rfl rfl htrim rfl fun _ _ => rfl))
  · exact fun j hj => absurd hj List.not_mem_nil
  · exact fun j _ => Or.inl (DiskInode.Same.refl _)

end Ucore.Fs
