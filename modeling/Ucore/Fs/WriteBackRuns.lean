import Ucore.Fs.WriteBack
import Ucore.Library.Run

/-!
Writing an inode back. After `sfs_load_inode` and any calls for the file, an inode that is not as on
disk is marked and reaches its disk block with `sfs_close` or `sfs_reclaim`, as long as no call stops
with blocks that are counted in memory only.
-/
namespace Ucore.Fs

open Library Libs Call

/-- The file in `t` counts blocks that its inode on disk does not count, and is not marked. -/
structure Unmarked (s : Sfs) (sin : ℕ) (t : Sfs) : Prop where
  more : (s.din sin).blocks < (t.din sin).blocks
  block : t.disk sin = s.disk sin
  clean : (t.inodes sin).dirty = false

/-- Two states show the same file. -/
structure SameFile (s : Sfs) (ino : ℕ) (t : Sfs) : Prop where
  size : (t.din ino).size = (s.din ino).size
  blocks : (t.din ino).blocks = (s.din ino).blocks
  map : ∀ k, t.blockOf ino k = s.blockOf ino k

/-- In `t` the inode that is in memory in `s` stands in its disk block. -/
structure Stored (s : Sfs) (ino nlinks : ℕ) (t : Sfs) : Prop where
  mounted : Mounted t
  superBlocks : t.superBlocks = s.superBlocks
  freemap : t.freemap = s.freemap
  same : (t.storedInode ino).Same (s.din ino)
  nlinks : nlinksOf (t.disk ino) = nlinks
  disk : ∀ b, b ≠ ino → t.disk b = s.disk b

variable {s s₀ s₁ t u v : Sfs} {sin ino n b nlinks : ℕ} {len : ℤ}

/-! An enlargement that stops with an unmarked inode. -/

theorem Adds.clean (h : Adds s sin b v) (hdirect : nDirect ≤ (s.din sin).blocks)
    (hind : (s.din sin).indirect ≠ 0) (hclean : (s.inodes sin).dirty = false) :
    ((v.bump sin).inodes sin).dirty = false := by
  have hbump : ((v.bump sin).inodes sin).dirty = (v.inodes sin).dirty := by
    unfold Sfs.bump Sfs.setDin
    simp only [Function.update_self]
  rw [hbump]
  cases h with
  | reuse hlt _ => omega
  | direct hlt _ _ => omega
  | entry _ _ _ _ => exact hclean
  | indirect _ _ h0 _ _ => exact absurd h0 hind

theorem FileOp.StopsUnmarked.clean {op : FileOp} (h : op.StopsUnmarked s sin) :
    (s.inodes sin).dirty = false := by
  cases op with
  | truncate len => exact Sfs.StopsUnmarked.clean h
  | seek pos => exact Sfs.StopsUnmarked.clean h.2
  | io buf offset len write => exact h.elim

variable [SfsDevice]

theorem enlarge_stops (hw : ¬ Faulty) (hc : Cached s sin) (hstop : s.StopsUnmarked sin len)
    {left : ℕ} (hleft : (s.din sin).blocks + left = blocksFor len.toNat) :
    Ends False (enlarge sin left (s.din sin).blocks) s (fun _ _ => False)
      (fun _ t => Unmarked s sin t) := by
  have hfull := hstop.full
  have hsome := hstop.some
  -- every block comes from the free map, so that the sum stays
  refine (enlarge_of_load (R := fun m u => Framed False s sin m u ∧ nDirect ≤ m ∧
    (u.din sin).indirect ≠ 0 ∧ (u.inodes sin).dirty = false ∧
    m + u.unusedBlocks = (s.din sin).blocks + s.unusedBlocks) (F := Unmarked s sin) ?_ hleft
    ⟨Framed.refl hc.inv, hstop.direct, hstop.indirect, hstop.clean, rfl⟩).mono ?_
    (fun _ _ he => he)
  · intro m u hu _
    obtain ⟨hframed, hdirect, hind, hclean, hsum⟩ := hu
    have hneed : u.growthNeed sin = 1 := by
      unfold Sfs.growthNeed
      rw [hframed.blocks, if_neg (by omega), if_neg hind]
    refine ((load_behind hw hframed hc.ino).weaken (fun hbad => by omega)).mono ?_ ?_
    · intro _ u' hu'
      obtain ⟨hframed', b, v, taken, hadds, rfl, hg⟩ := hu'
      have hunused := hg.unused
      have hcount := hg.need
      refine ⟨hframed', by omega, ?_, hadds.clean (hframed.blocks ▸ hdirect) hind hclean, by omega⟩
      intro h0
      exact hind (hg.indirect.mp h0).2
    · intro _ u' hu'
      obtain ⟨hframed', hinodes, hlast⟩ := hu'
      refine ⟨?_, (hframed'.owned (.inode sin) sin ⟨hc.ino, rfl⟩ (fun hbad => hbad)).2, ?_⟩
      · rw [hframed'.blocks]
        omega
      · rw [hinodes]
        exact hclean
  · intro _ u hu
    obtain ⟨-, -, -, -, hsum⟩ := hu
    omega

theorem sfsTruncfile_stops (hw : ¬ Faulty) (hc : Cached s sin) (hstop : s.StopsUnmarked sin len) :
    Ends False (sfsTruncfile sin len) s (fun _ _ => False) (fun _ t => Unmarked s sin t) := by
  have hpasses := hstop.passes
  have hfull := hstop.full
  have hroom := hc.room
  have hmore : (s.din sin).blocks * blkSize < len.toNat := by
    unfold blocksFor blkSize at *
    omega
  unfold sfsTruncfile
  rw [if_neg (by omega)]
  refine Ends.bind (Ends.read ?_)
  dsimp only
  rw [if_neg (by omega)]
  have hfor : (len.toNat + blkSize - 1) / blkSize = blocksFor len.toNat := rfl
  rw [hfor, if_pos (by omega)]
  refine Ends.bind ((enlarge_stops hw hc hstop (by omega)).mono ?_ (fun _ _ he => he))
  exact fun _ _ hbad => hbad.elim

theorem sfsTryseek_stops (hw : ¬ Faulty) (hc : Cached s sin) {pos : ℤ} (hlt : pos < maxFileSize)
    (hstop : s.StopsUnmarked sin pos) :
    Ends False (sfsTryseek sin pos) s (fun _ _ => False) (fun _ t => Unmarked s sin t) := by
  have hfull := hstop.full
  have hroom := hc.room
  have hmore : (s.din sin).blocks * blkSize < pos.toNat := by
    unfold blocksFor blkSize at *
    omega
  unfold sfsTryseek
  rw [if_neg (by omega)]
  refine Ends.bind (Ends.read ?_)
  rw [if_pos (by omega)]
  exact sfsTruncfile_stops hw hc hstop

theorem FileOp.after_stops (hw : ¬ Faulty) (hc : Cached s sin) {op : FileOp}
    (hstop : op.StopsUnmarked s sin) : ∃ t, op.after s sin = some t ∧ Unmarked s sin t := by
  have hcall : ∀ x : SfsCall PUnit, Ends False x s (fun _ _ => False)
      (fun _ t => Unmarked s sin t) → ∃ t, (x s).map Prod.snd = some t ∧ Unmarked s sin t := by
    intro x hends
    obtain ⟨⟨ret, t⟩, ht⟩ := hends.exists
    cases ret with
    | ok a => exact (hends.of_ok ht).elim
    | error e => exact ⟨t, by rw [ht, Option.map_some], hends.of_error ht⟩
  cases op with
  | truncate len => exact hcall _ (sfsTruncfile_stops hw hc hstop)
  | seek pos => exact hcall _ (sfsTryseek_stops hw hc hstop.1 hstop.2)
  | io buf offset len write => exact hstop.elim

/-- Any other call leaves the inode as it was, or marks it. -/
theorem FileOp.after_stays (hw : ¬ Faulty) (hc : Cached s sin) {op : FileOp}
    (hstop : ¬ op.StopsUnmarked s sin) (hop : op.after s sin = some t) : Stays s sin t := by
  have hcall : ∀ x : SfsCall PUnit, Ends True x s (fun _ t => Stays s sin t)
      (fun _ t => Stays s sin t) → (x s).map Prod.snd = some t → Stays s sin t := by
    intro x hends hx
    obtain ⟨⟨ret, u⟩, hxs, rfl⟩ := Option.map_eq_some_iff.mp hx
    exact hends.state hxs
  cases op with
  | truncate len => exact hcall _ (sfsTruncfile_stays hw hc hstop) hop
  | seek pos => exact hcall _ (sfsTryseek_stays hw hc hstop) hop
  | io buf offset len write =>
    obtain ⟨r, hr, rfl⟩ := Option.map_eq_some_iff.mp hop
    exact sfsIoNolock_stays hw hc hr

/-! The inode on its way to the disk and back. -/

omit [SfsDevice] in
/-- All numbers of the inode fit in their fields. -/
theorem Cached.words (hc : Cached s ino) : (s.din ino).Words := by
  have hs := hc.inv.sound (fun hbad => hbad)
  have hsmall : ∀ k, k < s.superBlocks → k < 2 ^ 32 :=
    fun k hk => hc.inv.accounts.mounted.block_lt_word hk
  have hroom := hc.room
  have hlimit := hs.limit ino hc.ino
  unfold maxBlocks nDirect blkNEntry blkSize at *
  exact ⟨by omega, by omega, fun k hk => hsmall _ (hs.direct ino hc.ino k hk),
    hsmall _ (hs.indirect ino hc.ino)⟩

omit [SfsDevice] in
/-- The block of an inode is no indirect block. -/
theorem Cached.indirect_ne (hc : Cached s ino) (hind : (s.din ino).indirect ≠ 0) :
    (s.din ino).indirect ≠ ino := by
  intro heq
  have hown : s.owns (.indirect ino) ino := ⟨hc.ino, heq, heq ▸ hind⟩
  have hnode : s.owns (.inode ino) ino := ⟨hc.ino, rfl⟩
  exact Owner.noConfusion (hc.inv.accounts.ledger.once _ _ _ hown hnode)

omit [SfsDevice] in
/-- An inode that is not marked is as it was loaded. -/
theorem Stays.same_of_clean (h : Stays (s₀.loaded ino) ino s)
    (hclean : (s.inodes ino).dirty = false) : s.din ino = s.storedInode ino := by
  have hload : (s₀.loaded ino).inodes ino = ⟨s₀.storedInode ino, false⟩ := by
    unfold Sfs.loaded
    simp only [Function.update_self]
  rcases h.marked with hdirty | hsame
  · rw [hclean] at hdirty
    exact absurd hdirty Bool.false_ne_true
  · unfold Sfs.din Sfs.storedInode
    rw [hsame, hload, h.block]
    rfl

omit [SfsDevice] in
theorem setClean_stored (hm : Mounted s) (hwords : (s.din ino).Words) (hlinks : nlinks < 2 ^ 16) :
    Stored s ino nlinks ((s.setClean ino).putBlock ino
      (patch (s.disk ino) (inodeBytes (s.din ino) nlinks) 0 diskInodeSize)) := by
  have hbytes : ∀ i < diskInodeSize, patch (s.disk ino) (inodeBytes (s.din ino) nlinks) 0
      diskInodeSize i = inodeBytes (s.din ino) nlinks i := by
    intro i hi
    unfold patch
    rw [if_pos ⟨Nat.zero_le i, by omega⟩, Nat.sub_zero]
  have hblock : ∀ blk, ((s.setClean ino).putBlock ino blk).disk ino = blk :=
    fun blk => Function.update_self ..
  refine ⟨⟨hm.device, hm.nbits, hm.nwords, hm.count⟩, rfl, rfl, ?_, ?_, ?_⟩
  · unfold Sfs.storedInode
    rw [hblock, diskInode_congr hbytes]
    exact diskInode_inodeBytes hwords
  · rw [hblock]
    refine Eq.trans (get16_congr (fun i hi => hbytes _ ?_)) (nlinksOf_inodeBytes hlinks)
    unfold diskInodeSize
    omega
  · intro b hb
    exact Function.update_of_ne hb _ _

/-- After `sfs_fsync` the inode is on disk: it was not marked and is as loaded, or was written. -/
theorem Stays.fsync (hw : ¬ Faulty) (hl : Loadable s₀ ino) (h : Stays (s₀.loaded ino) ino s) :
    ∃ t, sfsFsync ino (nlinksOf (s₀.disk ino)) s = some (.ok ⟨⟩, t) ∧
      Stored s ino (nlinksOf (s₀.disk ino)) t := by
  have hm := h.cached.inv.accounts.mounted
  have hsync : sfsFsync ino (nlinksOf (s₀.disk ino)) s = _ :=
    sfsFsync_eq hw hm hl.nonzero (h.superBlocks.symm ▸ hl.range)
  by_cases hdirty : (s.inodes ino).dirty = true
  · rw [if_pos hdirty] at hsync
    exact ⟨_, hsync, setClean_stored hm h.cached.words (get16_lt _)⟩
  · rw [if_neg hdirty] at hsync
    have hsame := h.same_of_clean (Bool.eq_false_iff.mpr hdirty)
    refine ⟨s, hsync, hm, rfl, rfl, ?_, congrArg nlinksOf h.block, fun _ _ => rfl⟩
    rw [hsame]
    exact ⟨rfl, rfl, rfl, fun _ _ => rfl, rfl⟩

/-- An inode on disk is loaded with the size, the blocks and the block map it had. -/
theorem Stored.reload (hw : ¬ Faulty) (hc : Cached s ino) (h : Stored s ino nlinks t)
    (h0 : ino ≠ 0) (hlt : ino < s.superBlocks) (hlinks : nlinks ≠ 0)
    (htype : (s.din ino).type = .file ∨ (s.din ino).type = .dir) :
    ∃ u, sfsLoadInode ino t = some (.ok ⟨⟩, u) ∧ SameFile s ino u := by
  have hused : s.freemap.bit ino = false :=
    Bool.eq_false_iff.mpr (hc.inv.accounts.ledger.taken (.inode ino) ino ⟨hc.ino, rfl⟩)
  have hload : Loadable t ino := by
    refine ⟨h0, h.superBlocks.symm ▸ hlt, h.freemap.symm ▸ hused, h.nlinks.symm ▸ hlinks, ?_⟩
    rw [h.same.type]
    exact htype
  have hdin : (t.loaded ino).din ino = t.storedInode ino := by
    unfold Sfs.din Sfs.loaded
    simp only [Function.update_self]
  refine ⟨t.loaded ino, (sfsLoadInode_ok_iff hw h.mounted).mpr ⟨hload, rfl⟩, ?_, ?_, ?_⟩
  · rw [hdin]
    exact h.same.size
  · rw [hdin]
    exact h.same.blocks
  · intro k
    unfold Sfs.blockOf
    rw [hdin, h.same.indirect]
    by_cases hk : k < nDirect
    · rw [if_pos hk, if_pos hk]
      exact h.same.direct k hk
    · rw [if_neg hk, if_neg hk]
      by_cases hind : (s.din ino).indirect = 0
      · rw [if_pos hind, if_pos hind]
      · rw [if_neg hind, if_neg hind]
        unfold Sfs.entryOf
        have hdisk : (t.loaded ino).disk (s.din ino).indirect = s.disk (s.din ino).indirect :=
          h.disk _ (hc.indirect_ne hind)
        rw [hdisk]

/-- `store` writes the inode so that it can be loaded again as it is in memory. -/
def Sfs.ReloadsAfter (s : Sfs) (ino : ℕ) (store : SfsCall PUnit) : Prop :=
  ∃ t u, store s = some (.ok ⟨⟩, t) ∧ sfsLoadInode ino t = some (.ok ⟨⟩, u) ∧ SameFile s ino u

/-- Nothing of the inode gets lost. -/
structure WrittenBack (s : Sfs) (ino nlinks : ℕ) : Prop where
  marked : ¬ (s.storedInode ino).Same (s.din ino) → (s.inodes ino).dirty = true
  close : s.ReloadsAfter ino (sfsClose ino nlinks)
  reclaim : s.ReloadsAfter ino (sfsReclaim ino nlinks)

theorem Stays.writtenBack (hw : ¬ Faulty) (hl : Loadable s₀ ino)
    (h : Stays (s₀.loaded ino) ino s) : WrittenBack s ino (nlinksOf (s₀.disk ino)) := by
  have hdin : (s₀.loaded ino).din ino = s₀.storedInode ino := by
    unfold Sfs.din Sfs.loaded
    simp only [Function.update_self]
  have hreload : s.ReloadsAfter ino (sfsFsync ino (nlinksOf (s₀.disk ino))) := by
    obtain ⟨t, hsync, ht⟩ := h.fsync hw hl
    have htype := h.type
    rw [hdin] at htype
    obtain ⟨u, hu, hfile⟩ := ht.reload hw h.cached hl.nonzero (h.superBlocks.symm ▸ hl.range)
      hl.nlinks (htype.symm ▸ hl.type)
    exact ⟨t, u, hsync, hu, hfile⟩
  refine ⟨?_, hreload, ?_⟩
  · intro hdiffers
    by_contra hdirty
    have hsame := h.same_of_clean (Bool.eq_false_iff.mpr hdirty)
    rw [hsame] at hdiffers
    exact hdiffers ⟨rfl, rfl, rfl, fun _ _ => rfl, rfl⟩
  · unfold Sfs.ReloadsAfter
    rw [sfsReclaim_eq hl.nlinks]
    exact hreload

/-- After an enlargement that stopped with an unmarked inode. -/
theorem Unmarked.not_writtenBack (h : Unmarked s ino t) (hs : Stays (s₀.loaded ino) ino s)
    (hclean : (s.inodes ino).dirty = false) : ¬ WrittenBack t ino nlinks := by
  intro hback
  have hstored : t.storedInode ino = s.storedInode ino := congrArg diskInode h.block
  have hmore := h.more
  rw [hs.same_of_clean hclean, ← hstored] at hmore
  have hdirty := hback.marked (fun hsame => by
    have hblocks := hsame.blocks
    omega)
  rw [h.clean] at hdirty
  exact Bool.false_ne_true hdirty

/-- On a working device: in all states of a run after `sfs_load_inode`, an inode that is not as on
disk is marked, and `sfs_close` and `sfs_reclaim` write what is loaded again, if and only if no call
stops with blocks that it added to an unmarked inode. -/
theorem write_back_complete_iff (hw : ¬ Faulty) (hm : Mounted s₀)
    (hload : sfsLoadInode ino s₀ = some (.ok ⟨⟩, s₁)) (hc : Cached s₁ ino) (ops : List FileOp) :
    (∀ s, RunReaches (fun s op => FileOp.after op s ino) s₁ ops s →
      WrittenBack s ino (nlinksOf (s₀.disk ino))) ↔
    RunMeets (fun s op => FileOp.after op s ino) (fun s op => ¬ op.StopsUnmarked s ino) s₁ ops := by
  obtain ⟨hl, rfl⟩ := (sfsLoadInode_ok_iff hw hm).mp hload
  refine reaches_iff_meets (I := fun s => Stays (s₀.loaded ino) ino s) ?_ ?_ ?_ (Stays.refl hc)
  · intro s hs
    exact hs.writtenBack hw hl
  · intro s op s' hs hstop hop
    exact hs.trans (FileOp.after_stays hw hs.cached hstop hop)
  · intro s op hs hstop
    rw [not_not] at hstop
    obtain ⟨t, hop, ht⟩ := FileOp.after_stops hw hs.cached hstop
    exact ⟨t, hop, ht.not_writtenBack hs hstop.clean⟩

/-- The inode of a file of twelve blocks that was longer before. -/
def spareInode : DiskInode := ⟨49152, .file, 12, fun j => if j < 12 then 4 + j else 0, 16⟩

/-- A volume with this file, on which one block is free. -/
def spareImage : Sfs :=
  indirectImage 18 (Function.update (fun _ _ => 0) imageIno (inodeBytes spareInode 1)) (fun _ => 0)

omit [SfsDevice] in
theorem spareImage_inv : Inv False spareImage := indirectImage_inv (by decide) (by decide)

omit [SfsDevice] in
theorem spareImage_cached : Cached spareImage imageIno := by
  refine ⟨List.mem_cons_of_mem _ List.mem_cons_self, spareImage_inv, le_rfl, ?_⟩
  intro k hk hge
  have hblocks : 12 ≤ k := hge
  unfold nDirect at hk
  omega

omit [SfsDevice] in
theorem spareImage_stored : spareImage.storedInode imageIno = spareInode := by
  refine diskInode_inodeBytes_eq ⟨by decide, by decide, ?_, by decide⟩ ?_
  · intro k _
    change (if k < 12 then 4 + k else 0) < 2 ^ 32
    split
    · omega
    · decide
  · intro k hk
    exact if_neg (Nat.not_lt.mpr hk)

omit [SfsDevice] in
theorem spareImage_loadable : Loadable spareImage imageIno := by
  have hlinks : nlinksOf (spareImage.disk imageIno) = 1 := nlinksOf_inodeBytes (by decide)
  refine ⟨by decide, by decide, ?_, ?_, Or.inl ?_⟩
  · exact Bool.eq_false_iff.mpr (spareImage_inv.accounts.ledger.taken (.inode imageIno) imageIno
      ⟨spareImage_cached.ino, rfl⟩)
  · rw [hlinks]
    exact Nat.one_ne_zero
  · rw [spareImage_stored]
    rfl

omit [SfsDevice] in
theorem spareImage_loaded : spareImage.loaded imageIno = spareImage := by
  have hself : spareImage.inodes imageIno = ⟨spareInode, false⟩ := rfl
  unfold Sfs.loaded
  rw [spareImage_stored, ← hself, Function.update_eq_self]

omit [SfsDevice] in
theorem spareImage_loads : letI := workingDevice
    sfsLoadInode imageIno spareImage = some (.ok ⟨⟩, spareImage) := by
  let := workingDevice
  exact (sfsLoadInode_ok_iff not_faulty_working spareImage_inv.accounts.mounted).mpr
    ⟨spareImage_loadable, spareImage_loaded.symm⟩

omit [SfsDevice] in
/-- The free block makes the file one block longer. -/
theorem write_back_complete_spare : letI := workingDevice
    (FileOp.after (.truncate 53248) spareImage imageIno).isSome = true ∧
    ∀ s, RunReaches (fun s op => FileOp.after op s imageIno) spareImage [.truncate 53248] s →
      WrittenBack s imageIno (nlinksOf (spareImage.disk imageIno)) := by
  let := workingDevice
  refine ⟨by decide +kernel, ?_⟩
  refine (write_back_complete_iff not_faulty_working spareImage_inv.accounts.mounted
    spareImage_loads spareImage_cached [.truncate 53248]).mpr ⟨?_, fun _ _ => trivial⟩
  intro hstop
  exact absurd (Sfs.StopsUnmarked.full hstop) (by decide)

omit [SfsDevice] in
/-- Two blocks more: the first goes into the indirect block, for the second one the disk is full. -/
theorem enlargement_not_written : letI := workingDevice
    ∃ t, FileOp.after (.truncate 57344) spareImage imageIno = some t ∧
      (t.din imageIno).blocks = 13 ∧ (t.storedInode imageIno).blocks = 12 ∧
      (t.inodes imageIno).dirty = false := by
  let := workingDevice
  have hrun : (FileOp.after (.truncate 57344) spareImage imageIno).map (fun t =>
      ((t.din imageIno).blocks, (t.storedInode imageIno).blocks, (t.inodes imageIno).dirty)) =
      some (13, 12, false) := by decide +kernel
  obtain ⟨t, ht, hparts⟩ := Option.map_eq_some_iff.mp hrun
  simp only [Prod.mk.injEq] at hparts
  exact ⟨t, ht, hparts⟩

omit [SfsDevice] in
/-- So an inode may change and not be written back. -/
theorem write_back_incomplete : letI := workingDevice
    ¬ ∀ s₀ s₁ ino ops s, Mounted s₀ → sfsLoadInode ino s₀ = some (.ok ⟨⟩, s₁) → Cached s₁ ino →
      RunReaches (fun s op => FileOp.after op s ino) s₁ ops s →
      WrittenBack s ino (nlinksOf (s₀.disk ino)) := by
  let := workingDevice
  intro hclaim
  obtain ⟨t, ht, hblocks, hstored, hclean⟩ := enlargement_not_written
  have hback := hclaim spareImage spareImage imageIno [.truncate 57344] t
    spareImage_inv.accounts.mounted spareImage_loads spareImage_cached
    (RunReaches.next ht RunReaches.start)
  have hdirty := hback.marked (fun hsame => by
    have hcount := hsame.blocks
    omega)
  rw [hclean] at hdirty
  exact Bool.false_ne_true hdirty

end Ucore.Fs
