import Ucore.Tools.ImageVolume

/-!
The volume in a closed image is in order, a mount finds it, and it holds the tree of the host.
-/
namespace Ucore.Tools

open Fs Libs Library

variable {stSize N : ℕ} {s t : MkSfs}

/-- What a mounted volume says of its inodes. -/
def volumeView (s : Sfs) : TreeView where
  inos i := i ∈ s.inos
  type i := (s.din i).type
  size i := (s.din i).size
  blocks i := (s.din i).blocks
  byte i := s.content i
  slots i := (Vfs.entries s i).map fun e => (e.ino, e.bytes)

namespace ClosedFrom

/-- Two places that the kernel knows are one for the builder only if they are the same. -/
theorem use_injective {o o' : Owner} (h : use o = use o')
    (ho : ∀ i k, o = .direct i k → k < nDirect) (ho' : ∀ i k, o' = .direct i k → k < nDirect) :
    o = o' := by
  cases o <;> cases o' <;>
    simp only [use, BlockUse.freemap.injEq, BlockUse.inode.injEq, BlockUse.data.injEq,
      BlockUse.indirect.injEq, reduceCtorEq] at h
  case super.super => rfl
  case freemap.freemap => rw [h]
  case inode.inode => rw [h]
  case direct.direct => rw [h.1, h.2]
  case direct.entry i k j l =>
    have hk := ho i k rfl
    omega
  case indirect.indirect => rw [h]
  case entry.direct i k j l =>
    have hl := ho' j l rfl
    omega
  case entry.entry i k j l =>
    obtain rfl : k = l := by omega
    rw [h.1]

variable (h : ClosedFrom N s t)

include h

theorem owner_of_use {o : BlockUse} {b : ℕ} (hb : s.uses o b) :
    ∃ o', (imageVolume stSize s t).owns o' b := by
  cases o with
  | super => exact ⟨.super, (h.owns_iff _ _).mpr ⟨hb, fun _ _ => Owner.noConfusion⟩⟩
  | freemap j => exact ⟨.freemap j, (h.owns_iff _ _).mpr ⟨hb, fun _ _ => Owner.noConfusion⟩⟩
  | inode i => exact ⟨.inode i, (h.owns_iff _ _).mpr ⟨hb, fun _ _ => Owner.noConfusion⟩⟩
  | data i k =>
    by_cases hk : k < nDirect
    · exact ⟨.direct i k, h.owns_direct.mpr ⟨hb, hk⟩⟩
    · refine ⟨.entry i (k - nDirect), h.owns_entry.mpr ?_⟩
      rw [Nat.add_sub_cancel' (by omega)]
      exact hb
  | indirect i => exact ⟨.indirect i, (h.owns_iff _ _).mpr ⟨hb, fun _ _ => Owner.noConfusion⟩⟩

theorem freemap_bit (b : ℕ) : (imageVolume stSize s t).freemap.bit b = true ↔
    s.nextIno ≤ b ∧ b < N := by
  change (imageMap s.ninos s.nextIno).bit b = true ↔ _
  rw [h.ninos_eq, imageMap_bit h.laid.built.high, decide_eq_true_iff]

theorem ledger : Ledger (imageVolume stSize s t).owns []
    (fun b => (imageVolume stSize s t).freemap.bit b = true)
    (fun b => b < (imageVolume stSize s t).superBlocks) := by
  have hl := h.laid.ledger
  have hsuper : (imageVolume stSize s t).superBlocks = N := h.laid.built.superBlocks
  refine ⟨?_, List.nodup_nil, ?_, ?_, ?_, ?_⟩
  · intro o o' b hb hb'
    obtain ⟨huse, ho⟩ := (h.owns_iff o b).mp hb
    obtain ⟨huse', ho'⟩ := (h.owns_iff o' b).mp hb'
    exact use_injective (hl.once _ _ b huse huse') ho ho'
  · exact fun b hb => absurd hb List.not_mem_nil
  · intro o b hb
    rw [h.freemap_bit]
    exact hl.taken _ b ((h.owns_iff o b).mp hb).1
  · exact fun b hb => absurd hb List.not_mem_nil
  · intro b hb hno hheld
    rw [h.freemap_bit]
    rw [hsuper] at hb
    refine hl.rest b hb (fun o huse => ?_) hheld
    obtain ⟨o', ho'⟩ := h.owner_of_use huse
    exact hno o' ho'

theorem mounted (hdev : N ≤ (imageVolume stSize s t).dBlocks) :
    Mounted (imageVolume stSize s t) := by
  have hb := h.laid.built
  have hsuper : (imageVolume stSize s t).superBlocks = N := hb.superBlocks
  have hmap : (imageVolume stSize s t).freemap = imageMap N s.nextIno := by
    rw [← h.ninos_eq]
    rfl
  have hwords : (imageMap N s.nextIno).nwords * wordBits = (imageMap N s.nextIno).nbits := by
    unfold imageMap
    dsimp only
    rw [Nat.mul_assoc]
    rfl
  refine ⟨hsuper.trans_le hdev, ?_, ?_, ?_⟩
  · unfold Sfs.freemapBlocks
    rw [hsuper, hmap]
    rfl
  · rw [hmap]
    exact hwords
  · rw [hmap]
    have hback : ReadBack N s.nextIno (imageMap N s.nextIno) := by
      refine ⟨(sfsFreemapBits_eq h.few).symm, hwords, ?_⟩
      exact fun b _ => imageMap_bit hb.high b
    exact hb.unused.trans (hback.setBits h.few).symm

theorem sound : Sound (imageVolume stSize s t) := by
  have hsuper : (imageVolume stSize s t).superBlocks = N := h.laid.built.superBlocks
  refine ⟨?_, ?_, ?_, ?_, ?_⟩
  · intro b hb
    rw [hsuper]
    exact ((h.freemap_bit b).mp hb).2
  · intro ino hino k hk
    have hino := mem_imageVolume.mp hino
    rw [h.din_blocks hino] at hk
    rw [h.blockOf_eq hino hk, hsuper]
    exact (h.data_range hino (MkSfs.blocks_get hk)).2
  · intro ino hino k hk
    have hino := mem_imageVolume.mp hino
    rw [h.din_direct hino hk, hsuper]
    exact h.direct_lt hino hk
  · intro ino hino
    have hino := mem_imageVolume.mp hino
    rw [h.din_indirect hino, hsuper]
    exact h.indirect_lt hino
  · intro ino hino
    have hino := mem_imageVolume.mp hino
    rw [h.din_blocks hino]
    exact (h.laid.shape ino hino).limit

/-- The volume is in order. -/
theorem inv (hdev : N ≤ (imageVolume stSize s t).dBlocks) :
    Inv False (imageVolume stSize s t) := by
  refine ⟨⟨h.mounted hdev, mem_imageVolume.mpr h.laid.root, h.ledger⟩, ?_, fun _ => h.sound⟩
  intro ino hino hind k hk hblocks
  have hino := mem_imageVolume.mp hino
  rw [h.din_indirect hino] at hind ⊢
  rw [h.din_blocks hino] at hblocks
  rw [h.entryOf_eq hino hind hk]
  exact (h.laid.shape ino hino).entries hind k hblocks

/-- What a mount reads is on the disk. -/
theorem onDisk : OnDisk (imageVolume stSize s t) := by
  have hb := h.laid.built
  have hsuper : (imageVolume stSize s t).superBlocks = N := hb.superBlocks
  refine ⟨h.image.magic, h.image.blocks.trans hsuper.symm, h.image.unused.trans hb.unused.symm, ?_⟩
  intro k hk w hw
  unfold Sfs.freemapBlocks at hk
  rw [hsuper] at hk
  have hlt : k * blkBits < N := by
    unfold blkBits blkSize at *
    omega
  have hmap : (imageVolume stSize s t).freemap = imageMap N s.nextIno := by
    rw [← h.ninos_eq]
    rfl
  refine (h.image.freemap k hlt w hw).trans ?_
  rw [hmap]
  have hdiv : (k * blkNEntry + w) / blkNEntry = k := by
    unfold blkNEntry blkSize at *
    omega
  have hmod : (k * blkNEntry + w) % blkNEntry = w := by
    unfold blkNEntry blkSize at *
    omega
  have hin : k * blkNEntry + w < (N + blkBits - 1) / blkBits * blkNEntry := by
    unfold blkNEntry blkSize blkBits at *
    omega
  unfold imageMap
  dsimp only
  rw [if_pos hin, hdiv, hmod]

theorem backed (hdev : N ≤ (imageVolume stSize s t).dBlocks) (nlinks : ℕ → ℕ) :
    Backed (imageVolume stSize s t) [] nlinks := by
  have hsuper : (imageVolume stSize s t).superBlocks = N := h.laid.built.superBlocks
  refine ⟨h.inv hdev, ?_, ?_, ?_, ?_, ?_, .inr h.onDisk⟩
  · intro ino hino
    have hino' := mem_imageVolume.mp hino
    have hs := h.laid.shape ino hino'
    refine ⟨hino, h.inv hdev, ?_, ?_⟩
    · rw [h.din_blocks hino', h.din_eq hino']
      exact hs.size
    · intro k hk hblocks
      rw [h.din_blocks hino'] at hblocks
      rw [h.din_direct hino' hk]
      exact hs.direct k hblocks
  · unfold Sfs.freemapBlocks
    rw [hsuper]
    exact h.room.le
  · intro ino hino
    rw [hsuper]
    exact (h.ino_range (mem_imageVolume.mp hino)).2.2
  · exact fun ino hino => absurd hino List.not_mem_nil
  · exact fun ino _ => .inl (DiskInode.Same.refl _)

/-- What the builder had in its caches, the volume has. -/
theorem within : (s.view fun _ => False).Within (volumeView (imageVolume stSize s t)) := by
  refine ⟨fun i hi => mem_imageVolume.mpr hi.1, ?_, ?_, ?_, ?_, ?_⟩
  · intro i hi
    change ((imageVolume stSize s t).din i).type = _
    rw [h.din_eq hi.1]
    rfl
  · intro i hi
    change ((imageVolume stSize s t).din i).size = _
    rw [h.din_eq hi.1]
    rfl
  · intro i hi
    change ((imageVolume stSize s t).din i).blocks = _
    exact (h.din_blocks hi.1).trans MkSfs.length_blocks.symm
  · intro i hi
    funext j
    change (imageVolume stSize s t).content i j = s.byte i j
    unfold Sfs.content MkSfs.byte
    rw [h.din_blocks hi.1]
    by_cases hj : j / blkSize < (s.cacheInode i).nblks
    · have hget := @MkSfs.blocks_get s i _ hj
      rw [if_pos hj, hget, Option.elim_some, h.blockOf_eq hi.1 hj, ← h.data_block hi.1 hget]
      rfl
    · rw [if_neg hj, List.getElem?_eq_none (by rw [MkSfs.length_blocks]; omega)]
      rfl
  · intro i hi
    change (Vfs.entries (imageVolume stSize s t) i).map _ = s.slots i
    unfold Vfs.entries MkSfs.slots
    rw [h.din_blocks hi.1, List.map_map]
    unfold MkSfs.file
    rw [List.map_map]
    refine List.map_congr_left (fun k hk => ?_)
    have hk := List.mem_range.mp hk
    have hget := @MkSfs.blocks_get s i _ hk
    dsimp only [Function.comp_apply]
    unfold Vfs.entryAt
    rw [h.blockOf_eq hi.1 hk, ← h.data_block hi.1 hget]
    rfl

/-- A kernel whose disk is the image finds this volume when it mounts. -/
theorem mount (hdev : N ≤ (imageVolume stSize s t).dBlocks) {d : Sfs} (himg : d.imgSize = stSize)
    (hdisk : d.disk = t.image.block) (hinos : d.inos = s.inoList) :
    ∃ info, Volume.mount d = some ⟨imageVolume stSize s t, [], fun _ => 0, info⟩ := by
  have hback := h.backed hdev (fun _ => 0)
  obtain ⟨freemap, hmount, htrim⟩ := h.onDisk.mount hback.inv hback.room
    (fun _ => rfl : ∀ a : MountAlloc, (fun _ => true) a = true)
  have hdev' : disk0 d.imgSize d.disk =
      disk0 (imageVolume stSize s t).imgSize (imageVolume stSize s t).disk := by
    rw [himg, hdisk]
    rfl
  refine ⟨fun i => d.disk blknSuper (12 + i), ?_⟩
  unfold Volume.mount
  rw [hdev', hmount]
  dsimp only
  congr 2
  unfold Sfs.remounted Sfs.storedInode
  rw [Sfs.mk.injEq]
  refine ⟨rfl, rfl, rfl, htrim, himg, hdisk, hinos.trans ?_, ?_⟩
  · simp only [imageVolume]
  · rw [hdisk]
    rfl

end ClosedFrom

/-- Closing the image does not fail. -/
theorem closeSfs_closedFrom (hlaid : Laid N s []) (hN : N ≤ maxNblks) (hfit : freemapEnd N < N) :
    ∃ t, closeSfs s = some (.ok ⟨⟩, t) ∧ ClosedFrom N s t ∧ t.inodes = s.inodes := by
  have hclosed := @closeSfs_ends N s hlaid.built hN hfit (fun _ _ => True)
  have hwrote := @closeSfs_wroteBack N s (fun _ _ => True) hlaid hfit
  obtain ⟨⟨e | u, t⟩, hr⟩ := hclosed.exists
  · exact e.elim
  obtain ⟨hinodes, hblock⟩ := hwrote.of_ok hr
  exact ⟨t, hr, ⟨hlaid, hN, hfit, hclosed.of_ok hr, hblock⟩, hinodes⟩

/-- The builder at the end of the tree, before it closes the image. -/
theorem createImg_closedFrom {img : ℕ → Bytes} {s₀ : MkSfs} {entries : Entries}
    {content : ℕ → Option Content} (hcreate : createSfs stSize img = some s₀)
    (hfit : (Node.dir 0 entries).Fits content) (hrun : ran (createImg entries) s₀ = some t) :
    ∃ s, ClosedFrom (imgBlocks stSize) s t ∧ t.inoList = s.inoList ∧
      (Node.dir 0 entries).At (s.view fun _ => False) (searchCacheInode s) rootIno rootIno := by
  have hN := imgBlocks_le stSize
  have hroom : freemapEnd (imgBlocks stSize) < imgBlocks stSize := by
    by_contra hno
    unfold createSfs at hcreate
    rw [if_pos (Nat.le_of_not_lt hno)] at hcreate
    cases hcreate
  have hends : Call.Ends True (createImg entries) s₀ (fun _ t => ∃ s,
      ClosedFrom (imgBlocks stSize) s t ∧ t.inoList = s.inoList ∧
      (Node.dir 0 entries).At (s.view fun _ => False) (searchCacheInode s) rootIno rootIno)
      (fun _ _ => True) := by
    unfold createImg
    refine Call.Ends.bind ((openRoot_ready hcreate hfit).mono ?_ (fun _ _ he => he))
    intro _ s hs
    obtain ⟨t, hclose, hclosed, hinodes⟩ := closeSfs_closedFrom hs.1.laid hN hroom
    refine Call.Ends.of_eq_ok hclose ⟨s, hclosed, ?_, hs.2⟩
    unfold MkSfs.inoList
    rw [hinodes]
  exact ran_of_ends hends hrun

/-- The image that `mksfs` makes of a tree is mounted by the kernel as a volume that is in order and
holds this tree: every directory with its entries, every file with its bytes, and the names of one
file of the host on one inode. -/
theorem image_holds_tree {img : ℕ → Bytes} {s₀ : MkSfs} {entries : Entries}
    {content : ℕ → Option Content} (hsize : stSize < 2 ^ 32)
    (hcreate : createSfs stSize img = some s₀) (hfit : (Node.dir 0 entries).Fits content)
    (hrun : ran (createImg entries) s₀ = some t) {d : Sfs} (himg : d.imgSize = stSize)
    (hdisk : d.disk = t.image.block) (hinos : d.inos = t.inoList) :
    ∃ v link, Volume.mount d = some v ∧ v.Good ∧
      (∀ r r' i, link r = some i → link r' = some i → r = r') ∧
      (Node.dir 0 entries).At (volumeView v.sfs) link rootIno rootIno := by
  obtain ⟨s, hclosed, hlist, hat⟩ := createImg_closedFrom hcreate hfit hrun
  have hdev : imgBlocks stSize ≤ (imageVolume stSize s t).dBlocks :=
    imgBlocks_le_disk0 hsize t.image.block
  obtain ⟨info, hmount⟩ := hclosed.mount hdev himg hdisk (hinos.trans hlist)
  refine ⟨_, searchCacheInode s, hmount, ⟨hclosed.backed hdev _, ?_⟩, ?_, ?_⟩
  · exact fun ino hino => absurd hino List.not_mem_nil
  · intro r r' i hr hr'
    rw [← (searchCacheInode_some hr).2, ← (searchCacheInode_some hr').2]
  · exact hat.mono hclosed.within (fun _ _ hi => hi)

/-- A directory with a file under two names, one of them in a directory of its own, and a hidden
file. -/
def smallTree : Entries :=
  .cons [97] (.file 7 ⟨2, fun i => [104, 105].getD i 0⟩)
    (.cons [98] (.dir 8 (.cons [99] (.file 7 ⟨2, fun i => [104, 105].getD i 0⟩) .nil))
      (.cons [46, 120] (.file 9 ⟨1, fun _ => 1⟩) .nil))

def smallContent (real : ℕ) : Option Content :=
  if real = 7 then some ⟨2, fun i => [104, 105].getD i 0⟩ else none

theorem smallTree_fits : (Node.dir 0 smallTree).Fits smallContent := by
  simp [smallTree, smallContent, Node.Fits, Entries.Fits, Entries.count, dot, maxBlocks, nDirect,
    blkNEntry, blkSize, maxBytes]

theorem smallTree_built : ∃ s₀ t, createSfs 65536 (fun _ _ => 0) = some s₀ ∧
    ran (createImg smallTree) s₀ = some t := by
  have hsome :
      ((createSfs 65536 (fun _ _ => 0)).bind (ran (createImg smallTree))).isSome = true := by
    decide +kernel
  obtain ⟨t, ht⟩ := Option.isSome_iff_exists.mp hsome
  obtain ⟨s₀, hcreate, hrun⟩ := Option.bind_eq_some_iff.mp ht
  exact ⟨s₀, t, hcreate, hrun⟩

theorem image_holds_tree_small : ∃ s₀ t, createSfs 65536 (fun _ _ => 0) = some s₀ ∧
    ran (createImg smallTree) s₀ = some t ∧
    ∃ v link, Volume.mount ⟨0, 0, false, ⟨0, 0, fun _ => 0⟩, 65536, t.image.block, t.inoList,
        fun _ => ⟨diskInode (t.image.block 0), false⟩⟩ = some v ∧ v.Good ∧
      (Node.dir 0 smallTree).At (volumeView v.sfs) link rootIno rootIno := by
  obtain ⟨s₀, t, hcreate, hrun⟩ := smallTree_built
  obtain ⟨v, link, hmount, hgood, -, hat⟩ :=
    image_holds_tree (by decide) hcreate smallTree_fits hrun (d := ⟨0, 0, false,
      ⟨0, 0, fun _ => 0⟩, 65536, t.image.block, t.inoList,
      fun _ => ⟨diskInode (t.image.block 0), false⟩⟩) rfl rfl (by dsimp only)
  exact ⟨s₀, t, hcreate, hrun, v, link, hmount, hgood, hat⟩

end Ucore.Tools
