import Ucore.Fs.SfsTruncate

/-!
The bytes of a file, in the order of its block map, and what the block operations do to them.
-/
namespace Ucore.Fs

open Library Libs

/-- The byte at an index of a file; behind the last block it is 0. -/
def Sfs.content (s : Sfs) (sin i : ℕ) : UInt8 :=
  if i / blkSize < (s.din sin).blocks then s.disk (s.blockOf sin (i / blkSize)) (i % blkSize) else 0

variable {s t u : Sfs} {sin i n k b : ℕ} {taken : List ℕ}

theorem content_setSize {len : ℕ} : (s.setSize sin len).content sin i = s.content sin i := by
  unfold Sfs.content Sfs.blockOf Sfs.setSize
  rw [Sfs.din_setDirty, Sfs.din_setDin_self]
  rfl

/-- The size is no part of the block map. -/
theorem setSize_map (s : Sfs) (sin len j : ℕ) :
    ((s.setSize sin len).din j).direct = (s.din j).direct ∧
      ((s.setSize sin len).din j).indirect = (s.din j).indirect ∧
      ((s.setSize sin len).din j).blocks = (s.din j).blocks := by
  unfold Sfs.setSize
  rw [Sfs.din_setDirty, Sfs.din_setDin]
  by_cases hj : j = sin
  · rw [if_pos hj, hj]
    exact ⟨rfl, rfl, rfl⟩
  · rw [if_neg hj]
    exact ⟨rfl, rfl, rfl⟩

theorem setSize_blockOf (s : Sfs) (sin len j k : ℕ) :
    (s.setSize sin len).blockOf j k = s.blockOf j k := by
  obtain ⟨hdirect, hind, -⟩ := setSize_map s sin len j
  unfold Sfs.blockOf
  rw [hdirect, hind]
  rfl

theorem Inv.setSize {p : Prop} (h : Inv p s) (sin len : ℕ) : Inv p (s.setSize sin len) := by
  refine ⟨h.accounts.setSize.setDirty sin, ?_, fun hp => ?_⟩
  · intro j hj hind k hk hblocks
    obtain ⟨-, hind', hblocks'⟩ := setSize_map s sin len j
    rw [hind'] at hind ⊢
    rw [hblocks'] at hblocks
    exact h.zeroTail j hj hind k hk hblocks
  · have hs := h.sound hp
    refine ⟨hs.beyond, ?_, ?_, ?_, ?_⟩
    · intro j hj k hk
      rw [(setSize_map s sin len j).2.2] at hk
      rw [setSize_blockOf]
      exact hs.slots j hj k hk
    · intro j hj
      rw [(setSize_map s sin len j).1]
      exact hs.direct j hj
    · intro j hj
      rw [(setSize_map s sin len j).2.1]
      exact hs.indirect j hj
    · intro j hj
      rw [(setSize_map s sin len j).2.2]
      exact hs.limit j hj

/-- A file is cut off, or gets zeros at its end. -/
theorem Resized.content (h : Resized False s sin n t) (hi : Inv False s) (hsin : sin ∈ s.inos)
    (htail : s.EmptyTail sin) : t.content sin i = if i / blkSize < n then s.content sin i else 0 := by
  have hs := hi.sound (fun hbad => hbad)
  unfold Sfs.content
  rw [h.blocks]
  by_cases hn : i / blkSize < n
  · rw [if_pos hn, if_pos hn]
    by_cases hold : i / blkSize < (s.din sin).blocks
    · rw [if_pos hold]
      obtain ⟨hslot, hbytes⟩ := h.slots _ hn hold
        (Nat.lt_of_lt_of_le hold (hs.limit sin hsin)) (hs.slots sin hsin _ hold).1
      rw [hslot, hbytes]
    · rw [if_neg hold]
      exact (h.fresh htail _ hn (by omega)).2 _
  · rw [if_neg hn, if_neg hn]

/-- One more block adds zeros. -/
theorem Grown.content (h : Grown False s sin b taken t) (hi : Inv False s) (hsin : sin ∈ s.inos)
    (htail : s.EmptyTail sin) : t.content sin i = s.content sin i := by
  have hs := hi.sound (fun hbad => hbad)
  unfold Sfs.content
  rw [h.blocks]
  by_cases hold : i / blkSize < (s.din sin).blocks
  · have hmax := Nat.lt_of_lt_of_le hold (hs.limit sin hsin)
    have h0 := (hs.slots sin hsin _ hold).1
    rw [if_pos hold, if_pos (by omega), h.kept.blockOf sin hsin _ hold hmax h0,
      h.kept.bytes sin hsin _ hold hmax h0]
  · rw [if_neg hold]
    by_cases hnew : i / blkSize < (s.din sin).blocks + 1
    · rw [if_pos hnew, show i / blkSize = (s.din sin).blocks by omega, h.block]
      exact h.fresh htail _
    · rw [if_neg hnew]

theorem Takes.content (h : Takes s t []) (hi : Inv False s) (hsin : sin ∈ s.inos) :
    t.content sin i = s.content sin i := by
  have hs := hi.sound (fun hbad => hbad)
  unfold Sfs.content
  rw [h.din, h.blockOf hi.accounts hsin]
  by_cases hold : i / blkSize < (s.din sin).blocks
  · rw [if_pos hold, if_pos hold, h.disk]
    apply Bool.eq_false_iff.mpr
    exact hi.accounts.ledger.taken _ _ (Sfs.owns_slot hsin hold
      (Nat.lt_of_lt_of_le hold (hs.limit sin hsin)) (hs.slots sin hsin _ hold).1)
  · rw [if_neg hold, if_neg hold]

/-- A block of the disk is written. -/
def Sfs.putBlock (s : Sfs) (b : ℕ) (blk : Bytes) : Sfs :=
  { s with disk := Function.update s.disk b blk }

/-! Writing a data block of a file. -/

section PutBlock

variable {blk : Bytes} (hi : Inv False s) (hsin : sin ∈ s.inos) (hk : k < (s.din sin).blocks)

include hi hsin hk

theorem owns_blockOf : s.owns (Sfs.slotOwner sin k) (s.blockOf sin k) := by
  have hs := hi.sound (fun hbad => hbad)
  exact Sfs.owns_slot hsin hk (Nat.lt_of_lt_of_le hk (hs.limit sin hsin)) (hs.slots sin hsin k hk).1

/-- A data block is no indirect block. -/
theorem indirect_ne_blockOf (j : ℕ) (hj : j ∈ s.inos) (hind : (s.din j).indirect ≠ 0) :
    (s.din j).indirect ≠ s.blockOf sin k := by
  intro heq
  have howns := Sfs.owns_indirect hj hind
  rw [heq] at howns
  exact Sfs.slotOwner_ne_indirect sin k j
    (hi.accounts.ledger.once _ _ _ (owns_blockOf hi hsin hk) howns)

theorem putBlock_entryOf (j : ℕ) (hj : j ∈ s.inos) (hind : (s.din j).indirect ≠ 0) (index : ℕ) :
    (s.putBlock (s.blockOf sin k) blk).entryOf (s.din j).indirect index =
      s.entryOf (s.din j).indirect index := by
  have hne := indirect_ne_blockOf hi hsin hk j hj hind
  unfold Sfs.entryOf Sfs.putBlock
  simp only [Function.update_of_ne hne]

theorem putBlock_blockOf (j : ℕ) (hj : j ∈ s.inos) (index : ℕ) :
    (s.putBlock (s.blockOf sin k) blk).blockOf j index = s.blockOf j index := by
  change (if index < nDirect then (s.din j).direct index
    else if (s.din j).indirect = 0 then 0
    else (s.putBlock (s.blockOf sin k) blk).entryOf (s.din j).indirect (index - nDirect)) = _
  unfold Sfs.blockOf
  by_cases hd : index < nDirect
  · rw [if_pos hd, if_pos hd]
  · rw [if_neg hd, if_neg hd]
    by_cases hind : (s.din j).indirect = 0
    · rw [if_pos hind, if_pos hind]
    · rw [if_neg hind, if_neg hind]
      exact putBlock_entryOf hi hsin hk j hj hind _

theorem putBlock_inv : Inv False (s.putBlock (s.blockOf sin k) blk) := by
  have hs := hi.sound (fun hbad => hbad)
  refine ⟨hi.accounts.write (indirect_ne_blockOf hi hsin hk), ?_, fun _ => ?_⟩
  · intro j hj hind index hindex hblocks
    rw [← hi.zeroTail j hj hind index hindex hblocks]
    exact putBlock_entryOf hi hsin hk j hj hind index
  · refine ⟨hs.beyond, ?_, hs.direct, hs.indirect, hs.limit⟩
    intro j hj index hindex
    rw [putBlock_blockOf hi hsin hk j hj]
    exact hs.slots j hj index hindex

/-- Two slots of a file have different blocks. -/
theorem blockOf_ne {k' : ℕ} (hk' : k' < (s.din sin).blocks) (hne : k' ≠ k) :
    s.blockOf sin k' ≠ s.blockOf sin k := by
  intro heq
  have h := owns_blockOf hi hsin hk
  have h' := owns_blockOf hi hsin hk'
  rw [heq] at h'
  have howner := hi.accounts.ledger.once _ _ _ h' h
  unfold Sfs.slotOwner at howner
  split at howner
  · split at howner
    · exact hne (Owner.direct.inj howner).2
    · exact Owner.noConfusion howner
  · split at howner
    · exact Owner.noConfusion howner
    · have hindex := (Owner.entry.inj howner).2
      omega

/-- The block has the new bytes, and the others keep theirs. -/
theorem putBlock_content : (s.putBlock (s.blockOf sin k) blk).content sin i =
    if i / blkSize = k then blk (i % blkSize) else s.content sin i := by
  unfold Sfs.content
  rw [putBlock_blockOf hi hsin hk sin hsin]
  change (if i / blkSize < (s.din sin).blocks then
    Function.update s.disk (s.blockOf sin k) blk (s.blockOf sin (i / blkSize)) (i % blkSize)
    else 0) = _
  by_cases hik : i / blkSize = k
  · rw [if_pos hik, hik, if_pos hk, Function.update_self]
  · rw [if_neg hik]
    by_cases hold : i / blkSize < (s.din sin).blocks
    · rw [if_pos hold, if_pos hold,
        Function.update_of_ne (blockOf_ne hi hsin hk hold hik)]
    · rw [if_neg hold, if_neg hold]

end PutBlock

theorem blockOf_of_owns (h : s.owns (Sfs.slotOwner sin k) b) : s.blockOf sin k = b := by
  unfold Sfs.slotOwner at h
  unfold Sfs.blockOf
  by_cases hd : k < nDirect
  · rw [if_pos hd] at h ⊢
    exact h.2.2.1
  · rw [if_neg hd] at h ⊢
    rw [if_neg h.2.1]
    exact h.2.2.2.2.1

/-- A data block of the file is written after other steps. -/
theorem Framed.putBlock {blk : Bytes} (h : Framed False s sin n t) (hsin : sin ∈ s.inos)
    (hk : k < n) : Framed False s sin n (t.putBlock (t.blockOf sin k) blk) := by
  have hsin' : sin ∈ t.inos := h.inos.symm ▸ hsin
  have hk' : k < (t.din sin).blocks := h.blocks.symm ▸ hk
  refine ⟨putBlock_inv h.inv hsin' hk', h.inos, h.superBlocks, h.size, h.type, h.blocks, h.tail,
    h.others, ?_⟩
  intro o b ho hfile
  obtain ⟨ht, hdisk⟩ := h.owned o b ho hfile
  refine ⟨(Accounts.owns_write (indirect_ne_blockOf h.inv hsin' hk') o b).mpr ht, ?_⟩
  have hne : b ≠ t.blockOf sin k := by
    intro heq
    rw [heq] at ht
    have howner := h.inv.accounts.ledger.once _ _ _ ht (owns_blockOf h.inv hsin' hk')
    apply hfile
    rw [howner]
    unfold Sfs.slotOwner
    split
    · exact rfl
    · exact rfl
  exact (Function.update_of_ne hne _ _).trans hdisk

/-- A call that gave everything back, after other steps. -/
theorem Framed.takes (h : Framed False s sin n t) (hu : Takes t u []) : Framed False s sin n u := by
  have hdin := hu.din sin
  refine ⟨hu.inv h.inv, hu.inos.trans h.inos, hu.superBlocks.trans h.superBlocks, ?_, ?_, ?_, ?_, ?_,
    ?_⟩
  · rw [hdin]
    exact h.size
  · rw [hdin]
    exact h.type
  · rw [hdin]
    exact h.blocks
  · unfold Sfs.EmptyTail
    rw [hdin]
    exact h.tail
  · intro j hj
    rw [hu.inodes]
    exact h.others j hj
  · intro o b ho hfile
    obtain ⟨ht, hdisk⟩ := h.owned o b ho hfile
    refine ⟨(hu.owns h.inv.accounts o b).mpr ht, ?_⟩
    rw [hu.disk b (Bool.eq_false_iff.mpr (h.inv.accounts.ledger.taken o b ht)), hdisk]

/-- Other files keep their bytes. -/
theorem Framed.content_other (h : Framed False s sin n t) (hi : Inv False s) {j : ℕ}
    (hj : j ∈ s.inos) (hne : j ≠ sin) : t.content j i = s.content j i := by
  have hdin : t.din j = s.din j := by
    unfold Sfs.din
    rw [h.others j hne]
  unfold Sfs.content
  rw [hdin]
  by_cases hold : i / blkSize < (s.din j).blocks
  · rw [if_pos hold, if_pos hold]
    have howns := owns_blockOf hi hj hold
    have hfile : ¬ (Sfs.slotOwner j (i / blkSize)).OfFile sin := by
      unfold Sfs.slotOwner
      split
      · exact hne
      · exact hne
    obtain ⟨ht, hdisk⟩ := h.owned _ _ howns hfile
    rw [blockOf_of_owns ht, hdisk]
  · rw [if_neg hold, if_neg hold]

end Ucore.Fs
