import Ucore.Fs.InodeSync

/-!
The flag `dirty`. A write marks the inode when it enlarges the file, as the size then grows, and
freeing blocks or setting the size marks it too. A block that is added through an existing indirect
block does not: an enlargement that then stops with the disk full leaves a block count that is
never written.
-/
namespace Ucore.Fs

open Library Libs Call

/-- A file in memory: its blocks are where its inode says, hold the whole file, and no direct slot
behind them is filled. -/
structure Cached (s : Sfs) (sin : ℕ) : Prop where
  ino : sin ∈ s.inos
  inv : Inv False s
  room : (s.din sin).size ≤ (s.din sin).blocks * blkSize
  tail : s.EmptyTail sin

/-- From `s` to `t` the disk block of the inode stays, and the inode too unless it is marked. -/
structure Stays (s : Sfs) (sin : ℕ) (t : Sfs) : Prop where
  cached : Cached t sin
  superBlocks : t.superBlocks = s.superBlocks
  type : (t.din sin).type = (s.din sin).type
  block : t.disk sin = s.disk sin
  marked : (t.inodes sin).dirty = true ∨ t.inodes sin = s.inodes sin

/-- Enlarging the file to `len` bytes adds a block to a clean inode through its indirect block, and
then finds the disk full. -/
structure Sfs.StopsUnmarked (s : Sfs) (sin : ℕ) (len : ℤ) : Prop where
  passes : len ≤ maxFileSize
  clean : (s.inodes sin).dirty = false
  direct : nDirect ≤ (s.din sin).blocks
  indirect : (s.din sin).indirect ≠ 0
  some : 0 < s.unusedBlocks
  full : (s.din sin).blocks + s.unusedBlocks < min (blocksFor len.toNat) maxBlocks

def FileOp.StopsUnmarked (op : FileOp) (s : Sfs) (sin : ℕ) : Prop :=
  match op with
  | truncate len => s.StopsUnmarked sin len
  | seek pos => pos < maxFileSize ∧ s.StopsUnmarked sin pos
  | io _ _ _ _ => False

variable {s s₀ t u v : Sfs} {sin n k b startpos : ℕ}

theorem Stays.refl (h : Cached s sin) : Stays s sin s := ⟨h, rfl, rfl, rfl, Or.inr rfl⟩

theorem Stays.trans (h : Stays s sin t) (h' : Stays t sin u) : Stays s sin u := by
  refine ⟨h'.cached, h'.superBlocks.trans h.superBlocks, h'.type.trans h.type,
    h'.block.trans h.block, ?_⟩
  rcases h'.marked with hdirty | hsame
  · exact Or.inl hdirty
  · rw [hsame]
    exact h.marked

/-- Steps on the file that left its size. -/
theorem Framed.stays (h : Framed False s sin n t) (hc : Cached s sin)
    (hge : (s.din sin).blocks ≤ n)
    (hmarked : (t.inodes sin).dirty = true ∨ t.inodes sin = s.inodes sin) : Stays s sin t := by
  refine ⟨⟨h.inos.symm ▸ hc.ino, h.inv, ?_, h.tail hc.tail⟩, h.superBlocks, h.type, ?_, hmarked⟩
  · rw [h.size, h.blocks]
    exact hc.room.trans (Nat.mul_le_mul_right _ hge)
  · exact (h.owned (.inode sin) sin ⟨hc.ino, rfl⟩ (fun hbad => hbad)).2

theorem inodes_setSize (t : Sfs) (sin len : ℕ) :
    (t.setSize sin len).inodes sin = ⟨{ t.din sin with size := len }, true⟩ := by
  unfold Sfs.setSize Sfs.setDirty Sfs.setDin Sfs.din
  simp only [Function.update_self]

/-- Setting the size marks the inode. -/
theorem Framed.setSize_stays {len : ℕ} (h : Framed False s sin n t) (hc : Cached s sin)
    (hfit : len ≤ n * blkSize) : Stays s sin (t.setSize sin len) := by
  have hdin := din_setSize t sin len
  refine ⟨⟨h.inos.symm ▸ hc.ino, h.inv.setSize sin len, ?_, ?_⟩, h.superBlocks, ?_, ?_, Or.inl ?_⟩
  · rw [hdin]
    change len ≤ (t.din sin).blocks * blkSize
    rw [h.blocks]
    exact hfit
  · unfold Sfs.EmptyTail
    rw [hdin]
    exact h.tail hc.tail
  · rw [hdin]
    exact h.type
  · exact (h.owned (.inode sin) sin ⟨hc.ino, rfl⟩ (fun hbad => hbad)).2
  · rw [inodes_setSize]

/-- A new block marks the inode unless it goes into an existing indirect block. -/
theorem Adds.marks (h : Adds s sin b v) (htail : s.EmptyTail sin)
    (hwhy : (s.inodes sin).dirty = true ∨ (s.din sin).blocks < nDirect ∨
      (s.din sin).indirect = 0) : ((v.bump sin).inodes sin).dirty = true := by
  have hbump : ((v.bump sin).inodes sin).dirty = (v.inodes sin).dirty := by
    unfold Sfs.bump Sfs.setDin
    simp only [Function.update_self]
  rw [hbump]
  cases h with
  | reuse hlt h0 => exact absurd (htail _ hlt le_rfl) h0
  | direct hlt _ _ =>
    unfold Sfs.putDirect Sfs.setDirty
    simp only [Function.update_self]
  | entry hblocks _ hind _ =>
    rcases hwhy with hdirty | hlt | h0
    · exact hdirty
    · omega
    · exact absurd h0 hind
  | indirect _ _ _ _ _ =>
    unfold Sfs.putIndirect Sfs.setDirty
    simp only [Function.update_self]

variable [SfsDevice]

/-- One more block, or no room and nothing changed. -/
theorem load_behind (hw : ¬ Faulty) (h : Framed False s sin n t) (hsin : sin ∈ s.inos) :
    Ends (maxBlocks ≤ n) (sfsBmapLoadNolock sin n) t
      (fun _ u => Framed False s sin (n + 1) u ∧ ∃ b v taken, Adds t sin b v ∧ u = v.bump sin ∧
        Grown False t sin b taken u)
      (fun _ u => Framed False s sin n u ∧ u.inodes = t.inodes ∧
        t.unusedBlocks < t.growthNeed sin) := by
  by_cases hmax : maxBlocks ≤ n
  · exact Ends.of_eq_none (sfsBmapLoadNolock_beyond hmax) hmax
  have hlt : (t.din sin).blocks < maxBlocks := by
    have hblocks := h.blocks
    omega
  have hload := (load_adds hw h.inv (h.inos.symm ▸ hsin) hlt).weaken
    (fun hbad => False.elim (C := maxBlocks ≤ n) hbad)
  rw [h.blocks] at hload
  refine hload.mono ?_ ?_
  · intro b u hadded
    obtain ⟨v, taken, hadds, hu, hg⟩ := hadded
    exact ⟨h.grown hg, b, v, taken, hadds, hu, hg⟩
  · intro e u hfail
    exact ⟨h.takes hfail.1, hfail.1.inodes, hfail.2⟩

/-- Once the inode is marked it stays so. -/
theorem enlarge_marked (hw : ¬ Faulty) (hc : Cached s sin) {left : ℕ}
    (h : Framed False s sin n t) (hge : (s.din sin).blocks ≤ n)
    (hdirty : (t.inodes sin).dirty = true) :
    Ends True (enlarge sin left n) t (fun _ u => ∃ m, Framed False s sin m u)
      (fun _ u => Stays s sin u) := by
  refine (enlarge_of_load (R := fun m u => Framed False s sin m u ∧ (s.din sin).blocks ≤ m ∧
    (u.inodes sin).dirty = true) ?_ rfl ⟨h, hge, hdirty⟩).mono
    (fun _ u hu => ⟨_, hu.1⟩) (fun _ _ he => he)
  intro m u hu _
  obtain ⟨hframed, hm, hmark⟩ := hu
  refine ((load_behind hw hframed hc.ino).weaken (fun _ => trivial)).mono ?_ ?_
  · intro _ u' hu'
    obtain ⟨hframed', b, v, taken, hadds, rfl, -⟩ := hu'
    exact ⟨hframed', by omega, hadds.marks (hframed.tail hc.tail) (Or.inl hmark)⟩
  · intro _ u' hu'
    obtain ⟨hframed', hinodes, -⟩ := hu'
    refine hframed'.stays hc hm (Or.inl ?_)
    rw [hinodes]
    exact hmark

/-- With room for all blocks there is no error. -/
theorem enlarge_room (hw : ¬ Faulty) (hc : Cached s sin) {left : ℕ}
    (h : Framed False s sin n t) (hdirect : nDirect ≤ n) (hind : (t.din sin).indirect ≠ 0)
    (hroom : min (n + left) maxBlocks ≤ n + t.unusedBlocks) :
    Ends True (enlarge sin left n) t (fun _ u => ∃ m, Framed False s sin m u)
      (fun _ _ => False) := by
  refine (enlarge_of_load (R := fun m u => Framed False s sin m u ∧ nDirect ≤ m ∧
    (u.din sin).indirect ≠ 0 ∧ min (n + left) maxBlocks ≤ m + u.unusedBlocks) ?_ rfl
    ⟨h, hdirect, hind, hroom⟩).mono (fun _ u hu => ⟨_, hu.1⟩) (fun _ _ he => he)
  intro m u hu hlt
  obtain ⟨hframed, hm, hind', hroom'⟩ := hu
  have hneed : u.growthNeed sin = 1 := by
    unfold Sfs.growthNeed
    rw [hframed.blocks, if_neg (by omega), if_neg hind']
  by_cases hmax : maxBlocks ≤ m
  · exact Ends.of_eq_none (sfsBmapLoadNolock_beyond hmax) trivial
  refine ((load_behind hw hframed hc.ino).weaken (fun _ => trivial)).mono ?_ ?_
  · intro _ u' hu'
    obtain ⟨hframed', b, v, taken, -, -, hg⟩ := hu'
    have hunused := hg.unused
    have hcount := hg.need
    refine ⟨hframed', by omega, ?_, by omega⟩
    intro h0
    exact hind' (hg.indirect.mp h0).2
  · intro _ u' hu'
    obtain ⟨-, -, hfull⟩ := hu'
    omega

/-- The loop of `sfs_truncfile` that enlarges a file. -/
theorem enlarge_stays (hw : ¬ Faulty) (hc : Cached s sin) {left : ℕ}
    (hstop : (s.inodes sin).dirty = false → nDirect ≤ (s.din sin).blocks →
      (s.din sin).indirect ≠ 0 → 0 < s.unusedBlocks →
      min ((s.din sin).blocks + left) maxBlocks ≤ (s.din sin).blocks + s.unusedBlocks) :
    Ends True (enlarge sin left (s.din sin).blocks) s (fun _ u => ∃ m, Framed False s sin m u)
      (fun _ u => Stays s sin u) := by
  have hself : Framed False s sin (s.din sin).blocks s := Framed.refl hc.inv
  by_cases hdirty : (s.inodes sin).dirty = true
  · exact enlarge_marked hw hc hself le_rfl hdirty
  by_cases hfirst : (s.din sin).blocks < nDirect ∨ (s.din sin).indirect = 0 ∨ s.unusedBlocks = 0
  · cases left with
    | zero => exact Ends.pure ⟨_, hself⟩
    | succ left =>
      unfold enlarge
      refine Ends.bind (((load_behind hw hself hc.ino).weaken (fun _ => trivial)).mono ?_ ?_)
      · intro _ u hu
        obtain ⟨hframed, b, v, taken, hadds, rfl, hg⟩ := hu
        refine enlarge_marked hw hc hframed (Nat.le_succ _) (hadds.marks hc.tail (Or.inr ?_))
        rcases hfirst with hlt | h0 | hnone
        · exact Or.inl hlt
        · exact Or.inr h0
        · -- the block was taken from the free map
          have hunused := hg.unused
          have hcount := hg.need
          unfold Sfs.growthNeed at hcount
          by_cases hlt : (s.din sin).blocks < nDirect
          · exact Or.inl hlt
          · rw [if_neg hlt] at hcount
            split at hcount
            · omega
            · omega
      · intro _ u hu
        obtain ⟨hframed, hinodes, -⟩ := hu
        exact hframed.stays hc le_rfl (Or.inr (by rw [hinodes]))
  · simp only [not_or, Nat.not_lt] at hfirst
    refine (enlarge_room hw hc hself hfirst.1 hfirst.2.1 ?_).mono (fun _ _ hq => hq)
      (fun _ _ hbad => hbad.elim)
    exact hstop (Bool.eq_false_iff.mpr hdirty) hfirst.1 hfirst.2.1 (Nat.pos_of_ne_zero hfirst.2.2)

theorem sfsTruncfile_stays (hw : ¬ Faulty) (hc : Cached s sin) {len : ℤ}
    (hstop : ¬ s.StopsUnmarked sin len) :
    Ends True (sfsTruncfile sin len) s (fun _ t => Stays s sin t) (fun _ t => Stays s sin t) := by
  unfold sfsTruncfile
  by_cases hrange : len < 0 ∨ len > maxFileSize
  · rw [if_pos hrange]
    exact Ends.fail (Stays.refl hc)
  rw [if_neg hrange]
  refine Ends.bind (Ends.read ?_)
  dsimp only
  have hfor : (len.toNat + blkSize - 1) / blkSize = blocksFor len.toNat := rfl
  rw [hfor]
  by_cases hsize : (s.din sin).size = len.toNat
  · rw [if_pos hsize]
    exact Ends.require (fun _ => Stays.refl hc) (fun _ => trivial)
  rw [if_neg hsize]
  have hlast : ∀ t, (∃ m, Framed False s sin m t) → Ends True (do
      Call.require (fun s => (s.din sin).blocks = blocksFor len.toNat)
      Call.modify (fun s => (s.setDin sin { s.din sin with size := len.toNat }).setDirty sin) :
        SfsCall PUnit) t
      (fun _ t => Stays s sin t) (fun _ t => Stays s sin t) := by
    intro t ht
    obtain ⟨m, hframed⟩ := ht
    refine Ends.bind (Ends.require (fun hblocks => Ends.modify ?_) (fun _ => trivial))
    refine hframed.setSize_stays hc ?_
    rw [← hframed.blocks, hblocks]
    unfold blocksFor blkSize
    omega
  by_cases hlt : (s.din sin).blocks < blocksFor len.toNat
  · rw [if_pos hlt]
    refine Ends.bind ((enlarge_stays hw hc ?_).mono (fun _ t ht => hlast t ht) (fun _ _ he => he))
    intro hclean hdirect hind hsome
    by_contra hfull
    refine hstop ⟨by omega, hclean, hdirect, hind, hsome, ?_⟩
    rw [show (s.din sin).blocks + (blocksFor len.toNat - (s.din sin).blocks) =
      blocksFor len.toNat by omega] at hfull
    omega
  · rw [if_neg hlt]
    have hstart : Resized False s sin
        (blocksFor len.toNat + ((s.din sin).blocks - blocksFor len.toNat)) s := by
      rw [show blocksFor len.toNat + ((s.din sin).blocks - blocksFor len.toNat) =
        (s.din sin).blocks by omega]
      exact Resized.refl hc.inv
    refine Ends.bind ((shrink_ends hc.ino hstart (by omega) ?_ ?_).weaken (fun _ => trivial))
    · intro t ht
      exact hlast t ⟨_, ht.toFramed⟩
    · intro e k t _ _ hbad
      exact absurd hbad hw

theorem sfsTryseek_stays (hw : ¬ Faulty) (hc : Cached s sin) {pos : ℤ}
    (hstop : ¬ (pos < maxFileSize ∧ s.StopsUnmarked sin pos)) :
    Ends True (sfsTryseek sin pos) s (fun _ t => Stays s sin t) (fun _ t => Stays s sin t) := by
  unfold sfsTryseek
  by_cases hrange : pos < 0 ∨ pos ≥ maxFileSize
  · rw [if_pos hrange]
    exact Ends.fail (Stays.refl hc)
  rw [if_neg hrange]
  refine Ends.bind (Ends.read ?_)
  split
  · exact sfsTruncfile_stays hw hc (fun hbad => hstop ⟨by omega, hbad⟩)
  · exact Ends.pure (Stays.refl hc)

/-! Reading and writing. -/

variable {write : Bool}

omit [SfsDevice] in
/-- The file while its bytes from `startpos` on are transferred and `k` of them are done: only a
write adds blocks, and the last one holds some of the bytes. -/
structure Along (s : Sfs) (sin startpos : ℕ) (write : Bool) (k : ℕ) (t : Sfs) : Prop where
  framed : Framed False s sin (t.din sin).blocks t
  blocks : (s.din sin).blocks ≤ (t.din sin).blocks
  within : 0 < k → startpos + k ≤ (t.din sin).blocks * blkSize
  added : t.inodes sin = s.inodes sin ∨ write = true ∧ 0 < k ∧
    (s.din sin).blocks < (t.din sin).blocks ∧ ((t.din sin).blocks - 1) * blkSize < startpos + k

omit [SfsDevice] in
theorem Along.start (hc : Cached s sin) : Along s sin startpos write 0 s :=
  ⟨Framed.refl hc.inv, le_rfl, fun hbad => absurd hbad (Nat.lt_irrefl 0), Or.inl rfl⟩

omit [SfsDevice] in
/-- The end of a part that lies in one of the first `m` blocks. -/
theorem part_within {m size : ℕ} (hlt : k / blkSize < m) (hin : k % blkSize + size ≤ blkSize) :
    k + size ≤ m * blkSize := by
  unfold blkSize at *
  omega

omit [SfsDevice] in
/-- A part in a block that was there. -/
theorem Along.more {size : ℕ} (h : Along s sin startpos write k t)
    (hlt : (startpos + k) / blkSize < (t.din sin).blocks)
    (hin : (startpos + k) % blkSize + size ≤ blkSize) :
    Along s sin startpos write (k + size) t := by
  have hend := part_within hlt hin
  refine ⟨h.framed, h.blocks, fun _ => by omega, h.added.imp_right (fun hadded => ?_)⟩
  exact ⟨hadded.1, by omega⟩

omit [SfsDevice] in
theorem Along.putBlock {blk : Bytes} {m : ℕ} (h : Along s sin startpos write k t)
    (hc : Cached s sin) (hm : m < (t.din sin).blocks) :
    Along s sin startpos write k (t.putBlock (t.blockOf sin m) blk) :=
  ⟨h.framed.putBlock hc.ino hm, h.blocks, h.within, h.added⟩

theorem transfers_along {endpos : ℕ} (hw : ¬ Faulty) (hc : Cached s sin)
    (hread : write = false → endpos ≤ (s.din sin).size) :
    Transfers True sin startpos endpos write (fun k _ t => Along s sin startpos write k t)
      (fun _ io => Along s sin startpos write io.alen io.sfs) := by
  refine transfers_of_load hw ?_
  intro k t h hlt
  have hbelow := Nat.div_mul_le_self (startpos + k) blkSize
  have hsin : sin ∈ t.inos := h.framed.inos.symm ▸ hc.ino
  refine (load_cases hw h.framed.inv hsin _).mono ?_ ?_
  · intro b u hstep
    cases hstep with
    | found hk _ hb _ ht =>
      refine ⟨ht ▸ h.framed.inv.accounts.mounted, ?_⟩
      intro size _ hin
      rw [ht, hb]
      exact ⟨h.more hk hin, fun blk => (h.more hk hin).putBlock hc hk⟩
    | added hk _ _ _ hg =>
      have hgrown := h.framed.grown hg
      have hblocks := hg.blocks
      have hge := h.blocks
      have hwrite : write = true := by
        cases write with
        | true => rfl
        | false =>
          have hroom := hc.room
          have hmul := Nat.mul_le_mul_right blkSize hge
          have hend := hread rfl
          rw [← hk] at hmul
          omega
      refine ⟨hg.inv.accounts.mounted, ?_⟩
      intro size hsize hin
      have hlast : (startpos + k) / blkSize < (u.din sin).blocks := by omega
      have hend := part_within hlast hin
      have hnext : Along s sin startpos write (k + size) u := by
        refine ⟨hblocks ▸ hgrown, by omega, fun _ => by omega,
          Or.inr ⟨hwrite, by omega, by omega, ?_⟩⟩
        rw [hblocks, Nat.add_sub_cancel, ← hk]
        omega
      refine ⟨hnext, fun blk => ?_⟩
      have hput := @Along.putBlock _ _ _ _ _ _ blk _ hnext hc hlast
      rw [hk, hg.block] at hput
      exact hput
  · intro e u hfail
    obtain ⟨-, htakes, -⟩ := hfail
    have hdin := htakes.din sin
    refine ⟨?_, ?_, ?_, ?_⟩
    · rw [hdin]
      exact h.framed.takes htakes
    · rw [hdin]
      exact h.blocks
    · rw [hdin]
      exact h.within
    · rw [hdin, htakes.inodes]
      exact h.added

/-- When a write added a block the size grows at the end, and the inode is marked. -/
theorem sfsIoNolock_stays (hw : ¬ Faulty) (hc : Cached s sin) {buf : Bytes} {offset : ℤ} {len : ℕ}
    {r : IoResult} (hr : sfsIoNolock s sin buf offset len write = some r) :
    Stays s sin r.sfs := by
  obtain ⟨t, ht, hsfs⟩ := sfsIoNolock_keeps
    (R := fun k t => Along s sin offset.toNat write k t) (Along.start hc)
    (fun endpos _ hread => transfers_along hw hc hread) hr
  rw [hsfs]
  unfold growSize
  by_cases hgrow : write = true ∧ r.alen ≠ 0 ∧ offset.toNat + r.alen > (t.din sin).size
  · rw [if_pos hgrow]
    refine ht.framed.setSize_stays hc ((Nat.mod_le _ _).trans ?_)
    exact ht.within (Nat.pos_of_ne_zero hgrow.2.1)
  · rw [if_neg hgrow]
    refine ht.framed.stays hc ht.blocks (Or.inr ?_)
    rcases ht.added with hsame | ⟨hwrite, hpos, hmore, hlast⟩
    · exact hsame
    · have hroom := hc.room
      have hsize := ht.framed.size
      have hmul := Nat.mul_le_mul_right blkSize (Nat.le_sub_one_of_lt hmore)
      exact absurd ⟨hwrite, by omega, by omega⟩ hgrow

end Ucore.Fs
