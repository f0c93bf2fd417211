import Ucore.Fs.FileBytes
import Ucore.Fs.WriteBackRuns

/-!
The calls for one file of a volume that is in order: what each leaves, and where it stops the kernel
or leaves a number of blocks that does not fit the size.
-/
namespace Ucore.Fs

open Library Libs Call

/-- A volume whose inodes stand somewhere else: the numbers in the inodes and in the indirect blocks
are the same. -/
structure SameVolume (s t : Sfs) : Prop where
  superBlocks : t.superBlocks = s.superBlocks
  imgSize : t.imgSize = s.imgSize
  inos : t.inos = s.inos
  freemap : t.freemap = s.freemap
  unused : t.unusedBlocks = s.unusedBlocks
  din : ∀ j ∈ s.inos, (t.din j).Same (s.din j)
  entry : ∀ j ∈ s.inos, (s.din j).indirect ≠ 0 → t.disk (s.din j).indirect = s.disk (s.din j).indirect

namespace SameVolume

variable {s t : Sfs} {j k b : ℕ}

theorem entryOf (h : SameVolume s t) (hj : j ∈ s.inos) (hind : (s.din j).indirect ≠ 0) :
    t.entryOf (t.din j).indirect k = s.entryOf (s.din j).indirect k := by
  unfold Sfs.entryOf
  rw [(h.din j hj).indirect, h.entry j hj hind]

theorem blockOf (h : SameVolume s t) (hj : j ∈ s.inos) : t.blockOf j k = s.blockOf j k := by
  have hsame := h.din j hj
  unfold Sfs.blockOf
  by_cases hk : k < nDirect
  · rw [if_pos hk, if_pos hk]
    exact hsame.direct k hk
  · rw [if_neg hk, if_neg hk]
    by_cases hind : (s.din j).indirect = 0
    · rw [if_pos hind, if_pos (hsame.indirect.trans hind)]
    · rw [if_neg hind, if_neg (fun h0 => hind (hsame.indirect.symm.trans h0))]
      exact h.entryOf hj hind

theorem owns (h : SameVolume s t) (o : Owner) : t.owns o b ↔ s.owns o b := by
  cases o with
  | super => exact Iff.rfl
  | freemap i =>
    unfold Sfs.owns Sfs.freemapBlocks
    rw [h.superBlocks]
  | inode j =>
    unfold Sfs.owns
    rw [h.inos]
  | direct j k =>
    unfold Sfs.owns
    rw [h.inos]
    refine and_congr_right (fun hj => and_congr_right (fun hk => ?_))
    rw [(h.din j hj).direct k hk]
  | indirect j =>
    unfold Sfs.owns
    rw [h.inos]
    refine and_congr_right (fun hj => ?_)
    rw [(h.din j hj).indirect]
  | entry j k =>
    unfold Sfs.owns
    rw [h.inos]
    refine and_congr_right (fun hj => ?_)
    have hsame := h.din j hj
    rw [hsame.blocks]
    by_cases hind : (s.din j).indirect = 0
    · rw [hsame.indirect]
      exact iff_of_false (fun hbad => hbad.1 hind) (fun hbad => hbad.1 hind)
    · rw [h.entryOf hj hind, hsame.indirect]

theorem inv (h : SameVolume s t) (hi : Inv False s) : Inv False t := by
  have hs := hi.sound (fun hbad => hbad)
  refine ⟨hi.accounts.of_ledger h.superBlocks h.imgSize h.inos h.freemap h.unused
    (hi.accounts.ledger.congr (fun o b => h.owns o)), ?_, fun _ => ?_⟩
  · intro j hj hind k hk hblocks
    rw [h.inos] at hj
    have hsame := h.din j hj
    rw [hsame.indirect] at hind
    rw [hsame.blocks] at hblocks
    rw [h.entryOf hj hind]
    exact hi.zeroTail j hj hind k hk hblocks
  · have hin : ∀ j ∈ t.inos, j ∈ s.inos := fun j hj => h.inos ▸ hj
    refine ⟨?_, ?_, ?_, ?_, ?_⟩
    · rw [h.freemap, h.superBlocks]
      exact hs.beyond
    · intro j hj k hk
      rw [(h.din j (hin j hj)).blocks] at hk
      rw [h.blockOf (hin j hj), h.superBlocks]
      exact hs.slots j (hin j hj) k hk
    · intro j hj k hk
      rw [(h.din j (hin j hj)).direct k hk, h.superBlocks]
      exact hs.direct j (hin j hj) k hk
    · intro j hj
      rw [(h.din j (hin j hj)).indirect, h.superBlocks]
      exact hs.indirect j (hin j hj)
    · intro j hj
      rw [(h.din j (hin j hj)).blocks]
      exact hs.limit j (hin j hj)

theorem fits (h : SameVolume s t) (hf : Fits s j) : Fits t j := by
  have hsame := h.din j hf.ino
  refine ⟨h.inos.symm ▸ hf.ino, ?_, ?_⟩
  · rw [hsame.blocks, hsame.size]
    exact hf.blocks
  · intro k hk hge
    rw [hsame.blocks] at hge
    rw [hsame.direct k hk]
    exact hf.tail k hk hge

end SameVolume

theorem DiskInode.Same.refl (d : DiskInode) : d.Same d := ⟨rfl, rfl, rfl, fun _ _ => rfl, rfl⟩

theorem DiskInode.Same.symm {d d' : DiskInode} (h : d.Same d') : d'.Same d :=
  ⟨h.size.symm, h.type.symm, h.blocks.symm, fun k hk => (h.direct k hk).symm, h.indirect.symm⟩

theorem DiskInode.Same.trans {d d' d'' : DiskInode} (h : d.Same d') (h' : d'.Same d'') :
    d.Same d'' :=
  ⟨h.size.trans h'.size, h.type.trans h'.type, h.blocks.trans h'.blocks,
    fun k hk => (h.direct k hk).trans (h'.direct k hk), h.indirect.trans h'.indirect⟩

/-- A call left the file in order, and its inode on disk as it was; a change is marked. -/
structure Leaves (s : Sfs) (sin : ℕ) (t : Sfs) : Prop where
  good : GoodFile t sin
  stays : Stays s sin t

/-- There is room for all blocks up to a position, or not even for the first one. -/
def Sfs.HasRoom (s : Sfs) (sin : ℕ) (pos : ℤ) : Prop :=
  blocksFor pos.toNat ≤ (s.din sin).blocks ∨
    s.growthTotal sin (blocksFor pos.toNat) ≤ s.unusedBlocks ∨ s.unusedBlocks < s.growthNeed sin

variable {s t : Sfs} {sin len offset : ℕ} {buf : Bytes} {r : IoResult}

theorem GoodFile.cached (h : GoodFile s sin) : Cached s sin := by
  refine ⟨h.fits.ino, h.inv, ?_, h.fits.tail⟩
  rw [h.fits.blocks]
  unfold blocksFor blkSize
  omega

theorem GoodFile.size_le (h : GoodFile s sin) : (s.din sin).size ≤ maxBytes := by
  have hlimit := (h.inv.sound (fun hbad => hbad)).limit sin h.fits.ino
  rw [h.fits.blocks] at hlimit
  unfold blocksFor maxBytes blkSize at *
  omega

theorem Leaves.refl (h : GoodFile s sin) : Leaves s sin s := ⟨h, Stays.refl h.cached⟩

theorem Takes.good (h : Takes s t []) (hg : GoodFile s sin) : GoodFile t sin := by
  have hdin := h.din sin
  refine ⟨h.inv hg.inv, ⟨h.inos.symm ▸ hg.fits.ino, ?_, ?_⟩, ?_⟩
  · rw [hdin]
    exact hg.fits.blocks
  · unfold Sfs.EmptyTail
    rw [hdin]
    exact hg.fits.tail
  · rw [hdin]
    exact hg.type

/-! The inode in memory and on disk. -/

theorem GoodFile.same (h : SameVolume s t) (hg : GoodFile s sin) : GoodFile t sin :=
  ⟨h.inv hg.inv, h.fits hg.fits, (h.din sin hg.fits.ino).type.trans hg.type⟩

/-- An inode that stands on disk may be loaded again. -/
theorem loaded_sameVolume (h : (s.storedInode sin).Same (s.din sin)) :
    SameVolume s (s.loaded sin) := by
  refine ⟨rfl, rfl, rfl, rfl, rfl, ?_, fun _ _ _ => rfl⟩
  intro j _
  unfold Sfs.din Sfs.loaded
  by_cases hj : j = sin
  · obtain rfl := hj
    simp only [Function.update_self]
    exact h
  · simp only [Function.update_of_ne hj]
    exact DiskInode.Same.refl _

/-- Writing the block of an inode leaves the indirect blocks alone. -/
theorem putInode_sameVolume {blk : Bytes} (hi : Inv False s) (hsin : sin ∈ s.inos) :
    SameVolume s ((s.setClean sin).putBlock sin blk) := by
  refine ⟨rfl, rfl, rfl, rfl, rfl, ?_, ?_⟩
  · intro j _
    have hdin : ((s.setClean sin).putBlock sin blk).din j = s.din j := by
      change (Function.update s.inodes sin { s.inodes sin with dirty := false } j).din = _
      unfold Sfs.din
      by_cases hj : j = sin
      · obtain rfl := hj
        rw [Function.update_self]
      · rw [Function.update_of_ne hj]
    rw [hdin]
    exact DiskInode.Same.refl _
  · intro j hj hind
    have hne : (s.din j).indirect ≠ sin := by
      intro heq
      have hown := Sfs.owns_indirect hj hind
      rw [heq] at hown
      have hnode : s.owns (.inode sin) sin := ⟨hsin, rfl⟩
      exact Owner.noConfusion (hi.accounts.ledger.once _ _ _ hown hnode)
    exact Function.update_of_ne hne _ _

theorem Framed.setSize_good (h : Framed False s sin (blocksFor len) t) (hg : GoodFile s sin) :
    GoodFile (t.setSize sin len) sin := by
  have hdin := din_setSize t sin len
  refine ⟨h.inv.setSize sin len, ⟨h.inos.symm ▸ hg.fits.ino, ?_, ?_⟩, ?_⟩
  · rw [hdin]
    exact h.blocks
  · unfold Sfs.EmptyTail
    rw [hdin]
    exact h.tail hg.fits.tail
  · rw [hdin]
    exact h.type.trans hg.type

theorem Sfs.HasRoom.not_stops {pos : ℤ} (h : s.HasRoom sin pos) : ¬ s.StopsUnmarked sin pos := by
  intro hstop
  have hdirect := hstop.direct
  have hsome := hstop.some
  have hfull := hstop.full
  have htotal : s.growthTotal sin (blocksFor pos.toNat) =
      blocksFor pos.toNat - (s.din sin).blocks := by
    unfold Sfs.growthTotal
    rw [if_neg (fun hbad => hstop.indirect hbad.1), Nat.add_zero]
  have hneed : s.growthNeed sin = 1 := by
    unfold Sfs.growthNeed
    rw [if_neg (by omega), if_neg hstop.indirect]
  unfold Sfs.HasRoom at h
  omega

variable [SfsDevice]

theorem GoodFile.fsync {nlinks : ℕ} (hw : ¬ Faulty) (hg : GoodFile s sin) (h0 : sin ≠ 0)
    (hlt : sin < s.superBlocks) (hlinks : nlinksOf (s.disk sin) = nlinks)
    (hmarked : (s.inodes sin).dirty = true ∨ (s.storedInode sin).Same (s.din sin)) :
    ∃ t, sfsFsync sin nlinks s = some (.ok ⟨⟩, t) ∧ SameVolume s t ∧ Stored s sin nlinks t := by
  have hm := hg.inv.accounts.mounted
  have hsync : sfsFsync sin nlinks s = _ := sfsFsync_eq hw hm h0 hlt
  by_cases hdirty : (s.inodes sin).dirty = true
  · rw [if_pos hdirty] at hsync
    refine ⟨_, hsync, putInode_sameVolume hg.inv hg.fits.ino, ?_⟩
    exact setClean_stored hm hg.cached.words (hlinks ▸ get16_lt _)
  · rw [if_neg hdirty] at hsync
    refine ⟨s, hsync, ?_, hm, rfl, rfl, hmarked.resolve_left hdirty, hlinks, fun _ _ => rfl⟩
    exact ⟨rfl, rfl, rfl, rfl, rfl, fun _ _ => DiskInode.Same.refl _, fun _ _ _ => rfl⟩

/-- Cutting a file off at its start needs no room. -/
theorem sfsTruncfile_cut (hw : ¬ Faulty) (hg : GoodFile s sin) :
    ∃ t, sfsTruncfile sin 0 s = some (.ok ⟨⟩, t) ∧ Leaves s sin t := by
  have hends : Ends False (sfsTruncfile sin (0 : ℕ)) s (fun _ t => GoodFile t sin)
      (fun _ _ => False) := by
    refine sfsTruncfile_ends hw hg.inv hg.fits (Nat.zero_le _) ?_ (fun _ => hg) ?_ ?_ ?_
    · exact fun hbad => absurd hbad (by decide)
    · exact fun t _ _ ht => ht.toFramed.setSize_good hg
    · exact fun t _ hlt _ => absurd hlt (Nat.not_lt_zero _)
    · exact fun _ k _ _ _ hlt => absurd hlt (Nat.not_lt_zero k)
  obtain ⟨⟨ret, t⟩, ht⟩ := hends.exists
  cases ret with
  | error e => exact (hends.of_error ht).elim
  | ok a =>
    refine ⟨t, ht, hends.of_ok ht, ?_⟩
    refine (sfsTruncfile_stays hw hg.cached ?_).state ht
    intro hstop
    have hfull := hstop.full
    have hnone : blocksFor (0 : ℤ).toNat = 0 := rfl
    rw [Nat.cast_zero] at hfull
    omega

/-- An enlargement leaves a file in order if there is room, and otherwise a number of blocks that
does not fit its size. -/
theorem sfsTruncfile_grow (hw : ¬ Faulty) (hg : GoodFile s sin) (hmore : (s.din sin).size < len)
    (hmax : len ≤ maxBytes) :
    Ends False (sfsTruncfile sin len) s (fun _ t => s.HasRoom sin len ∧ GoodFile t sin)
      (fun _ t => s.HasRoom sin len ∧ GoodFile t sin ∨
        ¬ s.HasRoom sin len ∧ (t.din sin).blocks ≠ blocksFor (t.din sin).size) := by
  have hbytes : maxBytes = 4243456 := by decide
  have hstart := Growing.start hg.inv hg.fits.ino
  have hfirst := hstart.toPriced.need hstart.toFramed hg.fits.tail le_rfl
  have hzero := hstart.unused
  have hfit := hg.fits.blocks
  have hroom : s.HasRoom sin len ↔ blocksFor len ≤ (s.din sin).blocks ∨
      s.growthTotal sin (blocksFor len) ≤ s.unusedBlocks ∨ s.unusedBlocks < s.growthNeed sin := by
    unfold Sfs.HasRoom
    rw [Int.toNat_natCast]
  refine sfsTruncfile_ends hw hg.inv hg.fits ?_ ?_ ?_ ?_ ?_ ?_
  · unfold maxFileSize
    omega
  · unfold blocksFor maxBlocks nDirect blkNEntry blkSize
    omega
  · intro hsize
    omega
  · intro t _ hle ht
    exact ⟨hroom.mpr (Or.inl hle), ht.toFramed.setSize_good hg⟩
  · intro t _ _ ht
    have hused := ht.unused
    exact ⟨hroom.mpr (Or.inr (Or.inl (by omega))), ht.toFramed.setSize_good hg⟩
  · intro e k v u hge hlt hsame hv hu hfull
    by_cases hk : k = (s.din sin).blocks
    · obtain rfl := hsame hk
      subst hk
      exact Or.inl ⟨hroom.mpr (Or.inr (Or.inr (by omega))), hu.good hg⟩
    · -- the blocks that were added stay
      have hblocks : (u.din sin).blocks = k := by rw [hu.din, hv.toResized.blocks]
      have hsize : (u.din sin).size = (s.din sin).size := by rw [hu.din, hv.toResized.size]
      have hused := hv.unused
      have hfrom : s.growthTotal sin ((s.din sin).blocks + 1) ≤ s.growthTotal sin k :=
        growthTotal_mono (by omega)
      have htotal : s.growthTotal sin (k + 1) ≤ s.growthTotal sin (blocksFor len) :=
        growthTotal_mono (by omega)
      refine Or.inr ⟨?_, ?_⟩
      · rw [hroom]
        omega
      · rw [hblocks, hsize, ← hfit]
        exact hk

/-- A seek within the reach of the block map. -/
theorem sfsTryseek_leaves (hw : ¬ Faulty) (hg : GoodFile s sin) {pos : ℤ} (hmax : pos ≤ maxBytes) :
    ∃ ret t, sfsTryseek sin pos s = some (ret, t) ∧ (ret = .ok ⟨⟩ → 0 ≤ pos) ∧
      (s.HasRoom sin pos → Leaves s sin t) ∧
      (¬ s.HasRoom sin pos → (t.din sin).blocks ≠ blocksFor (t.din sin).size) := by
  have hbytes : maxBytes = 4243456 := by decide
  have hlimit : maxFileSize = 134217728 := rfl
  have hfit := hg.fits.blocks
  by_cases h0 : pos < 0
  · have hneg : s.HasRoom sin pos := by
      refine Or.inl ?_
      rw [Int.toNat_of_nonpos h0.le]
      exact Nat.zero_le _
    refine ⟨.error .inval, s, ?_, fun hbad => absurd hbad (by simp), fun _ => Leaves.refl hg,
      fun hbad => absurd hneg hbad⟩
    unfold sfsTryseek
    rw [if_pos (Or.inl h0)]
    rfl
  rw [sfsTryseek_eq (by omega) (by omega)]
  by_cases hmore : pos > (s.din sin).size
  · rw [if_pos hmore]
    have hlonger : (s.din sin).size < pos.toNat := by omega
    have hends := sfsTruncfile_grow hw hg hlonger (by omega)
    rw [Int.toNat_of_nonneg (by omega)] at hends
    obtain ⟨⟨ret, t⟩, ht⟩ := hends.exists
    refine ⟨ret, t, ht, fun _ => by omega, ?_, ?_⟩
    · intro hroom
      have hgood : GoodFile t sin := by
        cases ret with
        | ok a => exact (hends.of_ok ht).2
        | error e =>
          rcases hends.of_error ht with hyes | hno
          · exact hyes.2
          · exact absurd hroom hno.1
      exact ⟨hgood, (sfsTruncfile_stays hw hg.cached hroom.not_stops).state ht⟩
    · intro hroom
      cases ret with
      | ok a => exact absurd (hends.of_ok ht).1 hroom
      | error e =>
        rcases hends.of_error ht with hyes | hno
        · exact absurd hyes.1 hroom
        · exact hno.2
  · rw [if_neg hmore]
    have hhere : s.HasRoom sin pos := by
      refine Or.inl ?_
      rw [hfit]
      exact blocksFor_mono (by omega)
    exact ⟨.ok ⟨⟩, s, rfl, fun _ => by omega, fun _ => Leaves.refl hg, fun hbad => absurd hhere hbad⟩

/-! Writing. -/

/-- A write that starts behind the block after the last one is a panic. -/
theorem ioBody_gap {endpos : ℕ} (hgap : (s.din sin).blocks < offset / blkSize)
    (hlt : offset < endpos) :
    ioBody sin endpos (endpos / blkSize - offset / blkSize) true
      ⟨s, buf, 0, offset, 0, offset / blkSize⟩ = none := by
  have hload : ∀ io, IoAt offset endpos (fun k _ t => k = 0 ∧ t = s) io → io.offset < endpos →
      onSfs (sfsBmapLoadNolock sin io.blkno) io = none := by
    intro io hio hmore
    obtain ⟨halen, hsfs⟩ := hio.holds
    have hblkno := hio.blkno hmore
    rw [hio.offset, halen, Nat.add_zero] at hblkno
    have hnone : sfsBmapLoadNolock sin io.blkno io.sfs = none := by
      unfold sfsBmapLoadNolock
      refine Ends.eq_none (Ends.bind (Ends.require (fun hbad => ?_) (fun _ => trivial)))
      rw [hsfs, hblkno] at hbad
      omega
    unfold onSfs
    rw [hnone, Option.map_none]
  have hends : Ends True (ioBody sin endpos (endpos / blkSize - offset / blkSize) true)
      ⟨s, buf, 0, offset, 0, offset / blkSize⟩
      (fun _ io => io.alen = endpos - offset ∧ endpos - offset = 0 ∧ io.sfs = s)
      (fun _ _ => False) := by
    refine ioBody_ends (P := fun k _ t => k = 0 ∧ t = s) ⟨?_, ?_⟩ hlt ⟨rfl, rfl⟩
    · intro io size hio _ _ hle
      exact Ends.of_eq_none (hload io hio (by omega)) trivial
    · intro io hio _ hle
      have hblk : 0 < blkSize := by decide
      exact Ends.of_eq_none (hload io hio (by omega)) trivial
  refine Ends.eq_none (hends.mono ?_ (fun _ _ hbad => hbad))
  intro _ io h
  omega

theorem sfsIoNolock_write_returns_iff (hw : ¬ Faulty) (hg : GoodFile s sin) (hlen : 0 < len)
    (hfit : offset + len ≤ maxBytes) :
    sfsIoNolock s sin buf offset len true ≠ none ↔ offset / blkSize ≤ (s.din sin).blocks := by
  have hbytes : maxBytes = 4243456 := by decide
  have hlimit : maxFileSize = 134217728 := rfl
  have hoff : toOff ((offset : ℤ) + len) = offset + len := toOff_of_lt (by omega) (by omega)
  have hend : (FileOp.io buf offset len true).endpos = offset + len := by
    change (min (maxFileSize : ℤ) (toOff ((offset : ℤ) + len))).toNat = offset + len
    omega
  rw [sfsIoNolock_write_eq hg.not_dir (by omega) (by omega) (by omega), hend, Int.toNat_natCast,
    Ne, Option.map_eq_none_iff]
  constructor
  · intro hrun
    by_contra hgap
    exact hrun (ioBody_gap (by omega) (by omega))
  · intro hreach hrun
    have hends : Ends False (ioBody sin (offset + len) ((offset + len) / blkSize - offset / blkSize)
        true) ⟨s, buf, 0, offset, 0, offset / blkSize⟩ _ _ :=
      ioBody_write_ends hg.inv hg.fits hw (by omega) ?_ (fun hbad => by omega)
    · unfold Ends at hends
      rw [hrun] at hends
      exact hends
    · intro hbad
      unfold blocksFor maxBlocks nDirect blkNEntry blkSize at hbad
      omega

omit [SfsDevice] in
/-- Where the next part of a write starts there is a block, or it is the next one. -/
theorem Written.reach {k : ℕ} (h : Written s sin offset buf k t) (hk : k ≠ 0) :
    (offset + k) / blkSize ≤ (t.din sin).blocks := by
  have hsize := h.size
  rw [if_neg hk] at hsize
  rw [h.good.fits.blocks]
  exact (div_le_blocksFor _).trans (blocksFor_mono (by omega))

omit [SfsDevice] in
theorem onSfs_same {α : Type} (x : SfsCall α) (io : SfsIo) :
    Ends True (onSfs x) io (fun _ io' => io' = { io with sfs := io'.sfs })
      (fun _ io' => io' = { io with sfs := io'.sfs }) := by
  unfold Ends onSfs
  rcases x io.sfs with _ | ⟨_ | _, t⟩
  · trivial
  · rfl
  · rfl

/-- No part goes beyond the end of the range. -/
theorem transfers_bounded {startpos endpos : ℕ} {write : Bool} :
    Transfers True sin startpos endpos write (fun _ _ _ => True)
      (fun _ io => startpos + io.alen ≤ endpos) := by
  have hbound : ∀ {io io' : SfsIo}, IoAt startpos endpos (fun _ _ _ => True) io →
      io'.alen = io.alen → startpos + io'.alen ≤ endpos := by
    intro io io' hio halen
    have hoffset := hio.offset
    have hle := hio.le
    omega
  refine ⟨?_, ?_⟩
  · intro io size hio _ _ _
    refine (onSfs_same _ io).mono ?_ (fun _ io₁ h₁ => hbound hio (by rw [h₁]))
    intro ino io₁ h₁
    unfold sfsBufOp
    refine Ends.bind (Ends.read ?_)
    by_cases hwrite : write = true
    · rw [if_pos hwrite]
      refine (onSfs_same _ io₁).mono ?_ (fun _ io₂ h₂ => hbound hio (by rw [h₂, h₁]))
      intro _ io₂ h₂
      exact ⟨by rw [h₂, h₁], trivial⟩
    · rw [if_neg hwrite]
      refine Ends.bind ((onSfs_same _ io₁).mono ?_ (fun _ io₂ h₂ => hbound hio (by rw [h₂, h₁])))
      intro _ io₂ h₂
      exact Ends.modify ⟨by rw [h₂, h₁], trivial⟩
  · intro io hio _ _
    refine (onSfs_same _ io).mono ?_ (fun _ io₁ h₁ => hbound hio (by rw [h₁]))
    intro ino io₁ h₁
    unfold sfsBlockOp
    refine Ends.bind (Ends.read (Ends.bind ?_))
    refine (onSfs_same _ io₁).mono ?_ (fun _ io₂ h₂ => hbound hio (by rw [h₂, h₁]))
    intro _ io₂ h₂
    exact Ends.modify ⟨by rw [h₂, h₁], trivial⟩

/-- A write does not count more bytes than it was given. -/
theorem sfsIoNolock_write_le (hg : GoodFile s sin) (hfit : offset + len ≤ maxBytes)
    (hr : sfsIoNolock s sin buf offset len true = some r) : r.alen ≤ len := by
  have hbytes : maxBytes = 4243456 := by decide
  have hlimit : maxFileSize = 134217728 := rfl
  have hoff : toOff ((offset : ℤ) + len) = offset + len := toOff_of_lt (by omega) (by omega)
  by_cases hlen : len = 0
  · unfold sfsIoNolock at hr
    rw [if_neg hg.not_dir] at hr
    dsimp only at hr
    rw [if_neg (by omega), if_pos (by omega)] at hr
    obtain rfl := Option.some.inj hr
    exact Nat.zero_le _
  · have hend : (FileOp.io buf offset len true).endpos = offset + len := by
      change (min (maxFileSize : ℤ) (toOff ((offset : ℤ) + len))).toNat = offset + len
      omega
    rw [sfsIoNolock_write_eq hg.not_dir (by omega) (by omega) (by omega), hend,
      Int.toNat_natCast] at hr
    obtain ⟨⟨ret, io⟩, hrun, rfl⟩ := Option.map_eq_some_iff.mp hr
    have hends : Ends True (ioBody sin (offset + len) ((offset + len) / blkSize - offset / blkSize)
        true) ⟨s, buf, 0, offset, 0, offset / blkSize⟩
        (fun _ io => offset + io.alen ≤ offset + len)
        (fun _ io => offset + io.alen ≤ offset + len) := by
      refine (ioBody_ends transfers_bounded (by omega) trivial).mono ?_ (fun _ _ he => he)
      intro _ io h
      omega
    have hle := hends.state hrun
    change io.alen ≤ len
    omega

end Ucore.Fs
