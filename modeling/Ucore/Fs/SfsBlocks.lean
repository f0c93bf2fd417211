import Ucore.Fs.SfsOwners

/-!
How the functions on single blocks end: input and output, the allocation and the release
of a block. A panic is possible only under `p`.
-/
namespace Ucore.Fs

open Library Libs Call

variable [SfsDevice] {p : Prop} {s : Sfs} {E : SfsError → Sfs → Prop} {b : ℕ}

/-- A request to a block of the file system is carried out or refused. -/
theorem read_ends {buf : Bytes} {Q : Bytes → Sfs → Prop} (hm : Mounted s)
    (hno : ¬ (b ≠ 0 ∧ b < s.superBlocks) → p)
    (hE : SfsDevice.refuses s false b = true → E .inval s)
    (hQ : b ≠ 0 → b < s.superBlocks → SfsDevice.refuses s false b = false → Q (s.disk b) s) :
    Ends p (sfsRwblockNolock buf b false) s Q E := by
  unfold Ends sfsRwblockNolock
  by_cases hb : b ≠ 0 ∧ b < s.superBlocks
  · have hdev := hm.device
    have hfit : ¬ b + 1 > s.dBlocks := by omega
    simp only [hb, ne_eq, not_false_eq_true, and_self, if_true, hm.device_block hb.2, hfit,
      false_or, Bool.false_eq_true]
    cases hr : SfsDevice.refuses s false b with
    | true => exact hE hr
    | false => exact hQ hb.1 hb.2 hr
  · simp only [hb, if_false]
    exact hno hb

theorem write_ends {buf : Bytes} {Q : Bytes → Sfs → Prop} (hm : Mounted s)
    (hno : ¬ (b ≠ 0 ∧ b < s.superBlocks) → p)
    (hE : SfsDevice.refuses s true b = true → E .inval s)
    (hQ : b ≠ 0 → b < s.superBlocks → SfsDevice.refuses s true b = false →
      Q buf { s with disk := Function.update s.disk b buf }) :
    Ends p (sfsRwblockNolock buf b true) s Q E := by
  unfold Ends sfsRwblockNolock
  by_cases hb : b ≠ 0 ∧ b < s.superBlocks
  · have hdev := hm.device
    have hfit : ¬ b + 1 > s.dBlocks := by omega
    simp only [hb, ne_eq, not_false_eq_true, and_self, if_true, hm.device_block hb.2, hfit,
      false_or]
    cases hr : SfsDevice.refuses s true b with
    | true => exact hE hr
    | false => exact hQ hb.1 hb.2 hr
  · simp only [hb, if_false]
    exact hno hb

theorem sfsRbuf_ends {len offset : ℕ} {Q : Bytes → Sfs → Prop} (hm : Mounted s)
    (hfit : offset < blkSize ∧ offset + len ≤ blkSize)
    (hno : ¬ (b ≠ 0 ∧ b < s.superBlocks) → p)
    (hE : SfsDevice.refuses s false b = true → E .inval s)
    (hQ : b ≠ 0 → b < s.superBlocks → SfsDevice.refuses s false b = false →
      Q (fun i => s.disk b (offset + i)) s) :
    Ends p (sfsRbuf len b offset) s Q E := by
  unfold sfsRbuf
  refine Ends.bind (Ends.require (fun _ => ?_) (fun hbad => absurd hfit hbad))
  refine Ends.bind (read_ends hm hno hE ?_)
  intro h0 hlt hr
  exact Ends.pure (hQ h0 hlt hr)

/-- Writing a part of a block reads the block first; both requests can be refused. -/
theorem sfsWbuf_ends {buf : Bytes} {len offset : ℕ} {Q : PUnit → Sfs → Prop} (hm : Mounted s)
    (hfit : offset < blkSize ∧ offset + len ≤ blkSize)
    (hno : ¬ (b ≠ 0 ∧ b < s.superBlocks) → p)
    (hE : SfsDevice.refuses s false b = true ∨ SfsDevice.refuses s true b = true → E .inval s)
    (hQ : b ≠ 0 → b < s.superBlocks →
      Q ⟨⟩ { s with disk := Function.update s.disk b (patch (s.disk b) buf offset len) }) :
    Ends p (sfsWbuf buf len b offset) s Q E := by
  unfold sfsWbuf
  refine Ends.bind (Ends.require (fun _ => ?_) (fun hbad => absurd hfit hbad))
  refine Ends.bind (read_ends hm hno (fun hr => hE (Or.inl hr)) ?_)
  intro _ _ _
  refine Ends.bind (write_ends hm hno (fun hr => hE (Or.inr hr)) ?_)
  intro h0 hlt _
  exact Ends.pure (hQ h0 hlt)

theorem sfsClearBlock_ends {Q : PUnit → Sfs → Prop} (hm : Mounted s)
    (hno : ¬ (b ≠ 0 ∧ b < s.superBlocks) → p)
    (hE : SfsDevice.refuses s true b = true → E .inval s)
    (hQ : b ≠ 0 → b < s.superBlocks → SfsDevice.refuses s true b = false →
      Q ⟨⟩ { s with disk := Function.update s.disk b (fun _ => 0) }) :
    Ends p (sfsClearBlock b 1) s Q E := by
  unfold sfsClearBlock
  refine Ends.bind (write_ends hm hno hE ?_)
  intro h0 hlt hr
  exact Ends.pure (hQ h0 hlt hr)

theorem sfsRblock_ends {buf : Bytes} {Q : Bytes → Sfs → Prop} (hm : Mounted s)
    (hno : ¬ (b ≠ 0 ∧ b < s.superBlocks) → p)
    (hE : SfsDevice.refuses s false b = true → E .inval s)
    (hQ : ∀ bytes : Bytes, (∀ i < blkSize, bytes i = s.disk b i) → b ≠ 0 → b < s.superBlocks →
      Q bytes s) :
    Ends p (sfsRblock buf b 1) s Q E := by
  unfold sfsRblock sfsRwblock
  refine Ends.bind (read_ends hm hno hE ?_)
  intro h0 hlt _
  refine Ends.bind (Ends.pure (Ends.pure ?_))
  refine hQ _ ?_ h0 hlt
  intro i hi
  exact if_pos hi

theorem sfsWblock_ends {buf : Bytes} {Q : Bytes → Sfs → Prop} (hm : Mounted s)
    (hno : ¬ (b ≠ 0 ∧ b < s.superBlocks) → p)
    (hE : SfsDevice.refuses s true b = true → E .inval s)
    (hQ : ∀ bytes : Bytes, b ≠ 0 → b < s.superBlocks →
      Q bytes { s with disk := Function.update s.disk b buf }) :
    Ends p (sfsWblock buf b 1) s Q E := by
  unfold sfsWblock sfsRwblock
  refine Ends.bind (write_ends hm hno hE ?_)
  intro h0 hlt _
  exact Ends.bind (Ends.pure (Ends.pure (hQ _ h0 hlt)))

omit [SfsDevice] in
theorem assertInuse_ends {Q : PUnit → Sfs → Prop} (hm : Mounted s)
    (hno : ¬ (b ≠ 0 ∧ b < s.superBlocks ∧ s.freemap.bit b = false) → p)
    (hQ : b ≠ 0 → b < s.superBlocks → s.freemap.bit b = false → Q ⟨⟩ s) :
    Ends p (assertInuse b) s Q E := by
  by_cases hb : b ≠ 0 ∧ b < s.superBlocks
  · have htest := Bitmap.bitmapTest_eq (Nat.lt_of_lt_of_le hb.2 hm.superBlocks_le)
    have hinuse : sfsBlockInuse b s = some (.ok !s.freemap.bit b, s) := by
      unfold sfsBlockInuse
      rw [if_pos hb, htest]
      rfl
    refine Ends.bind ?_
    unfold Ends
    rw [hinuse]
    refine Ends.require ?_ ?_
    · intro hbit
      exact hQ hb.1 hb.2 (by simpa using hbit)
    · intro hbit
      exact hno (fun hall => hbit (by simp [hall.2.2]))
  · have hp : p := hno (fun hall => hb ⟨hall.1, hall.2.1⟩)
    have hinuse : sfsBlockInuse b s = none := if_neg hb
    refine Ends.bind ?_
    unfold Ends
    rw [hinuse]
    exact hp

namespace Sfs

/-- The state after `bitmap_alloc` and the count in `sfs_block_alloc`. -/
def counted (s : Sfs) (bm : Bitmap) : Sfs :=
  { s with freemap := bm, unusedBlocks := s.unusedBlocks - 1, superDirty := true }

/-- The state after `sfs_block_alloc`. -/
def allocated (s : Sfs) (bm : Bitmap) (b : ℕ) : Sfs :=
  { s.counted bm with disk := Function.update s.disk b (fun _ => 0) }

/-- The state after `sfs_block_free`. -/
def freed (s : Sfs) (bm : Bitmap) : Sfs :=
  { s with freemap := bm, unusedBlocks := s.unusedBlocks + 1, superDirty := true }

end Sfs

/-- What `bitmap_alloc` promises of the block it finds. -/
structure Fresh (s : Sfs) (bm : Bitmap) (b : ℕ) : Prop where
  found : s.freemap.bitmapAlloc = some (some b, bm)
  nonzero : b ≠ 0
  range : b < s.superBlocks
  bit : s.freemap.bit b = true
  set : Bitmap.SetAt s.freemap bm b false
  unused : 0 < s.unusedBlocks

/-- The device refuses to clear the block that `sfs_block_alloc` takes. -/
def Sfs.ClearRefused (s : Sfs) : Prop := ∃ b bm, s.freemap.bitmapAlloc = some (some b, bm) ∧
  SfsDevice.refuses (s.counted bm) true b = true

/-- Without a free block there is nothing to clear. -/
theorem not_clearRefused_of_full (h : s.freemap.bitmapAlloc = some (none, s.freemap)) :
    ¬ s.ClearRefused := by
  intro hbad
  obtain ⟨b, bm, halloc, -⟩ := hbad
  rw [h] at halloc
  exact absurd (congrArg Prod.fst (Option.some.inj halloc)) (by simp)

/-- A block is allocated: the bit of a free block is cleared and the block is zeroed. There
may be no free block, and then nothing changes; or the device refuses to clear it, and then the
block stays taken. -/
theorem sfsBlockAlloc_ends {Q : ℕ → Sfs → Prop} (hm : Mounted s) (hzero : s.freemap.bit 0 = false)
    (hno : ∀ b, s.freemap.bit b = true → ¬ b < s.superBlocks → p)
    (hfull : s.unusedBlocks = 0 → s.freemap.bitmapAlloc = some (none, s.freemap) → E .noMem s)
    (hleak : ∀ b bm, Fresh s bm b → s.ClearRefused → E .inval (s.counted bm))
    (hQ : ∀ b bm, Fresh s bm b → ¬ s.ClearRefused → Q b (s.allocated bm b)) :
    Ends p sfsBlockAlloc s Q E := by
  unfold sfsBlockAlloc
  refine Ends.bind ?_
  rcases Bitmap.bitmapAlloc_spec s.freemap with hnone | hsome
  · unfold Ends allocBit
    rw [hnone]
    refine hfull ?_ hnone
    rw [hm.count]
    apply Bitmap.setBits_eq_zero
    intro j hj
    exact Bitmap.bitmapAlloc_none hnone (by rw [hm.nwords]; exact hj)
  · obtain ⟨b, bm, halloc, hlt, hbit, hset⟩ := hsome
    have hb0 : b ≠ 0 := by
      intro heq
      rw [heq, hzero] at hbit
      exact Bool.false_ne_true hbit
    have hbits : b < s.freemap.nbits := hm.nwords ▸ hlt
    have hcount := hset.setBits_false hbits hbit
    have hunused := hm.count
    unfold Ends allocBit
    rw [halloc]
    refine Ends.bind (Ends.require (fun _ => ?_) (fun hbad => absurd hbad ?_))
    swap
    · simp only
      omega
    refine Ends.bind (Ends.modify ?_)
    change Ends p _ (s.counted bm) Q E
    have hm' : Mounted (s.counted bm) := by
      refine ⟨hm.device, hset.nbits.trans hm.nbits, ?_, ?_⟩
      · simp only [Sfs.counted, hset.nbits, hset.nwords]
        exact hm.nwords
      · simp only [Sfs.counted]
        omega
    refine Ends.bind (assertInuse_ends hm' ?_ ?_)
    · intro hbad
      refine hno b hbit (fun hbs => hbad ⟨hb0, hbs, ?_⟩)
      simp [Sfs.counted, hset.bit]
    · intro _ hbs _
      have hfresh : Fresh s bm b := ⟨halloc, hb0, hbs, hbit, hset, by omega⟩
      have honly : s.ClearRefused ↔ SfsDevice.refuses (s.counted bm) true b = true := by
        constructor
        · intro hbad
          obtain ⟨c, cm, hc, hr⟩ := hbad
          rw [halloc] at hc
          simp only [Option.some.injEq, Prod.mk.injEq] at hc
          obtain ⟨rfl, rfl⟩ := hc
          exact hr
        · intro hr
          exact ⟨b, bm, halloc, hr⟩
      refine Ends.bind (sfsClearBlock_ends hm' (fun hbad => absurd ⟨hb0, hbs⟩ hbad) ?_ ?_)
      · intro hr
        exact hleak b bm hfresh (honly.mpr hr)
      · intro _ _ hr
        refine Ends.pure (hQ b bm hfresh (fun hbad => ?_))
        rw [honly.mp hbad] at hr
        exact Bool.noConfusion hr

omit [SfsDevice] in
/-- A block in use is given back. -/
theorem sfsBlockFree_ends {Q : PUnit → Sfs → Prop} (hm : Mounted s)
    (hno : ¬ (b ≠ 0 ∧ b < s.superBlocks ∧ s.freemap.bit b = false) → p)
    (hQ : ∀ bm, b < s.superBlocks → Bitmap.SetAt s.freemap bm b true →
      Q ⟨⟩ (s.freed bm)) :
    Ends p (sfsBlockFree b) s Q E := by
  unfold sfsBlockFree
  refine Ends.bind (assertInuse_ends hm hno ?_)
  intro _ hlt hbit
  obtain ⟨bm, hfree, hset⟩ := Bitmap.bitmapFree_eq (Nat.lt_of_lt_of_le hlt hm.superBlocks_le) hbit
  refine Ends.bind ?_
  unfold Ends freeBit
  rw [hfree]
  exact hQ bm hlt hset

end Ucore.Fs
