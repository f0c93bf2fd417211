import Ucore.Fs.SfsImage

/-!
`sfs_truncfile` on a full disk. Nothing undoes the blocks that were added before the disk was
full, so the call leaves the file as it was only if it fails at its first block.
-/
namespace Ucore.Fs

open Library Libs Call

/-- What `sfs_truncfile` leaves alone when it fails: size, number of blocks, block map, free map
and the number of free blocks. -/
structure AsBefore (s s' : Sfs) (sin : ℕ) : Prop where
  size : (s'.din sin).size = (s.din sin).size
  blocks : (s'.din sin).blocks = (s.din sin).blocks
  blockOf : ∀ k, s'.blockOf sin k = s.blockOf sin k
  freemap : ∀ b, s'.freemap.bit b = s.freemap.bit b
  unused : s'.unusedBlocks = s.unusedBlocks

variable [SfsDevice] {s : Sfs} {sin len : ℕ}

/-- The call returns; it has set the size and the number of blocks, or left everything alone. -/
def TruncatesAtomically (s : Sfs) (sin len : ℕ) : Prop :=
  ∃ r s', sfsTruncfile sin len s = some (r, s') ∧
    match r with
    | .error _ => AsBefore s s' sin
    | .ok _ => (s'.din sin).size = len ∧ (s'.din sin).blocks = blocksFor len

omit [SfsDevice] in
theorem Takes.asBefore {t : Sfs} (h : Takes s t []) (ha : Accounts s []) (hsin : sin ∈ s.inos) :
    AsBefore s t sin := by
  refine ⟨by rw [h.din], by rw [h.din], h.blockOf ha hsin, ?_, h.unused⟩
  intro b
  have hbit := h.bits b
  simp only [List.not_mem_nil, not_false_eq_true, and_true] at hbit
  exact Bool.eq_iff_iff.mpr hbit

/-- For every file and every number of free blocks: `sfs_truncfile` is atomic exactly if the file
does not grow, or there is room for all its new blocks, or not even for the first one. -/
theorem truncates_atomically_iff (hw : ¬ Faulty) (hi : Inv False s) (hf : Fits s sin)
    (hlen : len ≤ maxFileSize) (hmax : blocksFor len ≤ maxBlocks) :
    TruncatesAtomically s sin len ↔ blocksFor len ≤ (s.din sin).blocks ∨
      s.growthTotal sin (blocksFor len) ≤ s.unusedBlocks ∨
      s.unusedBlocks < s.growthNeed sin := by
  have hstart := Growing.start hi hf.ino
  have hfirst := hstart.toPriced.need hstart.toFramed hf.tail le_rfl
  have hzero := hstart.unused
  have hends := sfsTruncfile_ends (q := False) (E := fun _ u =>
      ∃ k v, (s.din sin).blocks ≤ k ∧ k < blocksFor len ∧ (k = (s.din sin).blocks → v = s) ∧
        Growing False s sin k v ∧ Takes v u [] ∧ s.unusedBlocks < s.growthTotal sin (k + 1))
    (Q := fun _ u => (u.din sin).size = len ∧ (u.din sin).blocks = blocksFor len ∧
      (blocksFor len ≤ (s.din sin).blocks ∨ s.growthTotal sin (blocksFor len) ≤ s.unusedBlocks))
    hw hi hf hlen (fun hbad => absurd hmax (by omega)) ?_ ?_ ?_ ?_
  · unfold TruncatesAtomically
    unfold Ends at hends
    rcases hrun : sfsTruncfile sin len s with _ | ⟨e | a, u⟩
    · rw [hrun] at hends
      exact hends.elim
    · rw [hrun] at hends
      obtain ⟨k, v, hge, hlt, hsame, hv, hu, hroom⟩ := hends
      have htotal : s.growthTotal sin (k + 1) ≤ s.growthTotal sin (blocksFor len) :=
        growthTotal_mono (by omega)
      by_cases hk : k = (s.din sin).blocks
      · -- not even the first block: nothing was added yet
        obtain rfl := hsame hk
        subst hk
        refine iff_of_true ⟨_, u, rfl, hu.asBefore hi.accounts hf.ino⟩ (Or.inr (Or.inr ?_))
        omega
      · -- the blocks that were added stay
        have hblocks : (u.din sin).blocks = k := by rw [hu.din, hv.toResized.blocks]
        have hused := hv.unused
        have hfrom : s.growthTotal sin ((s.din sin).blocks + 1) ≤ s.growthTotal sin k :=
          growthTotal_mono (by omega)
        refine iff_of_false ?_ (by omega)
        intro h
        obtain ⟨r, s', hr, hafter⟩ := h
        obtain ⟨rfl, rfl⟩ := Prod.mk.inj (Option.some.inj hr)
        exact hk (hblocks.symm.trans hafter.blocks)
    · rw [hrun] at hends
      obtain ⟨hsize, hblocks, hroom⟩ := hends
      refine iff_of_true ⟨_, u, rfl, hsize, hblocks⟩ ?_
      rcases hroom with hle | hroom
      · exact Or.inl hle
      · exact Or.inr (Or.inl hroom)
  · intro hsize
    have hb := hf.blocks
    rw [hsize] at hb
    exact ⟨hsize, hb, Or.inl hb.ge⟩
  · intro t _ hle ht
    rw [din_setSize]
    exact ⟨rfl, ht.blocks, Or.inl hle⟩
  · intro t _ _ ht
    rw [din_setSize]
    have hu := ht.unused
    exact ⟨rfl, ht.toResized.blocks, Or.inr (by omega)⟩
  · intro e k v u hge hlt hfirst hv hu hroom
    exact ⟨k, v, hge, hlt, hfirst, hv, hu, hroom⟩

omit [SfsDevice] in
/-- One free block, an empty file and a new size of two blocks. -/
theorem truncates_atomically_iff_one_free : letI := workingDevice
    ¬ TruncatesAtomically (sfsImage 5 0 0 (fun _ _ => 0)) imageIno 8192 := by
  let := workingDevice
  have hi : Inv False (sfsImage 5 0 0 (fun _ _ => 0)) :=
    sfsImage_inv (by decide) (by decide) (by decide)
  have hlen : 8192 ≤ maxFileSize := by decide
  have hiff := truncates_atomically_iff not_faulty_working hi (sfsImage_fits rfl) hlen (by decide)
  intro h
  have hcond := hiff.mp h
  revert hcond
  decide +kernel

omit [SfsDevice] in
/-- The same case: the call fails, and its first block stays in the file, whose size is still 0. -/
theorem truncfile_keeps_block : letI := workingDevice
    ¬ ∀ s sin len, Inv False s → Fits s sin → len ≤ maxFileSize → blocksFor len ≤ maxBlocks →
      TruncatesAtomically s sin len := by
  let := workingDevice
  intro h
  obtain ⟨r, s', hrun, hafter⟩ := h (sfsImage 5 0 0 (fun _ _ => 0)) imageIno 8192
    (sfsImage_inv (by decide) (by decide) (by decide)) (sfsImage_fits rfl) (by decide) (by decide)
  have hout : (sfsTruncfile imageIno (8192 : ℕ) (sfsImage 5 0 0 (fun _ _ => 0))).map
      (fun out => (out.1.toBool, (out.2.din imageIno).blocks)) = some (false, 1) := by
    decide +kernel
  rw [hrun] at hout
  obtain ⟨hfail, hblocks⟩ := Prod.mk.inj (Option.some.inj hout)
  cases r with
  | ok a => exact Bool.false_ne_true hfail.symm
  | error e => exact Nat.one_ne_zero (hblocks.symm.trans hafter.blocks)

end Ucore.Fs
