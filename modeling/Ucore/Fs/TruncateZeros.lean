import Ucore.Fs.SfsIo
import Ucore.Fs.SfsImage

/-!
A file that is cut off and then extended. Blocks that are taken again are cleared, but the rest of
the last block stays as it was when the file was cut off.
-/
namespace Ucore.Fs

open Library Libs Call

variable [SfsDevice] {s t u : Sfs} {sin len m n : ℕ}

/-- What a successful `sfs_truncfile` leaves. -/
structure Truncated (s : Sfs) (sin len : ℕ) (t : Sfs) : Prop where
  inv : Inv False t
  fits : Fits t sin
  size : (t.din sin).size = len
  type : (t.din sin).type = (s.din sin).type
  content : ∀ i, t.content sin i = if i / blkSize < blocksFor len then s.content sin i else 0

omit [SfsDevice] in
theorem Resized.truncated (h : Resized False s sin (blocksFor len) t) (hi : Inv False s)
    (hf : Fits s sin) : Truncated s sin len (t.setSize sin len) := by
  have hdin := din_setSize t sin len
  refine ⟨h.inv.setSize sin len, ⟨?_, ?_, ?_⟩, ?_, ?_, ?_⟩
  · exact h.inos.symm ▸ hf.ino
  · rw [hdin]
    exact h.blocks
  · unfold Sfs.EmptyTail
    rw [hdin]
    exact h.tail hf.tail
  · rw [hdin]
  · rw [hdin]
    exact h.type
  · intro i
    rw [content_setSize]
    exact h.content hi hf.ino hf.tail

theorem sfsTruncfile_truncated (hw : ¬ Faulty) (hi : Inv False s) (hf : Fits s sin)
    (hrun : sfsTruncfile sin len s = some (.ok ⟨⟩, t)) : Truncated s sin len t := by
  have hlen : len ≤ maxFileSize := by
    by_contra hbad
    unfold sfsTruncfile at hrun
    rw [if_pos (by omega)] at hrun
    exact absurd (Prod.mk.inj (Option.some.inj hrun)).1 (by simp)
  refine (sfsTruncfile_ends (q := True) (Q := fun _ t => Truncated s sin len t)
    (E := fun _ _ => True) hw hi hf hlen (fun _ => trivial) ?_ ?_ ?_
    (fun _ _ _ _ _ _ _ _ _ _ => trivial)).of_ok hrun
  · intro hsize
    refine ⟨hi, hf, hsize, rfl, ?_⟩
    intro i
    unfold Sfs.content
    rw [hf.blocks, hsize]
    split
    · rfl
    · rfl
  · intro t _ _ ht
    exact ht.truncated hi hf
  · intro t _ _ ht
    exact ht.toResized.truncated hi hf

/-- Every read gives the bytes that the file had before it was cut off, and zeros behind. -/
def ReadsZeros (s u : Sfs) (sin m n : ℕ) : Prop :=
  ∀ (buf : Bytes) (offset len : ℕ), offset < maxFileSize → offset + len < 2 ^ 63 →
    ∃ r, sfsIoNolock u sin buf offset len false = some r ∧ r.ret = .ok ⟨⟩ ∧
      r.alen = min len (n - offset) ∧ ∀ j < r.alen,
        (offset + j < m → offset + j < (s.din sin).size → r.buf j = s.content sin (offset + j)) ∧
        (m ≤ offset + j → r.buf j = 0)

/-- For every regular file that is cut off at `m` and then extended to `n`, by `sfs_truncfile` or
`sfs_tryseek`: the bytes from `m` to `n` read as zeros exactly if those in the last block that was
kept were zero before. -/
theorem reads_zeros_iff (hw : ¬ Faulty) (hi : Inv False s) (hf : Fits s sin)
    (htype : (s.din sin).type = .file) (hmn : m < n) (hn : blocksFor n ≤ maxBlocks)
    (hcut : sfsTruncfile sin m s = some (.ok ⟨⟩, t))
    (hextend : sfsTruncfile sin n t = some (.ok ⟨⟩, u) ∨ sfsTryseek sin n t = some (.ok ⟨⟩, u)) :
    ReadsZeros s u sin m n ↔
      ∀ i, m ≤ i → i < n → i / blkSize < blocksFor m → s.content sin i = 0 := by
  have hpos : n < maxFileSize := by
    unfold blocksFor maxBlocks nDirect blkNEntry maxFileSize blkSize at *
    omega
  have ht := sfsTruncfile_truncated hw hi hf hcut
  have hu : Truncated t sin n u := by
    rcases hextend with htrunc | hseek
    · exact sfsTruncfile_truncated hw ht.inv ht.fits htrunc
    · rw [sfsTryseek_eq (by omega) (by omega), if_pos (by rw [ht.size]; omega)] at hseek
      exact sfsTruncfile_truncated hw ht.inv ht.fits hseek
  have hcontent : ∀ i < n, u.content sin i =
      if i / blkSize < blocksFor m then s.content sin i else 0 := by
    intro i hlt
    have hin : i / blkSize < blocksFor n := by
      unfold blocksFor blkSize
      omega
    rw [hu.content, if_pos hin, ht.content]
  have hdir : (u.din sin).type ≠ .dir := by
    rw [hu.type, ht.type, htype]
    exact FileType.noConfusion
  have hread : ∀ (buf : Bytes) (offset len : ℕ), offset < maxFileSize → offset + len < 2 ^ 63 →
      ∃ r, sfsIoNolock u sin buf offset len false = some r ∧ r.ret = .ok ⟨⟩ ∧
        r.alen = min len (n - offset) ∧ ∀ j < r.alen, r.buf j =
          if (offset + j) / blkSize < blocksFor m then s.content sin (offset + j) else 0 := by
    intro buf offset len hoff hfit
    obtain ⟨r, hr, -, hok⟩ := @sfsIoNolock_read _ sin u buf hu.inv hu.fits hw hdir offset len
    obtain ⟨hret, halen, hbytes⟩ := hok (by omega) (by omega) (by omega)
    rw [Int.toNat_natCast, hu.size] at halen
    refine ⟨r, hr, hret, halen, ?_⟩
    intro j hj
    rw [hbytes j hj, Int.toNat_natCast]
    exact hcontent _ (by omega)
  constructor
  · intro h i hge hlt hkept
    obtain ⟨r, hr, -, halen, hbytes⟩ := h (fun _ => 0) i 1 (by omega)
      (by unfold maxFileSize at hpos; omega)
    obtain ⟨r', hr', -, -, hbytes'⟩ := hread (fun _ => 0) i 1 (by omega)
      (by unfold maxFileSize at hpos; omega)
    obtain rfl : r = r' := Option.some.inj (hr.symm.trans hr')
    have hone : 0 < r.alen := by omega
    have hzero := (hbytes 0 hone).2 hge
    rw [hbytes' 0 hone, Nat.add_zero, if_pos hkept] at hzero
    exact hzero
  · intro h buf offset len hoff hfit
    obtain ⟨r, hr, hret, halen, hbytes⟩ := hread buf offset len hoff hfit
    refine ⟨r, hr, hret, halen, ?_⟩
    intro j hj
    have hlt : offset + j < n := by omega
    rw [hbytes j hj]
    refine ⟨fun hm _ => if_pos ?_, fun hm => ?_⟩
    · unfold blocksFor blkSize
      omega
    · split
      · exact h _ hm hlt ‹_›
      · rfl

omit [SfsDevice] in
theorem ok_of_toBool {x : Option (Except SfsError PUnit × Sfs)}
    (h : x.map (fun r => r.1.toBool) = some true) : ∃ t, x = some (.ok ⟨⟩, t) := by
  rcases x with _ | ⟨_ | _, t⟩
  · exact absurd h (by simp)
  · exact absurd (Option.some.inj h) Bool.false_ne_true
  · exact ⟨t, rfl⟩

omit [SfsDevice] in
/-- A file of two zeros is cut off in the middle. -/
theorem reads_zeros_iff_zeros : letI := workingDevice
    ∃ u, ReadsZeros (sfsImage 6 1 2 (fun _ _ => 0)) u imageIno 1 2 := by
  let := workingDevice
  have hi : Inv False (sfsImage 6 1 2 (fun _ _ => 0)) :=
    sfsImage_inv (by decide) (by decide) (by decide)
  have hf : Fits (sfsImage 6 1 2 (fun _ _ => 0)) imageIno := sfsImage_fits rfl
  obtain ⟨t, ht⟩ : ∃ t, sfsTruncfile imageIno (1 : ℕ) (sfsImage 6 1 2 (fun _ _ => 0)) =
    some (.ok ⟨⟩, t) := ok_of_toBool (by decide +kernel)
  have hboth : ((sfsTruncfile imageIno (1 : ℕ) (sfsImage 6 1 2 (fun _ _ => 0))).bind
      (fun a => sfsTruncfile imageIno (2 : ℕ) a.2)).map (fun r => r.1.toBool) = some true := by
    decide +kernel
  rw [ht, Option.bind_some] at hboth
  obtain ⟨u, hu⟩ := ok_of_toBool hboth
  refine ⟨u, (reads_zeros_iff not_faulty_working hi hf rfl (by decide) (by decide) ht
    (Or.inl hu)).mpr ?_⟩
  intro i _ _ _
  unfold Sfs.content
  split
  · rfl
  · rfl

omit [SfsDevice] in
/-- The file has two bytes 7; the second one is back after it was cut off. -/
theorem old_byte_returns : letI := workingDevice
    ¬ ∀ s sin (m n : ℕ) t u, Inv False s → Fits s sin → (s.din sin).type = .file → m < n →
      blocksFor n ≤ maxBlocks → sfsTruncfile sin m s = some (.ok ⟨⟩, t) →
      sfsTruncfile sin n t = some (.ok ⟨⟩, u) → ReadsZeros s u sin m n := by
  let := workingDevice
  intro h
  obtain ⟨t, ht⟩ : ∃ t, sfsTruncfile imageIno (1 : ℕ) (sfsImage 6 1 2 (fun _ _ => 7)) =
    some (.ok ⟨⟩, t) := ok_of_toBool (by decide +kernel)
  have hboth : ((sfsTruncfile imageIno (1 : ℕ) (sfsImage 6 1 2 (fun _ _ => 7))).bind
      (fun a => sfsTruncfile imageIno (2 : ℕ) a.2)).map (fun r => r.1.toBool) = some true := by
    decide +kernel
  have hbyte : ((sfsTruncfile imageIno (1 : ℕ) (sfsImage 6 1 2 (fun _ _ => 7))).bind
      (fun a => (sfsTruncfile imageIno (2 : ℕ) a.2).bind (fun b =>
        sfsIoNolock b.2 imageIno (fun _ => 0) (1 : ℕ) 1 false))).map (fun r => r.buf 0) =
      some 7 := by
    decide +kernel
  rw [ht, Option.bind_some] at hboth hbyte
  obtain ⟨u, hu⟩ := ok_of_toBool hboth
  rw [hu, Option.bind_some] at hbyte
  have hreads := h (sfsImage 6 1 2 (fun _ _ => 7)) imageIno 1 2 t u
    (sfsImage_inv (by decide) (by decide) (by decide)) (sfsImage_fits rfl) rfl (by decide)
    (by decide) ht hu
  obtain ⟨r, hr, -, halen, hzero⟩ := hreads (fun _ => 0) 1 1 (by decide) (by decide)
  rw [hr] at hbyte
  have hback := (hzero 0 (by omega)).2 le_rfl
  have hseven : r.buf 0 = 7 := Option.some.inj hbyte
  rw [hback] at hseven
  exact absurd hseven (by decide)

end Ucore.Fs
