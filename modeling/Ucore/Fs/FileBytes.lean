import Ucore.Fs.FileLimits

/-!
A file as an array of bytes. Whatever is read and written within the reach of the block map, each
byte of the file is the one that was written there last, also where a call stopped with the disk
full, and no call changes another file.
-/
namespace Ucore.Fs

open Library Libs Call

/-- The last byte that the block map has room for, and one. -/
def maxBytes : ℕ := maxBlocks * blkSize

/-- A regular file whose blocks are where its inode says. -/
structure GoodFile (s : Sfs) (sin : ℕ) : Prop where
  inv : Inv False s
  fits : Fits s sin
  type : (s.din sin).type = .file

/-- What a call leaves that wrote the first `k` bytes of its buffer. -/
structure Written (s : Sfs) (sin offset : ℕ) (buf : Bytes) (k : ℕ) (t : Sfs) : Prop where
  good : GoodFile t sin
  inos : t.inos = s.inos
  size : (t.din sin).size = if k = 0 then (s.din sin).size else max (s.din sin).size (offset + k)
  content : ∀ i, t.content sin i =
    if offset ≤ i ∧ i < offset + k then buf (i - offset) else s.content sin i
  others : ∀ j ∈ s.inos, j ≠ sin → t.din j = s.din j ∧ ∀ i, t.content j i = s.content j i

variable {s s₀ t : Sfs} {sin offset len k : ℕ} {buf : Bytes} {r : IoResult}

theorem GoodFile.not_dir (h : GoodFile s sin) : (s.din sin).type ≠ .dir := by
  rw [h.type]
  exact FileType.noConfusion

theorem Written.refl (h : GoodFile s sin) : Written s sin offset buf 0 s := by
  refine ⟨h, rfl, rfl, ?_, fun _ _ _ => ⟨rfl, fun _ => rfl⟩⟩
  intro i
  rw [if_neg (by omega)]

/-- One part behind the other. -/
theorem Written.append {v : Sfs} {m : ℕ} {buf' : Bytes}
    (h : Written s sin offset buf k t) (h' : Written t sin (offset + k) buf' m v)
    (hbuf : ∀ i < m, buf' i = buf (k + i)) : Written s sin offset buf (k + m) v := by
  refine ⟨h'.good, h'.inos.trans h.inos, ?_, ?_, ?_⟩
  · rw [h'.size, h.size]
    split <;> split <;> split <;> omega
  · intro i
    rw [h'.content, h.content]
    by_cases hnew : offset + k ≤ i ∧ i < offset + k + m
    · rw [if_pos hnew, if_pos (by omega), hbuf _ (by omega)]
      congr 1
      omega
    · rw [if_neg hnew]
      by_cases hold : offset ≤ i ∧ i < offset + k
      · rw [if_pos hold, if_pos (by omega)]
      · rw [if_neg hold, if_neg (by omega)]
  · intro j hj hne
    obtain ⟨hdin, hcontent⟩ := h.others j hj hne
    obtain ⟨hdin', hcontent'⟩ := h'.others j (h.inos.symm ▸ hj) hne
    exact ⟨hdin'.trans hdin, fun i => (hcontent' i).trans (hcontent i)⟩

theorem blocksFor_mono {m n : ℕ} (h : m ≤ n) : blocksFor m ≤ blocksFor n :=
  Nat.div_le_div_right (by omega)

theorem din_setSize_of_ne {len j : ℕ} (h : j ≠ sin) : (t.setSize sin len).din j = t.din j := by
  unfold Sfs.setSize
  rw [Sfs.din_setDirty, Sfs.din_setDin_of_ne t _ h]

/-- The update of the size at the end of the call. -/
theorem growSize_write (hsize : offset + k < 2 ^ 32) : growSize t sin offset k true =
    if k ≠ 0 ∧ (t.din sin).size < offset + k then t.setSize sin (offset + k) else t := by
  unfold growSize
  rw [uint32_of_lt hsize]
  by_cases hgrow : k ≠ 0 ∧ (t.din sin).size < offset + k
  · rw [if_pos hgrow, if_pos ⟨rfl, hgrow⟩]
    rfl
  · rw [if_neg hgrow, if_neg (fun hbad => hgrow hbad.2)]

/-- All that is written lies in blocks of the file. -/
theorem Writes.le_maxBytes (h : Writes s sin offset buf k t) (hg : GoodFile s sin) (hk : k ≠ 0) :
    offset + k ≤ maxBytes := by
  have hlimit := (h.framed.inv.sound (fun hbad => hbad)).limit sin
    (h.framed.inos.symm ▸ hg.fits.ino)
  have hblocks := h.blocks
  rw [if_neg hk] at hblocks
  have hfor : blocksFor (offset + k) ≤ maxBlocks := by omega
  unfold blocksFor maxBytes maxBlocks nDirect blkNEntry blkSize at *
  omega

theorem Writes.written (h : Writes s sin offset buf k t) (hg : GoodFile s sin)
    (hoffset : offset ≤ maxBytes) :
    Written s sin offset buf k (growSize t sin offset k true) := by
  have hmax : maxBytes = 4243456 := by decide
  have hfit : offset + k ≤ maxBytes := by
    by_cases hk : k = 0
    · omega
    · exact h.le_maxBytes hg hk
  have hframed := h.framed
  have hsize := hframed.size
  have hblocks := h.blocks
  have hfits := hg.fits.blocks
  have hin : sin ∈ t.inos := hframed.inos.symm ▸ hg.fits.ino
  have htype : (t.din sin).type = .file := hframed.type.trans hg.type
  have hothers : ∀ j ∈ s.inos, j ≠ sin → t.din j = s.din j ∧ ∀ i, t.content j i = s.content j i := by
    intro j hj hne
    refine ⟨?_, fun i => hframed.content_other hg.inv hj hne⟩
    unfold Sfs.din
    rw [hframed.others j hne]
  rw [growSize_write (by omega)]
  by_cases hgrow : k ≠ 0 ∧ (t.din sin).size < offset + k
  · rw [if_pos hgrow]
    have hdin := din_setSize t sin (offset + k)
    have hmore := blocksFor_mono (m := (s.din sin).size) (n := offset + k) (by omega)
    rw [if_neg hgrow.1] at hblocks
    refine ⟨⟨hframed.inv.setSize sin _, ⟨hin, ?_, ?_⟩, ?_⟩, hframed.inos, ?_, ?_, ?_⟩
    · rw [hdin]
      change (t.din sin).blocks = blocksFor (offset + k)
      omega
    · unfold Sfs.EmptyTail
      rw [hdin]
      exact hframed.tail hg.fits.tail
    · rw [hdin]
      exact htype
    · rw [hdin, if_neg hgrow.1]
      change offset + k = _
      omega
    · intro i
      rw [content_setSize]
      exact h.content i
    · intro j hj hne
      obtain ⟨hother, hbytes⟩ := hothers j hj hne
      refine ⟨(din_setSize_of_ne hne).trans hother, ?_⟩
      intro i
      rw [← hbytes i]
      unfold Sfs.content
      rw [setSize_blockOf, din_setSize_of_ne hne]
      rfl
  · rw [if_neg hgrow]
    have hsame : (t.din sin).blocks = blocksFor (t.din sin).size := by
      rw [hsize, hblocks]
      split
      · exact hfits
      · have hmore := blocksFor_mono (m := offset + k) (n := (s.din sin).size) (by omega)
        omega
    refine ⟨⟨hframed.inv, ⟨hin, hsame, hframed.tail hg.fits.tail⟩, htype⟩, hframed.inos, ?_,
      h.content, hothers⟩
    rw [hsize]
    split
    · rfl
    · omega

variable [SfsDevice]

/-- `sfs_io_nolock` that writes within the reach of the block map. -/
theorem sfsIoNolock_written (hw : ¬ Faulty) (hg : GoodFile s sin) (hfit : offset + len ≤ maxBytes)
    (hr : sfsIoNolock s sin buf offset len true = some r) :
    (r.ret = .ok ⟨⟩ → r.alen = len) ∧ Written s sin offset buf r.alen r.sfs := by
  have hmax : maxBytes = 4243456 := by decide
  have hlimit : maxFileSize = 134217728 := rfl
  have hoff : toOff ((offset : ℤ) + len) = offset + len := toOff_of_lt (by omega) (by omega)
  by_cases hlen : len = 0
  · unfold sfsIoNolock at hr
    rw [if_neg hg.not_dir] at hr
    dsimp only at hr
    rw [if_neg (by omega), if_pos (by omega)] at hr
    obtain rfl := Option.some.inj hr
    exact ⟨fun _ => hlen.symm, Written.refl hg⟩
  · rw [sfsIoNolock_write_eq hg.not_dir (by omega) (by omega) (by omega)] at hr
    have hend : (FileOp.io buf offset len true).endpos = offset + len := by
      change (min (maxFileSize : ℤ) (toOff ((offset : ℤ) + len))).toNat = offset + len
      omega
    rw [hend, Int.toNat_natCast] at hr
    obtain ⟨⟨ret, io⟩, hrun, rfl⟩ := Option.map_eq_some_iff.mp hr
    have hends := @ioBody_write_ends _ True sin offset (offset + len) s buf hg.inv hg.fits hw
      (by omega) (fun _ => trivial) (fun _ => trivial)
    unfold Ends at hends
    rw [hrun] at hends
    cases ret with
    | error e => exact ⟨fun hok => absurd hok (by simp), hends.1.written hg (by omega)⟩
    | ok a =>
      obtain ⟨halen, hwrites⟩ := hends
      rw [← halen] at hwrites
      exact ⟨fun _ => halen.trans (Nat.add_sub_cancel_left offset len),
        hwrites.written hg (by omega)⟩

/-- A call of `sfs_io_nolock`. -/
structure FileIo where
  buf : Bytes
  offset : ℕ
  len : ℕ
  write : Bool

/-- The calls for one file within the reach of the block map, each with what it gave back. -/
inductive FileRun (s₀ : Sfs) (sin : ℕ) : List (FileIo × IoResult) → Sfs → Prop
  | start : FileRun s₀ sin [] s₀
  | step {trace : List (FileIo × IoResult)} {s : Sfs} {op : FileIo} {r : IoResult}
      (hrun : FileRun s₀ sin trace s) (hfit : op.offset + op.len ≤ maxBytes)
      (hr : sfsIoNolock s sin op.buf op.offset op.len op.write = some r) :
      FileRun s₀ sin (trace ++ [(op, r)]) r.sfs

omit [SfsDevice] in
/-- The bytes of a file after a call that wrote some of them, as `*alenp` says. -/
def overwrite (f : ℕ → UInt8) (e : FileIo × IoResult) : ℕ → UInt8 := fun i =>
  if e.1.write = true ∧ e.1.offset ≤ i ∧ i < e.1.offset + e.2.alen then e.1.buf (i - e.1.offset)
  else f i

/-- At each index the byte that was written there last, or else the first one. -/
def mostRecent (f : ℕ → UInt8) (trace : List (FileIo × IoResult)) : ℕ → UInt8 :=
  trace.foldl overwrite f

/-- Over a run the file stays good, and has the bytes that were written last. -/
theorem FileRun.good {trace : List (FileIo × IoResult)} (hw : ¬ Faulty) (hg : GoodFile s₀ sin)
    (hrun : FileRun s₀ sin trace s) :
    GoodFile s sin ∧ ∀ i, s.content sin i = mostRecent (s₀.content sin) trace i := by
  induction hrun with
  | start => exact ⟨hg, fun _ => rfl⟩
  | @step trace s op r hrun hfit hr ih =>
    obtain ⟨hgood, hbytes⟩ := ih
    have hlast : ∀ i, mostRecent (s₀.content sin) (trace ++ [(op, r)]) i =
        if op.write = true ∧ op.offset ≤ i ∧ i < op.offset + r.alen then op.buf (i - op.offset)
        else s.content sin i := by
      intro i
      rw [hbytes i, mostRecent, List.foldl_append]
      rfl
    cases hwrite : op.write with
    | true =>
      rw [hwrite] at hr
      obtain ⟨-, hwritten⟩ := sfsIoNolock_written hw hgood hfit hr
      refine ⟨hwritten.good, ?_⟩
      intro i
      rw [hlast, hwritten.content, hwrite]
      simp only [true_and]
    | false =>
      rw [hwrite] at hr
      have hsame := sfsIoNolock_read_keeps hgood.inv hgood.fits _ _ hr
      rw [hsame]
      refine ⟨hgood, ?_⟩
      intro i
      rw [hlast, hwrite, if_neg (fun hbad => Bool.false_ne_true hbad.1)]

/-- After any calls for a file on a working device: a read gives the bytes of its range that lie in
the file, each as it was last written, and a write that succeeds at or before the end overwrites
just its range, in this file only. -/
theorem file_is_bytes {trace : List (FileIo × IoResult)} (hw : ¬ Faulty) (hg : GoodFile s₀ sin)
    (hrun : FileRun s₀ sin trace s) (buf : Bytes) (offset len : ℕ)
    (hfit : offset + len ≤ maxBytes) :
    (∃ r, sfsIoNolock s sin buf offset len false = some r ∧
      r.alen = min len ((s.din sin).size - offset) ∧
      ∀ j < r.alen, r.buf j = mostRecent (s₀.content sin) trace (offset + j)) ∧
    ∀ r, sfsIoNolock s sin buf offset len true = some r → r.ret = .ok ⟨⟩ →
      offset ≤ (s.din sin).size →
      (∀ i, r.sfs.content sin i =
        if offset ≤ i ∧ i < offset + len then buf (i - offset) else s.content sin i) ∧
      (r.sfs.din sin).size = max (s.din sin).size (offset + len) ∧
      (r.sfs.din sin).blocks = blocksFor (r.sfs.din sin).size ∧
      ∀ j ∈ s.inos, j ≠ sin →
        r.sfs.din j = s.din j ∧ ∀ i, r.sfs.content j i = s.content j i := by
  have hmax : maxBytes = 4243456 := by decide
  have hlimit : maxFileSize = 134217728 := rfl
  obtain ⟨hgood, hbytes⟩ := hrun.good hw hg
  constructor
  · obtain ⟨r, hr, -, hread⟩ :=
      @sfsIoNolock_read _ sin s buf hgood.inv hgood.fits hw hgood.not_dir offset len
    obtain ⟨-, halen, hgot⟩ := hread (by omega) (by omega) (by omega)
    rw [Int.toNat_natCast] at halen
    refine ⟨r, hr, halen, ?_⟩
    intro j hj
    rw [hgot j hj, Int.toNat_natCast, hbytes]
  · intro r hr hok hle
    obtain ⟨halen, hwritten⟩ := sfsIoNolock_written hw hgood hfit hr
    have hcontent := hwritten.content
    have hsize := hwritten.size
    rw [halen hok] at hcontent hsize
    refine ⟨hcontent, ?_, hwritten.good.fits.blocks, hwritten.others⟩
    rw [hsize]
    split
    · omega
    · rfl

omit [SfsDevice] in
/-- A file of 5000 bytes that are all 0, and calls for 6000 bytes from 4000 on. -/
theorem file_is_bytes_image : letI := workingDevice
    (∃ r, sfsIoNolock (sfsImage 1100 2 5000 (fun _ _ => 0)) imageIno (fun _ => 1) (4000 : ℕ) 6000
        false = some r ∧
      r.alen = min 6000 (((sfsImage 1100 2 5000 (fun _ _ => 0)).din imageIno).size - 4000) ∧
      ∀ j < r.alen, r.buf j =
        mostRecent ((sfsImage 1100 2 5000 (fun _ _ => 0)).content imageIno) [] (4000 + j)) ∧
    ∀ r, sfsIoNolock (sfsImage 1100 2 5000 (fun _ _ => 0)) imageIno (fun _ => 1) (4000 : ℕ) 6000
        true = some r →
      r.ret = .ok ⟨⟩ → 4000 ≤ ((sfsImage 1100 2 5000 (fun _ _ => 0)).din imageIno).size →
      (∀ i, r.sfs.content imageIno i = if 4000 ≤ i ∧ i < 4000 + 6000 then 1
        else (sfsImage 1100 2 5000 (fun _ _ => 0)).content imageIno i) ∧
      (r.sfs.din imageIno).size =
        max ((sfsImage 1100 2 5000 (fun _ _ => 0)).din imageIno).size (4000 + 6000) ∧
      (r.sfs.din imageIno).blocks = blocksFor (r.sfs.din imageIno).size ∧
      ∀ j ∈ (sfsImage 1100 2 5000 (fun _ _ => 0)).inos, j ≠ imageIno →
        r.sfs.din j = (sfsImage 1100 2 5000 (fun _ _ => 0)).din j ∧
        ∀ i, r.sfs.content j i = (sfsImage 1100 2 5000 (fun _ _ => 0)).content j i := by
  let := workingDevice
  have hi : Inv False (sfsImage 1100 2 5000 (fun _ _ => 0)) :=
    sfsImage_inv (by decide) (by decide) (by decide)
  exact file_is_bytes not_faulty_working ⟨hi, sfsImage_fits (by decide), rfl⟩ FileRun.start
    (fun _ => 1) 4000 6000 (by decide)

end Ucore.Fs
