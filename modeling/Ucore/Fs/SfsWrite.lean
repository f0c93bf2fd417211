import Ucore.Fs.SfsIo

/-!
How `sfs_io_nolock` writes.
-/
namespace Ucore.Fs

open Library Libs Call

variable [SfsDevice] {q : Prop} {sin startpos endpos k : ℕ} {s t u : Sfs} {buf : Bytes}
  {E : SfsError → SfsIo → Prop}

/-- The file system after `k` bytes of the buffer were written. -/
structure Writes (s : Sfs) (sin startpos : ℕ) (buf : Bytes) (k : ℕ) (t : Sfs) : Prop where
  framed : Framed False s sin (t.din sin).blocks t
  priced : Priced s sin (t.din sin).blocks t
  blocks : (t.din sin).blocks =
    if k = 0 then (s.din sin).blocks else max (s.din sin).blocks (blocksFor (startpos + k))
  reached : 0 < k → startpos / blkSize ≤ (s.din sin).blocks
  content : ∀ i, t.content sin i =
    if startpos ≤ i ∧ i < startpos + k then buf (i - startpos) else s.content sin i

omit [SfsDevice] in
theorem Writes.start (hi : Inv False s) (hsin : sin ∈ s.inos) : Writes s sin startpos buf 0 s := by
  refine ⟨Framed.refl hi, Priced.start hi hsin, rfl, fun hbad => absurd hbad (Nat.lt_irrefl 0), ?_⟩
  intro i
  rw [if_neg (by omega)]

omit [SfsDevice] in
/-- A failed attempt to add a block. -/
theorem Writes.takes (h : Writes s sin startpos buf k t) (hsin : sin ∈ s.inos)
    (hu : Takes t u []) : Writes s sin startpos buf k u := by
  have hdin := hu.din sin
  have hsin' : sin ∈ t.inos := h.framed.inos.symm ▸ hsin
  refine ⟨?_, ⟨?_, ?_⟩, ?_, h.reached, ?_⟩
  · rw [hdin]
    exact h.framed.takes hu
  · rw [hdin]
    have hunused : u.unusedBlocks = t.unusedBlocks := hu.unused
    rw [hunused]
    exact h.priced.unused
  · rw [hdin]
    exact h.priced.indirect
  · rw [hdin]
    exact h.blocks
  · intro i
    rw [hu.content h.framed.inv hsin']
    exact h.content i

omit [SfsDevice] in
theorem blocksFor_part {m size : ℕ} (hpos : 0 < size) (hin : m % blkSize + size ≤ blkSize) :
    blocksFor (m + size) = m / blkSize + 1 := by
  unfold blocksFor blkSize at *
  omega

omit [SfsDevice] in
theorem blocksFor_le (m : ℕ) : blocksFor m ≤ m / blkSize + 1 := by
  unfold blocksFor blkSize
  omega

omit [SfsDevice] in
theorem div_le_blocksFor (m : ℕ) : m / blkSize ≤ blocksFor m := by
  unfold blocksFor blkSize
  omega

/-- The state between the two steps of a part: the block is there, its bytes are not written. -/
structure Ready (s : Sfs) (sin startpos : ℕ) (buf : Bytes) (k : ℕ) (t : Sfs) : Prop where
  framed : Framed False s sin (max (s.din sin).blocks ((startpos + k) / blkSize + 1)) t
  priced : Priced s sin (max (s.din sin).blocks ((startpos + k) / blkSize + 1)) t
  reached : startpos / blkSize ≤ (s.din sin).blocks
  content : ∀ i, t.content sin i =
    if startpos ≤ i ∧ i < startpos + k then buf (i - startpos) else s.content sin i

omit [SfsDevice] in
/-- The bytes are written. -/
theorem Ready.putBlock {blk : Bytes} {size : ℕ} (h : Ready s sin startpos buf k t)
    (hsin : sin ∈ s.inos) (hpos : 0 < size) (hin : (startpos + k) % blkSize + size ≤ blkSize)
    (hblk : ∀ i < blkSize, blk i =
      if (startpos + k) % blkSize ≤ i ∧ i < (startpos + k) % blkSize + size
      then buf (k + (i - (startpos + k) % blkSize))
      else t.disk (t.blockOf sin ((startpos + k) / blkSize)) i) :
    Writes s sin startpos buf (k + size)
      (t.putBlock (t.blockOf sin ((startpos + k) / blkSize)) blk) := by
  have hsin' : sin ∈ t.inos := h.framed.inos.symm ▸ hsin
  have hlt : (startpos + k) / blkSize < max (s.din sin).blocks ((startpos + k) / blkSize + 1) := by
    omega
  have hlt' : (startpos + k) / blkSize < (t.din sin).blocks := by
    rw [h.framed.blocks]
    exact hlt
  have hframed : Framed False s sin (max (s.din sin).blocks ((startpos + k) / blkSize + 1))
      (t.putBlock (t.blockOf sin ((startpos + k) / blkSize)) blk) := h.framed.putBlock hsin hlt
  have hfor := blocksFor_part hpos hin
  refine ⟨?_, ?_, ?_, fun _ => h.reached, ?_⟩
  · rw [hframed.blocks]
    exact hframed
  · rw [hframed.blocks]
    exact ⟨h.priced.unused, h.priced.indirect⟩
  · rw [hframed.blocks, if_neg (by omega), ← Nat.add_assoc, hfor]
  · intro i
    rw [putBlock_content h.framed.inv hsin' hlt']
    by_cases hblock : i / blkSize = (startpos + k) / blkSize
    · rw [if_pos hblock, hblk _ (Nat.mod_lt _ (by decide))]
      by_cases hnew : (startpos + k) % blkSize ≤ i % blkSize ∧
          i % blkSize < (startpos + k) % blkSize + size
      · have hplace : k + (i % blkSize - (startpos + k) % blkSize) = i - startpos ∧
            startpos ≤ i ∧ i < startpos + (k + size) := by
          unfold blkSize at *
          omega
        rw [if_pos hnew, if_pos hplace.2, hplace.1]
      · have hold : t.content sin i = t.disk (t.blockOf sin ((startpos + k) / blkSize))
            (i % blkSize) := by
          unfold Sfs.content
          rw [hblock, if_pos hlt']
        have hsame : (startpos ≤ i ∧ i < startpos + k) ↔
            (startpos ≤ i ∧ i < startpos + (k + size)) := by
          unfold blkSize at *
          omega
        rw [if_neg hnew, ← hold, h.content]
        simp only [hsame]
    · have hsame : (startpos ≤ i ∧ i < startpos + k) ↔
          (startpos ≤ i ∧ i < startpos + (k + size)) := by
        unfold blkSize at *
        omega
      rw [if_neg hblock, h.content]
      simp only [hsame]

/-- The block of the next part is found or added; it may be out of reach, or there may be no
room for it. -/
theorem load_ready {io : SfsIo} (hf : Fits s sin) (hw : ¬ Faulty)
    (hio : IoAt startpos endpos (fun k b t => b = buf ∧ Writes s sin startpos buf k t) io)
    (hlt : io.offset < endpos) (hmax : maxBlocks < blocksFor endpos → q)
    (hstart : (s.din sin).blocks < startpos / blkSize → q)
    (hE : ∀ e io, Writes s sin startpos buf io.alen io.sfs →
      s.unusedBlocks < s.growthTotal sin (blocksFor endpos) → E e io) :
    Ends q (onSfs (sfsBmapLoadNolock sin io.blkno)) io (fun ino io₁ => ∃ t,
      Ready s sin startpos buf io.alen t ∧ io₁ = { io with sfs := t } ∧
        ino = t.blockOf sin ((startpos + io.alen) / blkSize)) E := by
  have hwrites := hio.holds.2
  have hblkno := hio.blkno hlt
  rw [hio.offset] at hblkno hlt
  nth_rewrite 1 [hblkno]
  have hinv := hwrites.framed.inv
  have hsin : sin ∈ io.sfs.inos := hwrites.framed.inos.symm ▸ hf.ino
  have hblocks := hwrites.blocks
  have hreached := hwrites.reached
  have hle := blocksFor_le (startpos + io.alen)
  have hge := div_le_blocksFor (startpos + io.alen)
  have hend : (startpos + io.alen) / blkSize + 1 ≤ blocksFor endpos := by
    unfold blocksFor blkSize
    omega
  have hgrown : (s.din sin).blocks ≤ (io.sfs.din sin).blocks := by
    rw [hblocks]
    split
    · exact le_rfl
    · exact Nat.le_max_left _ _
  refine onSfs_ends ?_
  rcases Nat.lt_trichotomy ((startpos + io.alen) / blkSize) (io.sfs.din sin).blocks with
    hold | hnew | hgap
  · refine (sfsBmapLoadNolock_get_ends (p := False) hinv hsin hold
      (fun _ hbad => absurd hbad hw) ?_).weaken (fun hbad => hbad.elim)
    intro _ _
    have hcount : (io.sfs.din sin).blocks =
        max (s.din sin).blocks ((startpos + io.alen) / blkSize + 1) := by
      split at hblocks
      · omega
      · omega
    refine ⟨io.sfs, ⟨?_, ?_, ?_, hwrites.content⟩, rfl, rfl⟩
    · rw [← hcount]
      exact hwrites.framed
    · rw [← hcount]
      exact hwrites.priced
    · by_cases h0 : io.alen = 0
      · rw [h0, Nat.add_zero] at hold
        rw [if_pos h0] at hblocks
        omega
      · exact hreached (Nat.pos_of_ne_zero h0)
  · rw [hnew] at hend ⊢
    by_cases hroom : (io.sfs.din sin).blocks < maxBlocks
    swap
    · exact Ends.of_eq_none (sfsBmapLoadNolock_beyond (by omega)) (hmax (by omega))
    refine (sfsBmapLoadNolock_grow_ends (p := False) hinv hsin (fun hbad => hbad hroom)
      ?_ ?_ ?_).weaken (fun hbad => hbad.elim)
    · intro e u htakes _ hwhy
      rcases hwhy with hfull | hbad
      · refine hE e _ (hwrites.takes hf.ino htakes) ?_
        have hneed := hwrites.priced.need hwrites.framed hf.tail hgrown
        have hunused := hwrites.priced.unused
        have hmono := @growthTotal_mono s sin _ _ hend
        omega
      · exact absurd hbad hw
    · intro e u b _ hbad
      exact absurd hbad (not_growthRefused hw _ _)
    · intro b u taken hg _
      have hcount : (io.sfs.din sin).blocks + 1 =
          max (s.din sin).blocks ((startpos + io.alen) / blkSize + 1) := by omega
      refine ⟨u, ⟨?_, ?_, ?_, ?_⟩, rfl, ?_⟩
      · rw [← hcount]
        exact hwrites.framed.grown hg
      · rw [← hcount]
        exact hwrites.priced.grown hwrites.framed hf.tail hgrown hg
      · by_cases h0 : io.alen = 0
        · rw [h0, Nat.add_zero] at hnew
          rw [if_pos h0] at hblocks
          omega
        · exact hreached (Nat.pos_of_ne_zero h0)
      · intro i
        rw [hg.content hinv hsin (hwrites.framed.tail hf.tail)]
        exact hwrites.content i
      · exact hg.block.symm
  · refine Ends.of_eq_none ?_ ?_
    · unfold sfsBmapLoadNolock
      refine Ends.eq_none (Ends.bind (Ends.require (fun hbad => ?_) (fun _ => trivial)))
      omega
    · by_cases h0 : io.alen = 0
      · rw [h0, Nat.add_zero] at hgap
        rw [if_pos h0] at hblocks
        exact hstart (by omega)
      · rw [if_neg h0] at hblocks
        omega

theorem writes_transfers (hf : Fits s sin) (hw : ¬ Faulty)
    (hmax : maxBlocks < blocksFor endpos → q) (hstart : (s.din sin).blocks < startpos / blkSize → q)
    (hE : ∀ e io, Writes s sin startpos buf io.alen io.sfs →
      s.unusedBlocks < s.growthTotal sin (blocksFor endpos) → E e io) :
    Transfers q sin startpos endpos true
      (fun k b t => b = buf ∧ Writes s sin startpos buf k t) E := by
  have hslot : ∀ {k t}, Ready s sin startpos buf k t →
      t.blockOf sin ((startpos + k) / blkSize) ≠ 0 ∧
      t.blockOf sin ((startpos + k) / blkSize) < t.superBlocks := by
    intro k t h
    refine (h.framed.inv.sound (fun hbad => hbad)).slots sin (h.framed.inos.symm ▸ hf.ino) _ ?_
    rw [h.framed.blocks]
    omega
  refine ⟨?_, ?_⟩
  · intro io size hio hpos hin hle
    refine (load_ready hf hw hio (by omega) hmax hstart hE).mono ?_ (fun _ _ he => he)
    intro ino io₁ hgot
    obtain ⟨t, hready, rfl, rfl⟩ := hgot
    have hoffset : io.offset % blkSize = (startpos + io.alen) % blkSize := by rw [hio.offset]
    rw [hoffset] at hin ⊢
    unfold sfsBufOp
    refine Ends.bind (Ends.read ?_)
    rw [if_pos rfl]
    refine onSfs_ends (sfsWbuf_ends hready.framed.inv.accounts.mounted
      ⟨Nat.mod_lt _ (by decide), hin⟩ (fun hbad => absurd (hslot hready) hbad) ?_ ?_)
    · intro hr
      rcases hr with hr | hr
      · exact absurd ⟨_, _, _, hr⟩ hw
      · exact absurd ⟨_, _, _, hr⟩ hw
    · intro _ _
      refine ⟨rfl, hio.holds.1, hready.putBlock hf.ino hpos hin ?_⟩
      intro i _
      have hbuf := hio.holds.1
      simp only [patch, hio.data, hbuf]
  · intro io hio hoff hle
    have hpos : 0 < blkSize := by decide
    refine (load_ready hf hw hio (by omega) hmax hstart hE).mono ?_ (fun _ _ he => he)
    intro ino io₁ hgot
    obtain ⟨t, hready, rfl, rfl⟩ := hgot
    rw [hio.offset] at hoff
    unfold sfsBlockOp
    refine Ends.bind (Ends.read ?_)
    rw [if_pos rfl]
    refine Ends.bind (onSfs_ends (sfsWblock_ends hready.framed.inv.accounts.mounted
      (fun hbad => absurd (hslot hready) hbad) (fun hr => absurd ⟨_, _, _, hr⟩ hw) ?_))
    intro bytes _ _
    refine Ends.modify ⟨rfl, ?_, hready.putBlock hf.ino hpos (by omega) ?_⟩
    · exact hio.holds.1
    · intro i hi
      have hbuf := hio.holds.1
      rw [hoff, if_pos (by omega), Nat.sub_zero, hio.data, hbuf]

/-- How the loop of `sfs_io_nolock` ends when it writes. -/
theorem ioBody_write_ends (hi : Inv False s) (hf : Fits s sin) (hw : ¬ Faulty)
    (hlt : startpos < endpos) (hmax : maxBlocks < blocksFor endpos → q)
    (hstart : (s.din sin).blocks < startpos / blkSize → q) :
    Ends q (ioBody sin endpos (endpos / blkSize - startpos / blkSize) true)
      ⟨s, buf, 0, startpos, 0, startpos / blkSize⟩
      (fun _ io => io.alen = endpos - startpos ∧
        Writes s sin startpos buf (endpos - startpos) io.sfs)
      (fun _ io => Writes s sin startpos buf io.alen io.sfs ∧
        s.unusedBlocks < s.growthTotal sin (blocksFor endpos)) := by
  refine (ioBody_ends (writes_transfers hf hw hmax hstart (fun e io hwrites hfull =>
    ⟨hwrites, hfull⟩)) hlt ⟨rfl, Writes.start hi hf.ino⟩).mono ?_ (fun _ _ he => he)
  intro _ io h
  exact ⟨h.1, h.2.2⟩

end Ucore.Fs
