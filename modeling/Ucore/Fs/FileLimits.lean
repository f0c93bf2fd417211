import Ucore.Fs.SfsWrite
import Ucore.Fs.SfsImage

/-!
The entry points of a file check positions and sizes against `SFS_MAX_FILE_SIZE`, and the block map
ends at `maxBlocks`. An operation that passes the checks and needs a block behind that is a panic.
-/
namespace Ucore.Fs

open Library Libs Call

/-- The operations of a regular file that take a position or a size. -/
inductive FileOp where
  | truncate (len : ℤ)
  | seek (pos : ℤ)
  | io (buf : Bytes) (offset : ℤ) (len : ℕ) (write : Bool)

namespace FileOp

/-- The last byte that the operation reaches, and one. -/
def endpos : FileOp → ℕ
  | truncate len => len.toNat
  | seek pos => pos.toNat
  | io _ offset len _ => (min (maxFileSize : ℤ) (toOff (offset + len))).toNat

/-- The checks of `sfs_truncfile`, `sfs_tryseek` and `sfs_io_nolock`. -/
def Passes : FileOp → Prop
  | truncate len => 0 ≤ len ∧ len ≤ maxFileSize
  | seek pos => 0 ≤ pos ∧ pos < maxFileSize
  | io _ offset len _ => 0 ≤ offset ∧ offset < maxFileSize ∧ offset ≤ toOff (offset + len)

/-- The operation asks the block map only for blocks that it can hold: a size or a new position
within its reach, and for writing also no gap between the last block and the first one written. -/
def InReach (s : Sfs) (sin : ℕ) : FileOp → Prop
  | truncate len => blocksFor len.toNat ≤ maxBlocks
  | seek pos => pos ≤ (s.din sin).size ∨ blocksFor pos.toNat ≤ maxBlocks
  | io buf offset len write => write = true → offset < toOff (offset + len) →
      offset.toNat / blkSize ≤ (s.din sin).blocks ∧
        blocksFor (io buf offset len write).endpos ≤ maxBlocks

/-- The free blocks that the operation may need. -/
def freeNeed (s : Sfs) (sin : ℕ) : FileOp → ℕ
  | truncate len => s.growthTotal sin (blocksFor len.toNat)
  | seek pos => s.growthTotal sin (blocksFor pos.toNat)
  | io buf offset len write =>
    if write = true then s.growthTotal sin (blocksFor (io buf offset len write).endpos) else 0

variable [SfsDevice]

/-- The operation returns, with success or an error. -/
def Returns (s : Sfs) (sin : ℕ) : FileOp → Prop
  | truncate len => sfsTruncfile sin len s ≠ none
  | seek pos => sfsTryseek sin pos s ≠ none
  | io buf offset len write => sfsIoNolock s sin buf offset len write ≠ none

end FileOp

variable [SfsDevice] {s : Sfs} {sin : ℕ}

theorem truncfile_returns_iff (hw : ¬ Faulty) (hi : Inv False s) (hf : Fits s sin) {len : ℕ}
    (hlen : len ≤ maxFileSize) (hroom : s.growthTotal sin (blocksFor len) ≤ s.unusedBlocks) :
    sfsTruncfile sin len s ≠ none ↔ blocksFor len ≤ maxBlocks := by
  have hlimit := (hi.sound (fun hbad => hbad)).limit sin hf.ino
  constructor
  · intro hrun
    by_contra hmax
    refine hrun (Ends.eq_none (sfsTruncfile_ends hw hi hf hlen (fun _ => trivial) ?_ ?_ ?_ ?_))
    · intro hsize
      have hb := hf.blocks
      rw [hsize] at hb
      omega
    · intro t _ hle _
      omega
    · intro t _ _ ht
      have ht' := (ht.inv.sound (fun hbad => hbad)).limit sin (ht.inos.symm ▸ hf.ino)
      rw [ht.blocks] at ht'
      omega
    · intro e k v u _ hk _ _ _ hfull
      have hmono : s.growthTotal sin (k + 1) ≤ s.growthTotal sin (blocksFor len) :=
        growthTotal_mono (by omega)
      omega
  · intro hmax hrun
    have hends := sfsTruncfile_ends (q := False) (Q := fun _ _ => True) (E := fun _ _ => True) hw hi
      hf hlen (fun hbad => by omega) (fun _ => trivial) (fun _ _ _ _ => trivial)
      (fun _ _ _ _ => trivial) (fun _ _ _ _ _ _ _ _ _ _ => trivial)
    unfold Ends at hends
    rw [hrun] at hends
    exact hends

/-- Past the checks, writing is the loop. -/
theorem sfsIoNolock_write_eq {buf : Bytes} {offset : ℤ} {len : ℕ}
    (htype : (s.din sin).type ≠ .dir) (h0 : 0 ≤ offset) (hlt : offset < maxFileSize)
    (hmore : offset < toOff (offset + len)) :
    sfsIoNolock s sin buf offset len true =
      (ioBody sin (FileOp.io buf offset len true).endpos
        ((FileOp.io buf offset len true).endpos / blkSize - offset.toNat / blkSize) true
        ⟨s, buf, 0, offset.toNat, 0, offset.toNat / blkSize⟩).map
      (fun r => ⟨r.1, r.2.alen, r.2.buf, growSize r.2.sfs sin offset.toNat r.2.alen true⟩) := by
  have hend : (if toOff (offset + len) > maxFileSize then maxFileSize
      else (toOff (offset + len)).toNat) = (FileOp.io buf offset len true).endpos := by
    change _ = (min (maxFileSize : ℤ) (toOff (offset + len))).toNat
    split
    · omega
    · omega
  unfold sfsIoNolock
  rw [if_neg htype]
  dsimp only
  rw [if_neg (by omega), if_neg (by omega), if_neg (fun hbad => Bool.false_ne_true hbad.1.symm),
    if_neg (fun hbad => Bool.false_ne_true hbad.1.symm), hend]

theorem write_returns_iff (hw : ¬ Faulty) (hi : Inv False s) (hf : Fits s sin)
    (htype : (s.din sin).type ≠ .dir) {buf : Bytes} {offset : ℤ} {len : ℕ}
    (hpass : (FileOp.io buf offset len true).Passes)
    (hroom : s.growthTotal sin (blocksFor (FileOp.io buf offset len true).endpos) ≤
      s.unusedBlocks) :
    sfsIoNolock s sin buf offset len true ≠ none ↔
      (FileOp.io buf offset len true).InReach s sin := by
  obtain ⟨h0, hlt, hle⟩ := hpass
  rcases lt_or_eq_of_le hle with hmore | heq
  swap
  · refine iff_of_true ?_ (fun _ hbad => absurd heq hbad.ne)
    unfold sfsIoNolock
    rw [if_neg htype]
    dsimp only
    rw [if_neg (by omega), if_pos heq]
    exact Option.some_ne_none _
  · rw [sfsIoNolock_write_eq htype h0 hlt hmore, Ne, Option.map_eq_none_iff]
    have hreach : (FileOp.io buf offset len true).InReach s sin ↔
        offset.toNat / blkSize ≤ (s.din sin).blocks ∧
          blocksFor (FileOp.io buf offset len true).endpos ≤ maxBlocks :=
      ⟨fun h => h rfl hmore, fun h _ _ => h⟩
    rw [hreach]
    obtain ⟨endpos, hend⟩ : ∃ endpos, (FileOp.io buf offset len true).endpos = endpos := ⟨_, rfl⟩
    have hstart : offset.toNat < endpos := by
      rw [← hend]
      change _ < (min (maxFileSize : ℤ) (toOff (offset + len))).toNat
      omega
    rw [hend] at hroom ⊢
    constructor
    · intro hrun
      by_contra hno
      have hends := @ioBody_write_ends _ True sin offset.toNat endpos s buf hi hf hw hstart
        (fun _ => trivial) (fun _ => trivial)
      refine hrun (Ends.eq_none (hends.mono ?_ ?_))
      · intro _ io h
        obtain ⟨-, hwrites⟩ := h
        have hlimit := (hwrites.framed.inv.sound (fun hbad => hbad)).limit sin
          (hwrites.framed.inos.symm ▸ hf.ino)
        have hreached := hwrites.reached (by omega)
        have hblocks := hwrites.blocks
        rw [if_neg (by omega), show offset.toNat + (endpos - offset.toNat) = endpos by omega]
          at hblocks
        exact hno ⟨hreached, by omega⟩
      · intro e io h
        exact absurd h.2 (by omega)
    · intro h hrun
      have hends := @ioBody_write_ends _ False sin offset.toNat endpos s buf hi hf hw hstart
        (fun hbad => by omega) (fun hbad => by omega)
      unfold Ends at hends
      rw [hrun] at hends
      exact hends

/-- For every regular file and every operation that passes the checks, on a disk with room for it:
it returns exactly if it stays within the reach of the block map. -/
theorem accepted_returns_iff (hw : ¬ Faulty) (hi : Inv False s) (hf : Fits s sin)
    (htype : (s.din sin).type = .file) (op : FileOp) (hpass : op.Passes)
    (hroom : op.freeNeed s sin ≤ s.unusedBlocks) :
    op.Returns s sin ↔ op.InReach s sin := by
  have hdir : (s.din sin).type ≠ .dir := by
    rw [htype]
    exact FileType.noConfusion
  cases op with
  | truncate len =>
    have htrunc : sfsTruncfile sin len.toNat s ≠ none ↔ blocksFor len.toNat ≤ maxBlocks :=
      truncfile_returns_iff hw hi hf (Int.toNat_le.mpr hpass.2) hroom
    rw [Int.toNat_of_nonneg hpass.1] at htrunc
    exact htrunc
  | seek pos =>
    obtain ⟨h0, hlt⟩ := hpass
    have hseek : sfsTryseek sin pos s = if pos > (s.din sin).size then sfsTruncfile sin pos s
        else some (.ok ⟨⟩, s) := sfsTryseek_eq h0 hlt
    change sfsTryseek sin pos s ≠ none ↔ pos ≤ (s.din sin).size ∨ blocksFor pos.toNat ≤ maxBlocks
    by_cases hgrow : pos > (s.din sin).size
    · have hlen : pos.toNat ≤ maxFileSize := by omega
      have htrunc := truncfile_returns_iff hw hi hf hlen hroom
      rw [Int.toNat_of_nonneg h0] at htrunc
      rw [hseek, if_pos hgrow, htrunc]
      exact ⟨Or.inr, fun h => h.resolve_left (by omega)⟩
    · rw [hseek, if_neg hgrow]
      exact iff_of_true (Option.some_ne_none _) (Or.inl (by omega))
  | io buf offset len write =>
    cases write with
    | true => exact write_returns_iff hw hi hf hdir hpass hroom
    | false =>
      obtain ⟨r, hr, -⟩ := @sfsIoNolock_read _ sin s buf hi hf hw hdir offset len
      refine iff_of_true ?_ (fun hbad => absurd hbad Bool.false_ne_true)
      change sfsIoNolock s sin buf offset len false ≠ none
      rw [hr]
      exact Option.some_ne_none _

omit [SfsDevice] in
/-- An empty file that gets two blocks by one write. -/
theorem accepted_returns_iff_two_blocks : letI := workingDevice
    (FileOp.io (fun _ => 0) 0 4097 true).Returns (sfsImage 1100 0 0 (fun _ _ => 0)) imageIno := by
  let := workingDevice
  have hi : Inv False (sfsImage 1100 0 0 (fun _ _ => 0)) :=
    sfsImage_inv (by decide) (by decide) (by decide)
  have hf : Fits (sfsImage 1100 0 0 (fun _ _ => 0)) imageIno := sfsImage_fits rfl
  refine (accepted_returns_iff not_faulty_working hi hf rfl _ ?_ ?_).mpr ?_
  · refine ⟨by decide, by decide, ?_⟩
    decide +kernel
  · decide +kernel
  · intro _ _
    decide +kernel

omit [SfsDevice] in
/-- On a disk with 1096 free blocks an empty file cannot get 1037 blocks. -/
theorem truncate_past_map_panics : letI := workingDevice
    ¬ ∀ s sin (op : FileOp), Inv False s → Fits s sin → (s.din sin).type = .file → op.Passes →
      op.freeNeed s sin ≤ s.unusedBlocks → op.Returns s sin := by
  let := workingDevice
  intro h
  have hi : Inv False (sfsImage 1100 0 0 (fun _ _ => 0)) :=
    sfsImage_inv (by decide) (by decide) (by decide)
  have hf : Fits (sfsImage 1100 0 0 (fun _ _ => 0)) imageIno := sfsImage_fits rfl
  have hroom : (sfsImage 1100 0 0 (fun _ _ => 0)).growthTotal imageIno (blocksFor 4243457) ≤
      (sfsImage 1100 0 0 (fun _ _ => 0)).unusedBlocks := by decide +kernel
  have hreturns := h _ imageIno (.truncate (4243457 : ℕ)) hi hf rfl ⟨by decide, by decide⟩
    hroom
  have hfits := (truncfile_returns_iff not_faulty_working hi hf (by decide) hroom).mp hreturns
  exact absurd hfits (by decide)

end Ucore.Fs
