import Ucore.Devs.Disk0

/-!
Any requests to the disk, one after the other. It behaves as the array of its bytes, whatever the
buffer of `dev_disk0.c` holds, and block by block it is the device that the file system is modelled
on.
-/
namespace Ucore.Devs.Disk0

open Library Libs Transfer
open Fs (Bytes Sfs SfsDevice workingDevice sfsRwblockNolock)

/-- A call of `disk0_io` from memory `mem`, with an `iobuf` at `base`. -/
structure Request where
  offset : ℕ
  len : ℕ
  write : Bool
  base : ℕ
  mem : Bytes

/-- What a call returns, and the memory behind it. -/
structure Answer where
  ret : ℤ
  mem : Bytes

structure Disk where
  image : Bytes
  buffer : Bytes

/-- `disk0_io`; `none` is a panic. -/
def Disk.serve (d : Disk) (dev : IdeDevice) (r : Request) : Option (Answer × Disk) :=
  (disk0Io ⟨d.image, d.buffer, r.mem, r.base, r.offset, r.len⟩ dev r.write).map fun x =>
    (⟨x.1, x.2.mem⟩, ⟨x.2.image, x.2.buffer⟩)

def Disk.serveAll (dev : IdeDevice) : Disk → List Request → Option (List Answer × Disk)
  | d, [] => some ([], d)
  | d, r :: rs => (d.serve dev r).bind fun x =>
    (serveAll dev x.2 rs).map fun y => (x.1 :: y.1, y.2)

/-- What a request means for the bytes of a disk of `blocks` blocks. -/
def serveBytes (blocks : ℕ) (image : Bytes) (r : Request) : Answer × Bytes :=
  if disk0Blksize ∣ r.offset ∧ disk0Blksize ∣ r.len ∧ r.offset + r.len ≤ disk0Blksize * blocks then
    if r.write then (⟨0, r.mem⟩, copyRange image r.mem r.offset r.base r.len)
    else (⟨0, copyRange r.mem image r.base r.offset r.len⟩, image)
  else (⟨-eInval, r.mem⟩, image)

def serveBytesAll (blocks : ℕ) : Bytes → List Request → List Answer × Bytes
  | image, [] => ([], image)
  | image, r :: rs =>
    let x := serveBytes blocks image r
    let y := serveBytesAll blocks x.2 rs
    (x.1 :: y.1, y.2)

/-- The block numbers of a request fit in 32 bits, also behind its end. -/
def Request.Fits (r : Request) : Prop := r.offset / disk0Blksize + r.len / disk0Blksize < 2 ^ 32

variable {dev : IdeDevice} {d : Disk} {r : Request}

theorem serve_bytes (h : Works dev) (hr : r.Fits) :
    ∃ buffer, d.serve dev r = some ((serveBytes (dBlocks dev) d.image r).1,
      ⟨(serveBytes (dBlocks dev) d.image r).2, buffer⟩) := by
  have hspec := disk0Io_spec r.write
    (t := ⟨d.image, d.buffer, r.mem, r.base, r.offset, r.len⟩) h rfl rfl hr
  have hinside : (disk0Blksize ∣ r.offset ∧ disk0Blksize ∣ r.len ∧
      r.offset / disk0Blksize + r.len / disk0Blksize ≤ dBlocks dev) ↔
      disk0Blksize ∣ r.offset ∧ disk0Blksize ∣ r.len ∧
        r.offset + r.len ≤ disk0Blksize * dBlocks dev := by
    refine and_congr_right fun hoffset => and_congr_right fun hlen => ?_
    obtain ⟨b, hb⟩ := hoffset
    obtain ⟨n, hn⟩ := hlen
    have hpos : 0 < disk0Blksize := by decide
    rw [hb, hn, Nat.mul_div_cancel_left _ hpos, Nat.mul_div_cancel_left _ hpos, ← Nat.mul_add]
    exact (Nat.mul_le_mul_left_iff hpos).symm
  rw [if_congr hinside rfl rfl] at hspec
  unfold Disk.serve serveBytes
  split at hspec
  · rename_i hall
    obtain ⟨u, hu, -, himage, hmem⟩ := hspec
    rw [Nat.mul_div_cancel' hall.1, Nat.mul_div_cancel' hall.2.1] at himage hmem
    rw [hu, if_pos hall, Option.map_some]
    refine ⟨u.buffer, ?_⟩
    rw [himage, hmem]
    cases r.write with
    | true => rfl
    | false => rfl
  · rename_i hnot
    rw [hspec, if_neg hnot]
    exact ⟨d.buffer, rfl⟩

/-- Any requests leave the answers and the bytes that an array of bytes would. -/
theorem disk0_is_bytes (h : Works dev) (image buffer : Bytes) (rs : List Request)
    (hrs : ∀ r ∈ rs, r.Fits) :
    ∃ buffer', Disk.serveAll dev ⟨image, buffer⟩ rs =
      some ((serveBytesAll (dBlocks dev) image rs).1,
        ⟨(serveBytesAll (dBlocks dev) image rs).2, buffer'⟩) := by
  induction rs generalizing image buffer with
  | nil => exact ⟨buffer, rfl⟩
  | cons r rs ih =>
    obtain ⟨buffer₁, hfirst⟩ := serve_bytes (d := ⟨image, buffer⟩) h (hrs r List.mem_cons_self)
    obtain ⟨buffer₂, hrest⟩ := ih (serveBytes (dBlocks dev) image r).2 buffer₁
      fun r' hr' => hrs r' (List.mem_cons_of_mem r hr')
    refine ⟨buffer₂, ?_⟩
    rw [Disk.serveAll, hfirst, Option.bind_some, hrest]
    rfl

/-- A block is written at the end of a disk of two blocks, and read again together with the one in
front of it. -/
theorem disk0_is_bytes_two : ∃ buffer, Disk.serveAll (ramdiskInit 8192) ⟨fun _ => 0, fun _ => 0⟩
    [⟨4096, 4096, true, 0, fun _ => 1⟩, ⟨0, 8192, false, 0, fun _ => 2⟩] =
      some ((serveBytesAll 2 (fun _ => 0)
        [⟨4096, 4096, true, 0, fun _ => 1⟩, ⟨0, 8192, false, 0, fun _ => 2⟩]).1,
        ⟨(serveBytesAll 2 (fun _ => 0)
          [⟨4096, 4096, true, 0, fun _ => 1⟩, ⟨0, 8192, false, 0, fun _ => 2⟩]).2, buffer⟩) := by
  refine disk0_is_bytes (⟨rfl, by decide⟩ : Works (ramdiskInit 8192)) _ _ _ ?_
  intro r hr
  rcases List.mem_pair.mp hr with rfl | rfl
  · change 4096 / 4096 + 4096 / 4096 < 2 ^ 32
    decide
  · change 0 / 4096 + 8192 / 4096 < 2 ^ 32
    decide

/-! The blocks of the file system. -/

/-- `sfs_rwblock_nolock` on disk0, for a super block with `superBlocks` blocks. -/
def rwblockNolock (d : Disk) (dev : IdeDevice) (superBlocks : ℕ) (buf : Bytes) (blkno : ℕ)
    (write : Bool) : Option (Answer × Disk) :=
  if blkno ≠ 0 ∧ blkno < superBlocks then
    d.serve dev ⟨uint32 (blkno * Fs.blkSize), Fs.blkSize, write, 0, buf⟩
  else none

/-- A request of the file system for one block. -/
structure BlockRequest where
  blkno : ℕ
  write : Bool
  buf : Bytes

def rwblocks (dev : IdeDevice) (superBlocks : ℕ) : Disk → List BlockRequest → Option (List Answer)
  | _, [] => some []
  | d, r :: rs => (rwblockNolock d dev superBlocks r.buf r.blkno r.write).bind fun x =>
    (rwblocks dev superBlocks x.2 rs).map fun answers => x.1 :: answers

/-- The answer of the model; `-E_INVAL` is the only error of a block request. -/
def modelAnswer (buf : Bytes) : Except Fs.SfsError Bytes → Answer
  | .ok b => ⟨0, b⟩
  | .error _ => ⟨-eInval, buf⟩

def modelBlocks : Sfs → List BlockRequest → Option (List Answer)
  | _, [] => some []
  | s, r :: rs => (@sfsRwblockNolock workingDevice r.buf r.blkno r.write s).bind fun x =>
    (modelBlocks x.2 rs).map fun answers => modelAnswer r.buf x.1 :: answers

/-- The blocks of the model are in the image. -/
def Mirrors (s : Sfs) (image : Bytes) : Prop :=
  ∀ b, b < s.dBlocks → ∀ i, i < Fs.blkSize → image (Fs.blkSize * b + i) = s.disk b i

/-- The same result and the same bytes in the block. -/
def Answer.Same (a b : Answer) : Prop := a.ret = b.ret ∧ ∀ i, i < Fs.blkSize → a.mem i = b.mem i

/-- The bytes of a block that was written, in the image and in the model. -/
theorem Mirrors.write {s : Sfs} {image buf : Bytes} (h : Mirrors s image) (k : ℕ) :
    Mirrors { s with disk := Function.update s.disk k buf }
      (copyRange image buf (Fs.blkSize * k) 0 Fs.blkSize) := by
  intro b hb i hi
  by_cases hbk : b = k
  · rw [hbk, copyRange_of_mem hi, Nat.zero_add]
    change buf i = Function.update s.disk k buf k i
    rw [Function.update_self]
  · have hout : ¬ (Fs.blkSize * k ≤ Fs.blkSize * b + i ∧
        Fs.blkSize * b + i < Fs.blkSize * k + Fs.blkSize) := by
      unfold Fs.blkSize at hi ⊢
      omega
    rw [copyRange_of_notMem hout]
    change image _ = Function.update s.disk k buf b i
    rw [Function.update_of_ne hbk]
    exact h b hb i hi

/-- The offset of a block on the device, which is computed in 32 bits. -/
theorem offset_eq (blkno : ℕ) :
    uint32 (blkno * Fs.blkSize) = Fs.blkSize * (uint32 (blkno * Fs.blkSize) / Fs.blkSize) := by
  unfold uint32 Fs.blkSize
  omega

/-- The model behind its assertion. -/
theorem model_rwblock {s : Sfs} {buf : Bytes} {blkno : ℕ} {write : Bool}
    (hasserts : blkno ≠ 0 ∧ blkno < s.superBlocks) :
    @sfsRwblockNolock workingDevice buf blkno write s =
      if s.dBlocks < uint32 (blkno * Fs.blkSize) / Fs.blkSize + 1 then some (.error .inval, s)
      else if write then some (.ok buf, { s with
        disk := Function.update s.disk (uint32 (blkno * Fs.blkSize) / Fs.blkSize) buf })
      else some (.ok (s.disk (uint32 (blkno * Fs.blkSize) / Fs.blkSize)), s) := by
  unfold sfsRwblockNolock
  rw [if_pos hasserts]
  exact if_congr (or_iff_left Bool.false_ne_true) rfl rfl

theorem rwblock_same {s : Sfs} (h : Works dev) (hblocks : dBlocks dev = s.dBlocks)
    (hmirrors : Mirrors s d.image) (r : BlockRequest) :
    (rwblockNolock d dev s.superBlocks r.buf r.blkno r.write = none ∧
      @sfsRwblockNolock workingDevice r.buf r.blkno r.write s = none) ∨
    ∃ a d' x s', rwblockNolock d dev s.superBlocks r.buf r.blkno r.write = some (a, d') ∧
      @sfsRwblockNolock workingDevice r.buf r.blkno r.write s = some (x, s') ∧
      a.Same (modelAnswer r.buf x) ∧ Mirrors s' d'.image ∧ s'.dBlocks = s.dBlocks ∧
      s'.superBlocks = s.superBlocks := by
  unfold rwblockNolock
  by_cases hasserts : r.blkno ≠ 0 ∧ r.blkno < s.superBlocks
  · right
    have hoffset := offset_eq r.blkno
    have hlt := uint32_lt (r.blkno * Fs.blkSize)
    rw [if_pos hasserts, model_rwblock hasserts]
    generalize uint32 (r.blkno * Fs.blkSize) = offset at hoffset hlt ⊢
    generalize offset / Fs.blkSize = k at hoffset ⊢
    have hpos : 0 < Fs.blkSize := by decide
    have hfits : Request.Fits ⟨offset, Fs.blkSize, r.write, 0, r.buf⟩ := by
      change offset / 4096 + 4096 / 4096 < 2 ^ 32
      omega
    have hinside : (disk0Blksize ∣ offset ∧ disk0Blksize ∣ Fs.blkSize ∧
        offset + Fs.blkSize ≤ disk0Blksize * dBlocks dev) ↔ k + 1 ≤ s.dBlocks := by
      rw [hblocks, hoffset]
      have hdvd : disk0Blksize ∣ Fs.blkSize * k := Dvd.intro k rfl
      have hself : disk0Blksize ∣ Fs.blkSize := dvd_refl 4096
      have hroom : Fs.blkSize * k + Fs.blkSize ≤ disk0Blksize * s.dBlocks ↔ k + 1 ≤ s.dBlocks := by
        rw [← Nat.mul_succ]
        exact Nat.mul_le_mul_left_iff hpos
      rw [and_iff_right hdvd, and_iff_right hself, hroom]
    obtain ⟨buffer, hserve⟩ := serve_bytes (d := d) h hfits
    rw [hserve]
    unfold serveBytes
    dsimp only
    by_cases hroom : k + 1 ≤ s.dBlocks
    · rw [if_neg (Nat.not_lt.mpr hroom), if_pos (hinside.mpr hroom)]
      cases r.write with
      | true =>
        refine ⟨_, _, _, _, rfl, rfl, ⟨rfl, fun _ _ => rfl⟩, ?_, rfl, rfl⟩
        rw [hoffset]
        exact hmirrors.write k
      | false =>
        refine ⟨_, _, _, _, rfl, rfl, ⟨rfl, ?_⟩, hmirrors, rfl, rfl⟩
        intro i hi
        have hread : copyRange r.buf d.image 0 offset Fs.blkSize (0 + i) = d.image (offset + i) :=
          copyRange_of_mem hi
        rw [Nat.zero_add, hoffset, hmirrors k hroom i hi] at hread
        rw [hoffset]
        exact hread
    · rw [if_pos (Nat.not_le.mp hroom), if_neg (hinside.not.mpr hroom)]
      exact ⟨_, _, _, _, rfl, rfl, ⟨rfl, fun _ _ => rfl⟩, hmirrors, rfl, rfl⟩
  · left
    unfold sfsRwblockNolock
    rw [if_neg hasserts, if_neg hasserts]
    exact ⟨rfl, rfl⟩

theorem ramdiskInit_works {len : ℕ} (hlen : len ≠ 0) : Works (ramdiskInit len) := by
  unfold ramdiskInit
  rw [if_neg hlen]
  refine ⟨rfl, ?_⟩
  have hlt := uint32_lt len
  change uint32 len / 512 < 2 ^ 23
  omega

theorem ramdiskInit_blocks {len : ℕ} (hlen : len ≠ 0) {s : Sfs} (hs : s.imgSize = len) :
    dBlocks (ramdiskInit len) = s.dBlocks := by
  unfold Sfs.dBlocks
  rw [dBlocks_works (ramdiskInit_works hlen), hs]
  unfold ramdiskInit
  rw [if_neg hlen]
  rfl

/-- The block requests of the file system have the answers of its model, one after the other. -/
theorem disk0_refines_blocks (len : ℕ) (hlen : len ≠ 0) (s : Sfs) (hs : s.imgSize = len)
    (image buffer : Bytes) (h : Mirrors s image) (rs : List BlockRequest) :
    Option.Rel (List.Forall₂ Answer.Same)
      (rwblocks (ramdiskInit len) s.superBlocks ⟨image, buffer⟩ rs) (modelBlocks s rs) := by
  have hworks := ramdiskInit_works hlen
  have hblocks := ramdiskInit_blocks hlen hs
  clear hs hlen
  generalize ramdiskInit len = dev at hworks hblocks
  suffices hall : ∀ (d : Disk), Mirrors s d.image → Option.Rel (List.Forall₂ Answer.Same)
      (rwblocks dev s.superBlocks d rs) (modelBlocks s rs) from hall ⟨image, buffer⟩ h
  clear h
  induction rs generalizing s with
  | nil => exact fun d _ => .some .nil
  | cons r rs ih =>
    intro d h
    unfold rwblocks modelBlocks
    rcases rwblock_same hworks hblocks h r with ⟨hdisk, hmodel⟩ |
      ⟨a, d', x, s', hdisk, hmodel, hsame, hmirrors, hd, hsuper⟩
    · rw [hdisk, hmodel]
      exact .none
    · rw [hdisk, hmodel, Option.bind_some, Option.bind_some, ← hsuper]
      have hrest := ih s' (hblocks.trans hd.symm) d' hmirrors
      dsimp only
      generalize rwblocks dev s'.superBlocks d' rs = answers at hrest ⊢
      generalize modelBlocks s' rs = answers' at hrest ⊢
      cases hrest with
      | none => exact .none
      | some hrest => exact .some (.cons hsame hrest)

/-- A volume of four blocks on an image of zeros. -/
def blankVolume : Sfs where
  superBlocks := 4
  unusedBlocks := 0
  superDirty := false
  freemap := ⟨0, 0, fun _ => 0⟩
  imgSize := 4 * Fs.blkSize
  disk := fun _ _ => 0
  inos := []
  inodes := fun _ => ⟨⟨0, .file, 0, fun _ => 0, 0⟩, false⟩

theorem disk0_refines_blocks_blank : Option.Rel (List.Forall₂ Answer.Same)
    (rwblocks (ramdiskInit (4 * Fs.blkSize)) 4 ⟨fun _ => 0, fun _ => 0⟩
      [⟨3, true, fun _ => 7⟩, ⟨3, false, fun _ => 0⟩, ⟨2, false, fun _ => 1⟩])
    (modelBlocks blankVolume
      [⟨3, true, fun _ => 7⟩, ⟨3, false, fun _ => 0⟩, ⟨2, false, fun _ => 1⟩]) :=
  disk0_refines_blocks (4 * Fs.blkSize) (by decide) blankVolume rfl (fun _ => 0) (fun _ => 0)
    (fun _ _ _ _ => rfl) _

end Ucore.Devs.Disk0
