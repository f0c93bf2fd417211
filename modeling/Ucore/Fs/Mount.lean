import Mathlib.Order.Interval.Finset.Nat
import Ucore.Fs.Sfs

/-!
Mounting: the super block and the free map are read from the device and checked.
-/
namespace Ucore.Fs

open Libs

def sfsMagic : ℕ := 0x2f8dbe2a

def blknSuper : ℕ := 0

inductive MountError where
  | naDev
  | noMem
  | inval
  deriving DecidableEq

/-- The places where the mount asks for kernel memory. -/
inductive MountAlloc where
  | fs
  | buffer
  | hashList
  | bitmap
  | map
  deriving DecidableEq

structure Device where
  dBlocks : ℕ
  dBlocksize : ℕ
  block : ℕ → Bytes

/-- The disk of the kernel: an image of `imgSize` bytes linked into it. -/
def disk0 (imgSize : ℕ) (img : ℕ → Bytes) : Device :=
  ⟨uint32 imgSize / 512 / 8, blkSize, img⟩

/-- What `sfs_do_mount` fills in. -/
structure MountedFs where
  superBlocks : ℕ
  unusedBlocks : ℕ
  superDirty : Bool
  freemap : Bitmap

namespace Bitmap

/-- The bits from `overbits` on are flipped. -/
def flipOver : ℕ → ℕ → BitVec 32 → BitVec 32
  | 0, _, word => word
  | left + 1, overbits, word => flipOver left (overbits + 1) (word ^^^ mask overbits)

/-- `ROUNDUP_DIV` -/
def roundupDiv (a n : ℕ) : ℕ := (a + n - 1) / n

/-- The outer `none` is the failed assertion on `nbits`, the inner one stands for `NULL`. The
assertions about a partly used word never fail, see `bitmapCreate_asserts`. -/
def bitmapCreate (kmalloc : MountAlloc → Bool) (nbits : ℕ) : Option (Option Bitmap) :=
  if nbits ≠ 0 then
    if kmalloc .bitmap && kmalloc .map then
      let nwords := roundupDiv nbits wordBits
      let ix := nwords - 1
      let overbits := nbits - ix * wordBits
      some (some
        { nbits := nbits, nwords := nwords,
          map := fun i =>
            if nbits ≠ nwords * wordBits ∧ i = ix then
              flipOver (wordBits - overbits) overbits (BitVec.allOnes 32)
            else BitVec.allOnes 32 })
    else some none
  else none

/-- A block of the device replaces the words from `ix` on. -/
def load (b : Bitmap) (ix : ℕ) (data : Bytes) : Bitmap :=
  { b with map := fun i =>
      if ix ≤ i ∧ i < ix + blkNEntry then
        BitVec.ofNat 32 (get32 (fun k => data ((i - ix) * 4 + k)))
      else b.map i }

/-- The loop that counts set bits: `left` of them from `i` on. -/
def countBits (b : Bitmap) : ℕ → ℕ → ℕ → Option ℕ
  | 0, _, count => some count
  | left + 1, i, count =>
    (b.bitmapTest i).bind (fun set => countBits b left (i + 1) (if set then count + 1 else count))

end Bitmap

/-- One block is read; the offset is computed in 32 bits. -/
def sfsInitRead (dev : Device) (blkno : ℕ) : Except MountError Bytes :=
  let b := uint32 (blkno * blkSize) / blkSize
  if b + 1 > dev.dBlocks then .error .inval else .ok (dev.block b)

/-- The loop of `sfs_init_freemap`; `ix` is the word the next block goes to. -/
def readFreemap (dev : Device) : ℕ → ℕ → ℕ → Bitmap → Except MountError Bitmap
  | 0, _, _, freemap => .ok freemap
  | nblks + 1, blkno, ix, freemap =>
    match sfsInitRead dev blkno with
    | .error e => .error e
    | .ok data => readFreemap dev nblks (blkno + 1) (ix + blkNEntry) (freemap.load ix data)

/-- `none` for the failed assertion on the length of the map. -/
def sfsInitFreemap (dev : Device) (freemap : Bitmap) (blkno nblks : ℕ) :
    Option (Except MountError Bitmap) :=
  if 4 * freemap.nwords = uint32 (nblks * blkSize) then some (readFreemap dev nblks blkno 0 freemap)
  else none

def sfsFreemapBits (blocks : ℕ) : ℕ := uint32 ((blocks + blkBits - 1) / blkBits * blkBits)

def sfsFreemapBlocks (blocks : ℕ) : ℕ := Bitmap.roundupDiv blocks blkBits

/-- The free map of `nbits` bits is read from `nblks` blocks and counted. -/
def loadFreemap (dev : Device) (kmalloc : MountAlloc → Bool) (blocks unusedBlocks nbits nblks : ℕ) :
    Option (Except MountError MountedFs) :=
  match Bitmap.bitmapCreate kmalloc nbits with
  | none => none
  | some none => some (.error .noMem)
  | some (some empty) =>
    match sfsInitFreemap dev empty blknFreemap nblks with
    | none => none
    | some (.error e) => some (.error e)
    | some (.ok freemap) =>
      if freemap.countBits nbits 0 0 = some unusedBlocks then
        some (.ok ⟨blocks, unusedBlocks, false, freemap⟩)
      else none

/-- The checks on the free map, after those on the super block. -/
def mountFreemap (dev : Device) (kmalloc : MountAlloc → Bool) (blocks unusedBlocks : ℕ) :
    Option (Except MountError MountedFs) :=
  loadFreemap dev kmalloc blocks unusedBlocks (sfsFreemapBits blocks) (sfsFreemapBlocks blocks)

def sfsDoMount (dev : Device) (kmalloc : MountAlloc → Bool) : Option (Except MountError MountedFs) :=
  if dev.dBlocksize ≠ blkSize then some (.error .naDev)
  else if kmalloc .fs && kmalloc .buffer then
    match sfsInitRead dev blknSuper with
    | .error e => some (.error e)
    | .ok buf =>
      let blocks := get32 (fun k => buf (4 + k))
      if get32 buf ≠ sfsMagic then some (.error .inval)
      else if blocks > dev.dBlocks then some (.error .inval)
      else if kmalloc .hashList then
        mountFreemap dev kmalloc blocks (get32 (fun k => buf (8 + k)))
      else some (.error .noMem)
  else some (.error .noMem)

/-! What the loops compute. -/

namespace Bitmap

theorem flipOver_getLsbD {left overbits i : ℕ} {word : BitVec 32} (hleft : overbits + left ≤ 32) :
    (flipOver left overbits word).getLsbD i =
      if overbits ≤ i ∧ i < overbits + left then !word.getLsbD i else word.getLsbD i := by
  induction left generalizing overbits word with
  | zero => simp [flipOver]
  | succ left ih =>
    rw [flipOver, ih (by omega), BitVec.getLsbD_xor, mask_getLsbD]
    by_cases heq : i = overbits
    · subst heq
      have hi : i < 32 := by omega
      simp [hi]
    · have hrange : overbits ≤ i ∧ i < overbits + (left + 1) ↔
          overbits + 1 ≤ i ∧ i < overbits + 1 + left := by omega
      simp [heq, hrange]

/-- The words hold the bits, and only the last one has some to spare. -/
theorem roundupDiv_wordBits {nbits : ℕ} (hpos : nbits ≠ 0) :
    nbits ≤ roundupDiv nbits wordBits * wordBits ∧
      (roundupDiv nbits wordBits - 1) * wordBits < nbits := by
  unfold roundupDiv wordBits
  omega

/-- The assertions of `bitmap_create` about a partly used word hold for every number of bits. -/
theorem bitmapCreate_asserts {nbits : ℕ} (hover : nbits ≠ roundupDiv nbits wordBits * wordBits) :
    nbits / wordBits = roundupDiv nbits wordBits - 1 ∧
      0 < nbits - (roundupDiv nbits wordBits - 1) * wordBits ∧
      nbits - (roundupDiv nbits wordBits - 1) * wordBits < wordBits := by
  unfold roundupDiv wordBits at *
  omega

/-- A new bitmap has its first `nbits` bits set and the others of its last word clear. -/
theorem bitmapCreate_made {kmalloc : MountAlloc → Bool} {nbits : ℕ} (hpos : nbits ≠ 0)
    (hmem : kmalloc .bitmap = true ∧ kmalloc .map = true) :
    ∃ b, bitmapCreate kmalloc nbits = some (some b) ∧ b.nbits = nbits ∧
      b.nwords = roundupDiv nbits wordBits ∧
      ∀ i < b.nwords * wordBits, b.bit i = decide (i < nbits) := by
  unfold bitmapCreate
  rw [if_pos hpos, hmem.1, hmem.2, Bool.and_self, if_pos rfl]
  refine ⟨_, rfl, rfl, rfl, ?_⟩
  intro i hi
  have hmod : i % wordBits < 32 := Nat.mod_lt i (by decide)
  have hsum : i / wordBits * wordBits + i % wordBits = i := Nat.div_add_mod' i wordBits
  have hwords := roundupDiv_wordBits hpos
  unfold Bitmap.bit
  dsimp only at hi ⊢
  by_cases hlast : nbits ≠ roundupDiv nbits wordBits * wordBits ∧
      i / wordBits = roundupDiv nbits wordBits - 1
  · have hover := (bitmapCreate_asserts hlast.1).2.2
    rw [hlast.2] at hsum
    rw [if_pos hlast, flipOver_getLsbD (by unfold wordBits at *; omega), BitVec.getLsbD_allOnes]
    simp only [hmod, decide_true, Bool.not_true]
    unfold wordBits at *
    split
    · have hout : ¬ i < nbits := by omega
      simp only [hout, decide_false]
    · have hin : i < nbits := by omega
      simp only [hin, decide_true]
  · rw [if_neg hlast, BitVec.getLsbD_allOnes]
    have hin : i < nbits := by
      unfold wordBits at *
      omega
    simp only [hmod, hin]

theorem load_map (b : Bitmap) (ix : ℕ) (data : Bytes) (i : ℕ) :
    (b.load ix data).map i = if ix ≤ i ∧ i < ix + blkNEntry then
      BitVec.ofNat 32 (get32 (fun k => data ((i - ix) * 4 + k))) else b.map i := rfl

theorem countBits_eq {b : Bitmap} {left i count : ℕ} (h : i + left ≤ b.nbits) :
    countBits b left i count =
      some (count + ((Finset.Ico i (i + left)).filter (fun j => b.bit j = true)).card) := by
  induction left generalizing i count with
  | zero => simp [countBits]
  | succ left ih =>
    have hsplit : Finset.Ico i (i + (left + 1)) = insert i (Finset.Ico (i + 1) (i + 1 + left)) := by
      ext j
      simp only [Finset.mem_Ico, Finset.mem_insert]
      omega
    have hnot : i ∉ (Finset.Ico (i + 1) (i + 1 + left)).filter (fun j => b.bit j = true) := by
      simp only [Finset.mem_filter, Finset.mem_Ico, not_and]
      omega
    rw [countBits, bitmapTest_eq (by omega), Option.bind_some, ih (by omega), hsplit,
      Finset.filter_insert]
    by_cases hbit : b.bit i = true
    · rw [if_pos hbit, if_pos hbit, Finset.card_insert_of_notMem hnot]
      congr 1
      omega
    · rw [if_neg hbit, if_neg hbit]

/-- The count of the mount is the number of set bits. -/
theorem countBits_nbits (b : Bitmap) : countBits b b.nbits 0 0 = some b.setBits := by
  rw [countBits_eq (by omega)]
  simp only [Nat.zero_add, setBits, Finset.range_eq_Ico]

end Bitmap

theorem loadFreemap_eq {dev : Device} {kmalloc : MountAlloc → Bool}
    {blocks unusedBlocks nbits nblks : ℕ} {empty freemap : Bitmap}
    (hcreate : Bitmap.bitmapCreate kmalloc nbits = some (some empty))
    (hread : sfsInitFreemap dev empty blknFreemap nblks = some (.ok freemap))
    (hcount : freemap.countBits nbits 0 0 = some unusedBlocks) :
    loadFreemap dev kmalloc blocks unusedBlocks nbits nblks =
      some (.ok ⟨blocks, unusedBlocks, false, freemap⟩) := by
  unfold loadFreemap
  simp only [hcreate, hread, hcount, if_true]

/-- The word of the map that comes from a word of a block. -/
theorem readFreemap_map {dev : Device} {nblks blkno ix : ℕ} {freemap : Bitmap}
    (hsmall : blkno + nblks ≤ dev.dBlocks) (htop : (blkno + nblks) * blkSize ≤ 2 ^ 32) :
    ∃ freemap', readFreemap dev nblks blkno ix freemap = .ok freemap' ∧
      freemap'.nbits = freemap.nbits ∧ freemap'.nwords = freemap.nwords ∧
      (∀ i < ix, freemap'.map i = freemap.map i) ∧
      ∀ k < nblks, ∀ w < blkNEntry, freemap'.map (ix + k * blkNEntry + w) =
        BitVec.ofNat 32 (get32 (fun j => dev.block (blkno + k) (w * 4 + j))) := by
  induction nblks generalizing blkno ix freemap with
  | zero =>
    refine ⟨freemap, rfl, rfl, rfl, fun _ _ => rfl, ?_⟩
    intro k hk
    omega
  | succ nblks ih =>
    have hdev : uint32 (blkno * blkSize) / blkSize = blkno := by
      unfold blkSize at *
      rw [uint32_of_lt (by omega)]
      omega
    have hread : sfsInitRead dev blkno = .ok (dev.block blkno) := by
      unfold sfsInitRead
      simp only [hdev]
      rw [if_neg (by omega)]
    have htop' : (blkno + 1 + nblks) * blkSize ≤ 2 ^ 32 := by
      rw [show blkno + 1 + nblks = blkno + (nblks + 1) by omega]
      exact htop
    obtain ⟨freemap', heq, hbits, hwords, hlow, hmap⟩ :=
      @ih (blkno + 1) (ix + blkNEntry) (freemap.load ix (dev.block blkno)) (by omega) htop'
    refine ⟨freemap', ?_, hbits, hwords, ?_, ?_⟩
    · rw [readFreemap, hread]
      exact heq
    · intro i hi
      have hno : ¬ (ix ≤ i ∧ i < ix + blkNEntry) := by omega
      rw [hlow i (Nat.lt_add_right blkNEntry hi), Bitmap.load_map, if_neg hno]
    · intro k hk w hw
      cases k with
      | zero =>
        have hw' : ix + 0 * blkNEntry + w = ix + w := by omega
        have hin : ix ≤ ix + w ∧ ix + w < ix + blkNEntry := by omega
        rw [hw', hlow (ix + w) hin.2, Bitmap.load_map, if_pos hin]
        simp only [Nat.add_sub_cancel_left, Nat.add_zero]
      | succ k =>
        have hw' : ix + (k + 1) * blkNEntry + w = ix + blkNEntry + k * blkNEntry + w := by
          rw [Nat.add_mul, Nat.one_mul]
          omega
        have hb : blkno + (k + 1) = blkno + 1 + k := by omega
        rw [hw', hb]
        exact hmap k (by omega) w hw

end Ucore.Fs
