import Ucore.Fs.SfsTruncate
import Mathlib.Order.Interval.Finset.Nat

/-!
An image with one file, laid out as `mksfs` does it: superblock, root, free map, the inode of the
file and its blocks, and then the free blocks. It satisfies the invariant of a volume.
-/
namespace Ucore.Fs

open Library Libs

namespace Bitmap

/-- The bits from `lo` up to `hi` are set. -/
def setRange (lo hi : ℕ) : Bitmap where
  nbits := blkBits
  nwords := blkBits / wordBits
  map w := (BitVec.allOnes 32 <<< (lo - w * 32)) &&& (BitVec.allOnes 32 >>> ((w + 1) * 32 - hi))

theorem setRange_bit (lo hi b : ℕ) : (setRange lo hi).bit b = true ↔ lo ≤ b ∧ b < hi := by
  have hmod : b % wordBits < 32 := Nat.mod_lt b (by decide)
  have hdiv : b / wordBits * 32 + b % wordBits = b := by
    unfold wordBits
    omega
  unfold Bitmap.bit setRange
  simp only [BitVec.getLsbD_and, BitVec.getLsbD_shiftLeft, BitVec.getLsbD_ushiftRight,
    BitVec.getLsbD_allOnes, Bool.and_eq_true, decide_eq_true_iff, Bool.not_eq_true',
    decide_eq_false_iff_not]
  omega

theorem setRange_setBits {lo hi : ℕ} (h : hi ≤ blkBits) : (setRange lo hi).setBits = hi - lo := by
  have hset : (Finset.range (setRange lo hi).nbits).filter
      (fun i => (setRange lo hi).bit i = true) = Finset.Ico lo hi := by
    apply Finset.ext
    intro i
    rw [Finset.mem_filter, Finset.mem_range, setRange_bit, Finset.mem_Ico]
    change i < blkBits ∧ _ ↔ _
    omega
  unfold setBits
  rw [hset, Nat.card_Ico]

end Bitmap

/-- The inode of the file. -/
def imageIno : ℕ := 3

/-- An image of `n` blocks with a file of `k` direct blocks. -/
def sfsImage (n k size : ℕ) (disk : ℕ → Bytes) : Sfs where
  superBlocks := n
  unusedBlocks := n - (4 + k)
  superDirty := false
  freemap := Bitmap.setRange (4 + k) n
  imgSize := n * blkSize
  disk := disk
  inos := [blknRoot, imageIno]
  inodes i := if i = imageIno
    then ⟨⟨size, .file, k, fun j => if j < k then 4 + j else 0, 0⟩, false⟩
    else ⟨⟨0, .dir, 0, fun _ => 0, 0⟩, false⟩

variable {n k size : ℕ} {disk : ℕ → Bytes}

theorem sfsImage_direct {i j : ℕ} : ((sfsImage n k size disk).din i).direct j =
    if i = imageIno ∧ j < k then 4 + j else 0 := by
  unfold Sfs.din sfsImage
  by_cases hi : i = imageIno
  · simp only [hi, if_true, true_and]
  · simp only [hi, if_false, false_and]

theorem sfsImage_blocks {i : ℕ} : ((sfsImage n k size disk).din i).blocks =
    if i = imageIno then k else 0 := by
  unfold Sfs.din sfsImage
  by_cases hi : i = imageIno
  · simp only [hi, if_true]
  · simp only [hi, if_false]

theorem sfsImage_indirect {i : ℕ} : ((sfsImage n k size disk).din i).indirect = 0 := by
  unfold Sfs.din sfsImage
  by_cases hi : i = imageIno
  · simp only [hi, if_true]
  · simp only [hi, if_false]

theorem sfsImage_freemapBlocks (hn : 4 + k ≤ n) (hbits : n ≤ blkBits) :
    (sfsImage n k size disk).freemapBlocks = 1 := by
  change (n + blkBits - 1) / blkBits = 1
  unfold blkBits blkSize at *
  omega

theorem sfsImage_mounted (hn : 4 + k ≤ n) (hbits : n ≤ blkBits) :
    Mounted (sfsImage n k size disk) := by
  refine ⟨?_, ?_, Nat.div_mul_cancel (by decide), ?_⟩
  · have himg : uint32 (n * blkSize) = n * blkSize := by
      apply uint32_of_lt
      unfold blkBits blkSize at *
      omega
    change n ≤ uint32 (n * blkSize) / 512 / 8
    rw [himg]
    unfold blkSize
    omega
  · rw [sfsImage_freemapBlocks hn hbits]
    exact (Nat.one_mul _).symm
  · exact (Bitmap.setRange_setBits hbits).symm

/-- The owner of a block of an image. -/
def imageOwner : ℕ → Owner
  | 0 => .super
  | 1 => .inode 1
  | 2 => .freemap 0
  | 3 => .inode 3
  | j + 4 => .direct imageIno j

theorem sfsImage_owns (hn : 4 + k ≤ n) (hbits : n ≤ blkBits) (hk : k ≤ nDirect) (o : Owner) (b : ℕ) :
    (sfsImage n k size disk).owns o b ↔ b < 4 + k ∧ o = imageOwner b := by
  have hback : ∀ b < 4 + k, (sfsImage n k size disk).owns (imageOwner b) b := by
    intro b hb
    match b with
    | 0 => exact rfl
    | 1 => exact ⟨List.mem_cons_self, rfl⟩
    | 2 => exact ⟨by rw [sfsImage_freemapBlocks hn hbits]; exact Nat.one_pos, rfl⟩
    | 3 => exact ⟨List.mem_cons_of_mem _ List.mem_cons_self, rfl⟩
    | j + 4 =>
      refine ⟨List.mem_cons_of_mem _ List.mem_cons_self, by omega, ?_, by omega⟩
      rw [sfsImage_direct, if_pos ⟨rfl, by omega⟩, Nat.add_comm]
  constructor
  · intro h
    cases o with
    | super =>
      obtain rfl := h
      exact ⟨by omega, rfl⟩
    | freemap j =>
      obtain ⟨hj, rfl⟩ := h
      rw [sfsImage_freemapBlocks hn hbits] at hj
      obtain rfl : j = 0 := by omega
      exact ⟨by unfold blknFreemap; omega, rfl⟩
    | inode i =>
      obtain ⟨hi, rfl⟩ := h
      rcases List.mem_cons.mp hi with rfl | hi
      · exact ⟨by unfold blknRoot; omega, rfl⟩
      · obtain rfl := List.mem_singleton.mp hi
        exact ⟨by unfold imageIno; omega, rfl⟩
    | direct i j =>
      obtain ⟨-, -, hb, h0⟩ := h
      rw [sfsImage_direct] at hb
      by_cases hj : i = imageIno ∧ j < k
      · rw [if_pos hj] at hb
        obtain ⟨rfl, hj⟩ := hj
        subst hb
        exact ⟨by omega, by rw [Nat.add_comm]; rfl⟩
      · rw [if_neg hj] at hb
        exact absurd hb.symm h0
    | indirect i =>
      obtain ⟨-, hind, h0⟩ := h
      rw [sfsImage_indirect] at hind
      exact absurd hind.symm h0
    | entry i j =>
      exact absurd sfsImage_indirect h.2.1
  · intro h
    obtain ⟨hb, rfl⟩ := h
    exact hback b hb

theorem sfsImage_ledger (hn : 4 + k ≤ n) (hbits : n ≤ blkBits) (hk : k ≤ nDirect) :
    Ledger (sfsImage n k size disk).owns []
      (fun b => (sfsImage n k size disk).freemap.bit b = true)
      (fun b => b < (sfsImage n k size disk).superBlocks) := by
  have howns : ∀ o b, (sfsImage n k size disk).owns o b ↔ b < 4 + k ∧ o = imageOwner b :=
    sfsImage_owns hn hbits hk
  have hbit : ∀ b, (sfsImage n k size disk).freemap.bit b = true ↔ 4 + k ≤ b ∧ b < n :=
    Bitmap.setRange_bit (4 + k) n
  refine ⟨?_, List.nodup_nil, ?_, ?_, ?_, ?_⟩
  · intro o o' b ho ho'
    rw [((howns o b).mp ho).2, ((howns o' b).mp ho').2]
  · intro b hb
    exact absurd hb List.not_mem_nil
  · intro o b ho hfree
    have hlt := ((howns o b).mp ho).1
    have hge := ((hbit b).mp hfree).1
    omega
  · intro b hb
    exact absurd hb List.not_mem_nil
  · intro b hb hno _
    refine (hbit b).mpr ⟨?_, hb⟩
    by_contra hlt
    exact hno _ ((howns _ b).mpr ⟨by omega, rfl⟩)

/-- An image satisfies the invariant of a volume, where no panic is tolerated either. -/
theorem sfsImage_inv (hn : 4 + k ≤ n) (hbits : n ≤ blkBits) (hk : k ≤ nDirect) :
    Inv False (sfsImage n k size disk) := by
  refine ⟨⟨sfsImage_mounted hn hbits, List.mem_cons_self, sfsImage_ledger hn hbits hk⟩, ?_,
    fun _ => ⟨?_, ?_, ?_, ?_, ?_⟩⟩
  · intro i _ hind
    exact absurd sfsImage_indirect hind
  · intro b hb
    exact ((Bitmap.setRange_bit (4 + k) n b).mp hb).2
  · intro i _ j hj
    rw [sfsImage_blocks] at hj
    by_cases hi : i = imageIno
    · rw [if_pos hi] at hj
      have hslot : (sfsImage n k size disk).blockOf i j = 4 + j := by
        unfold Sfs.blockOf
        rw [if_pos (by omega), sfsImage_direct, if_pos ⟨hi, hj⟩]
      rw [hslot]
      change 4 + j ≠ 0 ∧ 4 + j < n
      omega
    · rw [if_neg hi] at hj
      exact absurd hj (Nat.not_lt_zero j)
  · intro i _ j _
    rw [sfsImage_direct]
    change _ < n
    split
    · omega
    · omega
  · intro i _
    rw [sfsImage_indirect]
    exact (by omega : 0 < n)
  · intro i _
    rw [sfsImage_blocks]
    unfold maxBlocks
    split
    · omega
    · exact Nat.zero_le _

/-- The file of twelve blocks was longer before: it still has its indirect block. -/
def indirectImage (n : ℕ) (disk : ℕ → Bytes) (blk : Bytes) : Sfs :=
  let s : Sfs := sfsImage n 12 49152 disk
  let s : Sfs := { s with
    freemap := Bitmap.setRange 17 n
    unusedBlocks := s.unusedBlocks - 1
    superDirty := true
    disk := Function.update s.disk 16 blk }
  s.setDin imageIno { s.din imageIno with indirect := 16 }

variable {blk : Bytes}

theorem indirectImage_din (i : ℕ) : (indirectImage n disk blk).din i =
    if i = imageIno then { (sfsImage n 12 49152 disk).din imageIno with indirect := 16 }
    else (sfsImage n 12 49152 disk).din i := by
  unfold indirectImage
  rw [Sfs.din_setDin]
  rfl

theorem indirectImage_accounts (hn : 16 < n) (hbits : n ≤ blkBits) :
    Accounts (indirectImage n disk blk) [] := by
  have hi : Inv False (sfsImage n 12 49152 disk) := sfsImage_inv (by omega) hbits (by decide)
  have hset : Bitmap.SetAt (Bitmap.setRange 16 n) (Bitmap.setRange 17 n) 16 false := by
    refine ⟨rfl, rfl, ?_⟩
    intro j
    rw [Bool.eq_iff_iff, Bitmap.setRange_bit]
    split
    · simp only [Bool.false_eq_true, iff_false]
      omega
    · rw [Bitmap.setRange_bit]
      omega
  have hbit : (Bitmap.setRange 16 n).bit 16 = true :=
    (Bitmap.setRange_bit 16 n 16).mpr ⟨le_rfl, hn⟩
  have hino : imageIno ∈ (sfsImage n 12 49152 disk).inos :=
    List.mem_cons_of_mem _ List.mem_cons_self
  unfold indirectImage
  refine (hi.accounts.alloc hn hbit hset).enterIndirect hino (by decide) rfl ?_
  intro k _ hk
  have hblocks : nDirect + k < 12 := hk
  unfold nDirect at hblocks
  omega

/-- With no entries in the indirect block the invariant holds. -/
theorem indirectImage_inv (hn : 16 < n) (hbits : n ≤ blkBits) :
    Inv False (indirectImage n disk (fun _ => 0)) := by
  have hi : Inv False (sfsImage n 12 49152 disk) := sfsImage_inv (by omega) hbits (by decide)
  have hs := hi.sound (fun hbad => hbad)
  refine ⟨indirectImage_accounts hn hbits, ?_, fun _ => ⟨?_, ?_, ?_, ?_, ?_⟩⟩
  · intro i _ hind index _ _
    rw [indirectImage_din] at hind ⊢
    by_cases hi : i = imageIno
    · rw [if_pos hi]
      rfl
    · rw [if_neg hi] at hind
      exact absurd sfsImage_indirect hind
  · intro b hb
    exact ((Bitmap.setRange_bit 17 n b).mp hb).2
  · intro i hino k hk
    rw [indirectImage_din] at hk
    unfold Sfs.blockOf
    rw [indirectImage_din]
    by_cases hi : i = imageIno
    · rw [if_pos hi] at hk ⊢
      have hlt : k < 12 := hk
      have hslot := hs.slots imageIno (hi ▸ hino) k hlt
      unfold Sfs.blockOf at hslot
      unfold nDirect at hslot ⊢
      rw [if_pos hlt] at hslot ⊢
      exact hslot
    · rw [if_neg hi, sfsImage_blocks, if_neg hi] at hk
      exact absurd hk (Nat.not_lt_zero k)
  · intro i hino k hk
    rw [indirectImage_din]
    by_cases hi : i = imageIno
    · rw [if_pos hi]
      exact hs.direct imageIno (hi ▸ hino) k hk
    · rw [if_neg hi]
      exact hs.direct i hino k hk
  · intro i hino
    rw [indirectImage_din]
    by_cases hi : i = imageIno
    · rw [if_pos hi]
      exact hn
    · rw [if_neg hi]
      exact hs.indirect i hino
  · intro i hino
    rw [indirectImage_din]
    by_cases hi : i = imageIno
    · rw [if_pos hi]
      exact hs.limit imageIno (hi ▸ hino)
    · rw [if_neg hi]
      exact hs.limit i hino

theorem sfsImage_fits (hsize : blocksFor size = k) : Fits (sfsImage n k size disk) imageIno := by
  refine ⟨List.mem_cons_of_mem _ List.mem_cons_self, hsize.symm, ?_⟩
  intro j _ hge
  have hk : k ≤ j := hge
  rw [sfsImage_direct, if_neg (by omega)]

end Ucore.Fs
