import Ucore.Fs.SfsInode
import Ucore.Library.Ledger

/-!
Who owns the blocks of a file system, and the small changes of the state that the
functions are made of: a block is allocated, given back, entered in an inode or an
indirect block, or struck out there.
-/
namespace Ucore.Fs

open Library Libs

/-- A place that a block number can stand in. -/
inductive Owner where
  | super
  | freemap (j : ℕ)
  | inode (ino : ℕ)
  | direct (ino index : ℕ)
  | indirect (ino : ℕ)
  | entry (ino index : ℕ)

/-- The places in the inode of a file and in its indirect block. -/
def Owner.OfFile (ino : ℕ) : Owner → Prop
  | .super => False
  | .freemap _ => False
  | .inode _ => False
  | .direct i _ => i = ino
  | .indirect i => i = ino
  | .entry i _ => i = ino

namespace Sfs

/-- An entry of an indirect block. -/
def entryOf (s : Sfs) (ent index : ℕ) : ℕ := get32 (fun i => s.disk ent (index * 4 + i))

/-- `sfs_freemap_blocks` -/
def freemapBlocks (s : Sfs) : ℕ := (s.superBlocks + blkBits - 1) / blkBits

/-- The owners of a block. Block 0 in a slot stands for no block; an entry counts below the
number of blocks of its file. -/
def owns (s : Sfs) : Owner → ℕ → Prop
  | .super, b => b = 0
  | .freemap j, b => j < s.freemapBlocks ∧ b = blknFreemap + j
  | .inode ino, b => ino ∈ s.inos ∧ b = ino
  | .direct ino index, b => ino ∈ s.inos ∧ index < nDirect ∧ (s.din ino).direct index = b ∧ b ≠ 0
  | .indirect ino, b => ino ∈ s.inos ∧ (s.din ino).indirect = b ∧ b ≠ 0
  | .entry ino index, b => ino ∈ s.inos ∧ (s.din ino).indirect ≠ 0 ∧ index < blkNEntry ∧
      nDirect + index < (s.din ino).blocks ∧ s.entryOf (s.din ino).indirect index = b ∧ b ≠ 0

theorem din_setDin (s : Sfs) (ino ino' : ℕ) (d : DiskInode) :
    (s.setDin ino d).din ino' = if ino' = ino then d else s.din ino' := by
  unfold din setDin
  by_cases h : ino' = ino
  · subst h
    simp
  · simp [h]

@[simp] theorem din_setDin_self (s : Sfs) (ino : ℕ) (d : DiskInode) :
    (s.setDin ino d).din ino = d := by rw [din_setDin, if_pos rfl]

theorem din_setDin_of_ne (s : Sfs) {ino ino' : ℕ} (d : DiskInode) (h : ino' ≠ ino) :
    (s.setDin ino d).din ino' = s.din ino' := by rw [din_setDin, if_neg h]

@[simp] theorem din_setDirty (s : Sfs) (ino ino' : ℕ) : (s.setDirty ino).din ino' = s.din ino' := by
  unfold din setDirty
  by_cases h : ino' = ino
  · subst h
    simp
  · simp [h]

/-- Writing an inode concerns the places of this file only. -/
theorem owns_setDin_other (s : Sfs) {ino : ℕ} {o : Owner} (d : DiskInode) (c : ℕ)
    (ho : ¬ o.OfFile ino) : (s.setDin ino d).owns o c ↔ s.owns o c := by
  cases o with
  | super => exact Iff.rfl
  | freemap j => exact Iff.rfl
  | inode i => exact Iff.rfl
  | direct i index => simp only [owns, din_setDin_of_ne s d ho]; exact Iff.rfl
  | indirect i => simp only [owns, din_setDin_of_ne s d ho]; exact Iff.rfl
  | entry i index => simp only [owns, din_setDin_of_ne s d ho]; exact Iff.rfl

/-- To compare the owners before and after an inode is written, compare its own places. -/
theorem owns_setDin_iff (s : Sfs) {ino : ℕ} (d : DiskInode) {R : Owner → ℕ → Prop}
    (hother : ∀ o c, ¬ o.OfFile ino → (s.owns o c ↔ R o c))
    (hdirect : ∀ k c, ino ∈ s.inos ∧ k < nDirect ∧ d.direct k = c ∧ c ≠ 0 ↔ R (.direct ino k) c)
    (hindirect : ∀ c, ino ∈ s.inos ∧ d.indirect = c ∧ c ≠ 0 ↔ R (.indirect ino) c)
    (hentry : ∀ k c, ino ∈ s.inos ∧ d.indirect ≠ 0 ∧ k < blkNEntry ∧ nDirect + k < d.blocks ∧
      s.entryOf d.indirect k = c ∧ c ≠ 0 ↔ R (.entry ino k) c) (o : Owner) (c : ℕ) :
    (s.setDin ino d).owns o c ↔ R o c := by
  by_cases ho : o.OfFile ino
  · cases o with
    | super => exact ho.elim
    | freemap j => exact ho.elim
    | inode i => exact ho.elim
    | direct i k =>
      obtain rfl : i = ino := ho
      rw [← hdirect]
      simp only [owns, din_setDin_self]
      exact Iff.rfl
    | indirect i =>
      obtain rfl : i = ino := ho
      rw [← hindirect]
      simp only [owns, din_setDin_self]
      exact Iff.rfl
    | entry i k =>
      obtain rfl : i = ino := ho
      rw [← hentry]
      simp only [owns, din_setDin_self]
      exact Iff.rfl
  · rw [owns_setDin_other s d c ho]
    exact hother o c ho

theorem owns_setDirty (s : Sfs) (ino : ℕ) (o : Owner) (b : ℕ) :
    (s.setDirty ino).owns o b ↔ s.owns o b := by
  cases o with
  | super => exact Iff.rfl
  | freemap j => exact Iff.rfl
  | inode i => exact Iff.rfl
  | direct i index => simp only [owns, din_setDirty]; exact Iff.rfl
  | indirect i => simp only [owns, din_setDirty]; exact Iff.rfl
  | entry i index => simp only [owns, din_setDirty]; exact Iff.rfl

end Sfs

/-- The checks of `sfs_do_mount`: the file system fits on the device, and the free map has
the right length and number of set bits. -/
structure Mounted (s : Sfs) : Prop where
  device : s.superBlocks ≤ s.dBlocks
  nbits : s.freemap.nbits = s.freemapBlocks * blkBits
  nwords : s.freemap.nwords * wordBits = s.freemap.nbits
  count : s.unusedBlocks = s.freemap.setBits

namespace Mounted

variable {s : Sfs}

theorem superBlocks_le (h : Mounted s) : s.superBlocks ≤ s.freemap.nbits := by
  rw [h.nbits, Sfs.freemapBlocks]
  unfold blkBits blkSize
  omega

/-- A device has fewer than `2 ^ 20` blocks, as its length is an `unsigned int`. -/
theorem superBlocks_lt (h : Mounted s) : s.superBlocks < 2 ^ 20 := by
  have hdev := h.device
  have himg := uint32_lt s.imgSize
  unfold Sfs.dBlocks at hdev
  omega

/-- The offset of a block on the device does not wrap around. -/
theorem device_block (h : Mounted s) {b : ℕ} (hb : b < s.superBlocks) :
    uint32 (b * blkSize) / blkSize = b := by
  have hlt := h.superBlocks_lt
  have hsmall : b * blkSize < 2 ^ 32 := by
    unfold blkSize
    omega
  rw [uint32_of_lt hsmall]
  exact Nat.mul_div_cancel b (by decide)

theorem block_lt_word (h : Mounted s) {b : ℕ} (hb : b < s.superBlocks) : b < 2 ^ 32 := by
  have hlt := h.superBlocks_lt
  omega

end Mounted

/-- The accounts are right: no block is owned twice or in hand at the same time, and the
free map marks exactly the others. -/
structure Accounts (s : Sfs) (held : List ℕ) : Prop where
  mounted : Mounted s
  root : blknRoot ∈ s.inos
  ledger : Ledger s.owns held (fun b => s.freemap.bit b = true) (fun b => b < s.superBlocks)

namespace Accounts

variable {s : Sfs} {held : List ℕ} {b ino index : ℕ}

/-- Other owners, or none, of other blocks: only the ownership changes. -/
theorem of_ledger {s' : Sfs} {held' : List ℕ} (h : Accounts s held)
    (hsuper : s'.superBlocks = s.superBlocks) (himg : s'.imgSize = s.imgSize)
    (hinos : s'.inos = s.inos) (hmap : s'.freemap = s.freemap)
    (hunused : s'.unusedBlocks = s.unusedBlocks)
    (hl : Ledger s'.owns held' (fun b => s.freemap.bit b = true) (fun b => b < s.superBlocks)) :
    Accounts s' held' where
  mounted := by
    refine ⟨?_, ?_, ?_, ?_⟩
    · unfold Sfs.dBlocks
      rw [hsuper, himg]
      exact h.mounted.device
    · unfold Sfs.freemapBlocks
      rw [hsuper, hmap]
      exact h.mounted.nbits
    · rw [hmap]
      exact h.mounted.nwords
    · rw [hmap, hunused]
      exact h.mounted.count
  root := by
    rw [hinos]
    exact h.root
  ledger := by
    rw [hmap, hsuper]
    exact hl

theorem perm {held' : List ℕ} (h : Accounts s held) (hp : held.Perm held') : Accounts s held' :=
  ⟨h.mounted, h.root, h.ledger.perm hp⟩

/-- Block 0 holds the superblock. -/
theorem bit_zero (h : Accounts s held) : s.freemap.bit 0 = false :=
  Bool.eq_false_iff.mpr (h.ledger.taken .super 0 rfl)

/-- An indirect block is not free, not in hand, and no data block. -/
theorem indirect_ne (h : Accounts s held) (hino : ino ∈ s.inos) (hind : (s.din ino).indirect ≠ 0)
    (hb : s.freemap.bit b = true ∨ b ∈ held) : (s.din ino).indirect ≠ b := by
  intro heq
  have howns : s.owns (.indirect ino) b := ⟨hino, heq, heq ▸ hind⟩
  rcases hb with hb | hb
  · exact h.ledger.taken _ _ howns hb
  · exact h.ledger.apart b hb _ howns

/-- Writing a block that is no indirect block changes no owner. -/
theorem owns_write {blk : Bytes} (hb : ∀ ino ∈ s.inos, (s.din ino).indirect ≠ 0 →
    (s.din ino).indirect ≠ b) (o : Owner) (c : ℕ) :
    ({ s with disk := Function.update s.disk b blk } : Sfs).owns o c ↔ s.owns o c := by
  cases o with
  | super => exact Iff.rfl
  | freemap j => exact Iff.rfl
  | inode i => exact Iff.rfl
  | direct i index => exact Iff.rfl
  | indirect i => exact Iff.rfl
  | entry i index =>
    simp only [Sfs.owns]
    refine and_congr_right (fun hi => and_congr_right (fun hind => ?_))
    have hne : (s.din i).indirect ≠ b := hb i hi hind
    have hsame : ({ s with disk := Function.update s.disk b blk } : Sfs).entryOf
        (s.din i).indirect index = s.entryOf (s.din i).indirect index := by
      unfold Sfs.entryOf
      simp only [Function.update_of_ne hne]
    exact Iff.of_eq (by rw [← hsame]; rfl)

theorem write {blk : Bytes} (h : Accounts s held) (hb : ∀ ino ∈ s.inos,
    (s.din ino).indirect ≠ 0 → (s.din ino).indirect ≠ b) :
    Accounts { s with disk := Function.update s.disk b blk } held :=
  h.of_ledger rfl rfl rfl rfl rfl (h.ledger.congr (owns_write hb))

theorem setDirty (h : Accounts s held) (ino : ℕ) : Accounts (s.setDirty ino) held :=
  h.of_ledger rfl rfl rfl rfl rfl (h.ledger.congr (s.owns_setDirty ino))

/-- A block with a set bit is allocated and cleared. -/
theorem alloc {blk : Bytes} {bm : Bitmap} (h : Accounts s held)
    (hlt : b < s.superBlocks) (hbit : s.freemap.bit b = true)
    (hset : Bitmap.SetAt s.freemap bm b false) :
    Accounts { s with
      freemap := bm
      unusedBlocks := s.unusedBlocks - 1
      superDirty := true
      disk := Function.update s.disk b blk } (b :: held) where
  mounted := by
    refine ⟨h.mounted.device, ?_, ?_, ?_⟩
    · exact hset.nbits.trans h.mounted.nbits
    · simp only [hset.nbits, hset.nwords]
      exact h.mounted.nwords
    · have hcount := hset.setBits_false (Nat.lt_of_lt_of_le hlt h.mounted.superBlocks_le) hbit
      have hunused := h.mounted.count
      simp only
      omega
  root := h.root
  ledger := by
    have hfree : ∀ c, bm.bit c = true ↔ s.freemap.bit c = true ∧ c ≠ b := by
      intro c
      rw [hset.bit]
      by_cases hc : c = b
      · simp [hc]
      · simp [hc]
    exact (h.ledger.take hbit hfree).congr (owns_write
      (fun i hi hind => h.indirect_ne hi hind (Or.inl hbit)))

/-- A block in hand is given back. -/
theorem free {bm : Bitmap} (h : Accounts s (b :: held)) (hlt : b < s.superBlocks)
    (hset : Bitmap.SetAt s.freemap bm b true) :
    Accounts { s with
      freemap := bm
      unusedBlocks := s.unusedBlocks + 1
      superDirty := true } held where
  mounted := by
    refine ⟨h.mounted.device, ?_, ?_, ?_⟩
    · exact hset.nbits.trans h.mounted.nbits
    · simp only [hset.nbits, hset.nwords]
      exact h.mounted.nwords
    · have hbit : s.freemap.bit b = false :=
        Bool.eq_false_iff.mpr (h.ledger.hand b List.mem_cons_self)
      have hcount := hset.setBits_true (Nat.lt_of_lt_of_le hlt h.mounted.superBlocks_le) hbit
      have hunused := h.mounted.count
      simp only
      omega
  root := h.root
  ledger := h.ledger.give (fun c => by
    rw [hset.bit]
    by_cases hc : c = b
    · simp [hc]
    · simp [hc])

/-- A block in hand is entered in an empty direct slot. -/
theorem enterDirect (h : Accounts s (b :: held)) (hino : ino ∈ s.inos) (hindex : index < nDirect)
    (hb : b ≠ 0) (hempty : (s.din ino).direct index = 0) :
    Accounts (s.setDin ino { s.din ino with
      direct := Function.update (s.din ino).direct index b }) held := by
  refine h.of_ledger rfl rfl rfl rfl rfl (h.ledger.enter (o := .direct ino index) ?_)
  refine s.owns_setDin_iff _ ?_ ?_ ?_ ?_
  · intro o c ho
    have hne : o ≠ .direct ino index := fun heq => ho (heq ▸ rfl)
    simp only [hne, false_and, or_false]
  · intro k c
    simp only [Sfs.owns, Owner.direct.injEq, true_and]
    by_cases hk : k = index
    · subst hk
      simp only [Function.update_self, hempty, true_and]
      constructor
      · intro hc
        exact Or.inr hc.2.2.1.symm
      · intro hc
        rcases hc with hc | hc
        · exact absurd hc.2.2.1.symm hc.2.2.2
        · exact ⟨hino, hindex, hc.symm, hc ▸ hb⟩
    · simp only [Function.update_of_ne hk, hk, false_and, or_false]
  · intro c
    simp only [Sfs.owns, reduceCtorEq, false_and, or_false]
  · intro k c
    simp only [Sfs.owns, reduceCtorEq, false_and, or_false]

/-- A direct slot is struck out. -/
theorem strikeDirect (h : Accounts s held) (hino : ino ∈ s.inos) (hindex : index < nDirect)
    (hb : b ≠ 0) (hslot : (s.din ino).direct index = b) :
    Accounts (s.setDin ino { s.din ino with
      direct := Function.update (s.din ino).direct index 0 }) (b :: held) := by
  have howns : s.owns (.direct ino index) b := ⟨hino, hindex, hslot, hb⟩
  have honly : ∀ c, s.owns (.direct ino index) c → c = b :=
    fun c hc => hc.2.2.1.symm.trans hslot
  refine h.of_ledger rfl rfl rfl rfl rfl (h.ledger.strike howns honly ?_)
  refine s.owns_setDin_iff _ ?_ ?_ ?_ ?_
  · intro o c ho
    have hne : o ≠ .direct ino index := fun heq => ho (heq ▸ rfl)
    simp only [ne_eq, hne, not_false_eq_true, and_true]
  · intro k c
    simp only [Sfs.owns, ne_eq, Owner.direct.injEq, true_and]
    by_cases hk : k = index
    · subst hk
      simp only [Function.update_self, not_true_eq_false, and_false, iff_false, not_and]
      intro _ _ hc hne
      exact hne hc.symm
    · simp only [Function.update_of_ne hk, hk, not_false_eq_true, and_true]
  · intro c
    simp only [Sfs.owns, ne_eq, reduceCtorEq, not_false_eq_true, and_true]
  · intro k c
    simp only [Sfs.owns, ne_eq, reduceCtorEq, not_false_eq_true, and_true]

/-- A block in hand becomes the indirect block; it has no entries below the block count. -/
theorem enterIndirect (h : Accounts s (b :: held)) (hino : ino ∈ s.inos) (hb : b ≠ 0)
    (hempty : (s.din ino).indirect = 0)
    (hzero : ∀ k < blkNEntry, nDirect + k < (s.din ino).blocks → s.entryOf b k = 0) :
    Accounts (s.setDin ino { s.din ino with indirect := b }) held := by
  refine h.of_ledger rfl rfl rfl rfl rfl (h.ledger.enter (o := .indirect ino) ?_)
  refine s.owns_setDin_iff _ ?_ ?_ ?_ ?_
  · intro o c ho
    have hne : o ≠ .indirect ino := fun heq => ho (heq ▸ rfl)
    simp only [hne, false_and, or_false]
  · intro k c
    simp only [Sfs.owns, reduceCtorEq, false_and, or_false]
  · intro c
    simp only [Sfs.owns, hempty, true_and]
    constructor
    · intro hc
      exact Or.inr hc.2.1.symm
    · intro hc
      rcases hc with hc | hc
      · exact absurd hc.2.1.symm hc.2.2
      · exact ⟨hino, hc.symm, hc ▸ hb⟩
  · intro k c
    simp only [Sfs.owns, hempty, ne_eq, not_true_eq_false, false_and, and_false,
      reduceCtorEq, or_false, iff_false, not_and]
    intro _ _ hk hlt hc hne
    exact hne (hc ▸ hzero k hk hlt)

/-- The block count covers one more entry, whose block was in hand. -/
theorem growEntry (h : Accounts s (b :: held)) (hino : ino ∈ s.inos) (hb : b ≠ 0)
    (hindex : index < blkNEntry) (hblocks : (s.din ino).blocks = nDirect + index)
    (hind : (s.din ino).indirect ≠ 0) (hentry : s.entryOf (s.din ino).indirect index = b) :
    Accounts (s.setDin ino { s.din ino with blocks := (s.din ino).blocks + 1 }) held := by
  refine h.of_ledger rfl rfl rfl rfl rfl (h.ledger.enter (o := .entry ino index) ?_)
  refine s.owns_setDin_iff _ ?_ ?_ ?_ ?_
  · intro o c ho
    have hne : o ≠ .entry ino index := fun heq => ho (heq ▸ rfl)
    simp only [hne, false_and, or_false]
  · intro k c
    simp only [Sfs.owns, reduceCtorEq, false_and, or_false]
  · intro c
    simp only [Sfs.owns, reduceCtorEq, false_and, or_false]
  · intro k c
    simp only [Sfs.owns, Owner.entry.injEq, true_and]
    by_cases hk : k = index
    · subst hk
      have hlt : nDirect + k < (s.din ino).blocks + 1 := by omega
      have hge : ¬ nDirect + k < (s.din ino).blocks := by omega
      simp only [hlt, hge, hentry, true_and, false_and, and_false, false_or]
      constructor
      · intro hc
        exact hc.2.2.2.1.symm
      · intro hc
        exact ⟨hino, hind, hindex, hc.symm, hc ▸ hb⟩
    · have hlt : nDirect + k < (s.din ino).blocks + 1 ↔ nDirect + k < (s.din ino).blocks := by
        omega
      simp only [hlt, hk, false_and, or_false]

/-- The block count changes, and no entry with a block is concerned. -/
theorem setBlocks {n : ℕ} (h : Accounts s held)
    (hsame : ∀ k < blkNEntry, (s.din ino).indirect ≠ 0 →
      s.entryOf (s.din ino).indirect k ≠ 0 → (nDirect + k < n ↔ nDirect + k < (s.din ino).blocks)) :
    Accounts (s.setDin ino { s.din ino with blocks := n }) held := by
  refine h.of_ledger rfl rfl rfl rfl rfl (h.ledger.congr ?_)
  refine s.owns_setDin_iff _ ?_ ?_ ?_ ?_
  · intro o c _
    exact Iff.rfl
  · intro k c
    exact Iff.rfl
  · intro c
    exact Iff.rfl
  · intro k c
    simp only [Sfs.owns]
    refine and_congr_right (fun _ => and_congr_right (fun hind => and_congr_right (fun hk => ?_)))
    constructor
    · intro hc
      exact ⟨(hsame k hk hind (hc.2.1 ▸ hc.2.2)).mp hc.1, hc.2⟩
    · intro hc
      exact ⟨(hsame k hk hind (hc.2.1 ▸ hc.2.2)).mpr hc.1, hc.2⟩

theorem setSize {n : ℕ} (h : Accounts s held) :
    Accounts (s.setDin ino { s.din ino with size := n }) held := by
  refine h.of_ledger rfl rfl rfl rfl rfl (h.ledger.congr ?_)
  refine s.owns_setDin_iff _ ?_ ?_ ?_ ?_
  · intro o c _
    exact Iff.rfl
  · intro k c
    exact Iff.rfl
  · intro c
    exact Iff.rfl
  · intro k c
    exact Iff.rfl

/-- Two files do not share their indirect block. -/
theorem indirect_inj (h : Accounts s held) {i : ℕ} (hino : ino ∈ s.inos) (hi : i ∈ s.inos)
    (hind : (s.din ino).indirect ≠ 0) (heq : (s.din i).indirect = (s.din ino).indirect) :
    i = ino := by
  have h₁ : s.owns (.indirect i) (s.din ino).indirect := ⟨hi, heq, hind⟩
  have h₂ : s.owns (.indirect ino) (s.din ino).indirect := ⟨hino, rfl, hind⟩
  exact Owner.indirect.inj (h.ledger.once _ _ _ h₁ h₂)

/-- An entry that does not count yet is written. -/
theorem writeEntry {blk : Bytes} (h : Accounts s held) (hino : ino ∈ s.inos)
    (hind : (s.din ino).indirect ≠ 0) (hindex : (s.din ino).blocks ≤ nDirect + index)
    (hblk : ∀ k, k ≠ index → get32 (fun i => blk (k * 4 + i)) =
      s.entryOf (s.din ino).indirect k) :
    Accounts { s with disk := Function.update s.disk (s.din ino).indirect blk } held := by
  refine h.of_ledger rfl rfl rfl rfl rfl (h.ledger.congr ?_)
  intro o c
  cases o with
  | super => exact Iff.rfl
  | freemap j => exact Iff.rfl
  | inode i => exact Iff.rfl
  | direct i k => exact Iff.rfl
  | indirect i => exact Iff.rfl
  | entry i k =>
    simp only [Sfs.owns]
    refine and_congr_right (fun hi => and_congr_right (fun hindi => and_congr_right (fun _ =>
      and_congr_right (fun hlt => ?_))))
    have hsame : ({ s with disk := Function.update s.disk (s.din ino).indirect blk } : Sfs).entryOf
        (s.din i).indirect k = s.entryOf (s.din i).indirect k := by
      unfold Sfs.entryOf
      by_cases heq : (s.din i).indirect = (s.din ino).indirect
      · obtain rfl := h.indirect_inj hino hi hind heq
        have hk : k ≠ index := by
          have hlt' : nDirect + k < (s.din i).blocks := hlt
          omega
        simp only [Function.update_self]
        exact hblk k hk
      · simp only [Function.update_of_ne heq]
    exact Iff.of_eq (by rw [← hsame]; rfl)

/-- An entry is struck out. -/
theorem strikeEntry {blk : Bytes} (h : Accounts s held) (hino : ino ∈ s.inos)
    (hind : (s.din ino).indirect ≠ 0) (hindex : index < blkNEntry)
    (hlt : nDirect + index < (s.din ino).blocks) (hb : b ≠ 0)
    (hentry : s.entryOf (s.din ino).indirect index = b)
    (hblk : ∀ k, get32 (fun i => blk (k * 4 + i)) =
      if k = index then 0 else s.entryOf (s.din ino).indirect k) :
    Accounts { s with disk := Function.update s.disk (s.din ino).indirect blk } (b :: held) := by
  have howns : s.owns (.entry ino index) b := ⟨hino, hind, hindex, hlt, hentry, hb⟩
  have honly : ∀ c, s.owns (.entry ino index) c → c = b :=
    fun c hc => hc.2.2.2.2.1.symm.trans hentry
  refine h.of_ledger rfl rfl rfl rfl rfl (h.ledger.strike howns honly ?_)
  intro o c
  cases o with
  | super => simp only [ne_eq, reduceCtorEq, not_false_eq_true, and_true]; exact Iff.rfl
  | freemap j => simp only [ne_eq, reduceCtorEq, not_false_eq_true, and_true]; exact Iff.rfl
  | inode i => simp only [ne_eq, reduceCtorEq, not_false_eq_true, and_true]; exact Iff.rfl
  | direct i k => simp only [ne_eq, reduceCtorEq, not_false_eq_true, and_true]; exact Iff.rfl
  | indirect i => simp only [ne_eq, reduceCtorEq, not_false_eq_true, and_true]; exact Iff.rfl
  | entry i k =>
    simp only [Sfs.owns, ne_eq, Owner.entry.injEq, not_and]
    have hentry' : i ∈ s.inos → ({ s with
        disk := Function.update s.disk (s.din ino).indirect blk } : Sfs).entryOf
        (s.din i).indirect k =
        if i = ino ∧ k = index then 0 else s.entryOf (s.din i).indirect k := by
      intro hi
      unfold Sfs.entryOf
      by_cases heq : (s.din i).indirect = (s.din ino).indirect
      · obtain rfl := h.indirect_inj hino hi hind heq
        simp only [Function.update_self, true_and]
        exact hblk k
      · have hne : i ≠ ino := fun hbad => heq (hbad ▸ rfl)
        simp only [Function.update_of_ne heq, hne, false_and, if_false]
    constructor
    · intro hc
      obtain ⟨hi, hindi, hk, hblocks, hval, hc0⟩ := hc
      have hval' := (hentry' hi).symm.trans hval
      by_cases hsame : i = ino ∧ k = index
      · rw [if_pos hsame] at hval'
        exact absurd hval'.symm hc0
      · rw [if_neg hsame] at hval'
        exact ⟨⟨hi, hindi, hk, hblocks, hval', hc0⟩, fun h₁ h₂ => hsame ⟨h₁, h₂⟩⟩
    · intro hc
      obtain ⟨⟨hi, hindi, hk, hblocks, hval, hc0⟩, hne⟩ := hc
      refine ⟨hi, hindi, hk, hblocks, ?_, hc0⟩
      refine (hentry' hi).trans ?_
      rw [if_neg (fun hbad => hne hbad.1 hbad.2)]
      exact hval

end Accounts

/-! Entries in bytes. -/

theorem get32_put32 {v : ℕ} (h : v < 2 ^ 32) : get32 (put32 v) = v := by
  unfold get32 put32
  simp only [UInt8.toNat_ofNat']
  omega

theorem get32_congr {b b' : Bytes} (h : ∀ i < 4, b i = b' i) : get32 b = get32 b' := by
  unfold get32
  rw [h 0 (by omega), h 1 (by omega), h 2 (by omega), h 3 (by omega)]

/-- Writing one entry leaves the others alone. -/
theorem get32_patch {blk : Bytes} {v index k : ℕ} (h : v < 2 ^ 32) :
    get32 (fun i => patch blk (put32 v) (index * 4) 4 (k * 4 + i)) =
      if k = index then v else get32 (fun i => blk (k * 4 + i)) := by
  by_cases hk : k = index
  · subst hk
    rw [if_pos rfl]
    have hbyte : ∀ i < 4, patch blk (put32 v) (k * 4) 4 (k * 4 + i) = put32 v i := by
      intro i hi
      unfold patch
      rw [if_pos (by omega)]
      congr 1
      omega
    exact (get32_congr hbyte).trans (get32_put32 h)
  · rw [if_neg hk]
    have hbyte : ∀ i < 4, patch blk (put32 v) (index * 4) 4 (k * 4 + i) = blk (k * 4 + i) := by
      intro i hi
      unfold patch
      rw [if_neg (by omega)]
    exact get32_congr hbyte

end Ucore.Fs
