import Ucore.Fs.SfsBlocks

/-!
The block map of a file: what `sfs_bmap_load_nolock` finds or adds at an index, and that
nothing else changes. `p` is the condition under which a panic is tolerated; where it is
not, the file system has to be sound.
-/
namespace Ucore.Fs

open Library Libs Call

/-- The number of blocks a file can have. -/
def maxBlocks : ℕ := nDirect + blkNEntry

namespace Sfs

/-- The block at an index of a file; 0 is none. -/
def blockOf (s : Sfs) (ino k : ℕ) : ℕ :=
  if k < nDirect then (s.din ino).direct k
  else if (s.din ino).indirect = 0 then 0
  else s.entryOf (s.din ino).indirect (k - nDirect)

/-- Entries that do not count are empty. -/
def ZeroTail (s : Sfs) : Prop :=
  ∀ ino ∈ s.inos, (s.din ino).indirect ≠ 0 → ∀ k < blkNEntry,
    (s.din ino).blocks ≤ nDirect + k → s.entryOf (s.din ino).indirect k = 0

end Sfs

/-- No slot of a file is missing or points outside the file system. -/
structure Sound (s : Sfs) : Prop where
  beyond : ∀ b, s.freemap.bit b = true → b < s.superBlocks
  slots : ∀ ino ∈ s.inos, ∀ k < (s.din ino).blocks, s.blockOf ino k ≠ 0 ∧
    s.blockOf ino k < s.superBlocks
  direct : ∀ ino ∈ s.inos, ∀ k < nDirect, (s.din ino).direct k < s.superBlocks
  indirect : ∀ ino ∈ s.inos, (s.din ino).indirect < s.superBlocks
  limit : ∀ ino ∈ s.inos, (s.din ino).blocks ≤ maxBlocks

structure Inv (p : Prop) (s : Sfs) : Prop where
  accounts : Accounts s []
  zeroTail : s.ZeroTail
  sound : ¬ p → Sound s

namespace Inv

variable {p : Prop} {s : Sfs} {sin : ℕ}

/-! Where a panic is not tolerated, the file system is sound. -/

theorem beyond (hi : Inv p s) (b : ℕ) (hb : s.freemap.bit b = true) (hge : ¬ b < s.superBlocks) :
    p := by
  by_contra hp
  exact hge ((hi.sound hp).beyond b hb)

theorem limit (hi : Inv p s) (hsin : sin ∈ s.inos) (hgt : ¬ (s.din sin).blocks ≤ maxBlocks) :
    p := by
  by_contra hp
  exact hgt ((hi.sound hp).limit sin hsin)

theorem direct (hi : Inv p s) (hsin : sin ∈ s.inos) {k : ℕ} (hk : k < nDirect)
    (hge : ¬ (s.din sin).direct k < s.superBlocks) : p := by
  by_contra hp
  exact hge ((hi.sound hp).direct sin hsin k hk)

theorem indirect (hi : Inv p s) (hsin : sin ∈ s.inos)
    (hge : ¬ (s.din sin).indirect < s.superBlocks) : p := by
  by_contra hp
  exact hge ((hi.sound hp).indirect sin hsin)

theorem slots (hi : Inv p s) (hsin : sin ∈ s.inos) {k : ℕ} (hk : k < (s.din sin).blocks)
    (hbad : ¬ (s.blockOf sin k ≠ 0 ∧ s.blockOf sin k < s.superBlocks)) : p := by
  by_contra hp
  exact hbad ((hi.sound hp).slots sin hsin k hk)

end Inv

/-- The files keep their sizes, their inode blocks, their blocks and what is in these. -/
structure Kept (s s' : Sfs) : Prop where
  inos : s'.inos = s.inos
  superBlocks : s'.superBlocks = s.superBlocks
  size : ∀ ino, (s'.din ino).size = (s.din ino).size
  type : ∀ ino, (s'.din ino).type = (s.din ino).type
  blocks : ∀ ino, (s.din ino).blocks ≤ (s'.din ino).blocks
  inodeBlock : ∀ ino ∈ s.inos, s'.disk ino = s.disk ino
  blockOf : ∀ ino ∈ s.inos, ∀ k < (s.din ino).blocks, k < maxBlocks → s.blockOf ino k ≠ 0 →
    s'.blockOf ino k = s.blockOf ino k
  bytes : ∀ ino ∈ s.inos, ∀ k < (s.din ino).blocks, k < maxBlocks → s.blockOf ino k ≠ 0 →
    s'.disk (s.blockOf ino k) = s.disk (s.blockOf ino k)

theorem Kept.refl (s : Sfs) : Kept s s :=
  ⟨rfl, rfl, fun _ => rfl, fun _ => rfl, fun _ => le_refl _, fun _ _ => rfl,
    fun _ _ _ _ _ _ => rfl, fun _ _ _ _ _ _ => rfl⟩

theorem Kept.trans {s t u : Sfs} (h : Kept s t) (h' : Kept t u) : Kept s u where
  inos := h'.inos.trans h.inos
  superBlocks := h'.superBlocks.trans h.superBlocks
  size ino := (h'.size ino).trans (h.size ino)
  type ino := (h'.type ino).trans (h.type ino)
  blocks ino := Nat.le_trans (h.blocks ino) (h'.blocks ino)
  inodeBlock ino hino := (h'.inodeBlock ino (h.inos.symm ▸ hino)).trans (h.inodeBlock ino hino)
  blockOf ino hino k hk hm h0 := by
    have h1 := h.blockOf ino hino k hk hm h0
    have h2 := h'.blockOf ino (h.inos.symm ▸ hino) k (Nat.lt_of_lt_of_le hk (h.blocks ino)) hm
      (h1.symm ▸ h0)
    exact h2.trans h1
  bytes ino hino k hk hm h0 := by
    have h1 := h.blockOf ino hino k hk hm h0
    have h2 := h'.bytes ino (h.inos.symm ▸ hino) k (Nat.lt_of_lt_of_le hk (h.blocks ino)) hm
      (h1.symm ▸ h0)
    rw [h1] at h2
    exact h2.trans (h.bytes ino hino k hk hm h0)

namespace Sfs

/-- The place that the block at an index stands in. -/
def slotOwner (ino k : ℕ) : Owner :=
  if k < nDirect then .direct ino k else .entry ino (k - nDirect)

theorem slotOwner_ne_indirect (ino k i : ℕ) : slotOwner ino k ≠ .indirect i := by
  unfold slotOwner
  by_cases hk : k < nDirect
  · simp [hk]
  · simp [hk]

theorem owns_slot {s : Sfs} {ino k : ℕ} (hino : ino ∈ s.inos) (hk : k < (s.din ino).blocks)
    (hm : k < maxBlocks) (h0 : s.blockOf ino k ≠ 0) :
    s.owns (slotOwner ino k) (s.blockOf ino k) := by
  unfold slotOwner
  unfold blockOf at h0 ⊢
  by_cases hd : k < nDirect
  · simp only [hd, if_true] at h0 ⊢
    exact ⟨hino, hd, rfl, h0⟩
  · simp only [hd, if_false] at h0 ⊢
    by_cases hind : (s.din ino).indirect = 0
    · rw [if_pos hind] at h0
      exact absurd rfl h0
    · rw [if_neg hind] at h0 ⊢
      refine ⟨hino, hind, ?_, ?_, rfl, h0⟩
      · unfold maxBlocks at hm
        omega
      · omega

theorem owns_indirect {s : Sfs} {ino : ℕ} (hino : ino ∈ s.inos) (h0 : (s.din ino).indirect ≠ 0) :
    s.owns (.indirect ino) (s.din ino).indirect := ⟨hino, rfl, h0⟩

end Sfs

/-- A step that concerns one file: the blocks of all other places and the other inodes stay. -/
structure FileStep (s s' : Sfs) (sin : ℕ) : Prop where
  inos : s'.inos = s.inos
  superBlocks : s'.superBlocks = s.superBlocks
  disk : ∀ o b, s.owns o b → o ≠ .indirect sin → s'.disk b = s.disk b
  others : ∀ i, i ≠ sin → s'.inodes i = s.inodes i
  bits : ∀ b, s'.freemap.bit b = true → s.freemap.bit b = true ∨ b < s.superBlocks

namespace FileStep

variable {s s' : Sfs} {sin : ℕ}

theorem din (h : FileStep s s' sin) {i : ℕ} (hi : i ≠ sin) : s'.din i = s.din i := by
  unfold Sfs.din
  rw [h.others i hi]

/-- The entries of other files stay. -/
theorem entryOf (h : FileStep s s' sin) {i : ℕ} (hino : i ∈ s.inos) (hi : i ≠ sin)
    (hind : (s.din i).indirect ≠ 0) (k : ℕ) :
    s'.entryOf (s.din i).indirect k = s.entryOf (s.din i).indirect k := by
  unfold Sfs.entryOf
  rw [h.disk _ _ (Sfs.owns_indirect hino hind) (by simpa using hi)]

theorem blockOf (h : FileStep s s' sin) {i : ℕ} (hino : i ∈ s.inos) (hi : i ≠ sin) (k : ℕ) :
    s'.blockOf i k = s.blockOf i k := by
  unfold Sfs.blockOf
  rw [h.din hi]
  by_cases hd : k < nDirect
  · rw [if_pos hd, if_pos hd]
  · rw [if_neg hd, if_neg hd]
    by_cases hind : (s.din i).indirect = 0
    · rw [if_pos hind, if_pos hind]
    · rw [if_neg hind, if_neg hind, h.entryOf hino hi hind]

theorem kept (h : FileStep s s' sin) (hsize : (s'.din sin).size = (s.din sin).size)
    (htype : (s'.din sin).type = (s.din sin).type)
    (hblocks : (s.din sin).blocks ≤ (s'.din sin).blocks)
    (hslots : ∀ k < (s.din sin).blocks, k < maxBlocks → s.blockOf sin k ≠ 0 →
      s'.blockOf sin k = s.blockOf sin k) : Kept s s' := by
  refine ⟨h.inos, h.superBlocks, ?_, ?_, ?_, ?_, ?_, ?_⟩
  · intro i
    by_cases hi : i = sin
    · rw [hi, hsize]
    · rw [h.din hi]
  · intro i
    by_cases hi : i = sin
    · rw [hi, htype]
    · rw [h.din hi]
  · intro i
    by_cases hi : i = sin
    · rw [hi]
      exact hblocks
    · rw [h.din hi]
  · intro i hi
    exact h.disk (.inode i) i ⟨hi, rfl⟩ (by simp)
  · intro i hi k hk hm h0
    by_cases his : i = sin
    · subst his
      exact hslots k hk hm h0
    · exact h.blockOf hi his k
  · intro i hi k hk hm h0
    exact h.disk _ _ (Sfs.owns_slot hi hk hm h0) (Sfs.slotOwner_ne_indirect i k sin)

theorem zeroTail (h : FileStep s s' sin) (hz : s.ZeroTail)
    (hsin : (s'.din sin).indirect ≠ 0 → ∀ k < blkNEntry, (s'.din sin).blocks ≤ nDirect + k →
      s'.entryOf (s'.din sin).indirect k = 0) : s'.ZeroTail := by
  intro i hi hind k hk hblocks
  rw [h.inos] at hi
  by_cases his : i = sin
  · subst his
    exact hsin hind k hk hblocks
  · rw [h.din his] at hind hblocks ⊢
    rw [h.entryOf hi his hind]
    exact hz i hi hind k hk hblocks

theorem sound (h : FileStep s s' sin) (hs : Sound s)
    (hslots : ∀ k < (s'.din sin).blocks, s'.blockOf sin k ≠ 0 ∧ s'.blockOf sin k < s.superBlocks)
    (hdirect : ∀ k < nDirect, (s'.din sin).direct k < s.superBlocks)
    (hindirect : (s'.din sin).indirect < s.superBlocks)
    (hlimit : (s'.din sin).blocks ≤ maxBlocks) : Sound s' := by
  refine ⟨?_, ?_, ?_, ?_, ?_⟩
  · intro b hb
    rw [h.superBlocks]
    rcases h.bits b hb with hold | hlt
    · exact hs.beyond b hold
    · exact hlt
  · intro i hi k hk
    rw [h.inos] at hi
    rw [h.superBlocks]
    by_cases his : i = sin
    · subst his
      exact hslots k hk
    · rw [h.din his] at hk
      rw [h.blockOf hi his]
      exact hs.slots i hi k hk
  · intro i hi k hk
    rw [h.inos] at hi
    rw [h.superBlocks]
    by_cases his : i = sin
    · subst his
      exact hdirect k hk
    · rw [h.din his]
      exact hs.direct i hi k hk
  · intro i hi
    rw [h.inos] at hi
    rw [h.superBlocks]
    by_cases his : i = sin
    · subst his
      exact hindirect
    · rw [h.din his]
      exact hs.indirect i hi
  · intro i hi
    rw [h.inos] at hi
    by_cases his : i = sin
    · subst his
      exact hlimit
    · rw [h.din his]
      exact hs.limit i hi

end FileStep

/-! The states after a block is added at the end of a file. -/

/-- A file with one block more. -/
def Sfs.bump (s : Sfs) (sin : ℕ) : Sfs :=
  s.setDin sin { s.din sin with blocks := (s.din sin).blocks + 1 }

end Ucore.Fs
