import Ucore.Fs.SyncRuns
import Ucore.Tools.ImageTree

/-!
Closing the image: the caches go to the blocks that they are for. `imageVolume` is the volume that
the kernel finds there, with the inodes and the blocks that the builder had.
-/
namespace Ucore.Tools

open Fs Libs Library

/-- From `s` to `t` the blocks of `P` were written, each with what `g` says. -/
structure WroteBack (P : ℕ → Prop) (g : ℕ → Bytes) (s t : MkSfs) : Prop where
  rest : t = { s with image := t.image }
  inside : ∀ b, P b → t.image.block b = g b
  outside : ∀ b, ¬ P b → t.image.block b = s.image.block b

/-- What closing the image writes to a block of the caches. -/
def MkSfs.cached (s : MkSfs) (b : ℕ) : Bytes := fun i =>
  if b ∈ s.cacheList then if i < blkSize then wordBytes (s.cacheBlock b) i else 0
  else if i < hostInodeSize then wordBytes (s.cacheInode b).inode.words i else 0

variable {N : ℕ} {s t u : MkSfs} {P P' : ℕ → Prop} {g : ℕ → Bytes}

theorem WroteBack.refl (g : ℕ → Bytes) (s : MkSfs) : WroteBack (fun _ => False) g s s :=
  ⟨rfl, fun _ h => h.elim, fun _ _ => rfl⟩

theorem WroteBack.trans (h : WroteBack P g s t) (h' : WroteBack P' g t u) :
    WroteBack (fun b => P b ∨ P' b) g s u := by
  refine ⟨?_, ?_, ?_⟩
  · rw [h'.rest, h.rest]
  · intro b hb
    by_cases hb' : P' b
    · exact h'.inside b hb'
    · rw [h'.outside b hb']
      exact h.inside b (hb.resolve_right hb')
  · intro b hb
    rw [not_or] at hb
    rw [h'.outside b hb.2, h.outside b hb.1]

theorem WroteBack.congr (h : WroteBack P g s t) (hP : ∀ b, P b ↔ P' b) : WroteBack P' g s t := by
  have hsame : P = P' := funext (fun b => propext (hP b))
  exact hsame ▸ h

section Ends

variable {E : Empty → MkSfs → Prop}

theorem writeBlock_wroteBack {data : Bytes} {len ino : ℕ} (hlen : len ≤ blkSize)
    (hino : ino < s.ninos) (hg : g ino = fun i => if i < len then data i else 0) :
    Call.Ends False (writeBlock data len ino) s
      (fun _ t => WroteBack (fun b => b = ino) g s t) E := by
  unfold writeBlock
  refine Call.Ends.bind (Call.Ends.require (fun _ => ?_) (fun hno => hno ⟨hlen, hino⟩))
  refine Call.Ends.modify ⟨rfl, ?_, ?_⟩
  · rintro b rfl
    exact (Function.update_self ..).trans hg.symm
  · exact fun b hb => Function.update_of_ne hb _ _

/-- The loop over one chain of a hash table. -/
theorem forEach_wroteBack {f : ℕ → MkCall PUnit} {xs : List ℕ}
    (hf : ∀ x ∈ xs, ∀ t, t = { s with image := t.image } →
      Call.Ends False (f x) t (fun _ u => WroteBack (fun b => b = x) g t u) E) :
    Call.Ends False (forEach f xs) s (fun _ t => WroteBack (fun b => b ∈ xs) g s t) E := by
  induction xs generalizing s with
  | nil =>
    exact Call.Ends.pure ((WroteBack.refl g s).congr (fun b => by simp))
  | cons x xs ih =>
    rw [forEach]
    refine Call.Ends.bind ((hf x List.mem_cons_self s rfl).mono ?_ (fun _ _ he => he))
    intro _ t ht
    refine (ih ?_).mono ?_ (fun _ _ he => he)
    · intro y hy u hu
      refine hf y (List.mem_cons_of_mem x hy) u ?_
      rw [hu, ht.rest]
    · intro _ u hu
      exact (ht.trans hu).congr (fun b => List.mem_cons.symm)

/-- Both tables of the buckets from `i` on. -/
theorem flushBuckets_wroteBack {left i : ℕ} (hblocks : ∀ j, ∀ b ∈ s.blocks j, b < s.ninos)
    (hinodes : ∀ j, ∀ b ∈ s.inodes j, b < s.ninos)
    (hcache : ∀ j < i + left, ∀ b ∈ s.blocks j, g b = fun i =>
      if i < blkSize then wordBytes (s.cacheBlock b) i else 0)
    (hinode : ∀ j < i + left, ∀ b ∈ s.inodes j, g b = fun i =>
      if i < hostInodeSize then wordBytes (s.cacheInode b).inode.words i else 0) :
    Call.Ends False (flushBuckets left i) s (fun _ t => WroteBack (fun b =>
      ∃ j, i ≤ j ∧ j < i + left ∧ (b ∈ s.blocks j ∨ b ∈ s.inodes j)) g s t) E := by
  induction left generalizing i s with
  | zero =>
    refine Call.Ends.pure ((WroteBack.refl g s).congr (fun b => ?_))
    constructor
    · exact fun hbad => hbad.elim
    · rintro ⟨j, hij, hji, -⟩
      omega
  | succ left ih =>
    rw [flushBuckets]
    refine Call.Ends.bind (Call.Ends.read (Call.Ends.bind ?_))
    have hcbs : Call.Ends False (forEach flushCacheBlock (s.blocks i)) s
        (fun _ t => WroteBack (fun b => b ∈ s.blocks i) g s t) E := by
      refine forEach_wroteBack (fun b hb t ht => ?_)
      refine Call.Ends.bind (Call.Ends.read ?_)
      refine writeBlock_wroteBack le_rfl ?_ ?_
      · rw [ht]
        exact hblocks i b hb
      · rw [ht]
        exact hcache i (by omega) b hb
    refine hcbs.mono ?_ (fun _ _ he => he)
    intro _ s₁ h₁
    have e₁ : s₁.ninos = s.ninos ∧ s₁.blocks = s.blocks ∧ s₁.inodes = s.inodes ∧
        s₁.cacheBlock = s.cacheBlock ∧ s₁.cacheInode = s.cacheInode := by
      rw [h₁.rest]
      exact ⟨rfl, rfl, rfl, rfl, rfl⟩
    refine Call.Ends.bind (Call.Ends.read (Call.Ends.bind ?_))
    have hcis : Call.Ends False (forEach flushCacheInode (s₁.inodes i)) s₁
        (fun _ t => WroteBack (fun b => b ∈ s.inodes i) g s₁ t) E := by
      rw [e₁.2.2.1]
      refine forEach_wroteBack (fun b hb t ht => ?_)
      refine Call.Ends.bind (Call.Ends.read ?_)
      refine writeBlock_wroteBack (by decide) ?_ ?_
      · rw [ht]
        exact e₁.1.symm ▸ hinodes i b hb
      · rw [ht]
        exact (hinode i (by omega) b hb).trans (by rw [e₁.2.2.2.2])
    refine hcis.mono ?_ (fun _ _ he => he)
    intro _ s₂ h₂
    have e₂ : s₂.ninos = s.ninos ∧ s₂.blocks = s.blocks ∧ s₂.inodes = s.inodes ∧
        s₂.cacheBlock = s.cacheBlock ∧ s₂.cacheInode = s.cacheInode := by
      rw [h₂.rest]
      exact e₁
    refine (@ih s₂ (i + 1) ?_ ?_ ?_ ?_).mono ?_ (fun _ _ he => he)
    · rw [e₂.1, e₂.2.1]
      exact hblocks
    · rw [e₂.1, e₂.2.2.1]
      exact hinodes
    · rw [e₂.2.1, e₂.2.2.2.1]
      exact fun j hj => hcache j (by omega)
    · rw [e₂.2.2.1, e₂.2.2.2.2]
      exact fun j hj => hinode j (by omega)
    · intro _ t ht
      rw [e₂.2.1, e₂.2.2.1] at ht
      refine ((h₁.trans h₂).trans ht).congr (fun b => ?_)
      constructor
      · rintro (hb | ⟨j, hij, hji, hb⟩)
        · exact ⟨i, le_rfl, by omega, hb⟩
        · exact ⟨j, by omega, by omega, hb⟩
      · rintro ⟨j, hij, hji, hb⟩
        by_cases hj : j = i
        · exact .inl (hj ▸ hb)
        · exact .inr ⟨j, by omega, by omega, hb⟩

omit E in
/-- An indirect block is not an inode. -/
theorem Laid.cache_ne {held : List ℕ} (h : Laid N s held) {b : ℕ} (hb : b ∈ s.cacheList) :
    b ∉ s.inoList := by
  intro hino
  obtain ⟨i, hi, hind⟩ := (h.cached b).mp hb
  exact BlockUse.noConfusion
    (h.ledger.once (.inode b) (.indirect i) b ⟨hino, rfl⟩ ⟨hi, hind⟩)

/-- Behind the free map only the blocks of the caches are written. -/
theorem closeSfs_wroteBack (h : Laid N s []) (hfit : freemapEnd N < N) :
    Call.Ends False closeSfs s (fun _ t => t.inodes = s.inodes ∧ ∀ b,
      (b = rootIno ∨ freemapEnd N ≤ b) → t.image.block b =
        if b ∈ s.cacheList ∨ b ∈ s.inoList then s.cached b else s.image.block b) E := by
  have hb := h.built
  have hhigh := hb.high
  have hend : freemapEnd N = blknFreemap + (N - 0 + blkBits - 1) / blkBits := rfl
  unfold closeSfs
  refine Call.Ends.bind (Call.Ends.read (Call.Ends.bind ?_))
  rw [hb.ninos]
  refine (writeFreemap_ends hb.ninos rfl (by omega)).mono ?_ (fun _ _ he => he)
  intro _ s₁ h₁
  refine Call.Ends.bind (Call.Ends.read (Call.Ends.bind ?_))
  have hpos : blknSuper < s₁.ninos := by
    rw [h₁.1.rest]
    exact Nat.zero_lt_of_lt (hb.ninos.symm ▸ hfit)
  refine (@writeBlock_kept s₁ (fun b => b = blknSuper) E _ superSize blknSuper (by decide) hpos
    rfl).mono ?_ (fun _ _ he => he)
  intro _ s₂ h₂
  have e₂ : s₂.ninos = s.ninos ∧ s₂.blocks = s.blocks ∧ s₂.inodes = s.inodes ∧
      s₂.cacheBlock = s.cacheBlock ∧ s₂.cacheInode = s.cacheInode := by
    rw [h₂.1.rest, h₁.1.rest]
    exact ⟨rfl, rfl, rfl, rfl, rfl⟩
  have hroot : rootIno < N := h.built.ninos ▸ Nat.lt_of_lt_of_le
    (h.low (.inode rootIno) rootIno ⟨h.root, rfl⟩) (h.built.ninos.symm ▸ hhigh)
  have hcaches : ∀ j < 0 + hashListSize, ∀ b ∈ s.blocks j, b ∈ s.cacheList := fun j hj b hb =>
    List.mem_flatMap.mpr ⟨j, List.mem_range.mpr (by omega), hb⟩
  have hinos : ∀ j < 0 + hashListSize, ∀ b ∈ s.inodes j, b ∈ s.inoList := fun j hj b hb =>
    List.mem_flatMap.mpr ⟨j, List.mem_range.mpr (by omega), hb⟩
  refine (@flushBuckets_wroteBack s₂ s.cached E hashListSize 0 ?_ ?_ ?_ ?_).mono ?_
    (fun _ _ he => he)
  · rw [e₂.1, e₂.2.1, hb.ninos]
    exact fun j b hj => Nat.lt_of_lt_of_le (hb.blocks j b hj).2 hhigh
  · rw [e₂.1, e₂.2.2.1, hb.ninos]
    intro j b hj
    rcases hb.inodes j b hj with rfl | hhanded
    · exact hroot
    · exact Nat.lt_of_lt_of_le hhanded.2 hhigh
  · rw [e₂.2.1, e₂.2.2.2.1]
    intro j hj b hbj
    unfold MkSfs.cached
    simp only [hcaches j hj b hbj, if_true]
  · rw [e₂.2.2.1, e₂.2.2.2.2]
    intro j hj b hbj
    have hno : b ∉ s.cacheList := fun hbad => h.cache_ne hbad (hinos j hj b hbj)
    unfold MkSfs.cached
    simp only [hno, if_false]
  · intro _ t ht
    rw [e₂.2.1, e₂.2.2.1] at ht
    refine ⟨?_, ?_⟩
    · rw [ht.rest]
      exact e₂.2.2.1
    · intro b hb'
      have hiff : (∃ j, 0 ≤ j ∧ j < 0 + hashListSize ∧ (b ∈ s.blocks j ∨ b ∈ s.inodes j)) ↔
          b ∈ s.cacheList ∨ b ∈ s.inoList := by
        constructor
        · rintro ⟨j, -, hj, hbj⟩
          exact hbj.imp (hcaches j hj b) (hinos j hj b)
        · rintro (hbj | hbj)
          · obtain ⟨j, hj, hbj⟩ := List.mem_flatMap.mp hbj
            exact ⟨j, Nat.zero_le j, by rw [Nat.zero_add]; exact List.mem_range.mp hj, .inl hbj⟩
          · obtain ⟨j, hj, hbj⟩ := List.mem_flatMap.mp hbj
            exact ⟨j, Nat.zero_le j, by rw [Nat.zero_add]; exact List.mem_range.mp hj, .inr hbj⟩
      by_cases hin : b ∈ s.cacheList ∨ b ∈ s.inoList
      · rw [if_pos hin]
        exact ht.inside b (hiff.mpr hin)
      · have htwo : blknFreemap = 2 := rfl
        have hle : blknFreemap ≤ freemapEnd N := Nat.le_add_right _ _
        have hone : rootIno = 1 := rfl
        have hzero : blknSuper = 0 := rfl
        rw [if_neg hin, ht.outside b (fun hbad => hin (hiff.mp hbad)), h₂.1.block b (by omega),
          h₁.1.block b (by omega)]

end Ends

/-! The volume in a closed image. -/

/-- The free map of an image, with no words behind it. -/
def imageMap (N n : ℕ) : Bitmap where
  nbits := (N + blkBits - 1) / blkBits * blkBits
  nwords := (N + blkBits - 1) / blkBits * blkNEntry
  map w := if w < (N + blkBits - 1) / blkBits * blkNEntry then
    freemapBuffer N n (w / blkNEntry * blkBits) (w % blkNEntry) else 0

/-- The volume that the kernel finds in the image `t`, where `s` was the builder before it was
closed. -/
def imageVolume (stSize : ℕ) (s t : MkSfs) : Sfs where
  superBlocks := s.superBlocks
  unusedBlocks := s.unusedBlocks
  superDirty := false
  freemap := imageMap s.ninos s.nextIno
  imgSize := stSize
  disk := t.image.block
  inos := s.inoList
  inodes ino := ⟨diskInode (t.image.block ino), false⟩

theorem mem_imageVolume {stSize ino : ℕ} {s t : MkSfs} :
    ino ∈ (imageVolume stSize s t).inos ↔ ino ∈ s.inoList := by
  simp only [imageVolume]

/-- The image `t` was closed when the builder was at `s`. -/
structure ClosedFrom (N : ℕ) (s t : MkSfs) : Prop where
  laid : Laid N s []
  few : N ≤ maxNblks
  room : freemapEnd N < N
  image : Closed N s.nextIno t.image
  block : ∀ b, (b = rootIno ∨ freemapEnd N ≤ b) → t.image.block b =
    if b ∈ s.cacheList ∨ b ∈ s.inoList then s.cached b else s.image.block b

variable {stSize ino b k : ℕ}

theorem MkSfs.blocks_get (hk : k < (s.cacheInode ino).nblks) :
    (s.file ino).blocks[k]? = some (s.fileBlock ino k) := by
  unfold MkSfs.file
  rw [List.getElem?_map, List.getElem?_range hk, Option.map_some]

theorem MkSfs.lt_of_blocks (hb : (s.file ino).blocks[k]? = some b) :
    k < (s.cacheInode ino).nblks := by
  obtain ⟨hlt, -⟩ := List.getElem?_eq_some_iff.mp hb
  rw [MkSfs.length_blocks] at hlt
  exact hlt

/-- The type is in the low half of its word. -/
theorem get16_typeWord (type : FileType) (nlinks : ℕ) :
    Fs.FileType.ofNumber (get16 (put32 (FileType.code type + 2 ^ 16 * nlinks))) = type := by
  have hlow : get16 (put32 (FileType.code type + 2 ^ 16 * nlinks)) =
      (FileType.code type + 2 ^ 16 * nlinks) % 2 ^ 16 := by
    unfold get16 put32
    simp only [UInt8.toNat_ofNat']
    omega
  have hsmall : FileType.code type < 4 := by
    cases type <;> decide
  rw [hlow, Nat.add_mul_mod_self_left, Nat.mod_eq_of_lt (by omega)]
  cases type <;> rfl

theorem imageMap_bit {n : ℕ} (hn : n ≤ N) (b : ℕ) :
    (imageMap N n).bit b = decide (n ≤ b ∧ b < N) := by
  have hword : b / wordBits < (N + blkBits - 1) / blkBits * blkNEntry ↔
      b < (N + blkBits - 1) / blkBits * blkBits := by
    unfold wordBits blkNEntry blkBits blkSize
    omega
  unfold Bitmap.bit imageMap
  by_cases hb : b < (N + blkBits - 1) / blkBits * blkBits
  · have hi : b / wordBits / blkNEntry * blkBits < N := by
      unfold wordBits blkNEntry blkBits blkSize at *
      omega
    have hdiv : b / wordBits % blkNEntry = b % blkBits / wordBits := by
      unfold wordBits blkNEntry blkBits blkSize
      omega
    have hmod : b % wordBits = b % blkBits % wordBits := by
      unfold wordBits blkBits blkSize
      omega
    have hsum : b / wordBits / blkNEntry * blkBits + b % blkBits = b := by
      unfold wordBits blkNEntry blkBits blkSize
      omega
    dsimp only
    rw [if_pos (hword.mpr hb), hdiv, hmod, freemapBuffer_bit (Nat.mod_lt b (by decide)) hn hi, hsum]
  · dsimp only
    rw [if_neg (fun hbad => hb (hword.mp hbad))]
    have hno : ¬ (n ≤ b ∧ b < N) := by
      unfold blkBits blkSize at hb
      omega
    simp [hno]

namespace ClosedFrom

variable (h : ClosedFrom N s t)

include h

theorem ninos_eq : s.ninos = N := h.laid.built.ninos

/-- What a file uses is behind the free map, or the root. -/
theorem use_range {o : BlockUse} (hfile : o ≠ .super ∧ ∀ j, o ≠ .freemap j) (hb : s.uses o b) :
    (b = rootIno ∨ freemapEnd N ≤ b) ∧ b ≠ 0 ∧ b < N := by
  have honce := h.laid.ledger.once
  have h0 : b ≠ 0 := fun h0 => hfile.1 (honce o .super b hb h0)
  have hmap : ¬ (2 ≤ b ∧ b < freemapEnd N) := by
    intro hrange
    refine hfile.2 (b - 2) (honce o _ b hb ⟨?_, ?_⟩)
    · unfold blknFreemap
      omega
    · rw [h.ninos_eq]
      exact hrange.2
  have hroot : rootIno = 1 := rfl
  have hlow := h.laid.low o b hb
  have hhigh := h.laid.built.high
  exact ⟨by omega, h0, by omega⟩

theorem data_range (hino : ino ∈ s.inoList) (hb : (s.file ino).blocks[k]? = some b) :
    (b = rootIno ∨ freemapEnd N ≤ b) ∧ b ≠ 0 ∧ b < N :=
  h.use_range (o := .data ino k) ⟨BlockUse.noConfusion, fun _ => BlockUse.noConfusion⟩ ⟨hino, hb⟩

/-- The data of a file are as they were written. -/
theorem data_block (hino : ino ∈ s.inoList) (hb : (s.file ino).blocks[k]? = some b) :
    t.image.block b = s.image.block b := by
  have honce := h.laid.ledger.once
  have huse : s.uses (.data ino k) b := ⟨hino, hb⟩
  rw [h.block b (h.data_range hino hb).1, if_neg]
  rintro (hcache | hinode)
  · obtain ⟨i, hi, hind⟩ := (h.laid.cached b).mp hcache
    exact BlockUse.noConfusion (honce _ (.indirect i) b huse ⟨hi, hind⟩)
  · exact BlockUse.noConfusion (honce _ (.inode b) b huse ⟨hinode, rfl⟩)

theorem ino_range (hino : ino ∈ s.inoList) :
    (ino = rootIno ∨ freemapEnd N ≤ ino) ∧ ino ≠ 0 ∧ ino < N :=
  h.use_range (o := .inode ino) ⟨BlockUse.noConfusion, fun _ => BlockUse.noConfusion⟩ ⟨hino, rfl⟩

theorem inode_block (hino : ino ∈ s.inoList) : t.image.block ino = fun i =>
    if i < hostInodeSize then wordBytes (s.cacheInode ino).inode.words i else 0 := by
  have hno : ino ∉ s.cacheList := fun hbad => h.laid.cache_ne hbad hino
  rw [h.block ino (h.ino_range hino).1, if_pos (.inr hino)]
  unfold MkSfs.cached
  simp only [hno, if_false]

theorem block_lt (hb : b < N) : b < 2 ^ 32 := by
  have hfew := h.few
  unfold maxNblks at hfew
  omega

/-- A word of an inode in the image. -/
theorem inode_word (hino : ino ∈ s.inoList) {w : ℕ} (hw : w < 17)
    (hword : (s.cacheInode ino).inode.words w < 2 ^ 32) :
    get32 (fun i => t.image.block ino (w * 4 + i)) = (s.cacheInode ino).inode.words w := by
  refine Eq.trans (get32_congr (fun i hi => ?_)) (get32_wordBytes hword)
  rw [h.inode_block hino]
  exact if_pos (by unfold hostInodeSize; omega)

theorem indirect_lt (hino : ino ∈ s.inoList) : (s.cacheInode ino).inode.indirect < N := by
  by_cases h0 : (s.cacheInode ino).inode.indirect = 0
  · rw [h0]
    exact Nat.zero_lt_of_lt h.room
  · exact (h.use_range (o := .indirect ino)
      ⟨BlockUse.noConfusion, fun _ => BlockUse.noConfusion⟩ ⟨hino, rfl, h0⟩).2.2

theorem direct_lt (hino : ino ∈ s.inoList) (hk : k < nDirect) :
    (s.cacheInode ino).inode.direct k < N := by
  by_cases hlt : k < (s.cacheInode ino).nblks
  · have hrange := (h.data_range hino (MkSfs.blocks_get hlt)).2.2
    unfold MkSfs.fileBlock at hrange
    rw [if_pos hk] at hrange
    exact hrange
  · rw [(h.laid.shape ino hino).direct k (by omega)]
    exact Nat.zero_lt_of_lt h.room

/-- The inode that the kernel reads. -/
theorem din_eq (hino : ino ∈ s.inoList) : (imageVolume stSize s t).din ino =
    { size := (s.cacheInode ino).inode.size
      type := (s.cacheInode ino).inode.type
      blocks := (s.cacheInode ino).nblks
      direct := fun k => if k < nDirect then (s.cacheInode ino).inode.direct k else 0
      indirect := (s.cacheInode ino).inode.indirect } := by
  have hs := h.laid.shape ino hino
  have hlimit := hs.limit
  have hsize := hs.size
  have hmax : maxBlocks = 1036 := rfl
  have hblk : blkSize = 4096 := rfl
  rw [hblk] at hsize
  change diskInode (t.image.block ino) = _
  unfold diskInode
  rw [DiskInode.mk.injEq]
  refine ⟨?_, ?_, ?_, ?_, ?_⟩
  · have hword := h.inode_word hino (w := 0) (by omega) (by
      change (s.cacheInode ino).inode.size < 2 ^ 32
      omega)
    simp only [Nat.zero_mul, Nat.zero_add] at hword
    exact hword
  · refine Eq.trans ?_ (get16_typeWord _ (s.cacheInode ino).inode.nlinks)
    congr 1
    refine get16_congr (fun i hi => ?_)
    have hdiv : (4 + i) / 4 = 1 := by omega
    have hmod : (4 + i) % 4 = i := by omega
    rw [h.inode_block hino]
    dsimp only
    rw [if_pos (by unfold hostInodeSize; omega)]
    unfold wordBytes
    rw [hdiv, hmod]
    rfl
  · have hword := h.inode_word hino (w := 2) (by omega) (by
      change (s.cacheInode ino).inode.blocks < 2 ^ 32
      rw [hs.blocks]
      omega)
    exact hword.trans hs.blocks
  · funext k
    by_cases hk : k < nDirect
    · rw [if_pos hk, if_pos hk]
      have hval : (s.cacheInode ino).inode.words (3 + k) = (s.cacheInode ino).inode.direct k := by
        unfold HostInode.words
        rw [if_neg (by omega), if_neg (by omega), if_neg (by omega), if_pos (by omega),
          Nat.add_sub_cancel_left]
      have hword := h.inode_word hino (w := 3 + k) (by unfold nDirect at hk; omega) (by
        rw [hval]
        exact h.block_lt (h.direct_lt hino hk))
      rw [hval] at hword
      rw [← hword]
      congr 1
      funext i
      congr 1
      omega
    · rw [if_neg hk, if_neg hk]
  · exact h.inode_word hino (w := 15) (by omega) (h.block_lt (h.indirect_lt hino))

theorem din_direct (hino : ino ∈ s.inoList) (hk : k < nDirect) :
    ((imageVolume stSize s t).din ino).direct k = (s.cacheInode ino).inode.direct k := by
  rw [h.din_eq hino]
  exact if_pos hk

theorem din_indirect (hino : ino ∈ s.inoList) :
    ((imageVolume stSize s t).din ino).indirect = (s.cacheInode ino).inode.indirect := by
  rw [h.din_eq hino]

theorem din_blocks (hino : ino ∈ s.inoList) :
    ((imageVolume stSize s t).din ino).blocks = (s.cacheInode ino).nblks := by
  rw [h.din_eq hino]

/-- The entries of the indirect block. -/
theorem entryOf_eq (hino : ino ∈ s.inoList) (h0 : (s.cacheInode ino).inode.indirect ≠ 0)
    (hk : k < blkNEntry) : (imageVolume stSize s t).entryOf (s.cacheInode ino).inode.indirect k =
      s.cacheBlock (s.cacheInode ino).inode.indirect k := by
  have hs := h.laid.shape ino hino
  have huse : s.uses (.indirect ino) (s.cacheInode ino).inode.indirect := ⟨hino, rfl, h0⟩
  have hin : (s.cacheInode ino).inode.indirect ∈ s.cacheList :=
    (h.laid.cached _).mpr ⟨ino, hino, rfl, h0⟩
  have hblock : t.image.block (s.cacheInode ino).inode.indirect = fun i =>
      if i < blkSize then wordBytes (s.cacheBlock (s.cacheInode ino).inode.indirect) i else 0 := by
    rw [h.block _ (h.use_range ⟨BlockUse.noConfusion, fun _ => BlockUse.noConfusion⟩ huse).1,
      if_pos (.inl hin)]
    unfold MkSfs.cached
    simp only [hin, if_true]
  have hword : s.cacheBlock (s.cacheInode ino).inode.indirect k < 2 ^ 32 := by
    by_cases hlt : nDirect + k < (s.cacheInode ino).nblks
    · have hrange := (h.data_range hino (MkSfs.blocks_get hlt)).2.2
      unfold MkSfs.fileBlock at hrange
      rw [if_neg (by omega), Nat.add_sub_cancel_left] at hrange
      exact h.block_lt hrange
    · rw [hs.entries h0 k (by omega)]
      exact Nat.two_pow_pos 32
  refine Eq.trans (get32_congr (fun i hi => ?_)) (get32_wordBytes hword)
  change t.image.block (s.cacheInode ino).inode.indirect (k * 4 + i) = _
  rw [hblock]
  exact if_pos (by unfold blkNEntry blkSize at hk; unfold blkSize; omega)

/-- The block map that the kernel reads. -/
theorem blockOf_eq (hino : ino ∈ s.inoList) (hk : k < (s.cacheInode ino).nblks) :
    (imageVolume stSize s t).blockOf ino k = s.fileBlock ino k := by
  have hs := h.laid.shape ino hino
  unfold Sfs.blockOf MkSfs.fileBlock
  rw [h.din_eq hino]
  dsimp only
  by_cases hd : k < nDirect
  · rw [if_pos hd, if_pos hd, if_pos hd]
  · have h0 := hs.beyond (by omega)
    have hlimit := hs.limit
    unfold maxBlocks at hlimit
    rw [if_neg hd, if_neg hd, if_neg h0, h.entryOf_eq hino h0 (by omega)]

/-- The place of a block that the kernel knows. -/
def use : Owner → BlockUse
  | .super => .super
  | .freemap j => .freemap j
  | .inode ino => .inode ino
  | .direct ino k => .data ino k
  | .indirect ino => .indirect ino
  | .entry ino k => .data ino (nDirect + k)

theorem owns_direct {i : ℕ} : (imageVolume stSize s t).owns (.direct i k) b ↔
    s.uses (.data i k) b ∧ k < nDirect := by
  constructor
  · rintro ⟨hi, hk, hb, h0⟩
    have hi' := mem_imageVolume.mp hi
    rw [h.din_direct hi' hk] at hb
    have hlt : k < (s.cacheInode i).nblks := by
      by_contra hge
      exact h0 (hb.symm.trans ((h.laid.shape i hi').direct k (by omega)))
    refine ⟨⟨hi', (MkSfs.blocks_get hlt).trans (congrArg some ?_)⟩, hk⟩
    unfold MkSfs.fileBlock
    rw [if_pos hk]
    exact hb
  · rintro ⟨⟨hi, hb⟩, hk⟩
    have hval := Option.some.inj ((MkSfs.blocks_get (MkSfs.lt_of_blocks hb)).symm.trans hb)
    unfold MkSfs.fileBlock at hval
    rw [if_pos hk] at hval
    exact ⟨mem_imageVolume.mpr hi, hk, (h.din_direct hi hk).trans hval, (h.data_range hi hb).2.1⟩

theorem owns_entry {i : ℕ} : (imageVolume stSize s t).owns (.entry i k) b ↔
    s.uses (.data i (nDirect + k)) b := by
  constructor
  · rintro ⟨hi, hind, hk, hlt, hb, h0⟩
    have hi' := mem_imageVolume.mp hi
    rw [h.din_indirect hi'] at hind hb
    rw [h.din_blocks hi'] at hlt
    rw [h.entryOf_eq hi' hind hk] at hb
    refine ⟨hi', (MkSfs.blocks_get hlt).trans (congrArg some ?_)⟩
    unfold MkSfs.fileBlock
    rw [if_neg (by omega), Nat.add_sub_cancel_left]
    exact hb
  · rintro ⟨hi, hb⟩
    have hlt := MkSfs.lt_of_blocks hb
    have hval := Option.some.inj ((MkSfs.blocks_get hlt).symm.trans hb)
    have hs := h.laid.shape i hi
    have hlimit := hs.limit
    have hind := hs.beyond (by omega)
    have hk : k < blkNEntry := by
      unfold maxBlocks at hlimit
      omega
    unfold MkSfs.fileBlock at hval
    rw [if_neg (by omega), Nat.add_sub_cancel_left] at hval
    refine ⟨mem_imageVolume.mpr hi, ?_, hk, ?_, ?_, (h.data_range hi hb).2.1⟩
    · rw [h.din_indirect hi]
      exact hind
    · rw [h.din_blocks hi]
      exact hlt
    · rw [h.din_indirect hi, h.entryOf_eq hi hind hk]
      exact hval

/-- What the kernel takes to be in use is what the builder used. -/
theorem owns_iff (o : Owner) (b : ℕ) : (imageVolume stSize s t).owns o b ↔
    s.uses (use o) b ∧ ∀ i k, o = .direct i k → k < nDirect := by
  have hmap : freemapEnd s.ninos = blknFreemap + (imageVolume stSize s t).freemapBlocks := by
    change freemapEnd s.ninos = blknFreemap + (s.superBlocks + blkBits - 1) / blkBits
    rw [h.laid.built.superBlocks, h.ninos_eq]
    rfl
  cases o with
  | super => simp [Sfs.owns, use, MkSfs.uses]
  | freemap j =>
    simp only [Sfs.owns, use, MkSfs.uses, reduceCtorEq, false_imp_iff, implies_true, and_true, hmap]
    constructor
    · rintro ⟨hj, rfl⟩
      exact ⟨rfl, by omega⟩
    · rintro ⟨rfl, hlt⟩
      exact ⟨by omega, rfl⟩
  | inode i =>
    simp only [Sfs.owns, use, MkSfs.uses, reduceCtorEq, false_imp_iff, implies_true, and_true]
    exact and_congr mem_imageVolume eq_comm
  | direct i k =>
    refine h.owns_direct.trans (and_congr_right (fun _ => ⟨?_, fun hk => hk i k rfl⟩))
    rintro hk i' k' heq
    obtain ⟨-, rfl⟩ := Owner.direct.inj heq
    exact hk
  | indirect i =>
    simp only [use, reduceCtorEq, false_imp_iff, implies_true, and_true]
    unfold Sfs.owns MkSfs.uses
    dsimp only
    rw [mem_imageVolume]
    exact and_congr_right (fun hi => by rw [h.din_indirect hi]; exact Iff.rfl)
  | entry i k =>
    exact h.owns_entry.trans (and_iff_left (fun _ _ => Owner.noConfusion)).symm

end ClosedFrom

end Ucore.Tools
