import Ucore.Fs.SfsMap
import Ucore.Tools.ImageMount

/-!
The files that the builder has in its caches: each with its blocks in order, and every block that
was handed out in one place of one file.
-/
namespace Ucore.Tools

open Fs Libs Library

/-- A file as the caches have it. -/
structure HostFile where
  type : FileType
  real : ℕ
  size : ℕ
  blocks : List ℕ
  indirect : ℕ

/-- A place that a block of the image is for. -/
inductive BlockUse where
  | super
  | freemap (j : ℕ)
  | inode (ino : ℕ)
  | data (ino index : ℕ)
  | indirect (ino : ℕ)

namespace MkSfs

/-- The inodes in the hash table. -/
def inoList (s : MkSfs) : List ℕ := (List.range hashListSize).flatMap s.inodes

def cacheList (s : MkSfs) : List ℕ := (List.range hashListSize).flatMap s.blocks

/-- The block at an index of a file. -/
def fileBlock (s : MkSfs) (ino k : ℕ) : ℕ :=
  if k < nDirect then (s.cacheInode ino).inode.direct k
  else s.cacheBlock (s.cacheInode ino).inode.indirect (k - nDirect)

def file (s : MkSfs) (ino : ℕ) : HostFile where
  type := (s.cacheInode ino).inode.type
  real := (s.cacheInode ino).real
  size := (s.cacheInode ino).inode.size
  blocks := (List.range (s.cacheInode ino).nblks).map (s.fileBlock ino)
  indirect := (s.cacheInode ino).inode.indirect

/-- Which block is used for what. -/
def uses (s : MkSfs) : BlockUse → ℕ → Prop
  | .super, b => b = 0
  | .freemap j, b => blknFreemap + j = b ∧ b < freemapEnd s.ninos
  | .inode ino, b => ino ∈ s.inoList ∧ ino = b
  | .data ino index, b => ino ∈ s.inoList ∧ (s.file ino).blocks[index]? = some b
  | .indirect ino, b => ino ∈ s.inoList ∧ (s.file ino).indirect = b ∧ b ≠ 0

end MkSfs

/-- A cached inode of no more blocks than the kernel reads. The indirect block is there as soon as
there is more than the direct slots hold. -/
structure InShape (s : MkSfs) (ino : ℕ) : Prop where
  limit : (s.cacheInode ino).nblks ≤ maxBlocks
  blocks : (s.cacheInode ino).inode.blocks = (s.cacheInode ino).nblks
  l1 : (s.cacheInode ino).l1 = if (s.cacheInode ino).inode.indirect = 0 then none
    else some (s.cacheInode ino).inode.indirect
  beyond : nDirect < (s.cacheInode ino).nblks → (s.cacheInode ino).inode.indirect ≠ 0
  filled : (s.cacheInode ino).inode.indirect ≠ 0 → nDirect ≤ (s.cacheInode ino).nblks
  direct : ∀ k, (s.cacheInode ino).nblks ≤ k → (s.cacheInode ino).inode.direct k = 0
  entries : (s.cacheInode ino).inode.indirect ≠ 0 → ∀ k, (s.cacheInode ino).nblks ≤ nDirect + k →
    s.cacheBlock (s.cacheInode ino).inode.indirect k = 0
  nlinks : (s.cacheInode ino).inode.nlinks < 2 ^ 16
  size : (s.cacheInode ino).inode.size ≤ (s.cacheInode ino).nblks * blkSize

/-- What holds of the builder: no block is used twice, those in hand are not used yet, and all
others that were handed out are in use. -/
structure Laid (N : ℕ) (s : MkSfs) (held : List ℕ) : Prop where
  built : Built N s
  root : rootIno ∈ s.inoList
  shape : ∀ ino ∈ s.inoList, InShape s ino
  ledger : Ledger s.uses held (fun b => s.nextIno ≤ b ∧ b < N) (fun b => b < N)
  low : ∀ o b, s.uses o b → b < s.nextIno
  hand : ∀ b ∈ held, Handed N s.nextIno b
  cached : ∀ b, b ∈ s.cacheList ↔ ∃ ino ∈ s.inoList, (s.file ino).indirect = b ∧ b ≠ 0

/-- From `s` to `t` the block `b` with `size` bytes was appended to a file. -/
structure Appended (s : MkSfs) (file b size : ℕ) (t : MkSfs) : Prop where
  inodes : t.inodes = s.inodes
  image : t.image = s.image
  next : s.nextIno ≤ t.nextIno
  type : (t.file file).type = (s.file file).type
  real : (t.file file).real = (s.file file).real
  size : (t.file file).size = (s.file file).size + size
  blocks : (t.file file).blocks = (s.file file).blocks ++ [b]
  others : ∀ ino ∈ s.inoList, ino ≠ file → t.file ino = s.file ino

/-- From `s` to `t` a new block with `size` bytes was written and appended to a file. -/
structure Added (s : MkSfs) (file size : ℕ) (data : Bytes) (t : MkSfs) : Prop where
  inodes : t.inodes = s.inodes
  next : s.nextIno < t.nextIno
  block : ∀ b < s.nextIno, t.image.block b = s.image.block b
  new : t.image.block s.nextIno = fun i => if i < size then data i else 0
  type : (t.file file).type = (s.file file).type
  real : (t.file file).real = (s.file file).real
  size : (t.file file).size = (s.file file).size + size
  blocks : (t.file file).blocks = (s.file file).blocks ++ [s.nextIno]
  others : ∀ ino ∈ s.inoList, ino ≠ file → t.file ino = s.file ino

variable {N : ℕ} {s t : MkSfs} {held : List ℕ} {ino file b k size : ℕ}

theorem hash32_lt (val : ℕ) : hash32 val < hashListSize := by
  have hlt := uint32_lt (val * 0x9e370001)
  unfold hash32 hashListSize
  omega

theorem MkSfs.length_blocks : (s.file ino).blocks.length = (s.cacheInode ino).nblks := by
  unfold MkSfs.file
  rw [List.length_map, List.length_range]

/-- Of the caches, a file has its inode and its indirect block. -/
theorem InShape.congr (h : InShape s ino) (hinode : t.cacheInode ino = s.cacheInode ino)
    (hblock : (s.cacheInode ino).inode.indirect ≠ 0 →
      t.cacheBlock (s.cacheInode ino).inode.indirect =
        s.cacheBlock (s.cacheInode ino).inode.indirect) : InShape t ino := by
  refine ⟨?_, ?_, ?_, ?_, ?_, ?_, ?_, ?_, ?_⟩ <;> rw [hinode]
  · exact h.limit
  · exact h.blocks
  · exact h.l1
  · exact h.beyond
  · exact h.filled
  · exact h.direct
  · intro hind
    rw [hblock hind]
    exact h.entries hind
  · exact h.nlinks
  · exact h.size

theorem InShape.file_eq (h : InShape s ino) (hinode : t.cacheInode ino = s.cacheInode ino)
    (hblock : (s.cacheInode ino).inode.indirect ≠ 0 →
      t.cacheBlock (s.cacheInode ino).inode.indirect =
        s.cacheBlock (s.cacheInode ino).inode.indirect) : t.file ino = s.file ino := by
  have hblocks : ∀ k < (s.cacheInode ino).nblks, t.fileBlock ino k = s.fileBlock ino k := by
    intro k hk
    unfold MkSfs.fileBlock
    rw [hinode]
    by_cases hd : k < nDirect
    · rw [if_pos hd, if_pos hd]
    · rw [if_neg hd, if_neg hd, hblock (h.beyond (by omega))]
  unfold MkSfs.file
  rw [hinode, HostFile.mk.injEq]
  exact ⟨rfl, rfl, rfl, List.map_congr_left (fun k hk => hblocks k (List.mem_range.mp hk)), rfl⟩

/-! A block is handed out. -/

section Ends

variable {E : Empty → MkSfs → Prop}

theorem sfsAllocIno_laid (h : Laid N s held) : Call.Ends True sfsAllocIno s (fun b t =>
    b = s.nextIno ∧ t = { s with unusedBlocks := s.unusedBlocks - 1, nextIno := s.nextIno + 1 } ∧
      Laid N t (b :: held)) E := by
  have hbuilt := @sfsAllocIno_ends N s E h.built
  unfold Call.Ends sfsAllocIno at hbuilt ⊢
  by_cases hroom : s.nextIno < s.ninos
  · rw [if_pos hroom] at hbuilt ⊢
    rw [h.built.ninos] at hroom
    refine ⟨rfl, rfl, hbuilt.1, h.root, fun i hi => (h.shape i hi).congr rfl (fun _ => rfl), ?_, ?_,
      ?_, h.cached⟩
    · refine (h.ledger.take (b := s.nextIno) ⟨le_rfl, hroom⟩ ?_).congr (fun _ _ => Iff.rfl)
      intro c
      change s.nextIno + 1 ≤ c ∧ c < N ↔ _
      omega
    · intro o c hc
      exact Nat.lt_succ_of_lt (h.low o c hc)
    · intro c hc
      rcases List.mem_cons.mp hc with rfl | hc
      · exact hbuilt.2
      · exact ⟨(h.hand c hc).1, Nat.lt_succ_of_lt (h.hand c hc).2⟩
  · rw [if_neg hroom]
    trivial

end Ends

/-- Writing a block that is in hand changes the image only. -/
theorem Laid.write (h : Laid N s held) (hb : b ∈ held) (data : Bytes) (len : ℕ) :
    Laid N { s with image := s.image.write data len b } held :=
  ⟨h.built.write (h.hand b hb) data len, h.root,
    fun i hi => (h.shape i hi).congr rfl (fun _ => rfl), h.ledger, h.low, h.hand, h.cached⟩

/-- A block in hand comes into use. -/
theorem Laid.enter {o : BlockUse} (h : Laid N s (b :: held)) (hbuilt : Built N t)
    (hnext : t.nextIno = s.nextIno) (huses : ∀ o' c, t.uses o' c ↔ s.uses o' c ∨ o' = o ∧ c = b)
    (hroot : rootIno ∈ t.inoList) (hshape : ∀ i ∈ t.inoList, InShape t i)
    (hcached : ∀ c, c ∈ t.cacheList ↔ ∃ i ∈ t.inoList, (t.file i).indirect = c ∧ c ≠ 0) :
    Laid N t held := by
  refine ⟨hbuilt, hroot, hshape, ?_, ?_, ?_, hcached⟩
  · rw [hnext]
    exact h.ledger.enter huses
  · intro o' c hc
    rw [hnext]
    rcases (huses o' c).mp hc with hc | ⟨-, rfl⟩
    · exact h.low o' c hc
    · exact (h.hand c List.mem_cons_self).2
  · intro c hc
    rw [hnext]
    exact h.hand c (List.mem_cons_of_mem b hc)

/-! A new inode. -/

/-- A block is added to a hash table. -/
theorem mem_buckets {table table' : ℕ → List ℕ} {hash n : ℕ} (hhash : hash < n) (i : ℕ)
    (htable : table' = Function.update table hash (b :: table hash)) :
    i ∈ (List.range n).flatMap table' ↔ i = b ∨ i ∈ (List.range n).flatMap table := by
  rw [htable]
  simp only [List.mem_flatMap, List.mem_range]
  constructor
  · rintro ⟨j, hj, hi⟩
    by_cases hjh : j = hash
    · subst hjh
      rw [Function.update_self] at hi
      exact (List.mem_cons.mp hi).imp_right (fun hi => ⟨j, hj, hi⟩)
    · rw [Function.update_of_ne hjh] at hi
      exact .inr ⟨j, hj, hi⟩
  · rintro (rfl | ⟨j, hj, hi⟩)
    · exact ⟨hash, hhash, by rw [Function.update_self]; exact List.mem_cons_self⟩
    · refine ⟨j, hj, ?_⟩
      by_cases hjh : j = hash
      · subst hjh
        rw [Function.update_self]
        exact List.mem_cons_of_mem _ hi
      · rw [Function.update_of_ne hjh]
        exact hi

/-- A block in hand becomes an inode without blocks. -/
theorem Laid.enterInode (h : Laid N s (b :: held)) {real : ℕ} {type : FileType}
    (ht : t = { s with
      cacheInode := Function.update s.cacheInode b (newCacheInode real type)
      inodes := Function.update s.inodes (hash64 real) (b :: s.inodes (hash64 real)) }) :
    Laid N t held ∧ b ∉ s.inoList ∧ (∀ i, i ∈ t.inoList ↔ i = b ∨ i ∈ s.inoList) ∧
      t.file b = ⟨type, real, 0, [], 0⟩ ∧ ∀ i ∈ s.inoList, t.file i = s.file i := by
  have hnew : b ∉ s.inoList := fun hb => h.ledger.apart b List.mem_cons_self (.inode b) ⟨hb, rfl⟩
  have hmem : ∀ i, i ∈ t.inoList ↔ i = b ∨ i ∈ s.inoList := fun i =>
    mem_buckets (hash32_lt _) i (by rw [ht]; rfl)
  have hself : t.cacheInode b = newCacheInode real type := by
    rw [ht]
    exact Function.update_self ..
  have hother : ∀ i ∈ s.inoList, t.cacheInode i = s.cacheInode i := by
    intro i hi
    rw [ht]
    exact Function.update_of_ne (fun heq : i = b => hnew (heq ▸ hi)) _ _
  have hcache : t.cacheBlock = s.cacheBlock := by rw [ht]
  have hfile : t.file b = ⟨type, real, 0, [], 0⟩ := by
    unfold MkSfs.file
    rw [hself]
    rfl
  have hfiles : ∀ i ∈ s.inoList, t.file i = s.file i := fun i hi =>
    (h.shape i hi).file_eq (hother i hi) (fun _ => by rw [hcache])
  have huses : ∀ o c, t.uses o c ↔ s.uses o c ∨ o = .inode b ∧ c = b := by
    intro o c
    cases o with
    | super => simp [MkSfs.uses]
    | freemap j =>
      have hninos : t.ninos = s.ninos := by rw [ht]
      simp [MkSfs.uses, hninos]
    | inode i =>
      simp only [MkSfs.uses, hmem, BlockUse.inode.injEq]
      constructor
      · rintro ⟨rfl | hi, rfl⟩
        · exact .inr ⟨rfl, rfl⟩
        · exact .inl ⟨hi, rfl⟩
      · rintro (⟨hi, rfl⟩ | ⟨rfl, rfl⟩)
        · exact ⟨.inr hi, rfl⟩
        · exact ⟨.inl rfl, rfl⟩
    | data i k =>
      simp only [MkSfs.uses, hmem, reduceCtorEq, false_and, or_false]
      constructor
      · rintro ⟨rfl | hi, hk⟩
        · rw [hfile] at hk
          exact absurd hk (by simp)
        · exact ⟨hi, hfiles i hi ▸ hk⟩
      · rintro ⟨hi, hk⟩
        exact ⟨.inr hi, (hfiles i hi).symm ▸ hk⟩
    | indirect i =>
      simp only [MkSfs.uses, hmem, reduceCtorEq, false_and, or_false]
      constructor
      · rintro ⟨rfl | hi, hc, h0⟩
        · rw [hfile] at hc
          exact absurd hc.symm h0
        · exact ⟨hi, hfiles i hi ▸ hc, h0⟩
      · rintro ⟨hi, hc, h0⟩
        exact ⟨.inr hi, (hfiles i hi).symm ▸ hc, h0⟩
  refine ⟨h.enter ?_ (by rw [ht]) huses ((hmem _).mpr (.inr h.root)) ?_ ?_, hnew, hmem, hfile,
    hfiles⟩
  · rw [ht]
    exact (h.built.addInode (h.hand b List.mem_cons_self) _).ofCaches _ s.cacheBlock
  · intro i hi
    rcases (hmem i).mp hi with rfl | hi
    · refine ⟨?_, ?_, ?_, ?_, ?_, ?_, ?_, ?_, ?_⟩ <;> rw [hself]
      · exact Nat.zero_le _
      · rfl
      · rfl
      · exact fun hbad => absurd hbad (Nat.not_lt_zero _)
      · exact fun hbad => absurd rfl hbad
      · exact fun _ _ => rfl
      · exact fun hbad => absurd rfl hbad
      · exact Nat.two_pow_pos 16
      · exact Nat.zero_le _
    · exact (h.shape i hi).congr (hother i hi) (fun _ => by rw [hcache])
  · intro c
    have hcl : t.cacheList = s.cacheList := by rw [ht]; rfl
    rw [hcl, h.cached]
    constructor
    · rintro ⟨i, hi, hc⟩
      exact ⟨i, (hmem i).mpr (.inr hi), by rw [hfiles i hi]; exact hc⟩
    · rintro ⟨i, hi, hc, h0⟩
      rcases (hmem i).mp hi with rfl | hi
      · rw [hfile] at hc
        exact absurd hc.symm h0
      · exact ⟨i, hi, by rw [← hfiles i hi]; exact hc, h0⟩

/-! A block is appended to a file. -/

/-- The block behind the last one of a file comes into use. -/
theorem Laid.append (h : Laid N s (b :: held)) (hfile : file ∈ s.inoList) (hbuilt : Built N t)
    (hnext : t.nextIno = s.nextIno) (hinos : t.inodes = s.inodes) (hblocks : t.blocks = s.blocks)
    (hshape : ∀ i ∈ s.inoList, InShape t i)
    (hself : (t.file file).blocks = (s.file file).blocks ++ [b])
    (hind : (t.file file).indirect = (s.file file).indirect)
    (hothers : ∀ i ∈ s.inoList, i ≠ file → t.file i = s.file i) : Laid N t held := by
  have hlist : t.inoList = s.inoList := by
    unfold MkSfs.inoList
    rw [hinos]
  have hcl : t.cacheList = s.cacheList := by
    unfold MkSfs.cacheList
    rw [hblocks]
  have hindirect : ∀ i ∈ s.inoList, (t.file i).indirect = (s.file i).indirect := by
    intro i hi
    by_cases hif : i = file
    · rw [hif, hind]
    · rw [hothers i hi hif]
  refine h.enter (o := .data file (s.file file).blocks.length) hbuilt hnext ?_ ?_ ?_ ?_
  · intro o c
    cases o with
    | super => simp [MkSfs.uses]
    | freemap j => simp [MkSfs.uses, hbuilt.ninos, h.built.ninos]
    | inode i => simp [MkSfs.uses, hlist]
    | data i k =>
      simp only [MkSfs.uses, hlist, BlockUse.data.injEq]
      by_cases hif : i = file
      · subst hif
        simp only [hself, hfile, true_and]
        rw [List.getElem?_append]
        by_cases hk : k < (s.file i).blocks.length
        · rw [if_pos hk]
          exact ⟨.inl, fun hc => hc.resolve_right (by omega)⟩
        · rw [if_neg hk, List.getElem?_eq_none (by omega : (s.file i).blocks.length ≤ k)]
          by_cases hlen : k = (s.file i).blocks.length
          · simp [hlen, eq_comm]
          · rw [List.getElem?_eq_none (by simp; omega)]
            simp [hlen]
      · simp only [hif, false_and, or_false]
        exact and_congr_right (fun hi => by rw [hothers i hi hif])
    | indirect i =>
      simp only [MkSfs.uses, hlist, reduceCtorEq, false_and, or_false]
      exact and_congr_right (fun hi => by rw [hindirect i hi])
  · rw [hlist]
    exact h.root
  · rw [hlist]
    exact hshape
  · intro c
    rw [hcl, h.cached, hlist]
    exact exists_congr (fun i => and_congr_right (fun hi => by rw [hindirect i hi]))

/-- Files with the same places of all blocks have the same ledger. -/
theorem Laid.of_files (h : Laid N s held) (hbuilt : Built N t) (hnext : t.nextIno = s.nextIno)
    (hinos : t.inodes = s.inodes) (hblocks : t.blocks = s.blocks)
    (hshape : ∀ i ∈ s.inoList, InShape t i) (hfiles : ∀ i ∈ s.inoList,
      (t.file i).blocks = (s.file i).blocks ∧ (t.file i).indirect = (s.file i).indirect) :
    Laid N t held := by
  have hlist : t.inoList = s.inoList := by
    unfold MkSfs.inoList
    rw [hinos]
  have hcl : t.cacheList = s.cacheList := by
    unfold MkSfs.cacheList
    rw [hblocks]
  have huses : ∀ o c, t.uses o c ↔ s.uses o c := by
    intro o c
    cases o with
    | super => exact Iff.rfl
    | freemap j =>
      unfold MkSfs.uses
      rw [hbuilt.ninos, h.built.ninos]
    | inode i =>
      unfold MkSfs.uses
      rw [hlist]
    | data i k =>
      unfold MkSfs.uses
      rw [hlist]
      exact and_congr_right (fun hi => by rw [(hfiles i hi).1])
    | indirect i =>
      unfold MkSfs.uses
      rw [hlist]
      exact and_congr_right (fun hi => by rw [(hfiles i hi).2])
  refine ⟨hbuilt, by rw [hlist]; exact h.root, by rw [hlist]; exact hshape, ?_, ?_, ?_, ?_⟩
  · rw [hnext]
    exact h.ledger.congr huses
  · intro o c hc
    rw [hnext]
    exact h.low o c ((huses o c).mp hc)
  · rw [hnext]
    exact h.hand
  · intro c
    rw [hcl, h.cached, hlist]
    exact exists_congr (fun i => and_congr_right (fun hi => by rw [(hfiles i hi).2]))

/-- What the new slot of a file has to be. -/
theorem MkSfs.file_grow {ci : CacheInode} (hinode : t.cacheInode file = ci.grow size)
    (hnblks : ci.nblks = (s.cacheInode file).nblks)
    (hslots : ∀ k < (s.cacheInode file).nblks, t.fileBlock file k = s.fileBlock file k)
    (hlast : t.fileBlock file (s.cacheInode file).nblks = b) :
    (t.file file).blocks = (s.file file).blocks ++ [b] := by
  have hlen : (t.cacheInode file).nblks = (s.cacheInode file).nblks + 1 := by
    rw [hinode, ← hnblks]
    rfl
  unfold MkSfs.file
  dsimp only
  rw [hlen, List.range_succ, List.map_append, List.map_singleton, hlast]
  congr 1
  exact List.map_congr_left (fun k hk => hslots k (List.mem_range.mp hk))

/-- The next direct slot. -/
theorem Laid.growDirect (h : Laid N s (b :: held)) (hfile : file ∈ s.inoList)
    (hroom : (s.cacheInode file).nblks < nDirect) (hsize : size ≤ blkSize)
    (ht : t = { s with
      cacheInode := Function.update s.cacheInode file
        (((s.cacheInode file).setDirect (s.cacheInode file).nblks b).grow size) }) :
    Laid N t held ∧ Appended s file b size t := by
  have hs := h.shape file hfile
  have hself : t.cacheInode file =
      ((s.cacheInode file).setDirect (s.cacheInode file).nblks b).grow size := by
    rw [ht]
    exact Function.update_self ..
  have hcache : t.cacheBlock = s.cacheBlock := by rw [ht]
  have hinode : ∀ i, i ≠ file → t.cacheInode i = s.cacheInode i := by
    intro i hi
    rw [ht]
    exact Function.update_of_ne hi _ _
  have hdirect : (t.cacheInode file).inode.direct =
      Function.update (s.cacheInode file).inode.direct (s.cacheInode file).nblks b := by
    rw [hself]
    rfl
  have hblocks : (t.file file).blocks = (s.file file).blocks ++ [b] := by
    refine MkSfs.file_grow hself rfl ?_ ?_
    · intro k hk
      unfold MkSfs.fileBlock
      rw [if_pos (by omega), if_pos (by omega), hdirect, Function.update_of_ne (by omega)]
    · unfold MkSfs.fileBlock
      rw [if_pos hroom, hdirect, Function.update_self]
  have hothers : ∀ i ∈ s.inoList, i ≠ file → t.file i = s.file i := fun i hi hif =>
    (h.shape i hi).file_eq (hinode i hif) (fun _ => by rw [hcache])
  have hinos : t.inodes = s.inodes := by rw [ht]
  refine ⟨h.append hfile ?_ (by rw [ht]) hinos (by rw [ht]) ?_ hblocks ?_ hothers,
    hinos, by rw [ht], by rw [ht], ?_, ?_, ?_, hblocks, hothers⟩
  · rw [ht]
    exact h.built.ofCaches _ s.cacheBlock
  · intro i hi
    by_cases hif : i = file
    · rw [hif]
      refine ⟨?_, ?_, ?_, ?_, ?_, ?_, ?_, ?_, ?_⟩ <;> rw [hself]
      · change (s.cacheInode file).nblks + 1 ≤ maxBlocks
        unfold maxBlocks
        omega
      · exact congrArg (· + 1) hs.blocks
      · exact hs.l1
      · intro hlt
        change nDirect < (s.cacheInode file).nblks + 1 at hlt
        omega
      · exact fun hne => Nat.le_succ_of_le (hs.filled hne)
      · intro k hk
        change (s.cacheInode file).nblks + 1 ≤ k at hk
        exact (Function.update_of_ne (by omega) _ _).trans (hs.direct k (by omega))
      · intro hne
        have hunder := hs.filled hne
        omega
      · exact hs.nlinks
      · have hold := hs.size
        change (s.cacheInode file).inode.size + size ≤ ((s.cacheInode file).nblks + 1) * blkSize
        rw [Nat.succ_mul]
        exact Nat.add_le_add hold hsize
    · exact (h.shape i hi).congr (hinode i hif) (fun _ => by rw [hcache])
  · unfold MkSfs.file
    rw [hself]
    rfl
  · unfold MkSfs.file
    rw [hself]
    rfl
  · unfold MkSfs.file
    rw [hself]
    rfl
  · unfold MkSfs.file
    rw [hself]
    rfl

/-- Two files do not share their indirect block. -/
theorem Laid.indirect_ne (h : Laid N s held) {i : ℕ} (hfile : file ∈ s.inoList) (hi : i ∈ s.inoList)
    (hif : i ≠ file) (h0 : (s.cacheInode i).inode.indirect ≠ 0) :
    (s.cacheInode i).inode.indirect ≠ (s.cacheInode file).inode.indirect := by
  intro heq
  have h₁ : s.uses (.indirect i) (s.cacheInode i).inode.indirect := ⟨hi, rfl, h0⟩
  have h₂ : s.uses (.indirect file) (s.cacheInode i).inode.indirect := ⟨hfile, heq.symm, h0⟩
  exact hif (BlockUse.indirect.inj (h.ledger.once _ _ _ h₁ h₂))

/-- The next entry of the indirect block. -/
theorem Laid.growEntry (h : Laid N s (b :: held)) (hfile : file ∈ s.inoList)
    (hdirect : nDirect ≤ (s.cacheInode file).nblks) (hroom : (s.cacheInode file).nblks < maxBlocks)
    (hind : (s.cacheInode file).inode.indirect ≠ 0) (hsize : size ≤ blkSize)
    (ht : t = { s with
      cacheInode := Function.update s.cacheInode file ((s.cacheInode file).grow size)
      cacheBlock := Function.update s.cacheBlock (s.cacheInode file).inode.indirect
        (Function.update (s.cacheBlock (s.cacheInode file).inode.indirect)
          ((s.cacheInode file).nblks - nDirect) b) }) :
    Laid N t held ∧ Appended s file b size t := by
  have hs := h.shape file hfile
  have hself : t.cacheInode file = (s.cacheInode file).grow size := by
    rw [ht]
    exact Function.update_self ..
  have hcache : t.cacheBlock (s.cacheInode file).inode.indirect =
      Function.update (s.cacheBlock (s.cacheInode file).inode.indirect)
        ((s.cacheInode file).nblks - nDirect) b := by
    rw [ht]
    exact Function.update_self ..
  have hinode : ∀ i, i ≠ file → t.cacheInode i = s.cacheInode i := by
    intro i hi
    rw [ht]
    exact Function.update_of_ne hi _ _
  have hcaches : ∀ i ∈ s.inoList, i ≠ file → (s.cacheInode i).inode.indirect ≠ 0 →
      t.cacheBlock (s.cacheInode i).inode.indirect =
        s.cacheBlock (s.cacheInode i).inode.indirect := by
    intro i hi hif h0
    rw [ht]
    exact Function.update_of_ne (h.indirect_ne hfile hi hif h0) _ _
  have hindirect : (t.cacheInode file).inode.indirect = (s.cacheInode file).inode.indirect := by
    rw [hself]
    rfl
  have hblocks : (t.file file).blocks = (s.file file).blocks ++ [b] := by
    refine MkSfs.file_grow hself rfl ?_ ?_
    · intro k hk
      unfold MkSfs.fileBlock
      by_cases hd : k < nDirect
      · rw [if_pos hd, if_pos hd, hself]
        rfl
      · rw [if_neg hd, if_neg hd, hindirect, hcache, Function.update_of_ne (by omega)]
    · unfold MkSfs.fileBlock
      rw [if_neg (by omega), hindirect, hcache, Function.update_self]
  have hothers : ∀ i ∈ s.inoList, i ≠ file → t.file i = s.file i := fun i hi hif =>
    (h.shape i hi).file_eq (hinode i hif) (hcaches i hi hif)
  have hinos : t.inodes = s.inodes := by rw [ht]
  refine ⟨h.append hfile ?_ (by rw [ht]) hinos (by rw [ht]) ?_ hblocks hindirect hothers,
    hinos, by rw [ht], by rw [ht], ?_, ?_, ?_, hblocks, hothers⟩
  · rw [ht]
    exact h.built.ofCaches _ _
  · intro i hi
    by_cases hif : i = file
    · rw [hif]
      refine ⟨?_, ?_, ?_, ?_, ?_, ?_, ?_, ?_, ?_⟩ <;> rw [hself]
      · exact hroom
      · exact congrArg (· + 1) hs.blocks
      · exact hs.l1
      · exact fun _ => hind
      · exact fun _ => Nat.le_succ_of_le hdirect
      · intro k hk
        change (s.cacheInode file).nblks + 1 ≤ k at hk
        exact hs.direct k (by omega)
      · intro _ k hk
        change (s.cacheInode file).nblks + 1 ≤ nDirect + k at hk
        exact (congrFun hcache k).trans
          ((Function.update_of_ne (by omega) _ _).trans (hs.entries hind k (by omega)))
      · exact hs.nlinks
      · have hold := hs.size
        change (s.cacheInode file).inode.size + size ≤ ((s.cacheInode file).nblks + 1) * blkSize
        rw [Nat.succ_mul]
        exact Nat.add_le_add hold hsize
    · exact (h.shape i hi).congr (hinode i hif) (hcaches i hi hif)
  · unfold MkSfs.file
    rw [hself]
    rfl
  · unfold MkSfs.file
    rw [hself]
    rfl
  · unfold MkSfs.file
    rw [hself]
    rfl

/-- A block in hand becomes the indirect block of a file whose direct slots are full. -/
theorem Laid.enterIndirect (h : Laid N s (b :: held)) (hfile : file ∈ s.inoList)
    (hfull : (s.cacheInode file).nblks = nDirect)
    (hzero : (s.cacheInode file).inode.indirect = 0)
    (ht : t = { s with
      cacheInode := Function.update s.cacheInode file ((s.cacheInode file).setL1 b b)
      cacheBlock := Function.update s.cacheBlock b (fun _ => 0)
      blocks := Function.update s.blocks (hash32 0) (b :: s.blocks (hash32 0)) }) :
    Laid N t held ∧ t.file file = { s.file file with indirect := b } ∧
      ∀ i ∈ s.inoList, i ≠ file → t.file i = s.file i := by
  have hs := h.shape file hfile
  have hb : Handed N s.nextIno b := h.hand b List.mem_cons_self
  have h0 : b ≠ 0 := by
    have htwo : 2 ≤ freemapEnd N := Nat.le_add_right 2 _
    have hlow := hb.1
    omega
  have hself : t.cacheInode file = (s.cacheInode file).setL1 b b := by
    rw [ht]
    exact Function.update_self ..
  have hcache : t.cacheBlock b = fun _ => 0 := by
    rw [ht]
    exact Function.update_self ..
  have hinode : ∀ i, i ≠ file → t.cacheInode i = s.cacheInode i := by
    intro i hi
    rw [ht]
    exact Function.update_of_ne hi _ _
  have hcaches : ∀ i ∈ s.inoList, (s.cacheInode i).inode.indirect ≠ 0 →
      t.cacheBlock (s.cacheInode i).inode.indirect =
        s.cacheBlock (s.cacheInode i).inode.indirect := by
    intro i hi hne
    have hapart : (s.cacheInode i).inode.indirect ≠ b := fun heq =>
      h.ledger.apart b List.mem_cons_self (.indirect i) ⟨hi, heq, h0⟩
    rw [ht]
    exact Function.update_of_ne hapart _ _
  have hnew : t.file file = { s.file file with indirect := b } := by
    unfold MkSfs.file
    rw [HostFile.mk.injEq, hself]
    refine ⟨rfl, rfl, rfl, List.map_congr_left ?_, rfl⟩
    intro k hk
    have hlt : k < nDirect := hfull ▸ List.mem_range.mp hk
    unfold MkSfs.fileBlock
    rw [if_pos hlt, if_pos hlt, hself]
    rfl
  have hothers : ∀ i ∈ s.inoList, i ≠ file → t.file i = s.file i := fun i hi hif =>
    (h.shape i hi).file_eq (hinode i hif) (hcaches i hi)
  have hlist : t.inoList = s.inoList := by rw [ht]; rfl
  have hold : (s.file file).indirect = 0 := hzero
  have hcl : ∀ c, c ∈ t.cacheList ↔ c = b ∨ c ∈ s.cacheList := fun c =>
    mem_buckets (hash32_lt 0) c (by rw [ht])
  refine ⟨h.enter (o := .indirect file) ?_ (by rw [ht]) ?_ ?_ ?_ ?_, hnew, hothers⟩
  · rw [ht]
    exact (h.built.addBlock hb _).ofCaches _ _
  · intro o c
    cases o with
    | super => simp [MkSfs.uses]
    | freemap j =>
      have hninos : t.ninos = s.ninos := by rw [ht]
      simp [MkSfs.uses, hninos]
    | inode i => simp [MkSfs.uses, hlist]
    | data i k =>
      simp only [MkSfs.uses, hlist, reduceCtorEq, false_and, or_false]
      by_cases hif : i = file
      · rw [hif, hnew]
      · exact and_congr_right (fun hi => by rw [hothers i hi hif])
    | indirect i =>
      simp only [MkSfs.uses, hlist, BlockUse.indirect.injEq]
      by_cases hif : i = file
      · rw [hif, hnew, hold]
        constructor
        · rintro ⟨-, rfl, -⟩
          exact .inr ⟨rfl, rfl⟩
        · rintro (⟨-, rfl, hbad⟩ | ⟨-, rfl⟩)
          · exact absurd rfl hbad
          · exact ⟨hfile, rfl, h0⟩
      · simp only [hif, false_and, or_false]
        exact and_congr_right (fun hi => by rw [hothers i hi hif])
  · rw [hlist]
    exact h.root
  · rw [hlist]
    intro i hi
    by_cases hif : i = file
    · rw [hif]
      refine ⟨?_, ?_, ?_, ?_, ?_, ?_, ?_, ?_, ?_⟩ <;> rw [hself]
      · exact hs.limit
      · exact hs.blocks
      · exact (if_neg h0).symm
      · exact fun _ => h0
      · exact fun _ => hfull.ge
      · exact hs.direct
      · exact fun _ k _ => congrFun hcache k
      · exact hs.nlinks
      · exact hs.size
    · exact (h.shape i hi).congr (hinode i hif) (hcaches i hi)
  · intro c
    rw [hcl, h.cached, hlist]
    constructor
    · rintro (rfl | ⟨i, hi, hc, hne⟩)
      · exact ⟨file, hfile, by rw [hnew], h0⟩
      · have hif : i ≠ file := by
          rintro rfl
          exact hne (hc.symm.trans hold)
        exact ⟨i, hi, by rw [hothers i hi hif]; exact hc, hne⟩
    · rintro ⟨i, hi, hc, hne⟩
      by_cases hif : i = file
      · rw [hif, hnew] at hc
        exact .inl hc.symm
      · rw [hothers i hi hif] at hc
        exact .inr ⟨i, hi, hc, hne⟩

/-- The links of an inode are none of its places. -/
theorem Laid.setLinks (h : Laid N s held) (hfile : file ∈ s.inoList) {nlinks : ℕ}
    (hlinks : nlinks < 2 ^ 16)
    (ht : t = { s with
      cacheInode := Function.update s.cacheInode file { s.cacheInode file with
        inode := { (s.cacheInode file).inode with nlinks := nlinks } } }) :
    Laid N t held ∧ ∀ i ∈ s.inoList, t.file i = s.file i := by
  have hs := h.shape file hfile
  have hself : t.cacheInode file = { s.cacheInode file with
      inode := { (s.cacheInode file).inode with nlinks := nlinks } } := by
    rw [ht]
    exact Function.update_self ..
  have hcache : t.cacheBlock = s.cacheBlock := by rw [ht]
  have hinode : ∀ i, i ≠ file → t.cacheInode i = s.cacheInode i := by
    intro i hi
    rw [ht]
    exact Function.update_of_ne hi _ _
  have hfiles : ∀ i ∈ s.inoList, t.file i = s.file i := by
    intro i hi
    by_cases hif : i = file
    · have hslots : t.fileBlock file = s.fileBlock file := by
        funext k
        unfold MkSfs.fileBlock
        rw [hself, hcache]
      rw [hif]
      unfold MkSfs.file
      rw [hslots, hself]
    · exact (h.shape i hi).file_eq (hinode i hif) (fun _ => by rw [hcache])
  refine ⟨h.of_files ?_ (by rw [ht]) (by rw [ht]) (by rw [ht]) ?_ ?_, hfiles⟩
  · rw [ht]
    exact h.built.ofCaches _ s.cacheBlock
  · intro i hi
    by_cases hif : i = file
    · rw [hif]
      refine ⟨?_, ?_, ?_, ?_, ?_, ?_, ?_, ?_, ?_⟩ <;> rw [hself]
      · exact hs.limit
      · exact hs.blocks
      · exact hs.l1
      · exact hs.beyond
      · exact hs.filled
      · exact hs.direct
      · rw [hcache]
        exact hs.entries
      · exact hlinks
      · exact hs.size
    · exact (h.shape i hi).congr (hinode i hif) (fun _ => by rw [hcache])
  · intro i hi
    rw [hfiles i hi]
    exact ⟨rfl, rfl⟩

section Ends

variable {E : Empty → MkSfs → Prop}

theorem modify_ends {f : MkSfs → MkSfs} {Q : PUnit → MkSfs → Prop} (h : ∀ t, t = f s → Q ⟨⟩ t) :
    Call.Ends True (Call.modify f : MkCall PUnit) s Q E := h _ rfl

/-- Appending with the indirect block at hand. -/
theorem appendEntry_laid (h : Laid N s (b :: held)) (hfile : file ∈ s.inoList)
    (hdirect : nDirect ≤ (s.cacheInode file).nblks) (hroom : (s.cacheInode file).nblks < maxBlocks)
    (hind : (s.cacheInode file).inode.indirect ≠ 0) (hsize : size ≤ blkSize) :
    Call.Ends True (setCacheWord (s.cacheInode file).inode.indirect
        ((s.cacheInode file).nblks - nDirect) b) s
      (fun _ t => Call.Ends True (setCacheInode file (fun ci => ci.grow size)) t
        (fun _ u => Laid N u held ∧ Appended s file b size u) E) E :=
  Call.Ends.modify (Call.Ends.modify (h.growEntry hfile hdirect hroom hind hsize rfl))

theorem appendBlock_laid (h : Laid N s (b :: held)) (hfile : file ∈ s.inoList)
    (hroom : (s.file file).blocks.length < maxBlocks) (hsize : size ≤ blkSize) :
    Call.Ends True (appendBlock file size b) s
      (fun _ t => Laid N t held ∧ Appended s file b size t) E := by
  have hs := h.shape file hfile
  rw [MkSfs.length_blocks] at hroom
  unfold appendBlock
  refine Call.Ends.bind (Call.Ends.require (fun _ => ?_) (fun _ => trivial))
  refine Call.Ends.bind (Call.Ends.read ?_)
  refine Call.Ends.bind ?_
  unfold linkBlock
  have hbig : ¬ (s.cacheInode file).nblks ≥ lnNblks := by
    unfold maxBlocks nDirect blkNEntry blkSize at hroom
    unfold lnNblks maxFileSize blkSize
    omega
  rw [if_neg hbig]
  by_cases hdirect : (s.cacheInode file).nblks < nDirect
  · rw [if_pos hdirect]
    refine Call.Ends.modify (Call.Ends.modify (h.growDirect hfile hdirect hsize ?_))
    simp only [Function.update_self, Function.update_idem]
  have hl1 : l1Nblks = maxBlocks := rfl
  rw [if_neg hdirect, if_pos (by rw [hl1]; exact hroom)]
  refine Call.Ends.bind ?_
  unfold updateCache
  by_cases hzero : (s.cacheInode file).inode.indirect = 0
  · have hfull : (s.cacheInode file).nblks = nDirect := by
      by_contra hne
      exact hs.beyond (by omega) hzero
    rw [if_pos hzero]
    unfold allocCacheBlock
    refine Call.Ends.bind ((sfsAllocIno_laid h).mono ?_ (fun _ _ he => he))
    intro c s₁ halloc
    obtain ⟨-, hs₁, h₁⟩ := halloc
    refine Call.Ends.bind (Call.Ends.modify (Call.Ends.pure (Call.Ends.bind (modify_ends ?_))))
    intro s₂ hs₂
    have hold : s₁.cacheInode = s.cacheInode := by rw [hs₁]
    have hlist : s₁.inoList = s.inoList := by rw [hs₁]; rfl
    have hfiles : s₁.file = s.file := by rw [hs₁]; rfl
    obtain ⟨h₂, hself, hothers⟩ := h₁.enterIndirect (by rw [hlist]; exact hfile)
      (by rw [hold]; exact hfull) (by rw [hold]; exact hzero) hs₂
    have hci : s₂.cacheInode file = (s.cacheInode file).setL1 c c := by
      rw [hs₂, hs₁]
      exact Function.update_self ..
    have hinos : s₂.inodes = s.inodes := by rw [hs₂, hs₁]
    have hlist₂ : s₂.inoList = s.inoList := by
      unfold MkSfs.inoList
      rw [hinos]
    have h0 : c ≠ 0 := by
      have hlow := (h₁.hand c List.mem_cons_self).1
      have htwo : 2 ≤ freemapEnd N := Nat.le_add_right 2 _
      omega
    have hentry := @appendEntry_laid N s₂ held file b size E h₂
      (by rw [hlist₂]; exact hfile) (by rw [hci]; exact hfull.ge) (by rw [hci]; exact hroom)
      (by rw [hci]; exact h0) hsize
    rw [hci] at hentry
    refine hentry.mono ?_ (fun _ _ he => he)
    intro _ s₃ h₃
    refine h₃.mono ?_ (fun _ _ he => he)
    intro _ s₄ h₄
    obtain ⟨hlaid, happ⟩ := h₄
    rw [hfiles] at hself
    refine ⟨hlaid, happ.inodes.trans hinos, ?_, ?_, ?_, ?_, ?_, ?_, ?_⟩
    · rw [happ.image, hs₂, hs₁]
    · refine Nat.le_trans ?_ happ.next
      rw [hs₂, hs₁]
      exact Nat.le_succ _
    · rw [happ.type, hself]
    · rw [happ.real, hself]
    · rw [happ.size, hself]
    · rw [happ.blocks, hself]
    · intro i hi hif
      rw [happ.others i (by rw [hlist₂]; exact hi) hif, hothers i (by rw [hlist]; exact hi) hif,
        hfiles]
  · rw [if_neg hzero, if_pos (by rw [hs.l1, if_neg hzero])]
    refine Call.Ends.pure (Call.Ends.bind (Call.Ends.modify ?_))
    have hsame : (s.cacheInode file).setL1 (s.cacheInode file).inode.indirect
        (s.cacheInode file).inode.indirect = s.cacheInode file := by
      have hl := hs.l1
      rw [if_neg hzero] at hl
      unfold CacheInode.setL1
      rw [← hl]
    dsimp only
    rw [hsame, Function.update_eq_self]
    exact appendEntry_laid h hfile (by omega) hroom hzero hsize

/-- The block was handed out, written and appended. -/
theorem Appended.added {s₀ u : MkSfs} {data : Bytes} (happ : Appended t file b size u)
    (ht : t = { s with image := s.image.write data size b }) (hb : s.nextIno = b + 1)
    (hs₀ : s₀.nextIno = b) (hinos : s.inodes = s₀.inodes) (hfile : s.file = s₀.file)
    (himage : s.image = s₀.image) : Added s₀ file size data u := by
  have hfiles : t.file = s₀.file := by
    rw [ht]
    exact hfile
  have hlist : t.inoList = s₀.inoList := by
    unfold MkSfs.inoList
    rw [ht]
    dsimp only
    rw [hinos]
  have himg : u.image.block =
      Function.update s₀.image.block b (fun i => if i < size then data i else 0) := by
    rw [happ.image, ht, ← himage]
    rfl
  refine ⟨?_, ?_, ?_, ?_, ?_, ?_, ?_, ?_, ?_⟩
  · rw [happ.inodes, ht]
    exact hinos
  · have hnext := happ.next
    rw [ht] at hnext
    exact hs₀ ▸ Nat.lt_of_lt_of_le (hb ▸ Nat.lt_succ_self b) hnext
  · intro c hc
    rw [himg, Function.update_of_ne (by omega)]
  · rw [himg, hs₀, Function.update_self]
  · rw [happ.type, hfiles]
  · rw [happ.real, hfiles]
  · rw [happ.size, hfiles]
  · rw [happ.blocks, hfiles, hs₀]
  · intro i hi hif
    rw [happ.others i (by rw [hlist]; exact hi) hif, hfiles]

theorem addData_laid (h : Laid N s held) (hfile : file ∈ s.inoList)
    (hroom : (s.file file).blocks.length < maxBlocks) (hsize : size ≤ blkSize) {data : Bytes} :
    Call.Ends True (addData file data size) s
      (fun _ t => Laid N t held ∧ Added s file size data t) E := by
  unfold addData
  refine Call.Ends.bind ((sfsAllocIno_laid h).mono ?_ (fun _ _ he => he))
  intro b s₁ h₁
  obtain ⟨rfl, rfl, h₁⟩ := h₁
  refine Call.Ends.bind (Call.Ends.bind (Call.Ends.require (fun _ => ?_) (fun _ => trivial)))
  refine modify_ends (fun s₂ hs₂ => ?_)
  have h₂ : Laid N s₂ (s.nextIno :: held) := hs₂ ▸ h₁.write List.mem_cons_self data size
  refine (appendBlock_laid h₂ (hs₂ ▸ hfile) (hs₂ ▸ hroom) hsize).mono ?_ (fun _ _ he => he)
  intro _ u hu
  exact ⟨hu.1, hu.2.added hs₂ rfl rfl rfl rfl rfl⟩

/-- What `add_entry` writes. -/
def MkSfs.entryData (s : MkSfs) (file : ℕ) (name : List UInt8) : Bytes :=
  entryBytes file (strcpy s.entryName name)

theorem addEntry_laid {current : ℕ} (h : Laid N s held) (hcurrent : current ∈ s.inoList)
    (hfile : file ∈ s.inoList) (hroom : (s.file current).blocks.length < maxBlocks)
    {name : List UInt8} : Call.Ends True (addEntry current file name) s
      (fun _ t => Laid N t held ∧ Added s current entryNameSize (s.entryData file name) t) E := by
  unfold addEntry
  refine Call.Ends.bind (Call.Ends.require (fun _ => ?_) (fun _ => trivial))
  refine Call.Ends.bind (modify_ends (fun s₀ hs₀ => ?_))
  have h₀ : Laid N s₀ held := by
    rw [hs₀]
    exact h.of_files ⟨h.built.ninos, h.built.superBlocks, h.built.low, h.built.high, h.built.unused,
      h.built.writes, h.built.blocks, h.built.inodes⟩ rfl rfl rfl
      (fun i hi => (h.shape i hi).congr rfl (fun _ => rfl)) (fun _ _ => ⟨rfl, rfl⟩)
  refine Call.Ends.bind ((sfsAllocIno_laid h₀).mono ?_ (fun _ _ he => he))
  intro b s₁ h₁
  obtain ⟨hb, hs₁, h₁⟩ := h₁
  refine Call.Ends.bind (Call.Ends.read ?_)
  refine Call.Ends.bind (Call.Ends.bind (Call.Ends.require (fun _ => ?_) (fun _ => trivial)))
  refine modify_ends (fun s₂ hs₂ => ?_)
  have h₂ : Laid N s₂ (b :: held) := hs₂ ▸ h₁.write List.mem_cons_self _ _
  have hsame : s₂.cacheInode = s.cacheInode ∧ s₂.file = s.file ∧ s₂.inoList = s.inoList := by
    rw [hs₂, hs₁, hs₀]
    exact ⟨rfl, rfl, rfl⟩
  refine Call.Ends.bind ?_
  refine (appendBlock_laid h₂ (by rw [hsame.2.2]; exact hcurrent) (by rw [hsame.2.1]; exact hroom)
    (show entryNameSize ≤ blkSize by decide)).mono ?_ (fun _ _ he => he)
  intro _ s₃ h₃
  have hname : entryBytes file s₁.entryName = s.entryData file name := by
    rw [hs₁, hs₀]
    rfl
  rw [hname] at hs₂
  obtain ⟨hlaid, happ⟩ := h₃
  have hadd : Added s current entryNameSize (s.entryData file name) s₃ :=
    happ.added hs₂ (by rw [hs₁, hb]) (by rw [hb, hs₀]) (by rw [hs₁, hs₀]) (by rw [hs₁, hs₀]; rfl)
      (by rw [hs₁, hs₀])
  have hlist : s₃.inoList = s.inoList := by
    unfold MkSfs.inoList
    rw [hadd.inodes]
  refine modify_ends (fun u hu => ?_)
  obtain ⟨hlaid', hfiles⟩ := hlaid.setLinks (by rw [hlist]; exact hfile)
    (Nat.mod_lt _ (Nat.two_pow_pos 16)) hu
  rw [hlist] at hfiles
  have hinos : u.inodes = s₃.inodes ∧ u.image = s₃.image ∧ u.nextIno = s₃.nextIno := by
    rw [hu]
    exact ⟨rfl, rfl, rfl⟩
  refine ⟨hlaid', hinos.1.trans hadd.inodes, ?_, ?_, ?_, ?_, ?_, ?_, ?_, ?_⟩
  · rw [hinos.2.2]
    exact hadd.next
  · rw [hinos.2.1]
    exact hadd.block
  · rw [hinos.2.1]
    exact hadd.new
  · rw [hfiles _ hcurrent]
    exact hadd.type
  · rw [hfiles _ hcurrent]
    exact hadd.real
  · rw [hfiles _ hcurrent]
    exact hadd.size
  · rw [hfiles _ hcurrent]
    exact hadd.blocks
  · intro i hi hif
    rw [hfiles i hi]
    exact hadd.others i hi hif

theorem allocCacheInode_laid (h : Laid N s held) (real : ℕ) (type : FileType) :
    Call.Ends True (allocCacheInode real 0 type) s (fun ino t => Laid N t held ∧
      ino = s.nextIno ∧ ino ∉ s.inoList ∧ (∀ i, i ∈ t.inoList ↔ i = ino ∨ i ∈ s.inoList) ∧
      t.nextIno = s.nextIno + 1 ∧ t.image = s.image ∧
      t.inodes = Function.update s.inodes (hash64 real) (ino :: s.inodes (hash64 real)) ∧
      t.file ino = ⟨type, real, 0, [], 0⟩ ∧ ∀ i ∈ s.inoList, t.file i = s.file i) E := by
  unfold allocCacheInode
  refine Call.Ends.bind ((sfsAllocIno_laid h).mono ?_ (fun _ _ he => he))
  intro b s₁ h₁
  obtain ⟨rfl, rfl, h₁⟩ := h₁
  refine Call.Ends.bind (modify_ends (fun t ht => Call.Ends.pure ?_))
  obtain ⟨hlaid, hnew, hmem, hfile, hfiles⟩ := h₁.enterInode ht
  exact ⟨hlaid, rfl, hnew, hmem, by rw [ht], by rw [ht], by rw [ht], hfile, hfiles⟩

end Ends

/-- The image begins with an empty root. -/
theorem createSfs_laid {stSize : ℕ} {img : ℕ → Bytes} (h : createSfs stSize img = some s) :
    Laid (imgBlocks stSize) s [] ∧ (∀ i, i ∈ s.inoList ↔ i = rootIno) ∧
      s.inodes = Function.update (fun _ => []) (hash64 0) [rootIno] ∧
      s.file rootIno = ⟨.dir, 0, 0, [], 0⟩ := by
  have hbuilt := createSfs_built h
  unfold createSfs at h
  by_cases hsmall : freemapEnd (imgBlocks stSize) ≥ imgBlocks stSize
  · rw [if_pos hsmall] at h
    cases h
  rw [if_neg hsmall] at h
  have hs := Option.some.inj h
  have hinos : s.inodes = Function.update (fun _ => []) (hash64 0) [rootIno] := by rw [← hs]
  have hmem : ∀ i, i ∈ s.inoList ↔ i = rootIno := by
    intro i
    have hi := @mem_buckets rootIno (fun _ => []) _ _ _ (hash32_lt (uint32 0)) i hinos
    have hno : i ∉ (List.range hashListSize).flatMap (fun _ => ([] : List ℕ)) := by simp
    exact hi.trans ⟨fun h => h.resolve_right hno, .inl⟩
  have hself : ∀ i, s.cacheInode i = newCacheInode 0 .dir := by
    intro i
    rw [← hs]
  have hfile : ∀ i, s.file i = ⟨.dir, 0, 0, [], 0⟩ := by
    intro i
    unfold MkSfs.file
    rw [hself]
    rfl
  have hnext : s.nextIno = freemapEnd (imgBlocks stSize) := by rw [← hs]
  have htwo : 2 ≤ freemapEnd (imgBlocks stSize) := Nat.le_add_right 2 _
  have hroot : rootIno = 1 := rfl
  have huses : ∀ o b, s.uses o b → o = .super ∧ b = 0 ∨ o = .inode 1 ∧ b = 1 ∨
      o = .freemap (b - 2) ∧ 2 ≤ b ∧ b < s.nextIno := by
    intro o b hb
    cases o with
    | super => exact .inl ⟨rfl, hb⟩
    | freemap j =>
      obtain ⟨hj, hlt⟩ := hb
      rw [hbuilt.ninos, ← hnext] at hlt
      unfold blknFreemap at hj
      exact .inr (.inr ⟨by rw [← hj, Nat.add_sub_cancel_left], by omega, hlt⟩)
    | inode i =>
      obtain ⟨hi, rfl⟩ := hb
      rw [(hmem i).mp hi]
      exact .inr (.inl ⟨rfl, rfl⟩)
    | data i k =>
      have hk := hb.2
      rw [hfile] at hk
      cases hk
    | indirect i =>
      have hc := hb.2
      rw [hfile] at hc
      exact absurd hc.1.symm hc.2
  have hlow : ∀ o b, s.uses o b → b < s.nextIno := by
    intro o b hb
    rcases huses o b hb with ⟨-, h0⟩ | ⟨-, h1⟩ | ⟨-, -, hlt⟩ <;> omega
  refine ⟨⟨hbuilt, (hmem _).mpr rfl, ?_, ⟨?_, List.nodup_nil, ?_, ?_, ?_, ?_⟩, hlow, ?_, ?_⟩, hmem,
    hinos, hfile _⟩
  · intro i _
    refine ⟨?_, ?_, ?_, ?_, ?_, ?_, ?_, ?_, ?_⟩ <;> rw [hself]
    · exact Nat.zero_le _
    · rfl
    · rfl
    · exact fun hbad => absurd hbad (Nat.not_lt_zero _)
    · exact fun hbad => absurd rfl hbad
    · exact fun _ _ => rfl
    · exact fun hbad => absurd rfl hbad
    · exact Nat.two_pow_pos 16
    · exact Nat.zero_le _
  · intro o o' b hb hb'
    rcases huses o b hb with ⟨rfl, h0⟩ | ⟨rfl, h1⟩ | ⟨rfl, h2, -⟩ <;>
      rcases huses o' b hb' with ⟨rfl, h0'⟩ | ⟨rfl, h1'⟩ | ⟨rfl, h2', -⟩ <;> first | rfl | omega
  · exact fun b hb => absurd hb List.not_mem_nil
  · intro o b hb hfree
    have hlt := hlow o b hb
    omega
  · exact fun b hb => absurd hb List.not_mem_nil
  · intro b hb hno _
    refine ⟨?_, hb⟩
    by_contra hlt
    have h0 : b ≠ 0 := fun h0 => hno .super h0
    have h1 : b ≠ 1 := fun h1 => hno (.inode 1) ⟨(hmem 1).mpr rfl, h1.symm⟩
    refine hno (.freemap (b - 2)) ⟨?_, ?_⟩
    · unfold blknFreemap
      omega
    · rw [hbuilt.ninos]
      omega
  · exact fun b hb => absurd hb List.not_mem_nil
  · intro b
    have hempty : s.cacheList = [] := by
      unfold MkSfs.cacheList
      rw [← hs]
      exact List.flatMap_eq_nil_iff.mpr (fun _ _ => rfl)
    rw [hempty]
    constructor
    · exact fun hb => absurd hb List.not_mem_nil
    · rintro ⟨i, -, hc, h0⟩
      rw [hfile] at hc
      exact absurd hc.symm h0

end Ucore.Tools
