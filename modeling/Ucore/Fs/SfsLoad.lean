import Ucore.Fs.SfsMap

/-!
How the functions on the block map end. `Takes` says which blocks were taken from the free map
on the way; a call that fails has given back what it took, unless the device refused to clear
a block.
-/
namespace Ucore.Fs

open Library Libs Call

/-- From `s` to `s'` the free blocks `taken` were taken, and nothing else changed but the
contents of free blocks. -/
structure Takes (s s' : Sfs) (taken : List ℕ) : Prop where
  superBlocks : s'.superBlocks = s.superBlocks
  imgSize : s'.imgSize = s.imgSize
  inos : s'.inos = s.inos
  inodes : s'.inodes = s.inodes
  nbits : s'.freemap.nbits = s.freemap.nbits
  nwords : s'.freemap.nwords = s.freemap.nwords
  bits : ∀ c, s'.freemap.bit c = true ↔ s.freemap.bit c = true ∧ c ∉ taken
  free : ∀ c ∈ taken, s.freemap.bit c = true
  range : ∀ c ∈ taken, c < s.superBlocks
  nodup : taken.Nodup
  unused : s'.unusedBlocks + taken.length = s.unusedBlocks
  disk : ∀ c, s.freemap.bit c = false → s'.disk c = s.disk c

namespace Takes

variable {s t : Sfs} {taken held : List ℕ} {bm : Bitmap} {b : ℕ} {p : Prop}

theorem refl (s : Sfs) : Takes s s [] where
  superBlocks := rfl
  imgSize := rfl
  inos := rfl
  inodes := rfl
  nbits := rfl
  nwords := rfl
  bits c := by simp
  free c hc := absurd hc List.not_mem_nil
  range c hc := absurd hc List.not_mem_nil
  nodup := List.nodup_nil
  unused := rfl
  disk _ _ := rfl

theorem perm {taken' : List ℕ} (h : Takes s t taken) (hp : taken.Perm taken') :
    Takes s t taken' where
  superBlocks := h.superBlocks
  imgSize := h.imgSize
  inos := h.inos
  inodes := h.inodes
  nbits := h.nbits
  nwords := h.nwords
  bits c := by rw [h.bits, hp.mem_iff]
  free c hc := h.free c (hp.mem_iff.mpr hc)
  range c hc := h.range c (hp.mem_iff.mpr hc)
  nodup := hp.nodup_iff.mp h.nodup
  unused := by rw [← hp.length_eq, h.unused]
  disk := h.disk

theorem din (h : Takes s t taken) (i : ℕ) : t.din i = s.din i := by
  unfold Sfs.din
  rw [h.inodes]

/-- One more block is taken; it need not be cleared. -/
theorem counted (h : Takes s t taken) (hf : Fresh t bm b) : Takes s (t.counted bm) (b :: taken) where
  superBlocks := h.superBlocks
  imgSize := h.imgSize
  inos := h.inos
  inodes := h.inodes
  nbits := hf.set.nbits.trans h.nbits
  nwords := hf.set.nwords.trans h.nwords
  bits c := by
    have hold := h.bits c
    have hset := hf.set.bit c
    simp only [Sfs.counted, List.mem_cons, not_or]
    rw [hset]
    by_cases hc : c = b
    · simp [hc]
    · simp [hc, hold]
  free c hc := by
    rcases List.mem_cons.mp hc with rfl | hc
    · exact ((h.bits c).mp hf.bit).1
    · exact h.free c hc
  range c hc := by
    rcases List.mem_cons.mp hc with rfl | hc
    · rw [← h.superBlocks]
      exact hf.range
    · exact h.range c hc
  nodup := List.nodup_cons.mpr ⟨((h.bits b).mp hf.bit).2, h.nodup⟩
  unused := by
    have hold := h.unused
    have hpos := hf.unused
    simp only [Sfs.counted, List.length_cons]
    omega
  disk := h.disk

/-- A block that was free before is written. -/
theorem write {blk : Bytes} (h : Takes s t taken) (hb : s.freemap.bit b = true) :
    Takes s { t with disk := Function.update t.disk b blk } taken where
  superBlocks := h.superBlocks
  imgSize := h.imgSize
  inos := h.inos
  inodes := h.inodes
  nbits := h.nbits
  nwords := h.nwords
  bits := h.bits
  free := h.free
  range := h.range
  nodup := h.nodup
  unused := h.unused
  disk c hc := by
    have hne : c ≠ b := by
      intro heq
      rw [heq, hb] at hc
      exact Bool.noConfusion hc
    exact (Function.update_of_ne hne _ _).trans (h.disk c hc)

theorem allocated (h : Takes s t taken) (hf : Fresh t bm b) :
    Takes s (t.allocated bm b) (b :: taken) :=
  (h.counted hf).write ((h.bits b).mp hf.bit).1

/-- A taken block is given back. -/
theorem freed (h : Takes s t (b :: taken)) (hset : Bitmap.SetAt t.freemap bm b true) :
    Takes s (t.freed bm) taken where
  superBlocks := h.superBlocks
  imgSize := h.imgSize
  inos := h.inos
  inodes := h.inodes
  nbits := hset.nbits.trans h.nbits
  nwords := hset.nwords.trans h.nwords
  bits c := by
    have hold := h.bits c
    have hbit := hset.bit c
    simp only [Sfs.freed]
    rw [hbit]
    by_cases hc : c = b
    · subst hc
      simp only [if_true, true_iff]
      exact ⟨h.free c List.mem_cons_self, (List.nodup_cons.mp h.nodup).1⟩
    · rw [if_neg hc, hold]
      simp [hc]
  free c hc := h.free c (List.mem_cons_of_mem b hc)
  range c hc := h.range c (List.mem_cons_of_mem b hc)
  nodup := (List.nodup_cons.mp h.nodup).2
  unused := by
    have hold := h.unused
    simp only [Sfs.freed, List.length_cons] at hold ⊢
    omega
  disk := h.disk

/-- Entries of indirect blocks stay, as these blocks are in use. -/
theorem entryOf (h : Takes s t taken) (ha : Accounts s held) {ino : ℕ} (hino : ino ∈ s.inos)
    (hind : (s.din ino).indirect ≠ 0) (k : ℕ) :
    t.entryOf (s.din ino).indirect k = s.entryOf (s.din ino).indirect k := by
  have hbit := ha.ledger.taken _ _ (Sfs.owns_indirect hino hind)
  unfold Sfs.entryOf
  rw [h.disk _ (Bool.eq_false_iff.mpr hbit)]

theorem owns (h : Takes s t taken) (ha : Accounts s held) (o : Owner) (c : ℕ) :
    t.owns o c ↔ s.owns o c := by
  cases o with
  | super => exact Iff.rfl
  | freemap j =>
    unfold Sfs.owns Sfs.freemapBlocks
    rw [h.superBlocks]
  | inode i =>
    unfold Sfs.owns
    rw [h.inos]
  | direct i k =>
    simp only [Sfs.owns, h.inos, h.din]
  | indirect i =>
    simp only [Sfs.owns, h.inos, h.din]
  | entry i k =>
    simp only [Sfs.owns]
    rw [h.inos, h.din]
    refine and_congr_right (fun hi => and_congr_right (fun hind => ?_))
    rw [h.entryOf ha hi hind]

/-- The accounts after blocks were taken: these are in hand. -/
theorem accounts (h : Takes s t taken) (ha : Accounts s held) : Accounts t (taken ++ held) where
  mounted := by
    refine ⟨?_, ?_, ?_, ?_⟩
    · unfold Sfs.dBlocks
      rw [h.superBlocks, h.imgSize]
      exact ha.mounted.device
    · unfold Sfs.freemapBlocks
      rw [h.superBlocks, h.nbits]
      exact ha.mounted.nbits
    · rw [h.nbits, h.nwords]
      exact ha.mounted.nwords
    · have hcount := Bitmap.setBits_cleared h.nbits h.bits h.nodup (fun c hc =>
        ⟨h.free c hc, Nat.lt_of_lt_of_le (h.range c hc) ha.mounted.superBlocks_le⟩)
      have hunused := h.unused
      have hold := ha.mounted.count
      omega
  root := by
    rw [h.inos]
    exact ha.root
  ledger := by
    rw [h.superBlocks]
    exact (ha.ledger.takeAll h.nodup h.free h.bits).congr (h.owns ha)

theorem blockOf (h : Takes s t taken) (ha : Accounts s held) {ino : ℕ} (hino : ino ∈ s.inos)
    (k : ℕ) : t.blockOf ino k = s.blockOf ino k := by
  unfold Sfs.blockOf
  rw [h.din]
  by_cases hind : (s.din ino).indirect = 0
  · rw [if_pos hind, if_pos hind]
  · rw [if_neg hind, if_neg hind, h.entryOf ha hino hind]

theorem zeroTail (h : Takes s t taken) (ha : Accounts s held) (hz : s.ZeroTail) : t.ZeroTail := by
  intro i hi hind k hk hblocks
  rw [h.inos] at hi
  rw [h.din] at hind hblocks ⊢
  rw [h.entryOf ha hi hind]
  exact hz i hi hind k hk hblocks

theorem sound (h : Takes s t taken) (ha : Accounts s held) (hs : Sound s) : Sound t := by
  refine ⟨?_, ?_, ?_, ?_, ?_⟩
  · intro c hc
    rw [h.superBlocks]
    exact hs.beyond c ((h.bits c).mp hc).1
  · intro i hi k hk
    rw [h.inos] at hi
    rw [h.din] at hk
    rw [h.superBlocks, h.blockOf ha hi]
    exact hs.slots i hi k hk
  · intro i hi
    rw [h.inos] at hi
    rw [h.superBlocks, h.din]
    exact hs.direct i hi
  · intro i hi
    rw [h.inos] at hi
    rw [h.superBlocks, h.din]
    exact hs.indirect i hi
  · intro i hi
    rw [h.inos] at hi
    rw [h.din]
    exact hs.limit i hi

/-- A failed call that gave everything back keeps the invariant. -/
theorem inv (h : Takes s t []) (hi : Inv p s) : Inv p t :=
  ⟨h.accounts hi.accounts, h.zeroTail hi.accounts hi.zeroTail,
    fun hp => h.sound hi.accounts (hi.sound hp)⟩

/-- A file is changed with the help of taken blocks: apart from these, only its indirect block
was written. -/
theorem fileStep {s' : Sfs} {sin : ℕ} (h : Takes s t taken) (ha : Accounts s held)
    (hinos : s'.inos = t.inos) (hsuper : s'.superBlocks = t.superBlocks)
    (hmap : s'.freemap = t.freemap) (hothers : ∀ i, i ≠ sin → s'.inodes i = t.inodes i)
    (hdisk : ∀ c, c ∉ taken → ¬ s.owns (.indirect sin) c → s'.disk c = t.disk c) :
    FileStep s s' sin := by
  refine ⟨hinos.trans h.inos, hsuper.trans h.superBlocks, ?_, ?_, ?_⟩
  · intro o b ho hne
    have hbit := ha.ledger.taken _ _ ho
    have hfresh : b ∉ taken := fun hin => hbit (h.free b hin)
    have hind : ¬ s.owns (.indirect sin) b := fun hin => hne (ha.ledger.once _ _ _ ho hin)
    rw [hdisk b hfresh hind, h.disk b (Bool.eq_false_iff.mpr hbit)]
  · intro i hi
    rw [hothers i hi, h.inodes]
  · intro b hb
    rw [hmap] at hb
    exact Or.inl ((h.bits b).mp hb).1

end Takes

namespace Sfs

/-- The number of blocks that one more block at the end of a file takes from the free map. -/
def growthNeed (s : Sfs) (sin : ℕ) : ℕ :=
  if (s.din sin).blocks < nDirect then
    if (s.din sin).direct (s.din sin).blocks = 0 then 1 else 0
  else if (s.din sin).indirect = 0 then 2
  else 1

/-- The device refuses to clear a block that is taken to enlarge a file. -/
def GrowthRefused [SfsDevice] (s : Sfs) (sin : ℕ) : Prop :=
  if (s.din sin).blocks < nDirect then
    (s.din sin).direct (s.din sin).blocks = 0 ∧ s.ClearRefused
  else if (s.din sin).indirect = 0 then
    s.ClearRefused ∨ ∃ ent bm, s.freemap.bitmapAlloc = some (some ent, bm) ∧
      (s.allocated bm ent).ClearRefused
  else SfsDevice.refuses s false (s.din sin).indirect = false ∧ s.ClearRefused

end Sfs

/-- A file has one block more at its end, the block `b`; `taken` were taken for it. -/
structure Grown (p : Prop) (s : Sfs) (sin b : ℕ) (taken : List ℕ) (s' : Sfs) : Prop where
  inv : Inv p s'
  step : FileStep s s' sin
  kept : Kept s s'
  bits : ∀ c, s'.freemap.bit c = true ↔ s.freemap.bit c = true ∧ c ∉ taken
  free : ∀ c ∈ taken, s.freemap.bit c = true
  unused : s'.unusedBlocks + taken.length = s.unusedBlocks
  need : taken.length = s.growthNeed sin
  blocks : (s'.din sin).blocks = (s.din sin).blocks + 1
  direct : ∀ k, k ≠ (s.din sin).blocks → (s'.din sin).direct k = (s.din sin).direct k
  indirect : (s'.din sin).indirect = 0 ↔
    (s.din sin).blocks < nDirect ∧ (s.din sin).indirect = 0
  block : s'.blockOf sin (s.din sin).blocks = b
  nonzero : b ≠ 0
  range : b < s.superBlocks
  zero : 0 < s.growthNeed sin → ∀ i, s'.disk b i = 0

/-- The indirect block `ent` gets the entry `b`. -/
def Sfs.putEntry (s : Sfs) (ent index b : ℕ) : Sfs :=
  { s with disk := Function.update s.disk ent (patch (s.disk ent) (put32 b) (index * 4) 4) }

def Sfs.putDirect (s : Sfs) (sin index b : ℕ) : Sfs :=
  (s.setDin sin { s.din sin with
    direct := Function.update (s.din sin).direct index b }).setDirty sin

def Sfs.putIndirect (s : Sfs) (sin ent : ℕ) : Sfs :=
  (s.setDin sin { s.din sin with indirect := ent }).setDirty sin

/-- The ways in which `sfs_bmap_get_nolock` gets a block `b` for the index behind the last one,
and the state then. -/
inductive Adds (s : Sfs) (sin : ℕ) : ℕ → Sfs → Prop where
  | reuse : (s.din sin).blocks < nDirect → (s.din sin).direct (s.din sin).blocks ≠ 0 →
      Adds s sin ((s.din sin).direct (s.din sin).blocks) s
  | direct {bm : Bitmap} {b : ℕ} : (s.din sin).blocks < nDirect →
      (s.din sin).direct (s.din sin).blocks = 0 → Fresh s bm b →
      Adds s sin b ((s.allocated bm b).putDirect sin (s.din sin).blocks b)
  | entry {bm : Bitmap} {b index : ℕ} : (s.din sin).blocks = nDirect + index →
      index < blkNEntry → (s.din sin).indirect ≠ 0 → Fresh s bm b →
      Adds s sin b ((s.allocated bm b).putEntry (s.din sin).indirect index b)
  | indirect {bm bm' : Bitmap} {ent b index : ℕ} : (s.din sin).blocks = nDirect + index →
      index < blkNEntry → (s.din sin).indirect = 0 → Fresh s bm ent →
      Fresh (s.allocated bm ent) bm' b →
      Adds s sin b ((((s.allocated bm ent).allocated bm' b).putEntry ent index b).putIndirect
        sin ent)

/-- The invariant of a file that got the block `b` at its end. -/
theorem inv_of_slots {p : Prop} {s s' : Sfs} {sin b : ℕ} (hi : Inv p s) (hsin : sin ∈ s.inos)
    (hstep : FileStep s s' sin) (ha : Accounts s' []) (hlt : (s.din sin).blocks < maxBlocks)
    (hsize : (s'.din sin).size = (s.din sin).size) (htype : (s'.din sin).type = (s.din sin).type)
    (hblocks : (s'.din sin).blocks = (s.din sin).blocks + 1)
    (hslots : ∀ k < (s.din sin).blocks, s'.blockOf sin k = s.blockOf sin k)
    (hb : s'.blockOf sin (s.din sin).blocks = b) (h0 : b ≠ 0) (hrange : b < s.superBlocks)
    (hdirect : ∀ k < nDirect, (s'.din sin).direct k = (s.din sin).direct k ∨
      (s'.din sin).direct k = b)
    (hindirect : (s'.din sin).indirect = (s.din sin).indirect ∨
      (s'.din sin).indirect < s.superBlocks)
    (htail : (s'.din sin).indirect ≠ 0 → ∀ k < blkNEntry, (s.din sin).blocks + 1 ≤ nDirect + k →
      s'.entryOf (s'.din sin).indirect k = 0) : Inv p s' ∧ Kept s s' := by
  refine ⟨⟨ha, hstep.zeroTail hi.zeroTail ?_, ?_⟩, hstep.kept hsize htype (by omega) ?_⟩
  · rw [hblocks]
    exact htail
  · intro hp
    have hs := hi.sound hp
    refine hstep.sound hs ?_ ?_ ?_ (by omega)
    · intro k hk
      rw [hblocks] at hk
      rcases Nat.lt_succ_iff_lt_or_eq.mp hk with hk | rfl
      · rw [hslots k hk]
        exact hs.slots sin hsin k hk
      · rw [hb]
        exact ⟨h0, hrange⟩
    · intro k hk
      rcases hdirect k hk with heq | heq
      · rw [heq]
        exact hs.direct sin hsin k hk
      · rw [heq]
        exact hrange
    · rcases hindirect with heq | hlt'
      · rw [heq]
        exact hs.indirect sin hsin
      · exact hlt'
  · intro k hk _ _
    exact hslots k hk

namespace Adds

variable {p : Prop} {s t : Sfs} {sin b : ℕ}

/-- A direct slot that holds a block already is used as it is. -/
theorem reuse_grown (hi : Inv p s) (hsin : sin ∈ s.inos) (hlt : (s.din sin).blocks < nDirect)
    (h0 : (s.din sin).direct (s.din sin).blocks ≠ 0)
    (hrange : (s.din sin).direct (s.din sin).blocks < s.superBlocks) :
    Grown p s sin ((s.din sin).direct (s.din sin).blocks) [] (s.bump sin) := by
  have hdin : (s.bump sin).din sin = { s.din sin with blocks := (s.din sin).blocks + 1 } :=
    Sfs.din_setDin_self _ _ _
  have hstep : FileStep s (s.bump sin) sin := by
    refine (Takes.refl s).fileStep hi.accounts rfl rfl rfl ?_ (fun _ _ _ => rfl)
    intro i hne
    exact Function.update_of_ne hne _ _
  have hacc : Accounts (s.bump sin) [] := hi.accounts.setBlocks (fun k _ _ _ => by omega)
  have hblockOf : ∀ k, (s.bump sin).blockOf sin k = s.blockOf sin k := by
    intro k
    unfold Sfs.blockOf
    rw [hdin]
    rfl
  have hmax : (s.din sin).blocks < maxBlocks := by
    unfold maxBlocks
    omega
  have hself : s.blockOf sin (s.din sin).blocks = (s.din sin).direct (s.din sin).blocks :=
    if_pos hlt
  obtain ⟨hinv, hkept⟩ := inv_of_slots hi hsin hstep hacc hmax (by rw [hdin]) (by rw [hdin])
    (by rw [hdin]) (fun k _ => hblockOf k) ((hblockOf _).trans hself) h0 hrange
    (fun k _ => Or.inl (by rw [hdin])) (Or.inl (by rw [hdin])) (fun hind k hk hge => by
      rw [hdin] at hind ⊢
      exact hi.zeroTail sin hsin hind k hk (by omega))
  have hneed : s.growthNeed sin = 0 := by
    unfold Sfs.growthNeed
    rw [if_pos hlt, if_neg h0]
  refine ⟨hinv, hstep, hkept, fun c => ?_, ?_, rfl, hneed.symm, by rw [hdin], ?_,
    by rw [hdin]; simp [hlt], (hblockOf _).trans hself, h0, hrange, ?_⟩
  · simp only [List.not_mem_nil, not_false_eq_true, and_true]
    exact Iff.rfl
  · intro c hc
    exact absurd hc List.not_mem_nil
  · intro k _
    rw [hdin]
  · intro hpos
    omega

theorem direct_grown {bm : Bitmap} (hi : Inv p s) (hsin : sin ∈ s.inos)
    (hlt : (s.din sin).blocks < nDirect) (hempty : (s.din sin).direct (s.din sin).blocks = 0)
    (hf : Fresh s bm b) :
    Grown p s sin b [b] (((s.allocated bm b).putDirect sin (s.din sin).blocks b).bump sin) := by
  have htakes := (Takes.refl s).allocated hf
  have hdin₁ : ∀ i, (s.allocated bm b).din i = s.din i := fun i => rfl
  have hdin₂ : ((s.allocated bm b).putDirect sin (s.din sin).blocks b).din sin =
      { s.din sin with direct := Function.update (s.din sin).direct (s.din sin).blocks b } := by
    unfold Sfs.putDirect
    rw [Sfs.din_setDirty, Sfs.din_setDin_self]
    rfl
  have hdin : (((s.allocated bm b).putDirect sin (s.din sin).blocks b).bump sin).din sin =
      { s.din sin with
        direct := Function.update (s.din sin).direct (s.din sin).blocks b
        blocks := (s.din sin).blocks + 1 } := by
    unfold Sfs.bump
    rw [Sfs.din_setDin_self, hdin₂]
  generalize hs' : ((s.allocated bm b).putDirect sin (s.din sin).blocks b).bump sin = s' at hdin ⊢
  have hothers : ∀ i, i ≠ sin → s'.inodes i = (s.allocated bm b).inodes i := by
    intro i hne
    rw [← hs']
    simp [Sfs.bump, Sfs.putDirect, Sfs.setDin, Sfs.setDirty, Function.update_of_ne hne]
  have hdisk : s'.disk = (s.allocated bm b).disk := by
    rw [← hs']
    rfl
  have hmap : s'.freemap = (s.allocated bm b).freemap := by
    rw [← hs']
    rfl
  have hunused : s'.unusedBlocks = (s.allocated bm b).unusedBlocks := by
    rw [← hs']
    rfl
  have hstep : FileStep s s' sin := by
    refine htakes.fileStep hi.accounts (by rw [← hs']; rfl) (by rw [← hs']; rfl) hmap hothers ?_
    intro c _ _
    rw [hdisk]
  have hacc : Accounts s' [] := by
    have h₁ : Accounts (s.allocated bm b) [b] := htakes.accounts hi.accounts
    have h₂ := h₁.enterDirect hsin hlt hf.nonzero hempty
    have h₃ := @Accounts.setBlocks _ _ sin ((s.din sin).blocks + 1) (h₂.setDirty sin) ?_
    · rw [← hs']
      unfold Sfs.bump Sfs.putDirect
      rw [Sfs.din_setDirty, Sfs.din_setDin_self] at h₃ ⊢
      exact h₃
    · intro k _ _ _
      rw [Sfs.din_setDirty, Sfs.din_setDin_self]
      change _ ↔ nDirect + k < (s.din sin).blocks
      omega
  have hmax : (s.din sin).blocks < maxBlocks := by
    unfold maxBlocks
    omega
  have hdirect : ∀ k, k ≠ (s.din sin).blocks → (s'.din sin).direct k = (s.din sin).direct k := by
    intro k hk
    rw [hdin]
    exact Function.update_of_ne hk _ _
  have hself : s'.blockOf sin (s.din sin).blocks = b := by
    unfold Sfs.blockOf
    rw [if_pos hlt, hdin]
    exact Function.update_self _ _ _
  have hentry : (s.din sin).indirect ≠ 0 → ∀ k, s'.entryOf (s.din sin).indirect k =
      s.entryOf (s.din sin).indirect k := by
    intro hind k
    have hown := Sfs.owns_indirect hsin hind
    have hne : (s.din sin).indirect ≠ b := hi.accounts.indirect_ne hsin hind (Or.inl hf.bit)
    unfold Sfs.entryOf
    rw [hdisk]
    simp only [Sfs.allocated, Function.update_of_ne hne]
  have hslots : ∀ k < (s.din sin).blocks, s'.blockOf sin k = s.blockOf sin k := by
    intro k hk
    have hkd : k < nDirect := by omega
    unfold Sfs.blockOf
    rw [if_pos hkd, if_pos hkd]
    exact hdirect k (by omega)
  have hind' : (s'.din sin).indirect = (s.din sin).indirect := by rw [hdin]
  have hslot : ∀ k < nDirect, (s'.din sin).direct k = (s.din sin).direct k ∨
      (s'.din sin).direct k = b := by
    intro k _
    by_cases hk : k = (s.din sin).blocks
    · right
      rw [hk, hdin]
      exact Function.update_self _ _ _
    · exact Or.inl (hdirect k hk)
  have htail : (s'.din sin).indirect ≠ 0 → ∀ k < blkNEntry,
      (s.din sin).blocks + 1 ≤ nDirect + k → s'.entryOf (s'.din sin).indirect k = 0 := by
    intro hind k hk hge
    rw [hind'] at hind ⊢
    rw [hentry hind]
    exact hi.zeroTail sin hsin hind k hk (by omega)
  obtain ⟨hinv, hkept⟩ := inv_of_slots hi hsin hstep hacc hmax (by rw [hdin]) (by rw [hdin])
    (by rw [hdin]) hslots hself hf.nonzero hf.range hslot (Or.inl hind') htail
  have hneed : s.growthNeed sin = 1 := by
    unfold Sfs.growthNeed
    rw [if_pos hlt, if_pos hempty]
  refine ⟨hinv, hstep, hkept, ?_, htakes.free, ?_, hneed.symm, by rw [hdin], hdirect,
    by rw [hdin]; simp [hlt], hself, hf.nonzero, hf.range, ?_⟩
  · intro c
    rw [hmap]
    exact htakes.bits c
  · rw [hunused]
    exact htakes.unused
  · intro _ i
    rw [hdisk]
    simp [Sfs.allocated]

/-- The block `b` is entered in the indirect block `ent`, which is the old one or was taken
just before. -/
theorem slot_grown {u s' : Sfs} {taken : List ℕ} {ent index : ℕ} (hi : Inv p s)
    (hsin : sin ∈ s.inos) (hblocks : (s.din sin).blocks = nDirect + index)
    (hindex : index < blkNEntry) (htakes : Takes s u taken) (hb : b ∈ taken) (h0 : b ≠ 0)
    (hent : ent ∈ taken ∧ (s.din sin).indirect = 0 ∨
      (s.din sin).indirect = ent ∧ (s.din sin).indirect ≠ 0)
    (hne : ent ≠ b) (hent0 : ent ≠ 0)
    (hentry : ∀ k < blkNEntry, u.entryOf ent k =
      if (s.din sin).indirect = 0 then 0 else s.entryOf (s.din sin).indirect k)
    (hzero : ∀ i, u.disk b i = 0) (hneed : taken.length = s.growthNeed sin)
    (hacc : Accounts s' []) (hdisk : s'.disk = (u.putEntry ent index b).disk)
    (hmap : s'.freemap = u.freemap) (hunused : s'.unusedBlocks = u.unusedBlocks)
    (hinos : s'.inos = u.inos) (hsuper : s'.superBlocks = u.superBlocks)
    (hothers : ∀ i, i ≠ sin → s'.inodes i = u.inodes i)
    (hdin : s'.din sin =
      { s.din sin with indirect := ent, blocks := (s.din sin).blocks + 1 }) :
    Grown p s sin b taken s' := by
  have hrange : b < s.superBlocks := htakes.range b hb
  have hword : b < 2 ^ 32 := hi.accounts.mounted.block_lt_word hrange
  have hstep : FileStep s s' sin := by
    refine htakes.fileStep hi.accounts hinos hsuper hmap hothers ?_
    intro c hc hown
    have hce : c ≠ ent := by
      intro heq
      rcases hent with hin | hold
      · exact hc (heq ▸ hin.1)
      · refine hown ?_
        rw [heq, ← hold.1]
        exact Sfs.owns_indirect hsin hold.2
    rw [hdisk]
    exact Function.update_of_ne hce _ _
  have hentry' : ∀ k < blkNEntry, s'.entryOf ent k = if k = index then b else
      if (s.din sin).indirect = 0 then 0 else s.entryOf (s.din sin).indirect k := by
    intro k hk
    rw [← hentry k hk]
    unfold Sfs.entryOf
    rw [hdisk]
    simp only [Sfs.putEntry, Function.update_self]
    exact get32_patch hword
  have hblockOf : ∀ k, nDirect ≤ k → s'.blockOf sin k = s'.entryOf ent (k - nDirect) := by
    intro k hk
    unfold Sfs.blockOf
    rw [if_neg (by omega), hdin]
    exact if_neg hent0
  have hself : s'.blockOf sin (s.din sin).blocks = b := by
    rw [hblockOf _ (by omega), hentry' _ (by omega), if_pos (by omega)]
  have hmax : (s.din sin).blocks < maxBlocks := by
    unfold maxBlocks
    omega
  have hslots : ∀ k < (s.din sin).blocks, s'.blockOf sin k = s.blockOf sin k := by
    intro k hk
    by_cases hd : k < nDirect
    · unfold Sfs.blockOf
      rw [if_pos hd, if_pos hd, hdin]
    · rw [hblockOf k (by omega), hentry' _ (by omega), if_neg (by omega)]
      unfold Sfs.blockOf
      rw [if_neg hd]
  have htail : (s'.din sin).indirect ≠ 0 → ∀ k < blkNEntry,
      (s.din sin).blocks + 1 ≤ nDirect + k → s'.entryOf (s'.din sin).indirect k = 0 := by
    intro _ k hk hge
    rw [hdin]
    rw [hentry' k hk, if_neg (by omega)]
    by_cases hind : (s.din sin).indirect = 0
    · rw [if_pos hind]
    · rw [if_neg hind]
      exact hi.zeroTail sin hsin hind k hk (by omega)
  have hind' : (s'.din sin).indirect = (s.din sin).indirect ∨
      (s'.din sin).indirect < s.superBlocks := by
    rw [hdin]
    rcases hent with hin | hold
    · exact Or.inr (htakes.range ent hin.1)
    · exact Or.inl hold.1.symm
  obtain ⟨hinv, hkept⟩ := inv_of_slots hi hsin hstep hacc hmax (by rw [hdin]) (by rw [hdin])
    (by rw [hdin]) hslots hself h0 hrange (fun k _ => Or.inl (by rw [hdin])) hind' htail
  have hge : ¬ (s.din sin).blocks < nDirect := by omega
  refine ⟨hinv, hstep, hkept, ?_, htakes.free, ?_, hneed, by rw [hdin], ?_,
    by rw [hdin]; simp [hge, hent0], hself, h0, hrange, ?_⟩
  · intro c
    rw [hmap]
    exact htakes.bits c
  · rw [hunused]
    exact htakes.unused
  · intro k _
    rw [hdin]
  · intro _ i
    rw [hdisk]
    simp only [Sfs.putEntry, Function.update_of_ne hne.symm]
    exact hzero i

/-- The existing indirect block gets one more entry. -/
theorem entry_grown {bm : Bitmap} {index : ℕ} (hi : Inv p s) (hsin : sin ∈ s.inos)
    (hblocks : (s.din sin).blocks = nDirect + index) (hindex : index < blkNEntry)
    (hind : (s.din sin).indirect ≠ 0) (hf : Fresh s bm b) :
    Grown p s sin b [b] (((s.allocated bm b).putEntry (s.din sin).indirect index b).bump sin) := by
  have htakes := (Takes.refl s).allocated hf
  have hne : (s.din sin).indirect ≠ b := hi.accounts.indirect_ne hsin hind (Or.inl hf.bit)
  have hword : b < 2 ^ 32 := hi.accounts.mounted.block_lt_word hf.range
  have hdin : (((s.allocated bm b).putEntry (s.din sin).indirect index b).bump sin).din sin =
      { s.din sin with blocks := (s.din sin).blocks + 1 } := Sfs.din_setDin_self _ _ _
  have hneed : s.growthNeed sin = 1 := by
    unfold Sfs.growthNeed
    rw [if_neg (by omega), if_neg hind]
  have hentry : ∀ k, ((s.allocated bm b).putEntry (s.din sin).indirect index b).entryOf
      (s.din sin).indirect k = if k = index then b else s.entryOf (s.din sin).indirect k := by
    intro k
    unfold Sfs.entryOf
    simp only [Sfs.putEntry, Function.update_self]
    rw [get32_patch hword]
    simp only [Sfs.allocated, Function.update_of_ne hne]
  have hacc : Accounts (((s.allocated bm b).putEntry (s.din sin).indirect index b).bump sin) [] := by
    have h₁ : Accounts (s.allocated bm b) [b] := htakes.accounts hi.accounts
    have h₂ : Accounts ((s.allocated bm b).putEntry (s.din sin).indirect index b) [b] := by
      refine @Accounts.writeEntry _ _ sin index _ h₁ hsin hind hblocks.le ?_
      intro k hk
      rw [get32_patch hword, if_neg hk]
      rfl
    refine h₂.growEntry hsin hf.nonzero hindex hblocks hind ?_
    exact (hentry index).trans (if_pos rfl)
  refine slot_grown hi hsin hblocks hindex htakes List.mem_cons_self hf.nonzero
    (Or.inr ⟨rfl, hind⟩) hne hind ?_ ?_ hneed.symm hacc rfl rfl rfl rfl rfl ?_ hdin
  · intro k _
    rw [if_neg hind]
    unfold Sfs.entryOf
    simp only [Sfs.allocated, Function.update_of_ne hne]
  · intro i
    simp [Sfs.allocated]
  · intro i hi'
    simp [Sfs.bump, Sfs.setDin, Sfs.putEntry, Function.update_of_ne hi']

/-- A new indirect block gets the entry. -/
theorem indirect_grown {bm bm' : Bitmap} {ent index : ℕ} (hi : Inv p s) (hsin : sin ∈ s.inos)
    (hblocks : (s.din sin).blocks = nDirect + index) (hindex : index < blkNEntry)
    (hind : (s.din sin).indirect = 0) (hf : Fresh s bm ent)
    (hf' : Fresh (s.allocated bm ent) bm' b) :
    Grown p s sin b [b, ent] (((((s.allocated bm ent).allocated bm' b).putEntry ent index
      b).putIndirect sin ent).bump sin) := by
  have htakes := ((Takes.refl s).allocated hf).allocated hf'
  have hne : ent ≠ b := by
    have hnodup := htakes.nodup
    simp only [List.nodup_cons, List.mem_singleton] at hnodup
    exact fun heq => hnodup.1 heq.symm
  have hword : b < 2 ^ 32 := hi.accounts.mounted.block_lt_word hf'.range
  have hdin₀ : ((((s.allocated bm ent).allocated bm' b).putEntry ent index b).putIndirect sin
      ent).din sin = { s.din sin with indirect := ent } := by
    unfold Sfs.putIndirect
    rw [Sfs.din_setDirty, Sfs.din_setDin_self]
    rfl
  have hdin : (((((s.allocated bm ent).allocated bm' b).putEntry ent index b).putIndirect sin
      ent).bump sin).din sin =
        { s.din sin with indirect := ent, blocks := (s.din sin).blocks + 1 } := by
    unfold Sfs.bump
    rw [Sfs.din_setDin_self, hdin₀]
  have hneed : s.growthNeed sin = 2 := by
    unfold Sfs.growthNeed
    rw [if_neg (by omega), if_pos hind]
  have hclear : ∀ k, ((s.allocated bm ent).allocated bm' b).entryOf ent k = 0 := by
    intro k
    unfold Sfs.entryOf
    have hblk : ((s.allocated bm ent).allocated bm' b).disk ent = fun _ => 0 := by
      simp only [Sfs.allocated, Sfs.counted, Function.update_of_ne hne, Function.update_self]
    rw [hblk]
    rfl
  have hentry : ∀ k, (((s.allocated bm ent).allocated bm' b).putEntry ent index b).entryOf ent k =
      if k = index then b else 0 := by
    intro k
    rw [← hclear k]
    unfold Sfs.entryOf
    simp only [Sfs.putEntry, Function.update_self]
    exact get32_patch hword
  have hacc : Accounts (((((s.allocated bm ent).allocated bm' b).putEntry ent index b).putIndirect
      sin ent).bump sin) [] := by
    have h₁ : Accounts ((s.allocated bm ent).allocated bm' b) [b, ent] :=
      htakes.accounts hi.accounts
    have h₂ : Accounts (((s.allocated bm ent).allocated bm' b).putEntry ent index b) [b, ent] :=
      h₁.write (fun i hii hindi => h₁.indirect_ne hii hindi (Or.inr (by simp)))
    have h₃ := (h₂.perm (List.Perm.swap ent b [])).enterIndirect hsin hf.nonzero hind (by
      intro k _ hlt
      rw [hentry k]
      have hlt' : nDirect + k < (s.din sin).blocks := hlt
      exact if_neg (by omega))
    have h₄ := h₃.setDirty sin
    refine h₄.growEntry hsin hf'.nonzero hindex ?_ ?_ ?_
    · rw [Sfs.din_setDirty, Sfs.din_setDin_self]
      exact hblocks
    · rw [Sfs.din_setDirty, Sfs.din_setDin_self]
      exact hf.nonzero
    · rw [Sfs.din_setDirty, Sfs.din_setDin_self]
      exact (hentry index).trans (if_pos rfl)
  refine slot_grown hi hsin hblocks hindex htakes List.mem_cons_self hf'.nonzero
    (Or.inl ⟨by simp, hind⟩) hne hf.nonzero ?_ ?_ hneed.symm hacc rfl rfl rfl rfl rfl ?_ hdin
  · intro k _
    rw [if_pos hind]
    exact hclear k
  · intro i
    simp [Sfs.allocated]
  · intro i hi'
    simp [Sfs.bump, Sfs.setDin, Sfs.putEntry, Sfs.putIndirect, Sfs.setDirty,
      Function.update_of_ne hi']

/-- The file with its new block. -/
theorem grown (hi : Inv p s) (hsin : sin ∈ s.inos) (h : Adds s sin b t)
    (hrange : b < s.superBlocks) : ∃ taken, Grown p s sin b taken (t.bump sin) := by
  cases h with
  | reuse hlt h0 => exact ⟨[], reuse_grown hi hsin hlt h0 hrange⟩
  | direct hlt h0 hf => exact ⟨[b], direct_grown hi hsin hlt h0 hf⟩
  | entry hblocks hindex hind hf => exact ⟨[b], entry_grown hi hsin hblocks hindex hind hf⟩
  | indirect hblocks hindex hind hf hf' =>
    exact ⟨_, indirect_grown hi hsin hblocks hindex hind hf hf'⟩

theorem range (h : Adds s sin b t) :
    b < s.superBlocks ∨ ∃ k < nDirect, (s.din sin).direct k = b := by
  cases h with
  | reuse hlt _ => exact Or.inr ⟨_, hlt, rfl⟩
  | direct _ _ hf => exact Or.inl hf.range
  | entry _ _ _ hf => exact Or.inl hf.range
  | indirect _ _ _ _ hf' => exact Or.inl hf'.range

/-- The new block passes the assertions behind it. -/
theorem in_use (hi : Inv p s) (hsin : sin ∈ s.inos) (h : Adds s sin b t) :
    b ≠ 0 ∧ t.superBlocks = s.superBlocks ∧ Mounted t ∧ t.freemap.bit b = false := by
  have hother : ∀ taken, Grown p s sin b taken (t.bump sin) →
      b ≠ 0 ∧ t.superBlocks = s.superBlocks ∧ Mounted t ∧ t.freemap.bit b = false := by
    intro taken hg
    have hacc := hg.inv.accounts
    have hm : (s.din sin).blocks < maxBlocks := by
      cases h with
      | reuse hlt _ => exact Nat.lt_of_lt_of_le hlt (Nat.le_add_right _ _)
      | direct hlt _ _ => exact Nat.lt_of_lt_of_le hlt (Nat.le_add_right _ _)
      | entry hblocks hindex _ _ =>
        unfold maxBlocks
        omega
      | indirect hblocks hindex _ _ _ =>
        unfold maxBlocks
        omega
    have hown : (t.bump sin).owns (Sfs.slotOwner sin (s.din sin).blocks) b := by
      have hslot := Sfs.owns_slot (hg.step.inos ▸ hsin) (k := (s.din sin).blocks)
        (by rw [hg.blocks]; omega) hm (by rw [hg.block]; exact hg.nonzero)
      rw [hg.block] at hslot
      exact hslot
    exact ⟨hg.nonzero, hg.step.superBlocks,
      ⟨hacc.mounted.device, hacc.mounted.nbits, hacc.mounted.nwords, hacc.mounted.count⟩,
      Bool.eq_false_iff.mpr (hacc.ledger.taken _ _ hown)⟩
  cases h with
  | reuse hlt h0 =>
    have hown : s.owns (.direct sin (s.din sin).blocks) ((s.din sin).direct (s.din sin).blocks) :=
      ⟨hsin, hlt, rfl, h0⟩
    exact ⟨h0, rfl, hi.accounts.mounted,
      Bool.eq_false_iff.mpr (hi.accounts.ledger.taken _ _ hown)⟩
  | direct hlt h0 hf => exact hother _ (direct_grown hi hsin hlt h0 hf)
  | entry hblocks hindex hind hf =>
    exact hother _ (entry_grown hi hsin hblocks hindex hind hf)
  | indirect hblocks hindex hind hf hf' =>
    exact hother _ (indirect_grown hi hsin hblocks hindex hind hf hf')

end Adds

variable [SfsDevice] {p : Prop} {s t : Sfs} {E : SfsError → Sfs → Prop} {taken : List ℕ}

/-- The device refuses some requests. -/
def Faulty : Prop := ∃ s w b, SfsDevice.refuses s w b = true

omit [SfsDevice] in
theorem not_faulty_working : ¬ @Faulty workingDevice := by
  intro h
  obtain ⟨s, w, b, hr⟩ := h
  exact Bool.false_ne_true hr

omit [SfsDevice] in
/-- The clean-up of `sfs_bmap_get_sub_nolock` gives a new indirect block back. -/
theorem cleanup_ends {entp ent : ℕ} {lost : List ℕ} (ha : Accounts s [])
    (ht : Takes s t (lost ++ if ent ≠ entp then [ent] else [])) :
    Ends p (if ent ≠ entp then sfsBlockFree ent else pure ⟨⟩) t
      (fun _ t' => Takes s t' lost) E := by
  by_cases hent : ent ≠ entp
  · rw [if_pos hent] at ht ⊢
    have hin : ent ∈ lost ++ [ent] := by simp
    have hacc := ht.accounts ha
    have hbit : t.freemap.bit ent = false :=
      Bool.eq_false_iff.mpr (hacc.ledger.hand ent (List.mem_append_left _ hin))
    have hfree := ht.free ent hin
    have hlt : ent < t.superBlocks := by
      rw [ht.superBlocks]
      exact ht.range ent hin
    have h0 : ent ≠ 0 := by
      intro heq
      rw [heq, ha.bit_zero] at hfree
      exact Bool.noConfusion hfree
    refine sfsBlockFree_ends hacc.mounted (fun hbad => absurd ⟨h0, hlt, hbit⟩ hbad) ?_
    intro bm _ hset
    exact (ht.perm (List.perm_append_singleton ent lost)).freed hset
  · rw [if_neg hent] at ht ⊢
    rw [List.append_nil] at ht
    exact Ends.pure ht

/-- How `enterBlock` ends, after the blocks `taken` were taken: the new indirect block, if there
is one. -/
theorem enterBlock_ends {entp ent index : ℕ} {Q : ℕ × ℕ → Sfs → Prop} (hi : Inv p s)
    (ht : Takes s t (if ent ≠ entp then [ent] else []))
    (h0 : ent ≠ 0) (hlt : ent < s.superBlocks)
    (hindex : index < blkNEntry)
    (hfail : ∀ e t', Takes s t' [] → ¬ t.ClearRefused → t.unusedBlocks = 0 ∨ Faulty → E e t')
    (hleak : ∀ e t' b, Takes s t' [b] → t.ClearRefused → E e t')
    (hQ : ∀ b bm, Fresh t bm b → ¬ t.ClearRefused →
      Q (ent, b) ((t.allocated bm b).putEntry ent index b)) :
    Ends p (enterBlock entp ent (index * 4)) t Q E := by
  unfold enterBlock
  have ha := hi.accounts
  have hacc := ht.accounts ha
  have hoff : index * 4 < blkSize ∧ index * 4 + 4 ≤ blkSize := by
    unfold blkNEntry blkSize at *
    omega
  refine Ends.onError (Ends.bind (sfsBlockAlloc_ends hacc.mounted hacc.bit_zero ?_ ?_ ?_ ?_))
  · intro b hb hge
    refine hi.beyond b ((ht.bits b).mp hb).1 ?_
    rw [← ht.superBlocks]
    exact hge
  · intro hfull hnone
    refine (@cleanup_ends _ _ _ (fun _ _ => False) _ _ [] ha ht).mono ?_ (fun _ _ he => he)
    intro _ t' ht'
    exact hfail _ t' ht' (not_clearRefused_of_full hnone) (Or.inl hfull)
  · intro b bm hf hclear
    have htaken := ht.counted hf
    refine (@cleanup_ends _ _ _ (fun _ _ => False) _ _ [b] ha htaken).mono ?_
      (fun _ _ he => he)
    intro _ t' ht'
    exact hleak _ t' b ht' hclear
  · intro b bm hf hclear
    have htaken := ht.allocated hf
    have hacc' := htaken.accounts ha
    refine Ends.bind (Ends.onError (sfsWbuf_ends hacc'.mounted hoff ?_ ?_ ?_))
    · intro hbad
      refine absurd ⟨h0, ?_⟩ hbad
      rw [htaken.superBlocks]
      exact hlt
    · -- the entry could not be written: both blocks go back
      intro hr
      have hfaulty : Faulty := by
        rcases hr with hr | hr
        · exact ⟨_, _, _, hr⟩
        · exact ⟨_, _, _, hr⟩
      have hbit : (t.allocated bm b).freemap.bit b = false :=
        Bool.eq_false_iff.mpr (hacc'.ledger.hand b (by simp))
      refine sfsBlockFree_ends hacc'.mounted
        (fun hbad => absurd ⟨hf.nonzero, hf.range, hbit⟩ hbad) ?_
      intro bm' _ hset
      refine (@cleanup_ends _ _ _ (fun _ _ => False) _ _ [] ha (htaken.freed hset)).mono ?_
        (fun _ _ he => he)
      intro _ t' ht'
      exact hfail _ t' ht' hclear (Or.inr hfaulty)
    · intro _ _
      exact Ends.pure (hQ b bm hf hclear)

/-! Enlarging a file by one block: the block is found, or nothing was taken, or the device
refused to clear a block, which is lost then. -/

variable {sin : ℕ} {Q : ℕ → Sfs → Prop}

theorem getDirect_grow_ends (hi : Inv p s) (hlt : (s.din sin).blocks < nDirect)
    (hfail : ∀ e t, Takes s t [] → ¬ s.GrowthRefused sin →
      s.unusedBlocks < s.growthNeed sin ∨ Faulty → E e t)
    (hleak : ∀ e t b, Takes s t [b] → s.GrowthRefused sin → E e t)
    (hQ : ∀ b t, Adds s sin b t → ¬ s.GrowthRefused sin → Q b t) :
    Ends p (getDirect sin (s.din sin).blocks true) s Q E := by
  have hrefused : s.GrowthRefused sin ↔
      (s.din sin).direct (s.din sin).blocks = 0 ∧ s.ClearRefused := by
    unfold Sfs.GrowthRefused
    rw [if_pos hlt]
  unfold getDirect
  refine Ends.bind (Ends.read ?_)
  by_cases hempty : (s.din sin).direct (s.din sin).blocks = 0
  · rw [if_pos ⟨hempty, rfl⟩]
    have hneed : s.growthNeed sin = 1 := by
      unfold Sfs.growthNeed
      rw [if_pos hlt, if_pos hempty]
    refine Ends.bind (sfsBlockAlloc_ends hi.accounts.mounted hi.accounts.bit_zero hi.beyond ?_ ?_ ?_)
    · intro hfull hnone
      refine hfail _ _ (Takes.refl s) ?_ (Or.inl (by omega))
      exact fun hbad => not_clearRefused_of_full hnone (hrefused.mp hbad).2
    · intro b bm hf hclear
      exact hleak _ _ b ((Takes.refl s).counted hf) (hrefused.mpr ⟨hempty, hclear⟩)
    · intro b bm hf hclear
      refine Ends.bind (Ends.modify (Ends.pure (hQ _ _ (Adds.direct hlt hempty hf) ?_)))
      exact fun hbad => hclear (hrefused.mp hbad).2
  · rw [if_neg (fun hbad => hempty hbad.1)]
    refine Ends.pure (hQ _ _ (Adds.reuse hlt hempty) ?_)
    exact fun hbad => hempty (hrefused.mp hbad).1

theorem sfsBmapGetSubNolock_grow_ends {index : ℕ} {Q : ℕ × ℕ → Sfs → Prop} (hi : Inv p s)
    (hsin : sin ∈ s.inos) (hblocks : (s.din sin).blocks = nDirect + index)
    (hindex : index < blkNEntry)
    (hfail : ∀ e t, Takes s t [] → ¬ s.GrowthRefused sin →
      s.unusedBlocks < s.growthNeed sin ∨ Faulty → E e t)
    (hleak : ∀ e t b, Takes s t [b] → s.GrowthRefused sin → E e t)
    (hentry : ∀ b bm, (s.din sin).indirect ≠ 0 → Fresh s bm b → ¬ s.GrowthRefused sin →
      Q ((s.din sin).indirect, b) ((s.allocated bm b).putEntry (s.din sin).indirect index b))
    (hnew : ∀ ent bm b bm', (s.din sin).indirect = 0 → Fresh s bm ent →
      Fresh (s.allocated bm ent) bm' b → ¬ s.GrowthRefused sin →
      Q (ent, b) (((s.allocated bm ent).allocated bm' b).putEntry ent index b)) :
    Ends p (sfsBmapGetSubNolock (s.din sin).indirect index true) s Q E := by
  have hge : ¬ (s.din sin).blocks < nDirect := by omega
  unfold sfsBmapGetSubNolock
  refine Ends.bind (Ends.require (fun _ => ?_) (fun hbad => absurd hindex hbad))
  by_cases hind : (s.din sin).indirect = 0
  · rw [if_neg (not_not.mpr hind), if_neg (by simp)]
    have hneed : s.growthNeed sin = 2 := by
      unfold Sfs.growthNeed
      rw [if_neg hge, if_pos hind]
    have hrefused : s.GrowthRefused sin ↔ s.ClearRefused ∨ ∃ ent bm,
        s.freemap.bitmapAlloc = some (some ent, bm) ∧ (s.allocated bm ent).ClearRefused := by
      unfold Sfs.GrowthRefused
      rw [if_neg hge, if_pos hind]
    refine Ends.bind (sfsBlockAlloc_ends hi.accounts.mounted hi.accounts.bit_zero hi.beyond ?_ ?_ ?_)
    · intro hfull hnone
      refine hfail _ _ (Takes.refl s) ?_ (Or.inl (by omega))
      intro hbad
      rcases hrefused.mp hbad with hbad | ⟨ent, bm, halloc, -⟩
      · exact not_clearRefused_of_full hnone hbad
      · rw [hnone] at halloc
        exact absurd (congrArg Prod.fst (Option.some.inj halloc)) (by simp)
    · intro b bm hf hclear
      exact hleak _ _ b ((Takes.refl s).counted hf) (hrefused.mpr (Or.inl hclear))
    · intro ent bm hf hclear
      have htakes := (Takes.refl s).allocated hf
      have honly : s.GrowthRefused sin ↔ (s.allocated bm ent).ClearRefused := by
        rw [hrefused]
        constructor
        · intro hbad
          rcases hbad with hbad | ⟨ent', bm', halloc, hbad⟩
          · exact absurd hbad hclear
          · rw [hf.found] at halloc
            simp only [Option.some.injEq, Prod.mk.injEq] at halloc
            obtain ⟨rfl, rfl⟩ := halloc
            exact hbad
        · intro hbad
          exact Or.inr ⟨ent, bm, hf.found, hbad⟩
      have hent : (s.din sin).indirect ≠ ent := by
        rw [hind]
        exact hf.nonzero.symm
      rw [hind]
      refine enterBlock_ends hi ?_ hf.nonzero hf.range hindex ?_ ?_ ?_
      · rw [if_pos hf.nonzero]
        exact htakes
      · intro e t ht hclear' hwhy
        refine hfail e t ht (fun hbad => hclear' (honly.mp hbad)) (hwhy.imp_left (fun hfull => ?_))
        have hcount := htakes.unused
        simp only [List.length_singleton] at hcount
        omega
      · intro e t b ht hclear'
        exact hleak e t b ht (honly.mpr hclear')
      · intro b bm' hf' hclear'
        exact hnew ent bm b bm' hind hf hf' (fun hbad => hclear' (honly.mp hbad))
  · rw [if_pos hind]
    have hneed : s.growthNeed sin = 1 := by
      unfold Sfs.growthNeed
      rw [if_neg hge, if_neg hind]
    have hrefused : s.GrowthRefused sin ↔
        SfsDevice.refuses s false (s.din sin).indirect = false ∧ s.ClearRefused := by
      unfold Sfs.GrowthRefused
      rw [if_neg hge, if_neg hind]
    have hoff : index * 4 < blkSize ∧ index * 4 + 4 ≤ blkSize := by
      unfold blkNEntry blkSize at *
      omega
    refine Ends.bind (sfsRbuf_ends hi.accounts.mounted hoff ?_ ?_ ?_)
    · intro hbad
      exact hi.indirect hsin (fun hlt => hbad ⟨hind, hlt⟩)
    · intro hr
      refine hfail _ _ (Takes.refl s) ?_ (Or.inr ⟨_, _, _, hr⟩)
      intro hbad
      rw [(hrefused.mp hbad).1] at hr
      exact Bool.noConfusion hr
    · intro _ hlt hr
      have hzero : get32 (fun i => s.disk (s.din sin).indirect (index * 4 + i)) = 0 :=
        hi.zeroTail sin hsin hind index hindex hblocks.le
      have honly : s.GrowthRefused sin ↔ s.ClearRefused := by
        rw [hrefused]
        simp [hr]
      rw [if_neg (by rw [hzero]; simp)]
      refine enterBlock_ends hi ?_ hind hlt hindex ?_ ?_ ?_
      · rw [if_neg (not_not.mpr rfl)]
        exact Takes.refl s
      · intro e t ht hclear hwhy
        refine hfail e t ht (fun hbad => hclear (honly.mp hbad)) (hwhy.imp_left (fun hfull => ?_))
        omega
      · intro e t b ht hclear
        exact hleak e t b ht (honly.mpr hclear)
      · intro b bm hf hclear
        exact hentry b bm hind hf (fun hbad => hclear (honly.mp hbad))

/-- `sfs_bmap_load_nolock` at the index behind the last block adds a block and counts it. -/
theorem sfsBmapLoadNolock_adds_ends (hi : Inv p s) (hsin : sin ∈ s.inos)
    (hlimit : ¬ (s.din sin).blocks < maxBlocks → p)
    (hfail : ∀ e t, Takes s t [] → ¬ s.GrowthRefused sin →
      s.unusedBlocks < s.growthNeed sin ∨ Faulty → E e t)
    (hleak : ∀ e t b, Takes s t [b] → s.GrowthRefused sin → E e t)
    (hQ : ∀ b t, Adds s sin b t → b < s.superBlocks → ¬ s.GrowthRefused sin → Q b (t.bump sin)) :
    Ends p (sfsBmapLoadNolock sin (s.din sin).blocks) s Q E := by
  -- what both branches of `sfs_bmap_get_nolock` do with the block they add
  have hfinish : ∀ b t, Adds s sin b t → ¬ s.GrowthRefused sin →
      Ends p (do
        if b = 0 then pure b
        else do
          assertInuse b
          pure b) t (fun ino t => Ends p (do
            assertInuse ino
            Call.modify (fun s => s.setDin sin
              { s.din sin with blocks := (s.din sin).blocks + 1 })
            pure ino) t Q E) E := by
    intro b t hadds hclear
    obtain ⟨h0, hsuper, hm, hbit⟩ := hadds.in_use hi hsin
    rw [if_neg h0]
    have hbad : ¬ (b ≠ 0 ∧ b < t.superBlocks ∧ t.freemap.bit b = false) → p := by
      intro hnot
      have hge : ¬ b < s.superBlocks := fun hlt => hnot ⟨h0, hsuper.symm ▸ hlt, hbit⟩
      rcases hadds.range with hlt | ⟨k, hk, rfl⟩
      · exact absurd hlt hge
      · exact hi.direct hsin hk hge
    refine Ends.bind (assertInuse_ends hm hbad ?_)
    intro _ hlt _
    refine Ends.pure (Ends.bind (assertInuse_ends hm hbad ?_))
    intro _ _ _
    rw [hsuper] at hlt
    exact Ends.bind (Ends.modify (Ends.pure (hQ b t hadds hlt hclear)))
  unfold sfsBmapLoadNolock
  refine Ends.bind (Ends.require (fun _ => ?_) (fun hbad => absurd le_rfl hbad))
  refine Ends.bind (Ends.read ?_)
  simp only [decide_true, if_true]
  unfold sfsBmapGetNolock
  refine Ends.bind ?_
  dsimp only
  by_cases hlt : (s.din sin).blocks < nDirect
  · rw [if_pos hlt]
    refine Ends.bind ?_
    exact getDirect_grow_ends hi hlt hfail hleak (fun b t hadds hclear => hfinish b t hadds hclear)
  · rw [if_neg hlt]
    by_cases hmax : (s.din sin).blocks - nDirect < blkNEntry
    · rw [if_pos hmax]
      have hblocks : (s.din sin).blocks = nDirect + ((s.din sin).blocks - nDirect) := by omega
      unfold getIndirect
      refine Ends.bind (Ends.bind (Ends.read (Ends.bind ?_)))
      refine sfsBmapGetSubNolock_grow_ends hi hsin hblocks hmax hfail hleak ?_ ?_
      · intro b bm hind hf hclear
        simp only [ne_eq, not_true_eq_false, if_false]
        exact Ends.pure (hfinish b _ (Adds.entry hblocks hmax hind hf) hclear)
      · intro ent bm b bm' hind hf hf' hclear
        have hent : ent ≠ (s.din sin).indirect := by
          rw [hind]
          exact hf.nonzero
        dsimp only
        rw [if_pos hent]
        refine Ends.bind (Ends.require (fun _ => ?_) (fun hbad => absurd hind hbad))
        refine Ends.bind (Ends.modify (Ends.pure ?_))
        exact hfinish b _ (Adds.indirect hblocks hmax hind hf hf') hclear
    · rw [if_neg hmax]
      refine Ends.bind (Ends.panic (hlimit ?_))
      unfold maxBlocks
      omega

/-- The block that is added is the last one of the file. -/
theorem sfsBmapLoadNolock_grow_ends (hi : Inv p s) (hsin : sin ∈ s.inos)
    (hlimit : ¬ (s.din sin).blocks < maxBlocks → p)
    (hfail : ∀ e t, Takes s t [] → ¬ s.GrowthRefused sin →
      s.unusedBlocks < s.growthNeed sin ∨ Faulty → E e t)
    (hleak : ∀ e t b, Takes s t [b] → s.GrowthRefused sin → E e t)
    (hQ : ∀ b t taken, Grown p s sin b taken t → ¬ s.GrowthRefused sin → Q b t) :
    Ends p (sfsBmapLoadNolock sin (s.din sin).blocks) s Q E := by
  refine sfsBmapLoadNolock_adds_ends hi hsin hlimit hfail hleak ?_
  intro b t hadds hlt hclear
  obtain ⟨taken, hg⟩ := hadds.grown hi hsin hlt
  exact hQ b _ taken hg hclear

/-- `sfs_bmap_load_nolock` at an index below the number of blocks looks the block up. -/
theorem sfsBmapLoadNolock_get_ends (hi : Inv p s) (hsin : sin ∈ s.inos) {k : ℕ}
    (hk : k < (s.din sin).blocks) (hE : ∀ e, Faulty → E e s)
    (hQ : s.blockOf sin k ≠ 0 → s.blockOf sin k < s.superBlocks → Q (s.blockOf sin k) s) :
    Ends p (sfsBmapLoadNolock sin k) s Q E := by
  have hm := hi.accounts.mounted
  -- both branches find `blockOf`
  have hfinish : k < maxBlocks → Ends p (do
        if s.blockOf sin k = 0 then pure (s.blockOf sin k)
        else do
          assertInuse (s.blockOf sin k)
          pure (s.blockOf sin k)) s (fun ino t => Ends p (do
            assertInuse ino
            if decide (k = (s.din sin).blocks) = true then do
              Call.modify (fun s => s.setDin sin
                { s.din sin with blocks := (s.din sin).blocks + 1 })
              pure ino
            else pure ino) t Q E) E := by
    intro hmax
    have hbad : ¬ (s.blockOf sin k ≠ 0 ∧ s.blockOf sin k < s.superBlocks ∧
        s.freemap.bit (s.blockOf sin k) = false) → p := by
      intro hnot
      refine hi.slots hsin hk (fun hslot => hnot ⟨hslot.1, hslot.2, ?_⟩)
      exact Bool.eq_false_iff.mpr
        (hi.accounts.ledger.taken _ _ (Sfs.owns_slot hsin hk hmax hslot.1))
    have hsecond : Ends p (do
        assertInuse (s.blockOf sin k)
        if decide (k = (s.din sin).blocks) = true then do
          Call.modify (fun s => s.setDin sin
            { s.din sin with blocks := (s.din sin).blocks + 1 })
          pure (s.blockOf sin k)
        else pure (s.blockOf sin k)) s Q E := by
      refine Ends.bind (assertInuse_ends hm hbad ?_)
      intro h0 hlt _
      rw [if_neg (by simp only [decide_eq_true_eq]; omega)]
      exact Ends.pure (hQ h0 hlt)
    by_cases h0 : s.blockOf sin k = 0
    · rw [if_pos h0]
      exact Ends.pure hsecond
    · rw [if_neg h0]
      refine Ends.bind (assertInuse_ends hm hbad ?_)
      intro _ _ _
      exact Ends.pure hsecond
  have hcreate : decide (k = (s.din sin).blocks) = false := by
    simp only [decide_eq_false_iff_not]
    omega
  unfold sfsBmapLoadNolock
  refine Ends.bind (Ends.require (fun _ => ?_) (fun hbad => absurd hk.le hbad))
  refine Ends.bind (Ends.read ?_)
  simp only [hcreate]
  unfold sfsBmapGetNolock
  refine Ends.bind ?_
  dsimp only
  rw [hcreate] at hfinish
  by_cases hlt : k < nDirect
  · rw [if_pos hlt]
    have hself : s.blockOf sin k = (s.din sin).direct k := if_pos hlt
    have hfin := hfinish (Nat.lt_of_lt_of_le hlt (Nat.le_add_right _ _))
    rw [hself] at hfin
    unfold getDirect
    refine Ends.bind (Ends.bind (Ends.read ?_))
    rw [if_neg (by simp)]
    exact Ends.pure hfin
  · rw [if_neg hlt]
    by_cases hmax : k - nDirect < blkNEntry
    · rw [if_pos hmax]
      have hfin := hfinish (by unfold maxBlocks; omega)
      unfold getIndirect
      refine Ends.bind (Ends.bind (Ends.read (Ends.bind ?_)))
      unfold sfsBmapGetSubNolock
      refine Ends.bind (Ends.require (fun _ => ?_) (fun hbad => absurd hmax hbad))
      by_cases hind : (s.din sin).indirect = 0
      · have hself : s.blockOf sin k = 0 := by
          unfold Sfs.blockOf
          rw [if_neg hlt, if_pos hind]
        rw [hself] at hfin
        rw [if_neg (not_not.mpr hind), if_pos rfl]
        refine Ends.pure ?_
        simp only [hind, ne_eq, not_true_eq_false, if_false]
        exact Ends.pure hfin
      · have hself : s.blockOf sin k = get32 (fun i => s.disk (s.din sin).indirect
            ((k - nDirect) * 4 + i)) := by
          unfold Sfs.blockOf
          rw [if_neg hlt, if_neg hind]
          rfl
        rw [hself] at hfin
        rw [if_pos hind]
        have hoff : (k - nDirect) * 4 < blkSize ∧ (k - nDirect) * 4 + 4 ≤ blkSize := by
          unfold blkNEntry blkSize at *
          omega
        refine Ends.bind (sfsRbuf_ends hm hoff ?_ (fun hr => hE _ ⟨_, _, _, hr⟩) ?_)
        · intro hbad
          exact hi.indirect hsin (fun hlt' => hbad ⟨hind, hlt'⟩)
        · intro _ _ _
          rw [if_pos (Or.inr rfl)]
          refine Ends.pure ?_
          simp only [ne_eq, not_true_eq_false, if_false]
          exact Ends.pure hfin
    · have hgt : ¬ (s.din sin).blocks ≤ maxBlocks := by
        unfold maxBlocks
        omega
      rw [if_neg hmax]
      exact Ends.bind (Ends.panic (hi.limit hsin hgt))

/-- The block map does not reach further than `maxBlocks`. -/
theorem sfsBmapLoadNolock_beyond {k : ℕ} (hk : maxBlocks ≤ k) : sfsBmapLoadNolock sin k s = none := by
  refine Ends.eq_none ?_
  unfold sfsBmapLoadNolock
  refine Ends.bind (Ends.require (fun _ => ?_) (fun _ => trivial))
  refine Ends.bind (Ends.read (Ends.bind ?_))
  unfold sfsBmapGetNolock
  dsimp only
  unfold maxBlocks at hk
  rw [if_neg (by omega), if_neg (by omega)]
  exact Ends.bind (Ends.panic trivial)

end Ucore.Fs
