import Ucore.Fs.SfsLoad

/-!
Resizing a file: how one block is freed, and how the loops of `sfs_truncfile` end.
-/
namespace Ucore.Fs

open Library Libs Call

/-- A file without its last block. -/
structure Shrunk (p : Prop) (s : Sfs) (sin : ℕ) (s' : Sfs) : Prop where
  inv : Inv p s'
  step : FileStep s s' sin
  size : (s'.din sin).size = (s.din sin).size
  type : (s'.din sin).type = (s.din sin).type
  blocks : (s'.din sin).blocks + 1 = (s.din sin).blocks
  indirect : (s'.din sin).indirect = (s.din sin).indirect
  direct : ∀ k, (s'.din sin).direct k =
    if k + 1 = (s.din sin).blocks ∧ k < nDirect then 0 else (s.din sin).direct k
  slots : ∀ k < (s'.din sin).blocks, s'.blockOf sin k = s.blockOf sin k
  bits : ∀ c, s'.freemap.bit c = true ↔ s.freemap.bit c = true ∨
    c = s.blockOf sin (s'.din sin).blocks ∧ c ≠ 0 ∧ (s'.din sin).blocks < maxBlocks
  disk : ∀ c, ¬ s.owns (.indirect sin) c → s'.disk c = s.disk c

variable {p : Prop} {s t : Sfs} {sin n : ℕ}

theorem shrunk_of_parts {s' : Sfs} (hi : Inv p s) (hsin : sin ∈ s.inos)
    (hn : (s.din sin).blocks = n + 1) (hacc : Accounts s' [])
    (hinos : s'.inos = s.inos) (hsuper : s'.superBlocks = s.superBlocks)
    (hothers : ∀ i, i ≠ sin → s'.inodes i = s.inodes i)
    (hdisk : ∀ c, ¬ s.owns (.indirect sin) c → s'.disk c = s.disk c)
    (hbits : ∀ c, s'.freemap.bit c = true ↔ s.freemap.bit c = true ∨
      c = s.blockOf sin n ∧ c ≠ 0 ∧ n < maxBlocks)
    (hrange : s.blockOf sin n ≠ 0 → n < maxBlocks → s.blockOf sin n < s.superBlocks)
    (hdin : s'.din sin = { s.din sin with
      direct := if n < nDirect then Function.update (s.din sin).direct n 0 else (s.din sin).direct
      blocks := n })
    (hentry : (s.din sin).indirect ≠ 0 → ∀ k, s'.entryOf (s.din sin).indirect k =
      if nDirect + k = n ∧ k < blkNEntry then 0 else s.entryOf (s.din sin).indirect k) :
    Shrunk p s sin s' := by
  have hdirect : ∀ k, (s'.din sin).direct k =
      if k = n ∧ k < nDirect then 0 else (s.din sin).direct k := by
    intro k
    rw [hdin]
    by_cases hd : n < nDirect
    · simp only [if_pos hd]
      by_cases hk : k = n
      · subst hk
        simp [hd]
      · simp [hk]
    · simp only [if_neg hd]
      have hno : ¬ (k = n ∧ k < nDirect) := by omega
      rw [if_neg hno]
  have hstep : FileStep s s' sin := by
    refine ⟨hinos, hsuper, ?_, hothers, ?_⟩
    · intro o b ho hne
      exact hdisk b (fun hown => hne (hi.accounts.ledger.once _ _ _ ho hown))
    · intro b hb
      rcases (hbits b).mp hb with hold | ⟨rfl, h0, hmax⟩
      · exact Or.inl hold
      · exact Or.inr (hrange h0 hmax)
  have hind : (s'.din sin).indirect = (s.din sin).indirect := by rw [hdin]
  have hblocks : (s'.din sin).blocks = n := by rw [hdin]
  have hslots : ∀ k < n, s'.blockOf sin k = s.blockOf sin k := by
    intro k hk
    unfold Sfs.blockOf
    rw [hind]
    by_cases hd : k < nDirect
    · rw [if_pos hd, if_pos hd, hdirect, if_neg (by omega)]
    · rw [if_neg hd, if_neg hd]
      by_cases h0 : (s.din sin).indirect = 0
      · rw [if_pos h0, if_pos h0]
      · rw [if_neg h0, if_neg h0]
        rw [hentry h0, if_neg (by omega)]
  have hinv : Inv p s' := by
    refine ⟨hacc, hstep.zeroTail hi.zeroTail ?_, fun hp => ?_⟩
    · intro hind' k hk hge
      rw [hind] at hind' ⊢
      rw [hentry hind' k]
      by_cases hkn : nDirect + k = n ∧ k < blkNEntry
      · exact if_pos hkn
      · rw [if_neg hkn]
        exact hi.zeroTail sin hsin hind' k hk (by omega)
    · have hs := hi.sound hp
      refine hstep.sound hs ?_ ?_ ?_ ?_
      · intro k hk
        rw [hslots k (by omega)]
        exact hs.slots sin hsin k (by omega)
      · intro k hk
        rw [hdirect]
        split
        · exact Nat.lt_of_le_of_lt (Nat.zero_le _) (hs.direct sin hsin k hk)
        · exact hs.direct sin hsin k hk
      · rw [hind]
        exact hs.indirect sin hsin
      · have hlimit := hs.limit sin hsin
        omega
  refine ⟨hinv, hstep, by rw [hdin], by rw [hdin], by omega, hind, ?_, ?_, ?_, hdisk⟩
  · intro k
    rw [hdirect]
    have hiff : (k = n ∧ k < nDirect) ↔ (k + 1 = (s.din sin).blocks ∧ k < nDirect) := by omega
    simp only [hiff]
  · rw [hblocks]
    exact hslots
  · rw [hblocks]
    exact hbits

/-- A file whose block count is one less. -/
def Sfs.drop (s : Sfs) (sin : ℕ) : Sfs :=
  (s.setDin sin { s.din sin with blocks := (s.din sin).blocks - 1 }).setDirty sin

theorem Sfs.din_drop (s : Sfs) (sin : ℕ) :
    (s.drop sin).din sin = { s.din sin with blocks := (s.din sin).blocks - 1 } := by
  unfold Sfs.drop
  rw [Sfs.din_setDirty, Sfs.din_setDin_self]

theorem Sfs.inodes_drop (s : Sfs) {sin i : ℕ} (hi : i ≠ sin) :
    (s.drop sin).inodes i = s.inodes i := by
  simp [Sfs.drop, Sfs.setDin, Sfs.setDirty, Function.update_of_ne hi]

/-- There was no block at the end. -/
theorem drop_shrunk (hi : Inv p s) (hsin : sin ∈ s.inos) (hn : (s.din sin).blocks = n + 1)
    (hnone : n < maxBlocks → s.blockOf sin n = 0) : Shrunk p s sin (s.drop sin) := by
  have hdin := s.din_drop sin
  have hno : ∀ k < blkNEntry, (s.din sin).indirect ≠ 0 → nDirect + k = n →
      s.entryOf (s.din sin).indirect k = 0 := by
    intro k hk hind heq
    have h0 := hnone (by unfold maxBlocks; omega)
    unfold Sfs.blockOf at h0
    rw [if_neg (by omega), if_neg hind, show n - nDirect = k by omega] at h0
    exact h0
  have hacc : Accounts (s.drop sin) [] := by
    refine (hi.accounts.setBlocks (n := (s.din sin).blocks - 1) ?_).setDirty sin
    intro k hk hind hentry
    have hne : nDirect + k ≠ n := fun heq => hentry (hno k hk hind heq)
    omega
  refine shrunk_of_parts hi hsin hn hacc rfl rfl (fun i hne => s.inodes_drop hne)
    (fun _ _ => rfl) ?_ (fun h0 hmax => absurd (hnone hmax) h0) ?_ ?_
  · intro c
    constructor
    · intro hc
      exact Or.inl hc
    · intro hc
      rcases hc with hc | ⟨rfl, h0, hmax⟩
      · exact hc
      · exact absurd (hnone hmax) h0
  · rw [hdin, hn]
    by_cases hd : n < nDirect
    · have h0 : (s.din sin).direct n = 0 := by
        have hself := hnone (Nat.lt_of_lt_of_le hd (Nat.le_add_right _ _))
        unfold Sfs.blockOf at hself
        rwa [if_pos hd] at hself
      rw [if_pos hd, ← h0, Function.update_eq_self]
      rfl
    · rw [if_neg hd]
      rfl
  · intro hind k
    change s.entryOf _ k = _
    by_cases hk : nDirect + k = n ∧ k < blkNEntry
    · rw [if_pos hk]
      exact hno k hk.2 hind hk.1
    · rw [if_neg hk]

/-- The block at the end stood in a direct slot. -/
theorem drop_shrunk_direct {bm : Bitmap} (hi : Inv p s) (hsin : sin ∈ s.inos)
    (hn : (s.din sin).blocks = n + 1) (hd : n < nDirect) (h0 : (s.din sin).direct n ≠ 0)
    (hlt : (s.din sin).direct n < s.superBlocks)
    (hset : Bitmap.SetAt s.freemap bm ((s.din sin).direct n) true) :
    Shrunk p s sin (((s.freed bm).putDirect sin n 0).drop sin) := by
  have hself : s.blockOf sin n = (s.din sin).direct n := if_pos hd
  have hdin₁ : ((s.freed bm).putDirect sin n 0).din sin =
      { s.din sin with direct := Function.update (s.din sin).direct n 0 } := by
    unfold Sfs.putDirect
    rw [Sfs.din_setDirty, Sfs.din_setDin_self]
    rfl
  have hdin := ((s.freed bm).putDirect sin n 0).din_drop sin
  rw [hdin₁] at hdin
  have hacc : Accounts (((s.freed bm).putDirect sin n 0).drop sin) [] := by
    have h₁ := hi.accounts.strikeDirect hsin hd h0 rfl
    have h₂ : Accounts ((s.freed bm).putDirect sin n 0) [] := (h₁.free hlt hset).setDirty sin
    refine (h₂.setBlocks ?_).setDirty sin
    intro k _ _ _
    rw [hdin₁]
    change _ < (s.din sin).blocks - 1 ↔ _ < (s.din sin).blocks
    omega
  refine shrunk_of_parts hi hsin hn hacc rfl rfl ?_ (fun _ _ => rfl) ?_ (fun _ _ => ?_) ?_ ?_
  · intro i hne
    rw [Sfs.inodes_drop _ hne]
    simp [Sfs.putDirect, Sfs.setDin, Sfs.setDirty, Sfs.freed, Function.update_of_ne hne]
  · intro c
    change bm.bit c = true ↔ _
    rw [hset.bit, hself]
    by_cases hc : c = (s.din sin).direct n
    · subst hc
      rw [if_pos rfl]
      exact iff_of_true rfl (Or.inr ⟨rfl, h0, Nat.lt_of_lt_of_le hd (Nat.le_add_right _ _)⟩)
    · simp [hc]
  · rw [hself]
    exact hlt
  · rw [hdin, if_pos hd, hn]
    rfl
  · intro hind k
    have hk : ¬ (nDirect + k = n ∧ k < blkNEntry) := by omega
    rw [if_neg hk]
    rfl

/-- The block at the end stood in the indirect block. -/
theorem drop_shrunk_entry {bm : Bitmap} {b index : ℕ} (hi : Inv p s) (hsin : sin ∈ s.inos)
    (hn : (s.din sin).blocks = n + 1) (heq : n = nDirect + index) (hindex : index < blkNEntry)
    (hind : (s.din sin).indirect ≠ 0) (hb : s.entryOf (s.din sin).indirect index = b) (h0 : b ≠ 0)
    (hlt : b < s.superBlocks) (hset : Bitmap.SetAt s.freemap bm b true) :
    Shrunk p s sin (((s.putEntry (s.din sin).indirect index 0).freed bm).drop sin) := by
  have hself : s.blockOf sin n = b := by
    unfold Sfs.blockOf
    rw [if_neg (by omega), if_neg hind, show n - nDirect = index by omega, hb]
  have hdin := ((s.putEntry (s.din sin).indirect index 0).freed bm).din_drop sin
  have hentry : ∀ k, get32 (fun i => patch (s.disk (s.din sin).indirect) (put32 0) (index * 4) 4
      (k * 4 + i)) = if k = index then 0 else s.entryOf (s.din sin).indirect k :=
    fun k => get32_patch (by decide)
  have hentry' : ∀ k, ((s.putEntry (s.din sin).indirect index 0).freed bm).entryOf
      (s.din sin).indirect k = if k = index then 0 else s.entryOf (s.din sin).indirect k := by
    intro k
    rw [← hentry k]
    unfold Sfs.entryOf
    simp only [Sfs.putEntry, Sfs.freed, Function.update_self]
  have hacc : Accounts (((s.putEntry (s.din sin).indirect index 0).freed bm).drop sin) [] := by
    have h₁ : Accounts (s.putEntry (s.din sin).indirect index 0) [b] :=
      hi.accounts.strikeEntry hsin hind hindex (by omega) h0 hb hentry
    have h₂ : Accounts ((s.putEntry (s.din sin).indirect index 0).freed bm) [] :=
      h₁.free hlt hset
    refine (h₂.setBlocks ?_).setDirty sin
    intro k hk _ hne
    change ((s.putEntry (s.din sin).indirect index 0).freed bm).entryOf
      (s.din sin).indirect k ≠ 0 at hne
    rw [hentry' k] at hne
    have hki : k ≠ index := fun hbad => hne (if_pos hbad)
    change _ < (s.din sin).blocks - 1 ↔ _ < (s.din sin).blocks
    omega
  refine shrunk_of_parts hi hsin hn hacc rfl rfl ?_ ?_ ?_ (fun _ _ => ?_) ?_ ?_
  · intro i hne
    exact Sfs.inodes_drop _ hne
  · intro c hown
    have hne : c ≠ (s.din sin).indirect := by
      intro hbad
      exact hown (hbad ▸ Sfs.owns_indirect hsin hind)
    exact Function.update_of_ne hne _ _
  · intro c
    change bm.bit c = true ↔ _
    rw [hset.bit, hself]
    by_cases hc : c = b
    · subst hc
      rw [if_pos rfl]
      exact iff_of_true rfl (Or.inr ⟨rfl, h0, by unfold maxBlocks; omega⟩)
    · simp [hc]
  · rw [hself]
    exact hlt
  · rw [hdin, if_neg (by omega)]
    change { s.din sin with blocks := (s.din sin).blocks - 1 } = _
    rw [hn]
    rfl
  · intro _ k
    have hiff : (nDirect + k = n ∧ k < blkNEntry) ↔ k = index := by omega
    simp only [hiff]
    exact hentry' k

/-- No direct slot behind the last block is filled. -/
def Sfs.EmptyTail (s : Sfs) (sin : ℕ) : Prop :=
  ∀ k < nDirect, (s.din sin).blocks ≤ k → (s.din sin).direct k = 0

/-- A file has `n` blocks, and nothing but this file has changed. -/
structure Framed (p : Prop) (s : Sfs) (sin n : ℕ) (s' : Sfs) : Prop where
  inv : Inv p s'
  inos : s'.inos = s.inos
  superBlocks : s'.superBlocks = s.superBlocks
  size : (s'.din sin).size = (s.din sin).size
  type : (s'.din sin).type = (s.din sin).type
  blocks : (s'.din sin).blocks = n
  tail : s.EmptyTail sin → s'.EmptyTail sin
  others : ∀ i, i ≠ sin → s'.inodes i = s.inodes i
  owned : ∀ o b, s.owns o b → ¬ o.OfFile sin → s'.owns o b ∧ s'.disk b = s.disk b

/-- The blocks that the file had before are the same, and new ones are zero. -/
structure Resized (p : Prop) (s : Sfs) (sin n : ℕ) (s' : Sfs) : Prop
    extends Framed p s sin n s' where
  slots : ∀ k, k < n → k < (s.din sin).blocks → k < maxBlocks → s.blockOf sin k ≠ 0 →
    s'.blockOf sin k = s.blockOf sin k ∧ s'.disk (s.blockOf sin k) = s.disk (s.blockOf sin k)
  fresh : s.EmptyTail sin → ∀ k, k < n → (s.din sin).blocks ≤ k →
    s'.blockOf sin k ≠ 0 ∧ ∀ i, s'.disk (s'.blockOf sin k) i = 0

theorem Framed.refl (hi : Inv p s) : Framed p s sin (s.din sin).blocks s :=
  ⟨hi, rfl, rfl, rfl, rfl, rfl, fun h => h, fun _ _ => rfl, fun _ _ ho _ => ⟨ho, rfl⟩⟩

theorem Resized.refl (hi : Inv p s) : Resized p s sin (s.din sin).blocks s :=
  ⟨Framed.refl hi, fun _ _ _ _ _ => ⟨rfl, rfl⟩, fun _ k h1 h2 => absurd h1 (by omega)⟩

/-- The owners that do not belong to the file stay. -/
theorem FileStep.owns_other (h : FileStep s t sin) {o : Owner} {b : ℕ} (hfile : ¬ o.OfFile sin) :
    t.owns o b ↔ s.owns o b := by
  cases o with
  | super => exact Iff.rfl
  | freemap j =>
    unfold Sfs.owns Sfs.freemapBlocks
    rw [h.superBlocks]
  | inode i =>
    unfold Sfs.owns
    rw [h.inos]
  | direct i k =>
    simp only [Sfs.owns, h.inos, h.din hfile]
  | indirect i =>
    simp only [Sfs.owns, h.inos, h.din hfile]
  | entry i k =>
    simp only [Sfs.owns, h.inos, h.din hfile]
    refine and_congr_right (fun hi => and_congr_right (fun hind => ?_))
    rw [h.entryOf hi hfile hind]

/-- A step on the file after it was resized. -/
theorem Framed.owned_step {u : Sfs} (h : Framed p s sin n t) (hstep : FileStep t u sin) (o : Owner)
    (b : ℕ) (ho : s.owns o b) (hfile : ¬ o.OfFile sin) : u.owns o b ∧ u.disk b = s.disk b := by
  obtain ⟨ht, hdisk⟩ := h.owned o b ho hfile
  exact ⟨(hstep.owns_other hfile).mpr ht,
    (hstep.disk o b ht (fun heq => hfile (heq ▸ rfl))).trans hdisk⟩

theorem Framed.shrunk {u : Sfs} (h : Framed p s sin (n + 1) t) (hu : Shrunk p t sin u) :
    Framed p s sin n u := by
  have hblocks : (u.din sin).blocks = n := by
    have h1 := hu.blocks
    have h2 := h.blocks
    omega
  refine ⟨hu.inv, hu.step.inos.trans h.inos, hu.step.superBlocks.trans h.superBlocks,
    hu.size.trans h.size, hu.type.trans h.type, hblocks, ?_, ?_, h.owned_step hu.step⟩
  · intro htail k hk hge
    rw [hu.direct]
    split
    · rfl
    · have h2 := h.blocks
      exact h.tail htail k hk (by omega)
  · intro i hne
    exact (hu.step.others i hne).trans (h.others i hne)

theorem Resized.shrunk {u : Sfs} (h : Resized p s sin (n + 1) t) (hsin : sin ∈ s.inos)
    (hle : n < (s.din sin).blocks) (hu : Shrunk p t sin u) : Resized p s sin n u := by
  have hsin' : sin ∈ t.inos := h.inos.symm ▸ hsin
  have hframed := h.toFramed.shrunk hu
  refine ⟨hframed, ?_, ?_⟩
  · intro k hk hold hmax h0
    obtain ⟨hslot, hbytes⟩ := h.slots k (by omega) hold hmax h0
    have h0' : t.blockOf sin k ≠ 0 := hslot.symm ▸ h0
    have hlt : k < (u.din sin).blocks := by rw [hframed.blocks]; exact hk
    refine ⟨(hu.slots k hlt).trans hslot, ?_⟩
    rw [← hbytes, ← hslot]
    exact hu.step.disk _ _ (Sfs.owns_slot hsin' (by rw [h.blocks]; omega) hmax h0')
      (Sfs.slotOwner_ne_indirect sin k sin)
  · intro _ k hk hge
    omega

theorem Framed.grown {u : Sfs} {b : ℕ} {taken : List ℕ} (h : Framed p s sin n t)
    (hu : Grown p t sin b taken u) : Framed p s sin (n + 1) u := by
  have hblocks := hu.blocks
  rw [h.blocks] at hblocks
  refine ⟨hu.inv, hu.step.inos.trans h.inos, hu.step.superBlocks.trans h.superBlocks,
    (hu.kept.size sin).trans h.size, (hu.kept.type sin).trans h.type, hblocks, ?_, ?_,
    h.owned_step hu.step⟩
  · intro htail k hk hge
    rw [hu.direct k (by rw [h.blocks]; omega)]
    exact h.tail htail k hk (by rw [h.blocks]; omega)
  · intro i hne
    exact (hu.step.others i hne).trans (h.others i hne)

theorem Grown.fresh {b : ℕ} {taken : List ℕ} {u : Sfs} (hu : Grown p t sin b taken u)
    (htail : t.EmptyTail sin) (i : ℕ) : u.disk b i = 0 := by
  apply hu.zero
  unfold Sfs.growthNeed
  split
  · rename_i hd
    rw [if_pos (htail _ hd le_rfl)]
    exact Nat.one_pos
  · split
    · exact Nat.two_pos
    · exact Nat.one_pos

theorem Resized.grown {u : Sfs} {b : ℕ} {taken : List ℕ} (h : Resized p s sin n t)
    (hsin : sin ∈ s.inos) (hge : (s.din sin).blocks ≤ n) (hn : n < maxBlocks)
    (hu : Grown p t sin b taken u) :
    Resized p s sin (n + 1) u := by
  have hsin' : sin ∈ t.inos := h.inos.symm ▸ hsin
  refine ⟨h.toFramed.grown hu, ?_, ?_⟩
  · intro k hk hold hmax h0
    by_cases hkn : k < n
    · obtain ⟨hslot, hbytes⟩ := h.slots k hkn hold hmax h0
      have h0' : t.blockOf sin k ≠ 0 := hslot.symm ▸ h0
      have hlt : k < (t.din sin).blocks := by rw [h.blocks]; exact hkn
      refine ⟨(hu.kept.blockOf sin hsin' k hlt hmax h0').trans hslot, ?_⟩
      have hkept := hu.kept.bytes sin hsin' k hlt hmax h0'
      rw [hslot] at hkept
      exact hkept.trans hbytes
    · omega
  · intro htail k hk hge
    by_cases hkn : k < n
    · obtain ⟨h0, hzero⟩ := h.fresh htail k hkn hge
      have hlt : k < (t.din sin).blocks := by rw [h.blocks]; exact hkn
      have hslot := hu.kept.blockOf sin hsin' k hlt (by omega) h0
      have hbytes := hu.kept.bytes sin hsin' k hlt (by omega) h0
      rw [hslot, hbytes]
      exact ⟨h0, hzero⟩
    · obtain rfl : k = n := by omega
      have hself := hu.block
      rw [h.blocks] at hself
      rw [hself]
      exact ⟨hu.nonzero, hu.fresh (h.tail htail)⟩

variable [SfsDevice] {E : SfsError → Sfs → Prop} {Q : PUnit → Sfs → Prop}

theorem sfsBmapTruncateNolock_ends (hi : Inv p s) (hsin : sin ∈ s.inos)
    (hn : (s.din sin).blocks = n + 1) (hE : ∀ e, Faulty → E e s)
    (hQ : ∀ t, Shrunk p s sin t → Q ⟨⟩ t) : Ends p (sfsBmapTruncateNolock sin) s Q E := by
  have hm := hi.accounts.mounted
  have hslot : ¬ (s.blockOf sin n ≠ 0 ∧ s.blockOf sin n < s.superBlocks) → p :=
    hi.slots hsin (by omega)
  have hused : n < maxBlocks → s.blockOf sin n ≠ 0 →
      s.freemap.bit (s.blockOf sin n) = false := by
    intro hmax h0
    exact Bool.eq_false_iff.mpr
      (hi.accounts.ledger.taken _ _ (Sfs.owns_slot hsin (by omega) hmax h0))
  unfold sfsBmapTruncateNolock
  refine Ends.bind (Ends.require (fun _ => ?_) (fun hbad => absurd (by omega) hbad))
  refine Ends.bind (Ends.read ?_)
  rw [show (s.din sin).blocks - 1 = n by omega]
  unfold sfsBmapFreeNolock
  refine Ends.bind (Ends.bind (Ends.read ?_))
  by_cases hlt : n < nDirect
  · rw [if_pos hlt]
    have hmax : n < maxBlocks := Nat.lt_of_lt_of_le hlt (Nat.le_add_right _ _)
    have hself : s.blockOf sin n = (s.din sin).direct n := if_pos hlt
    rw [hself] at hslot hused
    by_cases h0 : (s.din sin).direct n = 0
    · rw [if_neg (not_not.mpr h0)]
      exact Ends.pure (Ends.modify (hQ _ (drop_shrunk hi hsin hn (fun _ => hself.trans h0))))
    · rw [if_pos h0]
      refine Ends.bind (sfsBlockFree_ends hm ?_ ?_)
      · intro hbad
        exact hslot (fun hgood => hbad ⟨h0, hgood.2, hused hmax h0⟩)
      · intro bm hrange hset
        exact Ends.modify (Ends.modify
          (hQ _ (drop_shrunk_direct hi hsin hn hlt h0 hrange hset)))
  · rw [if_neg hlt]
    by_cases hmap : n - nDirect < blkNEntry ∧ (s.din sin).indirect ≠ 0
    · rw [if_pos hmap]
      obtain ⟨hindex, hind⟩ := hmap
      have hmax : n < maxBlocks := by
        unfold maxBlocks
        omega
      have hself : s.blockOf sin n = s.entryOf (s.din sin).indirect (n - nDirect) := by
        unfold Sfs.blockOf
        rw [if_neg hlt, if_neg hind]
      rw [hself] at hslot hused
      have hoff : (n - nDirect) * 4 < blkSize ∧ (n - nDirect) * 4 + 4 ≤ blkSize := by
        unfold blkNEntry blkSize at *
        omega
      have hindused : s.freemap.bit (s.din sin).indirect = false :=
        Bool.eq_false_iff.mpr (hi.accounts.ledger.taken _ _ (Sfs.owns_indirect hsin hind))
      unfold sfsBmapFreeSubNolock
      refine Ends.bind (assertInuse_ends hm ?_ ?_)
      · intro hbad
        exact hi.indirect hsin (fun hrange => hbad ⟨hind, hrange, hindused⟩)
      · intro _ hrange _
        refine Ends.bind (Ends.require (fun _ => ?_) (fun hbad => absurd hindex hbad))
        refine Ends.bind (sfsRbuf_ends hm hoff (fun hbad => absurd ⟨hind, hrange⟩ hbad)
          (fun hr => hE _ ⟨_, _, _, hr⟩) ?_)
        intro _ _ _
        change Ends p (if s.entryOf (s.din sin).indirect (n - nDirect) ≠ 0 then _ else _) s _ E
        by_cases h0 : s.entryOf (s.din sin).indirect (n - nDirect) = 0
        · rw [if_neg (not_not.mpr h0)]
          exact Ends.pure (Ends.modify (hQ _ (drop_shrunk hi hsin hn (fun _ => hself.trans h0))))
        · rw [if_pos h0]
          refine Ends.bind (sfsWbuf_ends hm hoff (fun hbad => absurd ⟨hind, hrange⟩ hbad) ?_ ?_)
          · intro hr
            rcases hr with hr | hr
            · exact hE _ ⟨_, _, _, hr⟩
            · exact hE _ ⟨_, _, _, hr⟩
          · intro _ _
            refine sfsBlockFree_ends ?_ ?_ ?_
            · exact ⟨hm.device, hm.nbits, hm.nwords, hm.count⟩
            · intro hbad
              exact hslot (fun hgood => hbad ⟨h0, hgood.2, hused hmax h0⟩)
            · intro bm hb hset
              exact Ends.modify (hQ _ (drop_shrunk_entry hi hsin hn (by omega) hindex hind rfl h0
                hb hset))
    · rw [if_neg hmap]
      refine Ends.pure (Ends.modify (hQ _ (drop_shrunk hi hsin hn ?_)))
      intro hmax
      unfold Sfs.blockOf
      rw [if_neg hlt]
      refine if_pos ?_
      by_contra hind
      refine hmap ⟨?_, hind⟩
      unfold maxBlocks at hmax
      omega

/-- The number of blocks that are taken to give a file `n` blocks. -/
def Sfs.growthTotal (s : Sfs) (sin n : ℕ) : ℕ :=
  (n - (s.din sin).blocks) + if (s.din sin).indirect = 0 ∧ nDirect < n then 1 else 0

omit [SfsDevice] in
/-- The costs of single blocks add up. -/
theorem growthTotal_mono {m : ℕ} (h : n ≤ m) : s.growthTotal sin n ≤ s.growthTotal sin m := by
  unfold Sfs.growthTotal
  split
  · rename_i hc
    rw [if_pos ⟨hc.1, by omega⟩]
    omega
  · omega

/-- What the growth of a file to `n` blocks has cost, and when it has an indirect block. -/
structure Priced (s : Sfs) (sin n : ℕ) (t : Sfs) : Prop where
  unused : t.unusedBlocks + s.growthTotal sin n = s.unusedBlocks
  indirect : (t.din sin).indirect = 0 ↔ (s.din sin).indirect = 0 ∧ n ≤ nDirect

/-- A file while `sfs_truncfile` enlarges it. -/
structure Growing (p : Prop) (s : Sfs) (sin n : ℕ) (t : Sfs) : Prop
    extends Resized p s sin n t, Priced s sin n t

omit [SfsDevice] in
/-- What one more block costs. -/
theorem Priced.need (h : Priced s sin n t) (hframed : Framed p s sin n t)
    (htail : s.EmptyTail sin) (hge : (s.din sin).blocks ≤ n) :
    s.growthTotal sin n + t.growthNeed sin = s.growthTotal sin (n + 1) := by
  have hind := h.indirect
  have hempty := hframed.tail htail n
  rw [hframed.blocks] at hempty
  unfold Sfs.growthTotal Sfs.growthNeed
  rw [hframed.blocks]
  by_cases hd : n < nDirect
  · rw [if_pos hd, if_pos (hempty hd le_rfl), if_neg (by omega), if_neg (by omega)]
    omega
  · rw [if_neg hd]
    by_cases h0 : (t.din sin).indirect = 0
    · obtain ⟨hs0, hn⟩ := hind.mp h0
      rw [if_pos h0, if_neg (by omega), if_pos ⟨hs0, by omega⟩]
      omega
    · rw [if_neg h0]
      have hnot := mt hind.mpr h0
      by_cases hs0 : (s.din sin).indirect = 0
      · rw [if_pos ⟨hs0, by omega⟩, if_pos ⟨hs0, by omega⟩]
        omega
      · rw [if_neg (fun hbad => hs0 hbad.1), if_neg (fun hbad => hs0 hbad.1)]
        omega

omit [SfsDevice] in
theorem Priced.grown {u : Sfs} {b : ℕ} {taken : List ℕ} (h : Priced s sin n t)
    (hframed : Framed p s sin n t) (htail : s.EmptyTail sin) (hge : (s.din sin).blocks ≤ n)
    (hu : Grown p t sin b taken u) : Priced s sin (n + 1) u := by
  refine ⟨?_, ?_⟩
  · have h1 := h.need hframed htail hge
    have h2 := h.unused
    have h3 := hu.unused
    have h4 := hu.need
    omega
  · rw [hu.indirect, h.indirect, hframed.blocks]
    constructor
    · intro hc
      exact ⟨hc.2.1, hc.1⟩
    · intro hc
      exact ⟨hc.2, hc.1, by omega⟩

/-- A working device refuses nothing. -/
theorem not_growthRefused (hw : ¬ Faulty) (s : Sfs) (sin : ℕ) : ¬ s.GrowthRefused sin := by
  have hclear : ∀ s : Sfs, ¬ s.ClearRefused := by
    intro s hbad
    obtain ⟨b, bm, -, hr⟩ := hbad
    exact hw ⟨_, _, _, hr⟩
  unfold Sfs.GrowthRefused
  split
  · exact fun hbad => hclear s hbad.2
  · split
    · intro hbad
      rcases hbad with hbad | ⟨ent, bm, -, hbad⟩
      · exact hclear s hbad
      · exact hclear _ hbad
    · exact fun hbad => hclear s hbad.2

/-- The loop that enlarges a file stops with the number of blocks that there is room for; past
`maxBlocks` it is a panic. -/
theorem enlarge_ends {q : Prop} (hw : ¬ Faulty) (hsin : sin ∈ s.inos) (htail : s.EmptyTail sin)
    {left : ℕ} (h : Growing p s sin n t) (hge : (s.din sin).blocks ≤ n) (hpq : p → q)
    (hmax : maxBlocks < n + left → q)
    (hQ : ∀ u, Growing p s sin (n + left) u → Q ⟨⟩ u)
    (hE : ∀ e k v u, n ≤ k → k < n + left → (k = n → v = t) → Growing p s sin k v →
      Takes v u [] → s.unusedBlocks < s.growthTotal sin (k + 1) → E e u) :
    Ends q (enlarge sin left n) t Q E := by
  induction left generalizing n t with
  | zero => exact Ends.pure (hQ t h)
  | succ left ih =>
    have hsin' : sin ∈ t.inos := h.toResized.inos.symm ▸ hsin
    by_cases hn : n < maxBlocks
    swap
    · unfold enlarge
      exact Ends.bind (Ends.of_eq_none (sfsBmapLoadNolock_beyond (by omega)) (hmax (by omega)))
    have hlimit : ¬ (t.din sin).blocks < maxBlocks → p := by
      rw [h.toResized.blocks]
      exact fun hbad => absurd hn hbad
    have hgrow := sfsBmapLoadNolock_grow_ends (E := E) (Q := fun _ u => Growing p s sin (n + 1) u)
      h.toResized.inv hsin' hlimit ?_ ?_ ?_
    · rw [h.toResized.blocks] at hgrow
      unfold enlarge
      refine Ends.bind ((hgrow.weaken hpq).mono ?_ (fun _ _ he => he))
      intro _ u hu
      refine ih hu (by omega) (fun hbad => hmax (by omega)) ?_ ?_
      · rw [show n + 1 + left = n + (left + 1) by omega]
        exact hQ
      · intro e k v u' hk hlt _
        exact hE e k v u' (by omega) (by omega) (fun hbad => absurd hk (by omega))
    · intro e u htakes _ hwhy
      rcases hwhy with hfull | hbad
      · refine hE e n t u le_rfl (by omega) (fun _ => rfl) h htakes ?_
        have h1 := h.toPriced.need h.toFramed htail hge
        have h2 := h.unused
        omega
      · exact absurd hbad hw
    · intro e u b _ hbad
      exact absurd hbad (not_growthRefused hw t sin)
    · intro b u taken hg _
      exact ⟨h.toResized.grown hsin hge hn hg, h.toPriced.grown h.toFramed htail hge hg⟩

theorem shrink_ends (hsin : sin ∈ s.inos) {left : ℕ} (h : Resized p s sin (n + left) t)
    (hle : n + left ≤ (s.din sin).blocks)
    (hQ : ∀ u, Resized p s sin n u → Q ⟨⟩ u)
    (hE : ∀ e k u, k ≤ left → Resized p s sin (n + k) u → Faulty → E e u) :
    Ends p (shrink sin left) t Q E := by
  induction left generalizing t with
  | zero => exact Ends.pure (hQ t h)
  | succ left ih =>
    have hsin' : sin ∈ t.inos := h.inos.symm ▸ hsin
    have hblocks : (t.din sin).blocks = (n + left) + 1 := h.blocks
    have hlt : n + left < (s.din sin).blocks := by omega
    unfold shrink
    refine Ends.bind (sfsBmapTruncateNolock_ends h.inv hsin' hblocks ?_ ?_)
    · intro e hbad
      exact hE e (left + 1) t le_rfl h hbad
    · intro u hu
      refine ih (h.shrunk hsin hlt hu) hlt.le ?_
      intro e k u' hk
      exact hE e k u' (by omega)

/-- The number of blocks of a file of `len` bytes. -/
def blocksFor (len : ℕ) : ℕ := (len + blkSize - 1) / blkSize

/-- A file whose size and number of blocks agree, and that has no block behind its end. -/
structure Fits (s : Sfs) (sin : ℕ) : Prop where
  ino : sin ∈ s.inos
  blocks : (s.din sin).blocks = blocksFor (s.din sin).size
  tail : s.EmptyTail sin

omit [SfsDevice] in
theorem Priced.start (hi : Inv False s) (hsin : sin ∈ s.inos) :
    Priced s sin (s.din sin).blocks s := by
  have hs := hi.sound (fun hbad => hbad)
  have hind : nDirect < (s.din sin).blocks → (s.din sin).indirect ≠ 0 := by
    intro hlt h0
    have hslot := (hs.slots sin hsin nDirect hlt).1
    unfold Sfs.blockOf at hslot
    rw [if_neg (Nat.lt_irrefl _), if_pos h0] at hslot
    exact hslot rfl
  refine ⟨?_, ?_⟩
  · unfold Sfs.growthTotal
    rw [if_neg (fun hbad => hind hbad.2 hbad.1)]
    omega
  · constructor
    · intro h0
      refine ⟨h0, ?_⟩
      by_contra hgt
      exact hind (by omega) h0
    · exact fun hc => hc.1

omit [SfsDevice] in
/-- Before the first turn. -/
theorem Growing.start (hi : Inv False s) (hsin : sin ∈ s.inos) :
    Growing False s sin (s.din sin).blocks s := ⟨Resized.refl hi, Priced.start hi hsin⟩

/-- The last step of `sfs_truncfile`. -/
def Sfs.setSize (s : Sfs) (sin len : ℕ) : Sfs :=
  (s.setDin sin { s.din sin with size := len }).setDirty sin

omit [SfsDevice] in
theorem din_setSize (t : Sfs) (sin len : ℕ) :
    (t.setSize sin len).din sin = { t.din sin with size := len } := by
  unfold Sfs.setSize
  rw [Sfs.din_setDirty, Sfs.din_setDin_self]

/-- How `sfs_truncfile` ends on a working device. -/
theorem sfsTruncfile_ends {q : Prop} {len : ℕ} (hw : ¬ Faulty) (hi : Inv False s)
    (hf : Fits s sin) (hlen : len ≤ maxFileSize) (hmax : maxBlocks < blocksFor len → q)
    (hsame : (s.din sin).size = len → Q ⟨⟩ s)
    (hshrink : ∀ t, (s.din sin).size ≠ len → blocksFor len ≤ (s.din sin).blocks →
      Resized False s sin (blocksFor len) t → Q ⟨⟩ (t.setSize sin len))
    (hgrow : ∀ t, (s.din sin).size ≠ len → (s.din sin).blocks < blocksFor len →
      Growing False s sin (blocksFor len) t → Q ⟨⟩ (t.setSize sin len))
    (hE : ∀ e k v u, (s.din sin).blocks ≤ k → k < blocksFor len →
      (k = (s.din sin).blocks → v = s) → Growing False s sin k v → Takes v u [] →
      s.unusedBlocks < s.growthTotal sin (k + 1) → E e u) :
    Ends q (sfsTruncfile sin len) s Q E := by
  have hrange : ¬ ((len : ℤ) < 0 ∨ (len : ℤ) > maxFileSize) := by omega
  unfold sfsTruncfile
  rw [if_neg hrange]
  refine Ends.bind (Ends.read ?_)
  rw [Int.toNat_natCast]
  change Ends q (if (s.din sin).size = len then
    Call.require (fun s => blocksFor len = (s.din sin).blocks) else _) s Q E
  by_cases hsize : (s.din sin).size = len
  · rw [if_pos hsize]
    refine Ends.require (fun _ => hsame hsize) (fun hbad => absurd ?_ hbad)
    rw [hf.blocks, hsize]
  · rw [if_neg hsize]
    have hfor : (len + blkSize - 1) / blkSize = blocksFor len := rfl
    dsimp only
    rw [hfor]
    have hlast : ∀ t : Sfs, (t.din sin).blocks = blocksFor len → Q ⟨⟩ (t.setSize sin len) →
        Ends q (do
          Call.require (fun s => (s.din sin).blocks = blocksFor len)
          Call.modify (fun s => (s.setDin sin { s.din sin with size := len }).setDirty sin)) t
          Q E := by
      intro t ht hq
      exact Ends.bind (Ends.require (fun _ => Ends.modify hq) (fun hbad => absurd ht hbad))
    by_cases hlt : (s.din sin).blocks < blocksFor len
    · rw [if_pos hlt]
      have heq : (s.din sin).blocks + (blocksFor len - (s.din sin).blocks) = blocksFor len := by
        omega
      refine Ends.bind (enlarge_ends hw hf.ino hf.tail (Growing.start hi hf.ino) le_rfl
        (fun hbad => hbad.elim) ?_ ?_ ?_)
      · rw [heq]
        exact hmax
      · rw [heq]
        intro t ht
        exact hlast t ht.toResized.blocks (hgrow t hsize hlt ht)
      · rw [heq]
        exact hE
    · rw [if_neg hlt]
      have heq : blocksFor len + ((s.din sin).blocks - blocksFor len) = (s.din sin).blocks := by
        omega
      have hstart : Resized False s sin (blocksFor len + ((s.din sin).blocks - blocksFor len)) s := by
        rw [heq]
        exact Resized.refl hi
      have hloop := shrink_ends (p := False) (Q := fun _ t => Ends q (do
          Call.require (fun s => (s.din sin).blocks = blocksFor len)
          Call.modify (fun s => (s.setDin sin { s.din sin with size := len }).setDirty sin)) t
          Q E) (E := E) hf.ino hstart (by omega) ?_ ?_
      · exact Ends.bind (hloop.weaken (fun hbad => hbad.elim))
      · intro t ht
        exact hlast t ht.blocks (hshrink t hsize (by omega) ht)
      · intro e k u _ _ hbad
        exact absurd hbad hw

/-- Past its check, `sfs_tryseek` enlarges the file where the position is behind its end. -/
theorem sfsTryseek_eq {pos : ℤ} (h0 : 0 ≤ pos) (hlt : pos < maxFileSize) :
    sfsTryseek sin pos s =
      if pos > (s.din sin).size then sfsTruncfile sin pos s else some (.ok ⟨⟩, s) := by
  unfold sfsTryseek
  rw [if_neg (by omega)]
  change (if pos > (s.din sin).size then sfsTruncfile sin pos else pure ⟨⟩ : SfsCall PUnit) s = _
  by_cases hgrow : pos > (s.din sin).size
  · rw [if_pos hgrow, if_pos hgrow]
  · rw [if_neg hgrow, if_neg hgrow]
    rfl

end Ucore.Fs
