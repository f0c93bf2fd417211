import Ucore.Fs.SfsImage

/-!
`sfs_bmap_load_nolock` at the end of a file, on a device that may refuse any request. Its clean-up
gives back what was taken, except for a block that `sfs_block_alloc` could not clear.
-/
namespace Ucore.Fs

open Library Libs Call

/-- A block that is entered in the inode of a file or in its indirect block. -/
def Sfs.Reaches (s : Sfs) (sin b : ℕ) : Prop := ∃ o : Owner, o.OfFile sin ∧ s.owns o b

/-- A block that the step has taken from the free map. -/
def Taken (s t : Sfs) (b : ℕ) : Prop := s.freemap.bit b = true ∧ t.freemap.bit b = false

/-- Nothing that counts has changed. -/
structure Untouched (s t : Sfs) (sin : ℕ) : Prop where
  freemap : ∀ b, t.freemap.bit b = s.freemap.bit b
  unused : t.unusedBlocks = s.unusedBlocks
  din : t.din sin = s.din sin
  entries : (s.din sin).indirect ≠ 0 → ∀ k, nDirect + k < (s.din sin).blocks →
    t.entryOf (s.din sin).indirect k = s.entryOf (s.din sin).indirect k

variable {s t : Sfs} {sin b : ℕ} {taken : List ℕ} {p : Prop}

theorem Takes.untouched (h : Takes s t []) (ha : Accounts s []) (hsin : sin ∈ s.inos) :
    Untouched s t sin := by
  refine ⟨?_, h.unused, h.din sin, fun hind k _ => h.entryOf ha hsin hind k⟩
  intro c
  have hbit := h.bits c
  simp only [List.not_mem_nil, not_false_eq_true, and_true] at hbit
  exact Bool.eq_iff_iff.mpr hbit

/-- What a file reaches is in the file system. -/
theorem Sound.reaches_lt (hs : Sound s) {c : ℕ} (h : s.Reaches sin c) : c < s.superBlocks := by
  obtain ⟨o, hfile, ho⟩ := h
  cases o with
  | super => exact hfile.elim
  | freemap j => exact hfile.elim
  | inode i => exact hfile.elim
  | direct i k =>
    obtain ⟨hi, hk, rfl, -⟩ := ho
    exact hs.direct i hi k hk
  | indirect i =>
    obtain ⟨hi, rfl, -⟩ := ho
    exact hs.indirect i hi
  | entry i k =>
    obtain ⟨hi, hind, -, hlt, rfl, -⟩ := ho
    have hslot := (hs.slots i hi _ hlt).2
    unfold Sfs.blockOf at hslot
    rwa [if_neg (by omega), if_neg hind, Nat.add_sub_cancel_left] at hslot

/-- The blocks that were taken are those that the file reaches now, and did not before. -/
theorem Grown.taken_iff (h : Grown False s sin b taken t) (hi : Inv False s) (c : ℕ) :
    Taken s t c ↔ t.Reaches sin c ∧ ¬ s.Reaches sin c := by
  have hl := hi.accounts.ledger
  have hl' := h.inv.accounts.ledger
  constructor
  · intro hc
    obtain ⟨hfree, hbit⟩ := hc
    refine ⟨?_, ?_⟩
    · by_contra hno
      have hlt := (hi.sound (fun hbad => hbad)).beyond c hfree
      have hset := hl'.rest c (by rw [h.step.superBlocks]; exact hlt) ?_ List.not_mem_nil
      · rw [hbit] at hset
        exact Bool.false_ne_true hset
      · intro o ho
        by_cases hfile : o.OfFile sin
        · exact hno ⟨o, hfile, ho⟩
        · exact hl.taken o c ((h.step.owns_other hfile).mp ho) hfree
    · intro hreach
      obtain ⟨o, -, ho⟩ := hreach
      exact hl.taken o c ho hfree
  · intro hc
    obtain ⟨⟨o, hfile, ho⟩, hnot⟩ := hc
    refine ⟨?_, Bool.eq_false_iff.mpr (hl'.taken o c ho)⟩
    refine hl.rest c ?_ ?_ List.not_mem_nil
    · have hlt := (h.inv.sound (fun hbad => hbad)).reaches_lt ⟨o, hfile, ho⟩
      rwa [h.step.superBlocks] at hlt
    · intro o' ho'
      by_cases hfile' : o'.OfFile sin
      · exact hnot ⟨o', hfile', ho'⟩
      · have heq := hl'.once o o' c ho ((h.step.owns_other hfile').mpr ho')
        exact hfile' (heq ▸ hfile)

variable [SfsDevice]

/-- The block map of a file grows as a whole or not at all. -/
def GrowsAtomically (s : Sfs) (sin : ℕ) : Prop :=
  ∀ r t, sfsBmapLoadNolock sin (s.din sin).blocks s = some (r, t) →
    match r with
    | .error _ => Untouched s t sin
    | .ok _ => ∀ c, Taken s t c ↔ t.Reaches sin c ∧ ¬ s.Reaches sin c

/-- For every file and every device: the block map grows atomically exactly if the device does not
refuse to clear a block that `sfs_block_alloc` has just taken. -/
theorem grows_atomically_iff (hi : Inv False s) (hsin : sin ∈ s.inos)
    (hlimit : (s.din sin).blocks < maxBlocks) :
    GrowsAtomically s sin ↔ ¬ s.GrowthRefused sin := by
  have hends := sfsBmapLoadNolock_grow_ends (p := False)
    (Q := fun _ t => ¬ s.GrowthRefused sin ∧
      ∀ c, Taken s t c ↔ t.Reaches sin c ∧ ¬ s.Reaches sin c)
    (E := fun _ t => ¬ s.GrowthRefused sin ∧ Untouched s t sin ∨
      s.GrowthRefused sin ∧ ∃ b, Takes s t [b]) hi hsin (fun hbad => hbad hlimit) ?_ ?_ ?_
  · unfold GrowsAtomically
    unfold Ends at hends
    rcases hrun : sfsBmapLoadNolock sin (s.din sin).blocks s with _ | ⟨e | a, t⟩
    · rw [hrun] at hends
      exact hends.elim
    · rw [hrun] at hends
      rcases hends with ⟨hno, hsame⟩ | ⟨hrefused, b, htakes⟩
      · refine iff_of_true ?_ hno
        intro r u hr
        obtain ⟨rfl, rfl⟩ := Prod.mk.inj (Option.some.inj hr)
        exact hsame
      · refine iff_of_false ?_ (not_not.mpr hrefused)
        intro h
        have hsame : Untouched s t sin := h _ t rfl
        -- the block is marked and nobody has it
        have hb := htakes.free b List.mem_cons_self
        have hnow := (htakes.bits b).mp ((hsame.freemap b).trans hb)
        exact hnow.2 List.mem_cons_self
    · rw [hrun] at hends
      refine iff_of_true ?_ hends.1
      intro r u hr
      obtain ⟨rfl, rfl⟩ := Prod.mk.inj (Option.some.inj hr)
      exact hends.2
  · intro e t htakes hno _
    exact Or.inl ⟨hno, htakes.untouched hi.accounts hsin⟩
  · intro e t b htakes hrefused
    exact Or.inr ⟨hrefused, b, htakes⟩
  · intro b t taken hgrown hno
    exact ⟨hno, hgrown.taken_iff hi⟩

omit [SfsDevice] in
/-- With one free block and an empty file. -/
theorem grows_atomically_iff_working : letI := workingDevice
    GrowsAtomically (sfsImage 5 0 0 (fun _ _ => 0)) imageIno := by
  let := workingDevice
  have hi : Inv False (sfsImage 5 0 0 (fun _ _ => 0)) :=
    sfsImage_inv (by decide) (by decide) (by decide)
  exact (grows_atomically_iff hi (List.mem_cons_of_mem _ List.mem_cons_self) (by decide)).mpr
    (not_growthRefused not_faulty_working _ _)

omit [SfsDevice] in
/-- A device that writes every block but block 4, which is the only free one: the call fails, and
block 4 is no longer marked as free. -/
theorem load_loses_block : ¬ ∀ (_ : SfsDevice) s sin, Inv False s → sin ∈ s.inos →
    (s.din sin).blocks < maxBlocks → GrowsAtomically s sin := by
  let : SfsDevice := ⟨fun _ write b => write && b == 4⟩
  intro h
  have hgrows := h this (sfsImage 5 0 0 (fun _ _ => 0)) imageIno
    (sfsImage_inv (by decide) (by decide) (by decide)) (List.mem_cons_of_mem _ List.mem_cons_self)
    (by decide)
  have hout : (sfsBmapLoadNolock imageIno 0 (sfsImage 5 0 0 (fun _ _ => 0))).map
      (fun out => (out.1.toBool, out.2.freemap.bit 4)) = some (false, false) := by
    decide +kernel
  rcases hrun : sfsBmapLoadNolock imageIno 0 (sfsImage 5 0 0 (fun _ _ => 0)) with _ | ⟨e | a, t⟩
  · rw [hrun] at hout
    exact Option.some_ne_none _ hout.symm
  · rw [hrun] at hout
    have hsame : Untouched _ t imageIno := hgrows _ t hrun
    have hbit := (Prod.mk.inj (Option.some.inj hout)).2
    have hfree : (sfsImage 5 0 0 (fun _ _ => 0)).freemap.bit 4 = true := by decide +kernel
    rw [← hsame.freemap, hbit] at hfree
    exact Bool.false_ne_true hfree
  · rw [hrun] at hout
    exact Bool.false_ne_true (Prod.mk.inj (Option.some.inj hout)).1.symm

end Ucore.Fs
