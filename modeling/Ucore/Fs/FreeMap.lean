import Ucore.Fs.FileLimits

/-!
The accounts of the free map over any calls for the files of a file system. Sizes and numbers of
blocks need not agree and a call may panic or fail; what is left of it has each block in one place
at most, and the free map knows which.
-/
namespace Ucore.Fs

open Library Libs Call

variable {s s₀ t : Sfs} {sin k b : ℕ} {inos : List ℕ}

/-- A file system between two calls. -/
structure Tidy (inos : List ℕ) (s : Sfs) : Prop where
  inv : Inv True s
  inos : s.inos = inos

/-- A data block of a file is written. -/
theorem Tidy.putBlock {blk : Bytes} (h : Tidy inos s) (howns : s.owns (Sfs.slotOwner sin k) b) :
    Tidy inos (s.putBlock b blk) := by
  have hne : ∀ j ∈ s.inos, (s.din j).indirect ≠ 0 → (s.din j).indirect ≠ b := by
    intro j hj hind heq
    have hown := Sfs.owns_indirect hj hind
    rw [heq] at hown
    exact Sfs.slotOwner_ne_indirect sin k j (h.inv.accounts.ledger.once _ _ _ howns hown)
  refine ⟨⟨h.inv.accounts.write hne, ?_, fun hbad => absurd trivial hbad⟩, h.inos⟩
  intro j hj hind index hindex hblocks
  have hsame : (s.putBlock b blk).entryOf (s.din j).indirect index =
      s.entryOf (s.din j).indirect index := by
    unfold Sfs.entryOf Sfs.putBlock
    simp only [Function.update_of_ne (hne j hj hind)]
  exact hsame.trans (h.inv.zeroTail j hj hind index hindex hblocks)

variable [SfsDevice] {p : Prop}

/-- What `sfs_bmap_load_nolock` can do on a working device when it gives the block `b`: it found it,
or added it at the end of the file. -/
inductive LoadStep (p : Prop) (s : Sfs) (sin k b : ℕ) (t : Sfs) : Prop
  | found (hk : k < (s.din sin).blocks) (hmax : k < maxBlocks) (hb : b = s.blockOf sin k)
      (h0 : b ≠ 0) (ht : t = s)
  | added {v : Sfs} {taken : List ℕ} (hk : k = (s.din sin).blocks) (hmax : k < maxBlocks)
      (hadds : Adds s sin b v) (ht : t = v.bump sin) (hg : Grown p s sin b taken t)

/-- One more block for a file that is not full yet, or no room. -/
theorem load_adds (hw : ¬ Faulty) (hi : Inv p s) (hsin : sin ∈ s.inos)
    (hlt : (s.din sin).blocks < maxBlocks) :
    Ends p (sfsBmapLoadNolock sin (s.din sin).blocks) s
      (fun b t => ∃ v taken, Adds s sin b v ∧ t = v.bump sin ∧ Grown p s sin b taken t)
      (fun _ t => Takes s t [] ∧ s.unusedBlocks < s.growthNeed sin) := by
  refine sfsBmapLoadNolock_adds_ends hi hsin (fun hbad => absurd hlt hbad) ?_ ?_ ?_
  · intro e t htakes _ hwhy
    rcases hwhy with hfull | hbad
    · exact ⟨htakes, hfull⟩
    · exact absurd hbad hw
  · intro e t b _ hbad
    exact absurd hbad (not_growthRefused hw s sin)
  · intro b v hadds hrange _
    obtain ⟨taken, hg⟩ := hadds.grown hi hsin hrange
    exact ⟨v, taken, hadds, rfl, hg⟩

/-- All that `sfs_bmap_load_nolock` can do on a working device; an error means that there is no
room. -/
theorem load_cases (hw : ¬ Faulty) (hi : Inv p s) (hsin : sin ∈ s.inos) (k : ℕ) :
    Ends True (sfsBmapLoadNolock sin k) s (fun b t => LoadStep p s sin k b t)
      (fun _ t => k = (s.din sin).blocks ∧ Takes s t [] ∧
        s.unusedBlocks < s.growthNeed sin) := by
  by_cases hmax : maxBlocks ≤ k
  · exact Ends.of_eq_none (sfsBmapLoadNolock_beyond hmax) trivial
  rcases Nat.lt_trichotomy k (s.din sin).blocks with hold | hnew | hgap
  · refine (sfsBmapLoadNolock_get_ends hi hsin hold (fun _ hbad => absurd hbad hw) ?_).weaken
      (fun _ => trivial)
    intro h0 _
    exact LoadStep.found hold (by omega) rfl h0 rfl
  · have hlt : (s.din sin).blocks < maxBlocks := by omega
    rw [hnew]
    refine ((load_adds hw hi hsin hlt).weaken (fun _ => trivial)).mono ?_ ?_
    · intro b t hadded
      obtain ⟨v, taken, hadds, ht, hg⟩ := hadded
      exact LoadStep.added rfl hlt hadds ht hg
    · intro e t hfail
      exact ⟨rfl, hfail.1, hfail.2⟩
  · refine Ends.of_eq_none ?_ trivial
    unfold sfsBmapLoadNolock
    refine Ends.eq_none (Ends.bind (Ends.require (fun hbad => ?_) (fun _ => trivial)))
    omega

/-- A block that the block map gives belongs to a slot of the file. -/
theorem load_tidy (hw : ¬ Faulty) (h : Tidy inos s) (hsin : sin ∈ inos) (k : ℕ) :
    Ends True (sfsBmapLoadNolock sin k) s
      (fun b t => Tidy inos t ∧ t.owns (Sfs.slotOwner sin k) b) (fun _ t => Tidy inos t) := by
  have hsin' : sin ∈ s.inos := h.inos.symm ▸ hsin
  refine (load_cases hw h.inv hsin' k).mono ?_ ?_
  · intro b t hstep
    cases hstep with
    | found hk hmax hb h0 ht =>
      rw [ht, hb]
      rw [hb] at h0
      exact ⟨h, Sfs.owns_slot hsin' hk hmax h0⟩
    | added hk hmax _ _ hg =>
      have hinos : t.inos = inos := hg.kept.inos.trans h.inos
      refine ⟨⟨hg.inv, hinos⟩, ?_⟩
      have hlt : k < (t.din sin).blocks := by
        rw [hg.blocks]
        omega
      have hself : t.blockOf sin k = b := by
        rw [hk]
        exact hg.block
      have howns := Sfs.owns_slot (hinos.symm ▸ hsin) hlt hmax (hself.symm ▸ hg.nonzero)
      rw [hself] at howns
      exact howns
  · intro e t hfail
    exact ⟨hfail.2.1.inv h.inv, hfail.2.1.inos.trans h.inos⟩

/-- One part of a range is read or written. -/
theorem transfers_tidy (hw : ¬ Faulty) (hsin : sin ∈ inos) (startpos endpos : ℕ) (write : Bool) :
    Transfers True sin startpos endpos write (fun _ _ t => Tidy inos t)
      (fun _ io => Tidy inos io.sfs) := by
  refine transfers_of_load hw ?_
  intro k s h _
  refine (load_tidy hw h hsin _).mono ?_ (fun _ _ he => he)
  intro b t hb
  refine ⟨hb.1.inv.accounts.mounted, fun size _ _ => ⟨hb.1, fun blk => ?_⟩⟩
  exact hb.1.putBlock hb.2

omit [SfsDevice] in
theorem growSize_tidy {startpos alen : ℕ} {write : Bool} (h : Tidy inos s) :
    Tidy inos (growSize s sin startpos alen write) := by
  unfold growSize
  split
  · exact ⟨h.inv.setSize sin _, h.inos⟩
  · exact h

theorem sfsIoNolock_tidy (hw : ¬ Faulty) (h : Tidy inos s) (hsin : sin ∈ inos) {buf : Bytes}
    {offset : ℤ} {len : ℕ} {write : Bool} {r : IoResult}
    (hr : sfsIoNolock s sin buf offset len write = some r) : Tidy inos r.sfs := by
  obtain ⟨t, ht, hsfs⟩ := sfsIoNolock_keeps (R := fun _ t => Tidy inos t) h
    (fun endpos _ _ => transfers_tidy hw hsin offset.toNat endpos write) hr
  rw [hsfs]
  exact growSize_tidy ht

/-- What one more block keeps, the loop that enlarges a file keeps. -/
theorem enlarge_of_load {R : ℕ → Sfs → Prop} {F : Sfs → Prop} {stop left n : ℕ}
    (hload : ∀ n t, R n t → n < stop →
      Ends p (sfsBmapLoadNolock sin n) t (fun _ u => R (n + 1) u) (fun _ u => F u))
    (hstop : n + left = stop) (h : R n s) :
    Ends p (enlarge sin left n) s (fun _ t => R stop t) (fun _ t => F t) := by
  induction left generalizing n s with
  | zero =>
    rw [Nat.add_zero] at hstop
    exact Ends.pure (hstop ▸ h)
  | succ left ih =>
    unfold enlarge
    refine Ends.bind ((hload n s h (by omega)).mono ?_ (fun _ _ he => he))
    intro _ t ht
    exact ih (by omega) ht

theorem enlarge_tidy (hw : ¬ Faulty) (hsin : sin ∈ inos) {left n : ℕ} (h : Tidy inos s) :
    Ends True (enlarge sin left n) s (fun _ t => Tidy inos t) (fun _ t => Tidy inos t) := by
  refine enlarge_of_load (R := fun _ t => Tidy inos t) ?_ rfl h
  intro n t ht _
  exact (load_tidy hw ht hsin n).mono (fun _ _ hb => hb.1) (fun _ _ he => he)

theorem shrink_tidy (hw : ¬ Faulty) (hsin : sin ∈ inos) {left : ℕ} (h : Tidy inos s) :
    Ends True (shrink sin left) s (fun _ t => Tidy inos t) (fun _ t => Tidy inos t) := by
  induction left generalizing s with
  | zero => exact Ends.pure h
  | succ left ih =>
    unfold shrink
    refine Ends.bind ?_
    by_cases h0 : (s.din sin).blocks = 0
    · refine Ends.of_eq_none ?_ trivial
      unfold sfsBmapTruncateNolock
      exact Ends.eq_none (Ends.bind (Ends.require (fun hbad => absurd h0 hbad)
        (fun _ => trivial)))
    · obtain ⟨n, hn⟩ := Nat.exists_eq_succ_of_ne_zero h0
      refine sfsBmapTruncateNolock_ends h.inv (h.inos.symm ▸ hsin) hn
        (fun _ hbad => absurd hbad hw) ?_
      intro t ht
      exact ih ⟨ht.inv, ht.step.inos.trans h.inos⟩

theorem sfsTruncfile_tidy (hw : ¬ Faulty) (h : Tidy inos s) (hsin : sin ∈ inos) (len : ℤ) :
    Ends True (sfsTruncfile sin len) s (fun _ t => Tidy inos t) (fun _ t => Tidy inos t) := by
  unfold sfsTruncfile
  split
  · exact Ends.fail h
  refine Ends.bind (Ends.read ?_)
  dsimp only
  split
  · exact Ends.require (fun _ => h) (fun _ => trivial)
  · have hlast : ∀ t, Tidy inos t → Ends True (do
        Call.require (fun s => (s.din sin).blocks = (len.toNat + blkSize - 1) / blkSize)
        Call.modify (fun s => (s.setDin sin { s.din sin with size := len.toNat }).setDirty sin) :
          SfsCall PUnit) t
        (fun _ t => Tidy inos t) (fun _ t => Tidy inos t) := by
      intro t ht
      refine Ends.bind (Ends.require (fun _ => Ends.modify ?_) (fun _ => trivial))
      exact ⟨ht.inv.setSize sin _, ht.inos⟩
    split
    · exact Ends.bind ((enlarge_tidy hw hsin h).mono (fun _ t ht => hlast t ht) (fun _ _ he => he))
    · exact Ends.bind ((shrink_tidy hw hsin h).mono (fun _ t ht => hlast t ht) (fun _ _ he => he))

theorem sfsTryseek_tidy (hw : ¬ Faulty) (h : Tidy inos s) (hsin : sin ∈ inos) (pos : ℤ) :
    Ends True (sfsTryseek sin pos) s (fun _ t => Tidy inos t) (fun _ t => Tidy inos t) := by
  unfold sfsTryseek
  split
  · exact Ends.fail h
  refine Ends.bind (Ends.read ?_)
  split
  · exact sfsTruncfile_tidy hw h hsin pos
  · exact Ends.pure h

/-- The file system after a call that did not panic. -/
def FileOp.after (op : FileOp) (s : Sfs) (sin : ℕ) : Option Sfs :=
  match op with
  | truncate len => (sfsTruncfile sin len s).map Prod.snd
  | seek pos => (sfsTryseek sin pos s).map Prod.snd
  | io buf offset len write => (sfsIoNolock s sin buf offset len write).map IoResult.sfs

theorem FileOp.after_tidy (hw : ¬ Faulty) (h : Tidy inos s) (hsin : sin ∈ inos) (op : FileOp)
    (hrun : op.after s sin = some t) : Tidy inos t := by
  have hcall : ∀ x : SfsCall PUnit, Ends True x s (fun _ t => Tidy inos t)
      (fun _ t => Tidy inos t) → (x s).map Prod.snd = some t → Tidy inos t := by
    intro x hends hx
    obtain ⟨⟨ret, u⟩, hxs, rfl⟩ := Option.map_eq_some_iff.mp hx
    exact hends.state hxs
  cases op with
  | truncate len => exact hcall _ (sfsTruncfile_tidy hw h hsin len) hrun
  | seek pos => exact hcall _ (sfsTryseek_tidy hw h hsin pos) hrun
  | io buf offset len write =>
    obtain ⟨r, hr, rfl⟩ := Option.map_eq_some_iff.mp hrun
    exact sfsIoNolock_tidy hw h hsin hr

/-- Calls for the files of a file system, one after the other. -/
inductive SfsRun (s₀ : Sfs) : List (ℕ × FileOp) → Sfs → Prop
  | start : SfsRun s₀ [] s₀
  | step {ops : List (ℕ × FileOp)} {s t : Sfs} (sin : ℕ) (op : FileOp) (hrun : SfsRun s₀ ops s)
      (hsin : sin ∈ s.inos) (hop : op.after s sin = some t) : SfsRun s₀ (ops ++ [(sin, op)]) t

theorem SfsRun.tidy {ops : List (ℕ × FileOp)} (hw : ¬ Faulty) (h : Tidy inos s₀)
    (hrun : SfsRun s₀ ops s) : Tidy inos s := by
  induction hrun with
  | start => exact h
  | step sin op hrun hsin hop ih => exact FileOp.after_tidy hw ih (ih.inos ▸ hsin) op hop

omit [SfsDevice] in
/-- Each block has one owner at most, a set bit in the free map stands for none, and
`super.unused_blocks` counts the set bits. -/
structure OneOwner (s : Sfs) : Prop where
  once : ∀ o o' b, s.owns o b → s.owns o' b → o = o'
  used : ∀ o b, s.owns o b → s.freemap.bit b = false
  free : ∀ b < s.superBlocks, (∀ o, ¬ s.owns o b) → s.freemap.bit b = true
  count : s.unusedBlocks = s.freemap.setBits

omit [SfsDevice] in
theorem OneOwner.accounts (h : OneOwner s) (hm : Mounted s) (hroot : blknRoot ∈ s.inos) :
    Accounts s [] := by
  refine ⟨hm, hroot, h.once, List.nodup_nil, ?_, ?_, ?_, ?_⟩
  · exact fun b hb => absurd hb List.not_mem_nil
  · intro o b ho hbit
    rw [h.used o b ho] at hbit
    exact Bool.false_ne_true hbit
  · exact fun b hb => absurd hb List.not_mem_nil
  · intro b hb hno _
    exact h.free b hb hno

omit [SfsDevice] in
theorem oneOwner_of_accounts (h : Accounts s []) : OneOwner s := by
  refine ⟨h.ledger.once, ?_, ?_, h.mounted.count⟩
  · intro o b ho
    exact Bool.eq_false_iff.mpr (h.ledger.taken o b ho)
  · intro b hb hno
    exact h.ledger.rest b hb hno List.not_mem_nil

/-- On a working device, from every mounted file system whose blocks have one owner each and whose
indirect blocks have no entry behind the end of their file: this stays so over any calls. -/
theorem free_map_accounts {ops : List (ℕ × FileOp)} (hw : ¬ Faulty) (hm : Mounted s₀)
    (hroot : blknRoot ∈ s₀.inos) (howner : OneOwner s₀) (htail : s₀.ZeroTail)
    (hrun : SfsRun s₀ ops s) : OneOwner s := by
  have hstart : Tidy s₀.inos s₀ :=
    ⟨⟨howner.accounts hm hroot, htail, fun hbad => absurd trivial hbad⟩, rfl⟩
  exact oneOwner_of_accounts (hrun.tidy hw hstart).inv.accounts

omit [SfsDevice] in
/-- An empty file of an image gets two blocks. -/
theorem free_map_accounts_image : letI := workingDevice
    ∃ t, FileOp.after (.truncate 5000) (sfsImage 1100 0 0 (fun _ _ => 0)) imageIno = some t ∧
      OneOwner t := by
  let := workingDevice
  have hi : Inv False (sfsImage 1100 0 0 (fun _ _ => 0)) :=
    sfsImage_inv (by decide) (by decide) (by decide)
  have hrun : (FileOp.after (.truncate 5000) (sfsImage 1100 0 0 (fun _ _ => 0))
      imageIno).isSome = true := by decide +kernel
  obtain ⟨t, ht⟩ := Option.isSome_iff_exists.mp hrun
  exact ⟨t, ht, free_map_accounts not_faulty_working hi.accounts.mounted hi.accounts.root
    (oneOwner_of_accounts hi.accounts) hi.zeroTail
    (SfsRun.step imageIno _ SfsRun.start (by decide) ht)⟩

/-- A file of twelve blocks with an indirect block that still names block 4, the file's first. -/
def staleImage : Sfs :=
  let s : Sfs := sfsImage 1100 12 49152 (fun _ _ => 0)
  let s : Sfs := { s with
    freemap := Bitmap.setRange 17 1100
    unusedBlocks := s.unusedBlocks - 1
    superDirty := true
    disk := Function.update s.disk 16 (put32 4) }
  s.setDin imageIno { s.din imageIno with indirect := 16 }

omit [SfsDevice] in
theorem staleImage_accounts : Accounts staleImage [] :=
  indirectImage_accounts (by decide) (by decide)

omit [SfsDevice] in
/-- The file gets one block more, and the entry that was there already names it. -/
theorem stale_entry_counts : letI := workingDevice
    ∃ t, FileOp.after (.truncate 49153) staleImage imageIno = some t ∧
      t.owns (.direct imageIno 0) 4 ∧ t.owns (.entry imageIno 0) 4 := by
  let := workingDevice
  have hrun : (FileOp.after (.truncate 49153) staleImage imageIno).map (fun t =>
      (t.inos, (t.din imageIno).direct 0, (t.din imageIno).blocks, (t.din imageIno).indirect,
        t.entryOf 16 0)) = some ([1, 3], 4, 13, 16, 4) := by decide +kernel
  obtain ⟨t, ht, hparts⟩ := Option.map_eq_some_iff.mp hrun
  simp only [Prod.mk.injEq] at hparts
  obtain ⟨hinos, hdirect, hblocks, hind, hentry⟩ := hparts
  have hino : imageIno ∈ t.inos := by
    rw [hinos]
    decide
  refine ⟨t, ht, ⟨hino, by decide, hdirect, by decide⟩, hino, ?_, by decide, ?_, ?_, by decide⟩
  · rw [hind]
    decide
  · rw [hblocks]
    decide
  · rw [hind]
    exact hentry

omit [SfsDevice] in
/-- Without the condition on the entries behind the end the accounts may fail. -/
theorem stale_entry_owns_twice : letI := workingDevice
    ¬ ∀ s₀ ops s, Mounted s₀ → blknRoot ∈ s₀.inos → OneOwner s₀ → SfsRun s₀ ops s →
      OneOwner s := by
  let := workingDevice
  intro hclaim
  obtain ⟨t, ht, hdirect, hentry⟩ := stale_entry_counts
  have hacc := staleImage_accounts
  have hrun : SfsRun staleImage [(imageIno, .truncate 49153)] t :=
    SfsRun.step imageIno _ SfsRun.start (by decide) ht
  have hone := hclaim staleImage _ t hacc.mounted hacc.root (oneOwner_of_accounts hacc) hrun
  exact Owner.noConfusion (hone.once _ _ 4 hdirect hentry)

end Ucore.Fs
