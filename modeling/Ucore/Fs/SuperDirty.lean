import Ucore.Fs.FreeMap
import Ucore.Library.Respects
import Ucore.Library.Run

/-!
The flag `super_dirty`: whatever a call on the files does to the free map or to the number of unused
blocks, it sets the flag, also where it fails.
-/
namespace Ucore.Fs

open Library Libs Call

/-- The flag is set, or it is as it was and so is what it is about. -/
def Quiet (s t : Sfs) : Prop :=
  t.superDirty = true ∨
    t.superDirty = s.superDirty ∧ t.freemap = s.freemap ∧ t.unusedBlocks = s.unusedBlocks

theorem Quiet.rest {s t : Sfs} (hdirty : t.superDirty = s.superDirty)
    (hmap : t.freemap = s.freemap) (hunused : t.unusedBlocks = s.unusedBlocks) : Quiet s t :=
  Or.inr ⟨hdirty, hmap, hunused⟩

instance : IsPreorder Sfs Quiet where
  refl _ := Quiet.rest rfl rfl rfl
  trans s t u h h' := by
    rcases h' with hset | ⟨hdirty', hmap', hunused'⟩
    · exact Or.inl hset
    · rcases h with hset | ⟨hdirty, hmap, hunused⟩
      · exact Or.inl (hdirty'.trans hset)
      · exact Quiet.rest (hdirty'.trans hdirty) (hmap'.trans hmap) (hunused'.trans hunused)

/-- Once it is set it stays. -/
theorem Quiet.stays_set {s t : Sfs} (h : Quiet s t) (hset : s.superDirty = true) :
    t.superDirty = true := by
  rcases h with ht | ⟨ht, -, -⟩
  · exact ht
  · exact ht.trans hset

variable [SfsDevice] {sin ino index : ℕ}

theorem quiet_rwblockNolock (buf : Bytes) (blkno : ℕ) (write : Bool) :
    Respects Quiet (sfsRwblockNolock buf blkno write) := by
  refine Respects.of_state fun s r hx => ?_
  unfold sfsRwblockNolock at hx
  split at hx
  · dsimp only at hx
    split at hx
    · obtain rfl := Option.some.inj hx
      exact Quiet.rest rfl rfl rfl
    · split at hx
      · obtain rfl := Option.some.inj hx
        exact Quiet.rest rfl rfl rfl
      · obtain rfl := Option.some.inj hx
        exact Quiet.rest rfl rfl rfl
  · cases hx

theorem quiet_rwblock (write : Bool) (nblks : ℕ) (buf : Bytes) (blkno : ℕ) :
    Respects Quiet (sfsRwblock write nblks buf blkno) := by
  induction nblks generalizing buf blkno with
  | zero => exact Respects.pure
  | succ nblks ih =>
    unfold sfsRwblock
    exact (quiet_rwblockNolock _ _ _).bind fun _ => (ih _ _).bind fun _ => Respects.pure

theorem quiet_rbuf (len blkno offset : ℕ) : Respects Quiet (sfsRbuf len blkno offset) := by
  unfold sfsRbuf
  exact Respects.require.bind fun _ => (quiet_rwblockNolock _ _ _).bind fun _ => Respects.pure

theorem quiet_wbuf (buf : Bytes) (len blkno offset : ℕ) :
    Respects Quiet (sfsWbuf buf len blkno offset) := by
  unfold sfsWbuf
  refine Respects.require.bind fun _ => (quiet_rwblockNolock _ _ _).bind fun _ => ?_
  exact (quiet_rwblockNolock _ _ _).bind fun _ => Respects.pure

theorem quiet_clearBlock (blkno nblks : ℕ) : Respects Quiet (sfsClearBlock blkno nblks) := by
  induction nblks generalizing blkno with
  | zero => exact Respects.pure
  | succ nblks ih =>
    unfold sfsClearBlock
    exact (quiet_rwblockNolock _ _ _).bind fun _ => ih _

omit [SfsDevice] in
theorem quiet_assertInuse (ino : ℕ) : Respects Quiet (assertInuse ino) := by
  have hinuse : Respects Quiet (sfsBlockInuse ino) := by
    refine Respects.of_state fun s r hx => ?_
    unfold sfsBlockInuse at hx
    split at hx
    · obtain ⟨_, -, rfl⟩ := Option.map_eq_some_iff.mp hx
      exact Quiet.rest rfl rfl rfl
    · cases hx
  unfold assertInuse
  exact hinuse.bind fun _ => Respects.require

/-- Between taking the bit and setting the flag the call can only panic. -/
theorem quiet_blockAlloc : Respects Quiet sfsBlockAlloc := by
  intro s
  unfold sfsBlockAlloc
  refine Ends.bind ?_
  rcases Bitmap.bitmapAlloc_spec s.freemap with hnone | ⟨ino, bm, hsome, -⟩
  · unfold Ends allocBit
    rw [hnone]
    exact Quiet.rest rfl rfl rfl
  · have halloc : allocBit s = some (.ok ino, { s with freemap := bm }) := by
      unfold allocBit
      rw [hsome]
    refine Ends.of_eq_ok halloc (Ends.bind (Ends.require (fun _ => ?_) (fun _ => trivial)))
    refine Ends.bind (Ends.modify ?_)
    have hrest : Respects Quiet (assertInuse ino >>= fun _ => sfsClearBlock ino 1 >>= fun _ =>
        (pure ino : SfsCall ℕ)) :=
      (quiet_assertInuse ino).bind fun _ => (quiet_clearBlock ino 1).bind fun _ => Respects.pure
    exact (hrest _).mono (fun _ _ hq => Or.inl (hq.stays_set rfl))
      (fun _ _ hq => Or.inl (hq.stays_set rfl))

omit [SfsDevice] in
theorem quiet_blockFree (ino : ℕ) : Respects Quiet (sfsBlockFree ino) := by
  unfold sfsBlockFree
  refine (quiet_assertInuse ino).bind fun _ s => ?_
  refine Ends.bind ?_
  rcases hfree : s.freemap.bitmapFree ino with _ | bm
  · refine Ends.of_eq_none ?_ trivial
    unfold freeBit
    rw [hfree]
  · have hbit : freeBit ino s = some (.ok ⟨⟩, { s with freemap := bm }) := by
      unfold freeBit
      rw [hfree]
    exact Ends.of_eq_ok hbit (Ends.modify (Or.inl rfl))

/-! The inodes are not what the flag is about. -/

omit [SfsDevice] in
theorem quiet_setDin (sin : ℕ) (d : Sfs → DiskInode) :
    Respects Quiet (Call.modify (fun s => s.setDin sin (d s)) : SfsCall PUnit) :=
  Respects.modify fun _ => Quiet.rest rfl rfl rfl

omit [SfsDevice] in
theorem quiet_setDirty (sin : ℕ) (d : Sfs → DiskInode) :
    Respects Quiet (Call.modify (fun s => (s.setDin sin (d s)).setDirty sin) : SfsCall PUnit) :=
  Respects.modify fun _ => Quiet.rest rfl rfl rfl

/-! The block map. -/

theorem quiet_enterBlock (entp ent offset : ℕ) : Respects Quiet (enterBlock entp ent offset) := by
  unfold enterBlock
  refine Respects.onError ?_ (Respects.ite (quiet_blockFree ent) Respects.pure)
  refine quiet_blockAlloc.bind fun ino => ?_
  exact ((quiet_wbuf _ _ _ _).onError (quiet_blockFree ino)).bind fun _ => Respects.pure

theorem quiet_getSub (entp index : ℕ) (create : Bool) :
    Respects Quiet (sfsBmapGetSubNolock entp index create) := by
  unfold sfsBmapGetSubNolock
  refine Respects.require.bind fun _ => Respects.ite ?_ (Respects.ite Respects.pure ?_)
  · exact (quiet_rbuf _ _ _).bind fun _ => Respects.ite Respects.pure (quiet_enterBlock _ _ _)
  · exact quiet_blockAlloc.bind fun _ => quiet_enterBlock _ _ _

theorem quiet_getDirect (sin index : ℕ) (create : Bool) :
    Respects Quiet (getDirect sin index create) := by
  unfold getDirect
  refine Respects.read.bind fun _ => Respects.ite ?_ Respects.pure
  exact quiet_blockAlloc.bind fun _ => (quiet_setDirty _ _).bind fun _ => Respects.pure

theorem quiet_getIndirect (sin index : ℕ) (create : Bool) :
    Respects Quiet (getIndirect sin index create) := by
  unfold getIndirect
  refine Respects.read.bind fun _ => (quiet_getSub _ _ _).bind fun _ => ?_
  refine Respects.ite ?_ Respects.pure
  exact Respects.require.bind fun _ => (quiet_setDirty _ _).bind fun _ => Respects.pure

theorem quiet_bmapGet (sin index : ℕ) (create : Bool) :
    Respects Quiet (sfsBmapGetNolock sin index create) := by
  unfold sfsBmapGetNolock
  have hrest : ∀ ino : ℕ, Respects Quiet (if ino = 0 then pure ino else
      assertInuse ino >>= fun _ => pure ino : SfsCall ℕ) :=
    fun ino => Respects.ite Respects.pure ((quiet_assertInuse ino).bind fun _ => Respects.pure)
  refine Respects.ite ((quiet_getDirect _ _ _).bind hrest) ?_
  refine Respects.ite ?_ (Respects.panic.bind hrest)
  exact (quiet_getIndirect _ _ _).bind hrest

theorem quiet_bmapLoad (sin index : ℕ) : Respects Quiet (sfsBmapLoadNolock sin index) := by
  unfold sfsBmapLoadNolock
  refine Respects.require.bind fun _ => Respects.read.bind fun _ => ?_
  refine (quiet_bmapGet _ _ _).bind fun _ => (quiet_assertInuse _).bind fun _ => ?_
  refine Respects.ite ?_ Respects.pure
  exact (quiet_setDin _ _).bind fun _ => Respects.pure

theorem quiet_bmapFree (sin index : ℕ) : Respects Quiet (sfsBmapFreeNolock sin index) := by
  unfold sfsBmapFreeNolock
  refine Respects.read.bind fun din => Respects.ite (Respects.ite ?_ Respects.pure) ?_
  · exact (quiet_blockFree _).bind fun _ => quiet_setDirty _ _
  · refine Respects.ite ?_ Respects.pure
    unfold sfsBmapFreeSubNolock
    refine (quiet_assertInuse _).bind fun _ => Respects.require.bind fun _ => ?_
    refine (quiet_rbuf _ _ _).bind fun _ => Respects.ite ?_ Respects.pure
    exact (quiet_wbuf _ _ _ _).bind fun _ => quiet_blockFree _

theorem quiet_bmapTruncate (sin : ℕ) : Respects Quiet (sfsBmapTruncateNolock sin) := by
  unfold sfsBmapTruncateNolock
  refine Respects.require.bind fun _ => Respects.read.bind fun _ => ?_
  exact (quiet_bmapFree _ _).bind fun _ => quiet_setDirty _ _

/-! The calls on a file. -/

theorem quiet_enlarge (sin left nblks : ℕ) : Respects Quiet (enlarge sin left nblks) := by
  induction left generalizing nblks with
  | zero => exact Respects.pure
  | succ left ih =>
    unfold enlarge
    exact (quiet_bmapLoad _ _).bind fun _ => ih _

theorem quiet_shrink (sin left : ℕ) : Respects Quiet (shrink sin left) := by
  induction left with
  | zero => exact Respects.pure
  | succ left ih =>
    unfold shrink
    exact (quiet_bmapTruncate _).bind fun _ => ih

theorem quiet_truncfile (sin : ℕ) (len : ℤ) : Respects Quiet (sfsTruncfile sin len) := by
  unfold sfsTruncfile
  refine Respects.ite Respects.fail (Respects.read.bind fun _ => Respects.ite Respects.require ?_)
  refine Respects.ite ((quiet_enlarge _ _ _).bind fun _ => ?_) ((quiet_shrink _ _).bind fun _ => ?_)
  · exact Respects.require.bind fun _ => quiet_setDirty _ _
  · exact Respects.require.bind fun _ => quiet_setDirty _ _

theorem quiet_tryseek (sin : ℕ) (pos : ℤ) : Respects Quiet (sfsTryseek sin pos) := by
  unfold sfsTryseek
  refine Respects.ite Respects.fail (Respects.read.bind fun _ => ?_)
  exact Respects.ite (quiet_truncfile _ _) Respects.pure

/-- The file system among the variables of `sfs_io_nolock`. -/
def QuietIo (io io' : SfsIo) : Prop := Quiet io.sfs io'.sfs

instance : IsPreorder SfsIo QuietIo where
  refl io := refl_of Quiet io.sfs
  trans _ _ _ h h' := trans_of Quiet h h'

omit [SfsDevice] in
theorem quiet_onSfs {α : Type} {x : SfsCall α} (h : Respects Quiet x) :
    Respects QuietIo (onSfs x) :=
  fun io => onSfs_ends (h io.sfs)

omit [SfsDevice] in
theorem quiet_variables {f : SfsIo → SfsIo} (h : ∀ io, (f io).sfs = io.sfs) :
    Respects QuietIo (Call.modify f : IoCall PUnit) := by
  refine Respects.modify fun io => ?_
  unfold QuietIo
  rw [h io]
  exact refl_of Quiet io.sfs

theorem quiet_bufOp (write : Bool) (size ino blkoff : ℕ) :
    Respects QuietIo (sfsBufOp write size ino blkoff) := by
  unfold sfsBufOp
  refine Respects.read.bind fun _ => Respects.ite (quiet_onSfs (quiet_wbuf _ _ _ _)) ?_
  exact (quiet_onSfs (quiet_rbuf _ _ _)).bind fun _ => quiet_variables fun _ => rfl

theorem quiet_blockOp (write : Bool) (ino : ℕ) : Respects QuietIo (sfsBlockOp write ino) := by
  unfold sfsBlockOp
  refine Respects.read.bind fun io => ?_
  refine Respects.bind (quiet_onSfs ?_) fun _ => quiet_variables fun _ => rfl
  exact Respects.ite (quiet_rwblock _ _ _ _) (quiet_rwblock _ _ _ _)

theorem quiet_ioBlocks (sin endpos : ℕ) (write : Bool) (left : ℕ) :
    Respects QuietIo (ioBlocks sin endpos write left) := by
  induction left with
  | zero => exact Respects.require
  | succ left ih =>
    unfold ioBlocks
    refine Respects.read.bind fun _ => Respects.ite ?_ Respects.pure
    refine (quiet_onSfs (quiet_bmapLoad _ _)).bind fun _ => (quiet_blockOp _ _).bind fun _ => ?_
    refine Respects.bind (quiet_variables ?_) fun _ => ih
    exact fun _ => rfl

theorem quiet_ioBody (sin endpos nblks : ℕ) (write : Bool) :
    Respects QuietIo (ioBody sin endpos nblks write) := by
  unfold ioBody ioHead ioTail
  refine Respects.bind ?_ fun _ => (quiet_ioBlocks _ _ _ _).bind fun _ => ?_
  · refine Respects.read.bind fun _ => Respects.ite ?_ Respects.pure
    refine (quiet_onSfs (quiet_bmapLoad _ _)).bind fun _ => (quiet_bufOp _ _ _ _).bind fun _ => ?_
    exact quiet_variables fun _ => rfl
  · refine Respects.read.bind fun _ => Respects.ite ?_ Respects.pure
    refine (quiet_onSfs (quiet_bmapLoad _ _)).bind fun _ => (quiet_bufOp _ _ _ _).bind fun _ => ?_
    exact quiet_variables fun _ => rfl

theorem quiet_ioNolock {s : Sfs} {buf : Bytes} {offset : ℤ} {len : ℕ} {write : Bool} {r : IoResult}
    (hr : sfsIoNolock s sin buf offset len write = some r) : Quiet s r.sfs := by
  unfold sfsIoNolock at hr
  dsimp only at hr
  split at hr
  · cases hr
  split at hr
  · obtain rfl := Option.some.inj hr
    exact refl_of Quiet s
  split at hr
  · obtain rfl := Option.some.inj hr
    exact refl_of Quiet s
  split at hr
  · obtain rfl := Option.some.inj hr
    exact refl_of Quiet s
  obtain ⟨⟨res, io⟩, hbody, rfl⟩ := Option.map_eq_some_iff.mp hr
  refine trans_of Quiet ((quiet_ioBody _ _ _ _).state hbody) ?_
  unfold growSize
  split
  · exact Quiet.rest rfl rfl rfl
  · exact refl_of Quiet io.sfs

theorem FileOp.after_quiet {op : FileOp} {s t : Sfs} (h : op.after s sin = some t) : Quiet s t := by
  cases op with
  | truncate len =>
    obtain ⟨⟨res, u⟩, hx, rfl⟩ := Option.map_eq_some_iff.mp h
    exact (quiet_truncfile sin len).state hx
  | seek pos =>
    obtain ⟨⟨res, u⟩, hx, rfl⟩ := Option.map_eq_some_iff.mp h
    exact (quiet_tryseek sin pos).state hx
  | io buf offset len write =>
    obtain ⟨r, hr, rfl⟩ := Option.map_eq_some_iff.mp h
    exact quiet_ioNolock hr

/-- Any calls on any files, failed ones too, and on a device that may refuse: the free map and the
number of unused blocks never change without the flag. -/
theorem free_map_marked (s t : Sfs) (ops : List (ℕ × FileOp))
    (hrun : runOps (fun s op => FileOp.after op.2 s op.1) s ops = some t) :
    t.superDirty = true ∨
      t.superDirty = s.superDirty ∧ t.freemap = s.freemap ∧ t.unusedBlocks = s.unusedBlocks := by
  refine @runOps_invariant _ _ _ (Quiet s) ?_ s t ops (refl_of Quiet s) hrun
  intro u op u' hu hop
  exact trans_of Quiet hu (FileOp.after_quiet hop)

omit [SfsDevice] in
/-- A file of an image gets two blocks, and on the second try there is nothing to do. -/
theorem free_map_marked_image : letI := workingDevice
    ∃ t, runOps (fun s op => FileOp.after op.2 s op.1) (sfsImage 1100 0 0 (fun _ _ => 0))
        [(imageIno, .truncate 5000), (imageIno, .truncate 5000)] = some t ∧
      (t.superDirty = true ∨ t.superDirty = false ∧ t.freemap = Bitmap.setRange 4 1100 ∧
        t.unusedBlocks = 1096) := by
  let := workingDevice
  have hrun : (runOps (fun s op => FileOp.after op.2 s op.1) (sfsImage 1100 0 0 (fun _ _ => 0))
      [(imageIno, .truncate 5000), (imageIno, .truncate 5000)]).isSome = true := by decide +kernel
  obtain ⟨t, ht⟩ := Option.isSome_iff_exists.mp hrun
  exact ⟨t, ht, free_map_marked _ t _ ht⟩

end Ucore.Fs
