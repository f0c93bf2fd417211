import Ucore.Vfs.SharedFile

/-!
One call for a file that is open several times: opening, closing, duplicating and reading keep the
volume in order and the counts of the inode right.
-/
namespace Ucore.Vfs.SharedFile

open Library Libs Call Fs Vm

/-- The file of a volume in order; its inode is marked or as on disk. -/
structure InOrder (st : SharedFile) : Prop where
  good : GoodFile st.sfs st.ino
  nonzero : st.ino ≠ 0
  range : st.ino < st.sfs.superBlocks
  links : nlinksOf (st.sfs.disk st.ino) ≠ 0
  nlinks : st.loaded = true → nlinksOf (st.sfs.disk st.ino) = st.nlinks
  marked : st.loaded = true ∧ (st.sfs.inodes st.ino).dirty = true ∨
    (st.sfs.storedInode st.ino).Same (st.sfs.din st.ino)

/-- A call left the references and the opens of the inode as given, and the descriptors alone. -/
structure Counted (st : SharedFile) (refs opens : ℕ) (st' : SharedFile) : Prop where
  order : InOrder st'
  ino : st'.ino = st.ino
  files : st'.files = st.files
  refCount : st'.refCount = refs
  openCount : st'.openCount = opens
  live : 0 < refs → st'.loaded = true

variable {st st' : SharedFile} {fd refs opens : ℕ} {t : Sfs}

/-- A call for the file whose inode is in memory. -/
theorem InOrder.leaves (h : InOrder st) (hloaded : st.loaded = true) (ht : Leaves st.sfs st.ino t) :
    InOrder { st with sfs := t } := by
  have hblock := ht.stays.block
  have hlinks := congrArg nlinksOf hblock
  refine ⟨ht.good, h.nonzero, ?_, ?_, ?_, ?_⟩
  · exact ht.stays.superBlocks.symm ▸ h.range
  · change nlinksOf (t.disk st.ino) ≠ 0
    rw [hlinks]
    exact h.links
  · intro _
    change nlinksOf (t.disk st.ino) = st.nlinks
    rw [hlinks]
    exact h.nlinks hloaded
  · change st.loaded = true ∧ (t.inodes st.ino).dirty = true ∨
      (t.storedInode st.ino).Same (t.din st.ino)
    rcases ht.stays.marked with hdirty | hsame
    · exact Or.inl ⟨hloaded, hdirty⟩
    · have hdin : t.din st.ino = st.sfs.din st.ino := congrArg SfsInode.din hsame
      have hstored : t.storedInode st.ino = st.sfs.storedInode st.ino := congrArg diskInode hblock
      rw [hsame, hdin, hstored]
      exact h.marked

/-- The inode stands in its block; it may leave the memory. -/
theorem InOrder.stored {loaded : Bool} (h : InOrder st) (hloaded : st.loaded = true)
    (hsame : SameVolume st.sfs t) (ht : Stored st.sfs st.ino st.nlinks t) :
    InOrder { st with sfs := t, loaded := loaded } := by
  have hlinks : nlinksOf (t.disk st.ino) = nlinksOf (st.sfs.disk st.ino) :=
    ht.nlinks.trans (h.nlinks hloaded).symm
  refine ⟨h.good.same hsame, h.nonzero, ?_, ?_, fun _ => ht.nlinks, Or.inr ?_⟩
  · exact hsame.superBlocks.symm ▸ h.range
  · change nlinksOf (t.disk st.ino) ≠ 0
    rw [hlinks]
    exact h.links
  · exact ht.same.trans (hsame.din st.ino h.good.fits.ino).symm

/-- The inode comes back from its block. -/
theorem InOrder.load (h : InOrder st) (hloaded : st.loaded = false) :
    InOrder { st with
      sfs := st.sfs.loaded st.ino
      nlinks := nlinksOf (st.sfs.disk st.ino)
      loaded := true
      refCount := refs } := by
  have hstored : (st.sfs.storedInode st.ino).Same (st.sfs.din st.ino) := by
    refine h.marked.resolve_left (fun hbad => ?_)
    rw [hloaded] at hbad
    exact Bool.false_ne_true hbad.1
  refine ⟨h.good.same (loaded_sameVolume hstored), h.nonzero, h.range, h.links, fun _ => rfl,
    Or.inr ?_⟩
  have hdin : (st.sfs.loaded st.ino).din st.ino = st.sfs.storedInode st.ino := by
    unfold Sfs.din Sfs.loaded
    simp only [Function.update_self]
  change ((st.sfs.loaded st.ino).storedInode st.ino).Same ((st.sfs.loaded st.ino).din st.ino)
  rw [hdin]
  exact DiskInode.Same.refl _

theorem InOrder.loadable (h : InOrder st) (hloaded : st.loaded = false) : Loadable st.sfs st.ino := by
  have hstored : (st.sfs.storedInode st.ino).Same (st.sfs.din st.ino) := by
    refine h.marked.resolve_left (fun hbad => ?_)
    rw [hloaded] at hbad
    exact Bool.false_ne_true hbad.1
  refine ⟨h.nonzero, h.range, ?_, h.links, Or.inl (hstored.type.trans h.good.type)⟩
  have hnode : st.sfs.owns (.inode st.ino) st.ino := ⟨h.good.fits.ino, rfl⟩
  exact Bool.eq_false_iff.mpr (h.good.inv.accounts.ledger.taken _ _ hnode)

theorem Counted.refl (h : InOrder st) (hlive : 0 < st.refCount → st.loaded = true) :
    Counted st st.refCount st.openCount st := ⟨h, rfl, rfl, rfl, rfl, hlive⟩

theorem Counted.trans {st'' : SharedFile} {refs' opens' : ℕ} (h : Counted st refs opens st')
    (h' : Counted st' refs' opens' st'') : Counted st refs' opens' st'' :=
  ⟨h'.order, h'.ino.trans h.ino, h'.files.trans h.files, h'.refCount, h'.openCount, h'.live⟩

/-- More references and opens. -/
theorem InOrder.count {files : List (Option Descriptor)} (h : InOrder st) :
    InOrder { st with refCount := refs, openCount := opens, files := files } :=
  ⟨h.good, h.nonzero, h.range, h.links, h.nlinks, h.marked⟩

variable [SfsDevice]

omit [SfsDevice] in
theorem onFs_ends {α : Type} {x : SfsCall α} {p : Prop} {Q : α → SharedFile → Prop}
    {E : VfsError → SharedFile → Prop}
    (h : Ends p x st.sfs (fun a t => Q a { st with sfs := t })
      (fun e t => E (sfsError e) { st with sfs := t })) : Ends p (onFs x) st Q E := by
  unfold Ends onFs
  unfold Ends at h
  rcases hx : x st.sfs with _ | ⟨_ | _, t⟩
  · rw [hx] at h
    exact h
  · rw [hx] at h
    exact h
  · rw [hx] at h
    exact h

/-- Writing back works, and what is then on disk is the file as it was. -/
theorem fsync_ends (hw : ¬ Faulty) (h : InOrder st) (hloaded : st.loaded = true) :
    Ends False (Fs.sfsFsync st.ino st.nlinks) st.sfs
      (fun _ t => ∀ loaded, InOrder { st with sfs := t, loaded := loaded }) (fun _ _ => False) := by
  obtain ⟨t, hsync, hsame, ht⟩ := h.good.fsync hw h.nonzero h.range (h.nlinks hloaded)
    (h.marked.imp_left And.right)
  exact Ends.of_eq_ok hsync (fun _ => h.stored hloaded hsame ht)

theorem reclaim_ends (hw : ¬ Faulty) (h : InOrder st) (hloaded : st.loaded = true) :
    Ends False reclaim st
      (fun _ st' => InOrder st' ∧ ∃ t, st' = { st with sfs := t, loaded := false })
      (fun _ _ => False) := by
  have hlinks : st.nlinks ≠ 0 := h.nlinks hloaded ▸ h.links
  refine Ends.bind (Ends.read (Ends.warn (Ends.bind (onFs_ends ?_))))
  have hsync : Ends False (Fs.sfsReclaim st.ino st.nlinks) st.sfs
      (fun _ t => ∀ loaded, InOrder { st with sfs := t, loaded := loaded }) (fun _ _ => False) := by
    unfold Ends
    rw [sfsReclaim_eq hlinks]
    exact fsync_ends hw h hloaded
  refine hsync.mono ?_ (fun _ _ hbad => hbad.elim)
  intro _ t ht
  exact Ends.modify ⟨ht false, t, rfl⟩

theorem inodeRefDec_ends (hw : ¬ Faulty) (h : InOrder st) (hloaded : st.loaded = true)
    (hrefs : 0 < st.refCount) :
    Ends False inodeRefDec st (fun _ st' => Counted st (st.refCount - 1) st.openCount st')
      (fun _ _ => False) := by
  refine Ends.bind (Ends.require (fun _ => Ends.bind (Ends.modify (Ends.bind (Ends.read ?_))))
    (fun hbad => hbad hrefs))
  have hdown : InOrder { st with refCount := st.refCount - 1 } := h.count
  by_cases hlast : st.refCount - 1 = 0
  · rw [if_pos hlast]
    refine (reclaim_ends hw hdown hloaded).mono ?_ (fun _ _ hbad => hbad)
    rintro _ _ ⟨hout, t, rfl⟩
    exact ⟨hout, rfl, rfl, rfl, rfl, fun hbad => absurd hlast (by omega)⟩
  · rw [if_neg hlast]
    exact Ends.pure ⟨hdown, rfl, rfl, rfl, rfl, fun _ => hloaded⟩

theorem inodeOpenDec_ends (hw : ¬ Faulty) (h : InOrder st) (hloaded : st.loaded = true)
    (hopens : 0 < st.openCount) :
    Ends False inodeOpenDec st (fun _ st' => Counted st st.refCount (st.openCount - 1) st' ∧
      st'.loaded = true) (fun _ _ => False) := by
  refine Ends.bind (Ends.require (fun _ => Ends.bind (Ends.modify (Ends.bind (Ends.read ?_))))
    (fun hbad => hbad hopens))
  have hdown : InOrder { st with openCount := st.openCount - 1 } := h.count
  by_cases hlast : st.openCount - 1 = 0
  · rw [if_pos hlast]
    refine Ends.warn (onFs_ends ((fsync_ends hw hdown hloaded).mono ?_
      (fun _ _ hbad => hbad.elim)))
    intro _ t ht
    have hout := ht st.loaded
    exact ⟨⟨hout, rfl, rfl, rfl, rfl, fun _ => hloaded⟩, hloaded⟩
  · rw [if_neg hlast]
    exact Ends.pure ⟨⟨hdown, rfl, rfl, rfl, rfl, fun _ => hloaded⟩, hloaded⟩

theorem vfsClose_ends (hw : ¬ Faulty) (h : InOrder st) (hloaded : st.loaded = true)
    (hopens : 0 < st.openCount) (hrefs : 0 < st.refCount) :
    Ends False vfsClose st (fun _ st' => Counted st (st.refCount - 1) (st.openCount - 1) st')
      (fun _ _ => False) := by
  refine Ends.bind ((inodeOpenDec_ends hw h hloaded hopens).mono ?_ (fun _ _ hbad => hbad))
  rintro _ st₁ ⟨hc, hloaded₁⟩
  refine (inodeRefDec_ends hw hc.order hloaded₁ (hc.refCount.symm ▸ hrefs)).mono ?_
    (fun _ _ hbad => hbad)
  intro _ st₂ hc₂
  rw [hc.refCount, hc.openCount] at hc₂
  exact hc.trans hc₂

theorem loadInode_ends (hw : ¬ Faulty) (h : InOrder st)
    (hlive : 0 < st.refCount → st.loaded = true) :
    Ends False loadInode st (fun _ st' => Counted st (st.refCount + 1) st.openCount st')
      (fun _ _ => False) := by
  refine Ends.bind (Ends.read ?_)
  by_cases hloaded : st.loaded = true
  · rw [if_pos hloaded]
    exact Ends.modify ⟨h.count, rfl, rfl, rfl, rfl, fun _ => hloaded⟩
  · rw [if_neg hloaded]
    have hnone : st.refCount = 0 := by
      by_contra hsome
      exact hloaded (hlive (Nat.pos_of_ne_zero hsome))
    have hout := Bool.eq_false_iff.mpr hloaded
    have hm := h.good.inv.accounts.mounted
    have hload := (sfsLoadInode_ok_iff hw hm).mpr ⟨h.loadable hout, rfl⟩
    refine Ends.bind (onFs_ends (Ends.of_eq_ok hload (Ends.modify ?_)))
    exact ⟨h.load hout, rfl, rfl, by rw [hnone], rfl, fun _ => rfl⟩

theorem truncateIf_ends (hw : ¬ Faulty) {flags : ℕ} (h : InOrder st) (hloaded : st.loaded = true) :
    Ends False (truncateIf flags) st (fun _ st' => Counted st st.refCount st.openCount st')
      (fun _ _ => False) := by
  refine Ends.bind (Ends.read ?_)
  by_cases hcut : (hasFlag flags oTrunc || hasFlag flags oCreat) = true
  · rw [if_pos hcut]
    obtain ⟨t, htrunc, ht⟩ := sfsTruncfile_cut hw h.good
    refine Ends.onError (onFs_ends (Ends.of_eq_ok htrunc ?_))
    exact ⟨h.leaves hloaded ht, rfl, rfl, rfl, rfl, fun _ => hloaded⟩
  · rw [if_neg hcut]
    exact Ends.pure (Counted.refl h (fun _ => hloaded))

/-- An open that fails may leave a reference behind. -/
theorem vfsOpen_ends (hw : ¬ Faulty) {flags : ℕ} (h : InOrder st)
    (hlive : 0 < st.refCount → st.loaded = true) :
    Ends False (vfsOpen flags) st
      (fun _ st' => Counted st (st.refCount + 1) (st.openCount + 1) st')
      (fun _ st' => ∃ refs, st.refCount ≤ refs ∧ Counted st refs st.openCount st') := by
  unfold vfsOpen
  by_cases hok : vfsFlagsOk flags = true
  · rw [if_pos hok]
    refine Ends.bind ((loadInode_ends hw h hlive).mono ?_ (fun _ _ hbad => hbad.elim))
    intro _ st₁ hc
    have hloaded := hc.live (Nat.succ_pos _)
    by_cases hexcl : (hasFlag flags oExcl && hasFlag flags oCreat) = true
    · rw [if_pos hexcl]
      exact Ends.fail ⟨_, Nat.le_succ _, hc⟩
    · rw [if_neg hexcl]
      refine Ends.bind (Ends.modify ?_)
      have hup : InOrder { st₁ with openCount := st₁.openCount + 1 } := hc.order.count
      refine (truncateIf_ends hw hup hloaded).mono ?_ (fun _ _ hbad => hbad.elim)
      intro _ st₂ hc₂
      have hrefs := hc₂.refCount.trans hc.refCount
      have hopens := hc₂.openCount.trans (congrArg (· + 1) hc.openCount)
      exact ⟨hc₂.order, hc₂.ino.trans hc.ino, hc₂.files.trans hc.files, hrefs, hopens,
        fun _ => hc₂.live (by rw [hc.refCount]; exact Nat.succ_pos _)⟩
  · rw [if_neg hok]
    exact Ends.fail ⟨_, le_rfl, Counted.refl h hlive⟩

/-- The state between two calls. -/
structure Good (st : SharedFile) : Prop extends InOrder st where
  live : 0 < st.refCount → st.loaded = true
  refs : st.openCount ≤ st.refCount
  opens : st.openCount = st.files.countP Option.isSome
  pos : ∀ d : Descriptor, some d ∈ st.files → 0 ≤ d.pos.toInt ∧ d.pos.toInt ≤ maxBytes

/-! The descriptors. -/

omit [SfsDevice] in
theorem mem_of_file {d : Descriptor} (h : st.file fd = some d) : some d ∈ st.files := by
  unfold file at h
  rw [List.getD_eq_getElem?_getD] at h
  rcases hget : st.files[fd]? with _ | f
  · rw [hget] at h
    exact absurd h (by simp)
  · rw [hget] at h
    obtain rfl : f = some d := h
    exact List.mem_of_getElem? hget

omit [SfsDevice] in
theorem lt_of_file {d : Descriptor} (h : st.file fd = some d) : fd < st.files.length := by
  unfold file at h
  by_contra hge
  rw [List.getD_eq_default _ _ (Nat.not_lt.mp hge)] at h
  exact absurd h (by simp)

omit [SfsDevice] in
theorem countP_set {d : Descriptor} (h : st.file fd = some d) (f : Option Descriptor) :
    (st.files.set fd f).countP Option.isSome + 1 =
      st.files.countP Option.isSome + (if f.isSome then 1 else 0) := by
  have hlt := lt_of_file h
  have hpos : 0 < st.files.countP Option.isSome :=
    List.countP_pos_iff.mpr ⟨some d, mem_of_file h, rfl⟩
  have hget : st.files[fd].isSome = true := by
    unfold file at h
    rw [List.getD_eq_getElem _ _ hlt] at h
    rw [h, Option.isSome_some]
  rw [List.countP_set hlt, if_pos hget]
  omega

omit [SfsDevice] in
theorem file_setFile {d : Descriptor} (h : st.file fd = some d) (f : Option Descriptor) (n : ℕ) :
    (st.setFile fd f).file n = if n = fd then f else st.file n := by
  have hlt := lt_of_file h
  unfold file setFile
  simp only [List.getD_eq_getElem?_getD]
  by_cases hn : n = fd
  · obtain rfl := hn
    rw [if_pos rfl, List.getElem?_set_self hlt, Option.getD_some]
  · rw [if_neg hn, List.getElem?_set_ne (fun heq => hn heq.symm)]

namespace Good

omit [SfsDevice] in
theorem loaded_of_file {d : Descriptor} (h : Good st) (hfile : st.file fd = some d) :
    0 < st.openCount ∧ 0 < st.refCount ∧ st.loaded = true := by
  have hsome : 0 < st.files.countP Option.isSome :=
    List.countP_pos_iff.mpr ⟨some d, mem_of_file hfile, rfl⟩
  have hopens := h.opens
  have hrefs := h.refs
  have hpos : 0 < st.refCount := by omega
  exact ⟨by omega, hpos, h.live hpos⟩

omit [SfsDevice] in
/-- The descriptors stay. -/
theorem counted (h : Good st) (hc : Counted st refs st.openCount st') (hle : st.refCount ≤ refs) :
    Good st' := by
  refine ⟨hc.order, ?_, ?_, ?_, ?_⟩
  · rw [hc.refCount]
    exact hc.live
  · rw [hc.refCount, hc.openCount]
    exact h.refs.trans hle
  · rw [hc.openCount, hc.files]
    exact h.opens
  · rw [hc.files]
    exact h.pos

omit [SfsDevice] in
/-- One more descriptor, with a reference and an open of its own. -/
theorem add {d : Descriptor} (h : Good st)
    (hc : Counted st (st.refCount + 1) (st.openCount + 1) st')
    (hpos : 0 ≤ d.pos.toInt ∧ d.pos.toInt ≤ maxBytes) :
    Good { st' with files := st'.files ++ [some d] } := by
  refine ⟨hc.order.count, ?_, ?_, ?_, ?_⟩
  · exact fun _ => hc.live (Nat.succ_pos _)
  · change st'.openCount ≤ st'.refCount
    rw [hc.openCount, hc.refCount]
    exact Nat.succ_le_succ h.refs
  · change st'.openCount = (st'.files ++ [some d]).countP Option.isSome
    rw [hc.openCount, hc.files, List.countP_append, ← h.opens]
    rfl
  · intro d' hd'
    change some d' ∈ st'.files ++ [some d] at hd'
    rw [hc.files, List.mem_append, List.mem_singleton] at hd'
    rcases hd' with hold | hnew
    · exact h.pos d' hold
    · exact Option.some.inj hnew ▸ hpos

omit [SfsDevice] in
/-- A call that moves one descriptor. -/
theorem move {d d' : Descriptor} (h : Good st) (hfile : st.file fd = some d)
    (ht : Leaves st.sfs st.ino t) (hpos : 0 ≤ d'.pos.toInt ∧ d'.pos.toInt ≤ maxBytes) :
    Good { st.setFile fd (some d') with sfs := t } := by
  have hloaded := (h.loaded_of_file hfile).2.2
  have hcount := countP_set hfile (some d')
  rw [Option.isSome_some, if_pos rfl] at hcount
  refine ⟨(h.toInOrder.leaves hloaded ht).count, fun _ => hloaded, h.refs, ?_, ?_⟩
  · change st.openCount = (st.files.set fd (some d')).countP Option.isSome
    rw [h.opens]
    omega
  · intro d'' hd''
    rcases List.mem_or_eq_of_mem_set hd'' with hold | hnew
    · exact h.pos d'' hold
    · exact Option.some.inj hnew ▸ hpos

end Good

/-! The calls. -/

omit [SfsDevice] in
theorem toInt_ofNat_size (h : InOrder st) : (Int64.ofNat st.size).toInt = st.size := by
  have hbytes : maxBytes = 4243456 := by decide
  have hle : st.size ≤ maxBytes := h.good.size_le
  exact Int64.toInt_ofNat_of_lt (by omega)

theorem fileOpen_ends (hw : ¬ Faulty) {flags : ℕ} (h : Good st) :
    Ends False (fileOpen flags) st (fun _ st' => Good st') (fun _ st' => Good st') := by
  unfold fileOpen
  cases accessMode flags with
  | none => exact Ends.fail h
  | some mode =>
    refine Ends.bind ((vfsOpen_ends hw h.toInOrder h.live).mono ?_ ?_)
    · intro _ st₁ hc
      refine Ends.bind (Ends.read (Ends.bind (Ends.read (Ends.bind (Ends.modify ?_)))))
      refine Ends.pure (h.add hc ?_)
      have hle : st₁.size ≤ maxBytes := hc.order.good.size_le
      by_cases happend : hasFlag flags oAppend = true
      · rw [if_pos happend, toInt_ofNat_size hc.order]
        omega
      · rw [if_neg happend]
        exact ⟨le_rfl, Int.natCast_nonneg _⟩
    · rintro _ st₁ ⟨refs, hle, hc⟩
      exact h.counted hc hle

omit [SfsDevice] in
theorem fd2file_ends {p : Prop} {Q : Descriptor → SharedFile → Prop}
    {E : VfsError → SharedFile → Prop} (hsome : ∀ d, st.file fd = some d → Q d st)
    (hnone : st.file fd = none → E .inval st) : Ends p (fd2file fd) st Q E := by
  unfold Ends fd2file
  cases hfile : st.file fd with
  | none => exact hnone hfile
  | some d => exact hsome d hfile

omit [SfsDevice] in
theorem fileDup_ends (h : Good st) :
    Ends False (fileDup fd) st (fun _ st' => Good st') (fun _ st' => Good st') := by
  refine Ends.bind (fd2file_ends (fun d hfile => ?_) (fun _ => h))
  have hloaded := (h.loaded_of_file hfile).2.2
  refine Ends.bind (Ends.modify (Ends.bind (Ends.read (Ends.bind (Ends.modify (Ends.pure ?_))))))
  have hup : Counted st (st.refCount + 1) (st.openCount + 1)
      { st with refCount := st.refCount + 1, openCount := st.openCount + 1 } :=
    ⟨h.toInOrder.count, rfl, rfl, rfl, rfl, fun _ => hloaded⟩
  exact h.add hup (h.pos d (mem_of_file hfile))

theorem fileClose_ends (hw : ¬ Faulty) (h : Good st) :
    Ends False (fileClose fd) st (fun _ st' => Good st') (fun _ st' => Good st') := by
  refine Ends.bind (fd2file_ends (fun d hfile => ?_) (fun _ => h))
  obtain ⟨hopens, hrefs, hloaded⟩ := h.loaded_of_file hfile
  refine Ends.bind (Ends.modify (Ends.bind ?_))
  have hout : InOrder (st.setFile fd none) := h.toInOrder.count
  refine (vfsClose_ends hw hout hloaded hopens hrefs).mono ?_ (fun _ _ hbad => hbad.elim)
  intro _ st' hc
  have hcount := countP_set hfile none
  rw [Option.isSome_none, if_neg Bool.false_ne_true, Nat.add_zero, ← h.opens] at hcount
  have hle := h.refs
  refine Ends.pure ⟨hc.order, ?_, ?_, ?_, ?_⟩
  · rw [hc.refCount]
    exact hc.live
  · rw [hc.refCount, hc.openCount]
    exact Nat.sub_le_sub_right hle 1
  · rw [hc.openCount, hc.files]
    change st.openCount - 1 = (st.files.set fd none).countP Option.isSome
    omega
  · intro d' hd'
    rw [hc.files] at hd'
    exact h.pos d' ((List.mem_or_eq_of_mem_set hd').resolve_right (by simp))

/-! Reading. -/

/-- One part of a read ends behind the bytes of the file or where it was. -/
theorem fileRead_stays {f : OpenFile} {s : Sfs} {ino len : ℕ} (buffer : Bytes)
    (hg : GoodFile s ino) (hnode : f.node = .file s ino) (hlen : len ≤ ioBufSize)
    (h0 : 0 ≤ f.pos.toInt) (hmax : f.pos.toInt ≤ maxBytes) :
    ∃ r, fileRead f buffer len = some r ∧ r.file.node = .file s ino ∧
      0 ≤ r.file.pos.toInt ∧ r.file.pos.toInt ≤ maxBytes := by
  have hbytes : maxBytes = 4243456 := by decide
  have hlimit : maxFileSize = 134217728 := rfl
  have hpart : ioBufSize = 4096 := rfl
  have hsize := hg.size_le
  unfold fileRead
  by_cases hread : f.readable = false
  · rw [if_pos hread]
    exact ⟨_, rfl, hnode, h0, hmax⟩
  · rw [if_neg hread]
    obtain ⟨r, hr, hsfs, -, -, hall⟩ :=
      sfsIoNolock_reads buffer hg.inv hg.fits hg.not_dir f.pos.toInt len
    obtain ⟨hle, -, -⟩ := hall h0 (by omega) (by omega)
    have hvop : vopRead f.node buffer len f.pos.toInt =
        some ⟨sfsCode r.ret, .file s ino, r.buf, r.alen⟩ := by
      unfold vopRead sfsRead
      rw [hnode]
      simp only [hr, Option.bind_eq_bind, Option.bind_some, hsfs]
      exact if_pos (by omega)
    rw [hvop]
    refine ⟨_, rfl, rfl, ?_⟩
    change 0 ≤ (f.pos + Int64.ofNat r.alen).toInt ∧ (f.pos + Int64.ofNat r.alen).toInt ≤ maxBytes
    rw [toInt_add_ofNat h0 (by omega)]
    omega

omit [SfsDevice] in
theorem copyOut_file (rs : ReadState) (ret : ℤ) (alen : ℕ) :
    (rs.copyOut ret alen).2.file = rs.file := by
  unfold ReadState.copyOut
  dsimp only
  split
  · rfl
  · rfl

theorem readLoop_stays (turns : ℕ) (rs : ReadState) {s : Sfs} {ino : ℕ} (hg : GoodFile s ino)
    (hnode : rs.file.node = .file s ino) (h0 : 0 ≤ rs.file.pos.toInt)
    (hmax : rs.file.pos.toInt ≤ maxBytes) :
    ∃ ret rs', rs.readLoop turns = some (ret, rs') ∧ rs'.file.node = .file s ino ∧
      0 ≤ rs'.file.pos.toInt ∧ rs'.file.pos.toInt ≤ maxBytes := by
  induction turns generalizing rs with
  | zero => exact ⟨_, _, rfl, hnode, h0, hmax⟩
  | succ turns ih =>
    unfold ReadState.readLoop
    by_cases hlen : rs.len = 0
    · rw [if_pos hlen]
      exact ⟨_, _, rfl, hnode, h0, hmax⟩
    · rw [if_neg hlen]
      obtain ⟨r, hr, hnode', h0', hmax'⟩ := fileRead_stays rs.buffer hg hnode
        (min_le_left ioBufSize rs.len) h0 hmax
      obtain ⟨x, hx⟩ : ∃ x, (if r.alen ≠ 0 then
          ({ rs with file := r.file, buffer := r.buffer } : ReadState).copyOut r.ret r.alen
        else (r.ret, { rs with file := r.file, buffer := r.buffer })) = x := ⟨_, rfl⟩
      have hfile : x.2.file = r.file := by
        rw [← hx]
        split
        · exact copyOut_file _ _ _
        · rfl
      simp only [hr, Option.bind_eq_bind, Option.bind_some, hx]
      by_cases hstop : x.1 ≠ 0 ∨ r.alen = 0
      · rw [if_pos hstop]
        exact ⟨_, _, rfl, hfile ▸ hnode', hfile ▸ h0', hfile ▸ hmax'⟩
      · rw [if_neg hstop]
        exact ih x.2 (hfile ▸ hnode') (hfile ▸ h0') (hfile ▸ hmax')

theorem sysfileRead_stays (mm : Option AreaList) (mem : UInt64 → UInt8) (f : OpenFile)
    (buffer : Option Bytes) (base len : UInt64) {s : Sfs} {ino : ℕ} (hg : GoodFile s ino)
    (hnode : f.node = .file s ino) (h0 : 0 ≤ f.pos.toInt) (hmax : f.pos.toInt ≤ maxBytes) :
    ∃ ret rs, Vfs.sysfileRead mm mem f buffer base len = some (ret, rs) ∧
      rs.file.node = .file s ino ∧ 0 ≤ rs.file.pos.toInt ∧ rs.file.pos.toInt ≤ maxBytes := by
  unfold Vfs.sysfileRead
  dsimp only
  by_cases hlen : len = 0
  · rw [if_pos hlen]
    exact ⟨_, _, rfl, hnode, h0, hmax⟩
  · rw [if_neg hlen]
    by_cases hread : f.readable = false
    · rw [if_pos hread]
      exact ⟨_, _, rfl, hnode, h0, hmax⟩
    · rw [if_neg hread]
      cases buffer with
      | none => exact ⟨_, _, rfl, hnode, h0, hmax⟩
      | some buffer =>
        obtain ⟨ret, rs, hloop, hstays⟩ := readLoop_stays len.toNat
          ⟨mm, mem, f, buffer, base, len.toNat, 0⟩ hg hnode h0 hmax
        simp only [hloop, Option.map_some]
        exact ⟨_, rs, rfl, hstays⟩

theorem sysfileRead_good (h : Good st) (fd : ℕ) (u : UserBuffer) :
    ∃ ret st', sysfileRead fd u st = some (ret, st') ∧ Good st' := by
  unfold sysfileRead
  cases hfile : st.file fd with
  | none => exact ⟨_, _, rfl, h⟩
  | some d =>
    obtain ⟨h0, hmax⟩ := h.pos d (mem_of_file hfile)
    obtain ⟨ret, rs, hread, hnode, hpos⟩ := sysfileRead_stays u.mm u.mem
      ⟨d.readable, d.pos, .file st.sfs st.ino⟩ u.kbuf u.base u.len h.good rfl h0 hmax
    simp only [hread, Option.map_some, hnode]
    exact ⟨_, _, rfl, h.move hfile (Leaves.refl h.good) hpos⟩

end Ucore.Vfs.SharedFile
