import Ucore.Vfs.World
import Ucore.Fs.SfsImage

/-!
Opening a file without `O_TRUNC`. `vfs_open` truncates with `O_CREAT` as well, also what it has
found; where that does not happen, no open and no read changes a file.
-/
namespace Ucore.Vfs

open Library Call
open Fs (Sfs SfsDevice Bytes)

variable [SfsDevice] {T : DirTree} {w w' w₀ : World} {s s' : VfsState} {f g : ℕ → ℤ} {io : VfsIo}
  {t i n flags : ℕ} {path : List Char} {r : Roots} {α : Type}

/-- The volumes stay as they are. -/
def Still (x : WorldCall α) (w : World) : Prop :=
  Ends True x w (fun _ w' => w'.sfs = w.sfs) (fun _ w' => w'.sfs = w.sfs)

omit [SfsDevice] in
theorem onVfs_still (x : VfsCall α) (w : World) : Still (World.onVfs x) w := by
  refine onVfs_ends ?_
  unfold Ends
  rcases x w.vfs with _ | ⟨e | a, s⟩
  · trivial
  · rfl
  · rfl

omit [SfsDevice] in
/-- A call on the open files after others. -/
theorem onVfs_after (x : VfsCall α) (h : w.sfs = w₀.sfs) :
    Ends True (World.onVfs x) w (fun _ w' => w'.sfs = w₀.sfs) (fun _ w' => w'.sfs = w₀.sfs) :=
  (onVfs_still x w).mono (fun _ _ h' => h'.trans h) (fun _ _ h' => h'.trans h)

/-- The truncation of an empty file does nothing. -/
theorem sfsTruncfile_empty {v u : Sfs} {ino : ℕ} {res : Except Fs.SfsError PUnit}
    (hsize : (v.din ino).size = 0) (hrun : Fs.sfsTruncfile ino 0 v = some (res, u)) : u = v := by
  have hends : Ends True (Fs.sfsTruncfile ino 0) v (fun _ u => u = v) (fun _ u => u = v) := by
    unfold Fs.sfsTruncfile
    rw [if_neg (by decide)]
    refine Ends.bind (Ends.read ?_)
    dsimp only
    rw [if_pos (hsize.trans Int.toNat_zero.symm)]
    exact Ends.require (fun _ => rfl) (fun _ => trivial)
  cases res with
  | error e => exact hends.of_error hrun
  | ok _ => exact hends.of_ok hrun

/-! One open. -/

/-- What `O_CREAT` may find: nothing that it would truncate. -/
def FindsEmpty (T : DirTree) (w : World) (r : Roots) (path : List Char) (flags : ℕ) : Prop :=
  hasFlag flags oCreat = true → hasFlag flags oExcl = false → ∀ fs ino,
    r.target T w.vfs.store path = some (.inode fs ino) → T.type fs ino = some .file →
      ((w.sfs fs).din ino).size = 0

omit [SfsDevice] in
/-- What is found, where the call does not fail. -/
theorem findOrCreate_finds {st : InodeStore} (h : Good T f g st) (hb : Base f g st)
    (hr : RootsOk T r f st) (hio : Shows io T) :
    Ends True (findOrCreate io r path flags) st
      (fun m st' => Good T (f + one m) g st' ∧ ∃ q, r.target T st path = some q ∧
        st'.place m = some q ∧ (hasFlag flags oExcl && hasFlag flags oCreat) = false)
      (fun _ _ => True) := by
  have hlook : Ends True (vfsLookup io r path) st
      (fun m st' => Good T (f + one m) g st' ∧ ∃ q, r.target T st path = some q ∧ st'.place m = some q)
      (fun _ _ => True) := by
    by_cases hsafe : r.Safe st path
    · refine ((vfsLookup_good h hb hr hio hsafe).weaken False.elim).mono ?_ (fun _ _ _ => trivial)
      intro m st₁ h₁
      exact ⟨h₁.1, h₁.2.2⟩
    · exact Ends.of_eq_none (vfsLookup_stops h hb hr hio hsafe) trivial
  unfold findOrCreate
  refine Ends.branch (hlook.mono ?_ ?_)
  · intro m st₁ h₁
    obtain ⟨hgood, q, htarget, hplace⟩ := h₁
    by_cases hexcl : (hasFlag flags oExcl && hasFlag flags oCreat) = true
    · rw [if_pos hexcl]
      exact Ends.fail trivial
    · rw [if_neg hexcl]
      exact Ends.pure ⟨hgood, q, htarget, hplace, Bool.eq_false_iff.mpr hexcl⟩
  · intro e st₁ _
    by_cases hcreate : e = .noEnt ∧ hasFlag flags oCreat = true
    · rw [if_pos hcreate]
      -- `vop_create` has no result
      refine Ends.bind (?_ : Ends True (vfsLookupParent io r (pathLeft path)) st₁ _ _)
      unfold Ends
      rcases vfsLookupParent io r (pathLeft path) st₁ with _ | ⟨e' | a, st₂⟩
      · trivial
      · trivial
      · trivial
    · rw [if_neg hcreate]
      exact Ends.fail trivial

/-- `vop_truncate` of an empty file; of anything else that is not a file it is a panic. -/
theorem vopTruncate_still {q : Place} (h : Good T f g w.vfs.store) (hplace : w.vfs.store.place n = some q)
    (hempty : ∀ fs ino, q = .inode fs ino → T.type fs ino = some .file → ((w.sfs fs).din ino).size = 0) :
    Still (World.vopTruncate io n) w := by
  unfold World.vopTruncate
  refine Ends.bind (onVfs_ends (onStore_ends (inodeCheck_ends (fun i hi => ?_))))
  rw [place_of_inode hi] at hplace
  cases hinfo : i.info with
  | device dev => exact Ends.panic trivial
  | sfs sin =>
    simp only
    by_cases htype : sin.type = .file
    · rw [if_pos htype]
      have htree := h.type_of_inode hi hinfo
      rw [htype] at htree
      rw [hinfo] at hplace
      have hsize := hempty sin.fs sin.ino (Option.some.inj hplace).symm htree
      unfold World.sfsTruncfile
      unfold Ends
      dsimp only
      rcases hcut : Fs.sfsTruncfile sin.ino 0 (w.sfs sin.fs) with _ | ⟨res, u⟩
      · trivial
      · have hu := sfsTruncfile_empty hsize hcut
        have hsame : Function.update w.sfs sin.fs u = w.sfs := by
          rw [hu, Function.update_eq_self]
        simp only [hsame]
        exact onVfs_still (onStore (Vfs.sfsTruncfile io n i sin)) w
    · rw [if_neg htype]
      exact Ends.panic trivial

/-- An open that finds nothing to truncate. -/
theorem vfsOpen_still (h : Good T f g w.vfs.store) (hb : Base f g w.vfs.store)
    (hr : RootsOk T r f w.vfs.store) (hio : Shows io T) (htrunc : hasFlag flags oTrunc = false)
    (hfinds : vfsFlagsOk flags = true → FindsEmpty T w r path flags) :
    Still (World.vfsOpen io r path flags) w := by
  unfold World.vfsOpen
  refine Ends.bind (onVfs_ends (onStore_ends ?_))
  unfold checkFlags
  by_cases hflags : vfsFlagsOk flags = true
  · rw [if_pos hflags]
    refine Ends.pure (Ends.bind (onVfs_ends (onStore_ends
      ((findOrCreate_finds h hb hr hio).mono ?_ (fun _ _ _ => rfl)))))
    intro m st₁ h₁
    obtain ⟨hgood₁, q, htarget, hplace₁, hexcl⟩ := h₁
    have hempty : hasFlag flags oCreat = true → ∀ fs ino, q = .inode fs ino →
        T.type fs ino = some .file → ((w.sfs fs).din ino).size = 0 := by
      intro hcreat fs ino hq htype
      rw [hcreat, Bool.and_true] at hexcl
      exact hfinds hflags hcreat hexcl fs ino (htarget.trans (congrArg some hq)) htype
    have hopen : Ends True (vopOpen m flags) st₁ (fun _ st' => st' = st₁) (fun _ st' => st' = st₁) := by
      unfold vopOpen
      refine Ends.bind (inodeCheck_ends (fun i _ => ?_))
      cases openCheck flags i.info with
      | ok _ => exact Ends.pure rfl
      | error e => exact Ends.fail rfl
    refine Ends.bind (Ends.cleanup (onVfs_ends (onStore_ends (hopen.mono ?_ ?_))))
    · intro _ st₂ hst₂
      subst hst₂
      have hinc : Ends True (inodeOpenInc m) st₂ (fun _ st' => Good T (f + one m) (g + one m) st' ∧
          st'.place = st₂.place) (fun _ _ => True) := by
        by_cases hpos : 0 < (f + one m) m
        · exact inodeOpenInc_good hgood₁ hpos
        · have hnonneg := h.nonneg m
          rw [Pi.add_apply, one_self] at hpos
          omega
      refine Ends.bind (onVfs_ends (onStore_ends (hinc.mono ?_ (fun _ _ _ => rfl))))
      intro _ st₃ h₃
      have hplace₃ : st₃.place m = some q := h₃.2 ▸ hplace₁
      refine Ends.bind (Ends.cleanup ?_)
      unfold World.truncateIf
      rw [htrunc, Bool.false_or]
      by_cases hcreat : hasFlag flags oCreat = true
      · rw [if_pos hcreat]
        have hstill : Still (World.vopTruncate io m) ⟨{ w.vfs with store := st₃ }, w.sfs⟩ :=
          vopTruncate_still h₃.1 hplace₃ (hempty hcreat)
        refine hstill.mono ?_ ?_
        · intro _ w₄ h₄
          exact Ends.pure h₄
        · intro _ w₄ h₄
          exact onVfs_after _ h₄
      · rw [if_neg hcreat]
        exact Ends.pure (Ends.pure rfl)
    · intro e st₂ _
      exact onVfs_after _ rfl
  · rw [if_neg hflags]
    exact Ends.fail rfl

/-- Where it gets as far as `vfs_open`, an open finds nothing to truncate. -/
def KeepsFiles (T : DirTree) (w : World) (t : ℕ) (path : List Char) (flags : ℕ) : Prop :=
  vfsFlagsOk flags = true → freeEntry (w.vfs.files.table t) ≠ none →
    FindsEmpty T w (w.vfs.files.roots t) path flags

omit [SfsDevice] in
/-- What follows a call that leaves the volumes alone. -/
theorem Still.bind {β : Type} {x : WorldCall α} {y : α → WorldCall β}
    (hx : Ends True x w (fun _ w' => w'.sfs = w₀.sfs) (fun _ w' => w'.sfs = w₀.sfs))
    (hy : ∀ a w', w'.sfs = w₀.sfs →
      Ends True (y a) w' (fun _ w' => w'.sfs = w₀.sfs) (fun _ w' => w'.sfs = w₀.sfs)) :
    Ends True (x >>= y) w (fun _ w' => w'.sfs = w₀.sfs) (fun _ w' => w'.sfs = w₀.sfs) :=
  Ends.bind (hx.mono (fun a w' h' => hy a w' h') (fun _ _ h' => h'))

theorem fileOpen_still (h : Serves T f g w.vfs) (ht : t ∈ w.vfs.files.tables) (hio : Shows io T)
    (htrunc : hasFlag flags oTrunc = false) (hkeeps : KeepsFiles T w t path flags) :
    Still (World.fileOpen io t path flags) w := by
  unfold World.fileOpen getMode
  cases hmode : accessMode flags with
  | none => exact Ends.bind (Ends.fail rfl)
  | some mode =>
    refine Ends.bind (Ends.pure ?_)
    refine Ends.bind (onVfs_ends (((fdArrayAlloc_serves h ht).weaken False.elim).mono ?_
      (fun _ _ _ => rfl)))
    intro i s₁ h₁
    obtain ⟨hfree, hs₁⟩ := h₁
    have hroots : s₁.files.roots t = w.vfs.files.roots t := by
      rw [hs₁]
      exact Files.setFile_roots t
    have hstore : s₁.store = w.vfs.store := by rw [hs₁]
    have hstill : Still (World.vfsOpen io (s₁.files.roots t) path flags) ⟨s₁, w.sfs⟩ := by
      rw [hroots]
      refine vfsOpen_still (f := f) (g := g) ?_ ?_ ?_ hio htrunc (fun hflags => ?_)
      · rw [hstore]
        exact h.good
      · rw [hstore]
        exact h.base
      · rw [hstore]
        exact h.roots t ht
      · unfold FindsEmpty
        rw [hstore]
        exact hkeeps hflags (by rw [hfree]; exact Option.some_ne_none i)
    have hopen : Ends True (onError (World.vfsOpenAt io t path flags) (World.onVfs (fdArrayFree io t i)))
        ⟨s₁, w.sfs⟩ (fun _ w' => w'.sfs = w.sfs) (fun _ w' => w'.sfs = w.sfs) := by
      refine Ends.cleanup (Ends.bind (onVfs_ends (Ends.read (hstill.mono (fun _ _ h₂ => h₂) ?_))))
      intro e w₂ h₂
      exact onVfs_after _ h₂
    refine Still.bind hopen (fun node w₂ h₂ => ?_)
    refine Still.bind (Ends.cleanup ((onVfs_after _ h₂).mono (fun _ _ h₃ => h₃) ?_)) (fun pos w₃ h₃ => ?_)
    · intro e w₃ h₃
      exact onVfs_after _ h₃
    · refine Still.bind (onVfs_after _ h₃) (fun file w₄ h₄ => ?_)
      refine Still.bind (onVfs_after _ h₄) (fun _ w₅ h₅ => ?_)
      exact Still.bind (onVfs_after _ h₅) (fun _ w₆ h₆ => Ends.pure h₆)

/-! Reading. -/

/-- The volumes under the files are sound. -/
def Volumes (T : DirTree) (w : World) : Prop :=
  ∀ fs ino, T.type fs ino = some .file → Fs.Inv False (w.sfs fs) ∧ Fs.Fits (w.sfs fs) ino

theorem vopRead_still {buf : Bytes} {pos len : ℕ} {dev : World.ReadResult}
    (h : Good T f g w.vfs.store) (hvol : Volumes T w) :
    Ends True (World.vopRead n buf pos len dev) w (fun _ w' => w' = w) (fun _ w' => w' = w) := by
  unfold World.vopRead
  refine Ends.bind (onVfs_ends (onStore_ends (inodeCheck_ends (fun i hi => ?_))))
  cases hinfo : i.info with
  | device dev => exact Ends.pure rfl
  | sfs sin =>
    simp only
    by_cases htype : sin.type = .file
    · rw [if_pos htype]
      have htree := h.type_of_inode hi hinfo
      rw [htype] at htree
      obtain ⟨hinv, hfits⟩ := hvol sin.fs sin.ino htree
      unfold World.sfsRead Ends
      dsimp only
      rcases hread : Fs.sfsIoNolock (w.sfs sin.fs) sin.ino buf pos len false with _ | r
      · trivial
      · have hsame := Fs.sfsIoNolock_read_keeps hinv hfits pos len hread
        simp only [hsame, Function.update_eq_self]
    · rw [if_neg htype]
      exact Ends.panic trivial

/-- Nothing is being closed, and calls find what they need. -/
structure Quiet (T : DirTree) (s : VfsState) : Prop where
  serves : ∃ f g, Serves T f g s
  unclosed : ∀ t i, (s.files.file t i).status ≠ .closed

omit [SfsDevice] in
theorem Quiet.setFile (h : Quiet T s) {file : File} (hclosed : file.status ≠ .closed)
    (hidle : file.status = .none → file.openCount = 0) :
    Quiet T { s with files := s.files.setFile t i file } := by
  obtain ⟨f, g, hserves⟩ := h.serves
  refine ⟨⟨f, g, hserves.setFile hidle⟩, fun u j hbad => ?_⟩
  exact h.unclosed u j (Unclosed.setFile hclosed u j hbad)

omit [SfsDevice] in
/-- Who is inside a read does not matter. -/
theorem Quiet.setIo (h : Quiet T s) (io : ℕ → Option ℕ) :
    Quiet T { s with files := { s.files with ioFile := io } } := by
  obtain ⟨f, g, hserves⟩ := h.serves
  exact ⟨⟨f, g, hserves.good, hserves.base, hserves.roots, hserves.counted, hserves.idle⟩, h.unclosed⟩

omit [SfsDevice] in
theorem fd2file_same {fd : ℤ} : Ends True (fd2file t fd) s (fun _ s' => s' = s) (fun _ s' => s' = s) := by
  unfold fd2file getFdArray
  refine Ends.bind (Ends.bind (Ends.require (fun _ => Ends.read ?_) (fun _ => trivial)))
  by_cases hopened : testfd fd = true ∧ ((s.files.table t).fdArray fd.toNat).status = .opened ∧
      (((s.files.table t).fdArray fd.toNat).fd : ℤ) = fd
  · rw [if_pos hopened]
    exact Ends.pure rfl
  · rw [if_neg hopened]
    exact Ends.fail rfl

omit [SfsDevice] in
theorem ioStart_quiet {p : ℕ} {fd : ℤ} {write : Bool} (h : Quiet T s) :
    Ends True (ioStart p t fd write) s (fun _ s' => Quiet T s') (fun _ s' => Quiet T s') := by
  unfold ioStart
  refine Ends.bind (fd2file_same.mono ?_ ?_)
  · intro i s₁ hs₁
    subst hs₁
    refine Ends.bind (getFile_ends ?_)
    by_cases hmode : (write && !(s₁.files.file t i).writable || !write && !(s₁.files.file t i).readable) = true
    · rw [if_pos hmode]
      exact Ends.fail h
    · rw [if_neg hmode]
      unfold fdArrayAcquire
      refine Ends.bind (Ends.bind (getFile_ends (Ends.bind (check_ends (fun hopened => ?_)))))
      have hset := @Quiet.setFile T s₁ t i h
        { s₁.files.file t i with openCount := (s₁.files.file t i).openCount + 1 }
        (fun hbad => FdStatus.noConfusion (hopened.symm.trans hbad))
        (fun hbad => FdStatus.noConfusion (hopened.symm.trans hbad))
      refine setFile_ends ?_
      cases hnode : (s₁.files.file t i).node with
      | none => exact Ends.panic trivial
      | some n =>
        simp only [hnode] at hset
        refine Ends.bind (onStore_ends (inodeCheck_ends (fun _ _ => ?_)))
        exact Ends.bind (check_ends (fun _ => Ends.modify (hset.setIo _)))
  · intro e s₁ hs₁
    subst hs₁
    exact h

omit [SfsDevice] in
theorem advance_quiet {copied : ℕ} (h : Quiet T s) :
    Ends True (advance t i copied) s (fun _ s' => Quiet T s') (fun _ s' => Quiet T s') := by
  unfold advance
  refine Ends.bind (getFile_ends ?_)
  by_cases hopened : (s.files.file t i).status = .opened
  · rw [if_pos hopened]
    exact setFile_ends (h.setFile (fun hbad => FdStatus.noConfusion (hopened.symm.trans hbad))
      (fun hbad => FdStatus.noConfusion (hopened.symm.trans hbad)))
  · rw [if_neg hopened]
    exact Ends.pure h

omit [SfsDevice] in
/-- The entry is not closed, so it is not freed. -/
theorem fdArrayRelease_quiet (h : Quiet T s) :
    Ends True (fdArrayRelease io t i) s (fun _ s' => Quiet T s') (fun _ s' => Quiet T s') := by
  unfold fdArrayRelease
  refine Ends.bind (getFile_ends (Ends.bind (check_ends (fun hused => ?_))))
  have hopened : (s.files.file t i).status = .opened :=
    hused.1.resolve_right (h.unclosed t i)
  refine Ends.bind (setFile_ends ?_)
  by_cases hlast : (s.files.file t i).openCount - 1 = 0
  · rw [if_pos hlast]
    unfold fdArrayFree
    refine Ends.bind (getFile_ends (Ends.bind (check_ends (fun hfree => ?_))))
    rw [Files.setFile_file_self] at hfree
    rcases hfree.1 with hbad | hbad
    · exact absurd (hopened.symm.trans hbad) FdStatus.noConfusion
    · exact absurd (hopened.symm.trans hbad) FdStatus.noConfusion
  · rw [if_neg hlast]
    exact Ends.pure (h.setFile (fun hbad => FdStatus.noConfusion (hopened.symm.trans hbad))
      (fun hbad => FdStatus.noConfusion (hopened.symm.trans hbad)))

/-! Runs of opens and reads. -/

/-- The state of a run that began with `w₀`. -/
structure Reading (T : DirTree) (w₀ w : World) : Prop where
  quiet : Quiet T w.vfs
  sfs : w.sfs = w₀.sfs

/-- An open is without `O_TRUNC`, and the disk holds the tree. -/
def WorldOp.Untruncating (T : DirTree) (op : WorldOp × VfsIo) : Prop :=
  Shows op.2 T ∧ match op.1 with
    | .open _ _ flags => hasFlag flags oTrunc = false
    | _ => True

/-- An open with `O_CREAT` and without `O_EXCL` finds no file, or an empty one. -/
def WorldOp.Keeps (T : DirTree) (w : World) (op : WorldOp × VfsIo) : Prop :=
  match op.1 with
  | .open p path flags => ∀ t, w.vfs.files.filesp p = some t → KeepsFiles T w t path flags
  | _ => True

theorem readEnd_keeps {p pos len : ℕ} {buf : Bytes} {dev : World.ReadResult} (h : Quiet T w.vfs)
    (hvol : Volumes T w) :
    Ends True (World.readEnd io p t i buf pos len dev) w
      (fun _ w' => Quiet T w'.vfs ∧ w'.sfs = w.sfs) (fun _ w' => Quiet T w'.vfs ∧ w'.sfs = w.sfs) := by
  unfold World.readEnd
  refine Ends.bind (onVfs_ends (Ends.modify ?_))
  have hio := h.setIo (Function.update w.vfs.files.ioFile p none)
  refine Ends.bind (onVfs_ends (getFile_ends ?_))
  split
  · exact Ends.panic trivial
  · rename_i n _
    obtain ⟨f, g, hserves⟩ := hio.serves
    have hread := @vopRead_still _ T ⟨_, w.sfs⟩ f g n buf pos len dev hserves.good hvol
    refine Ends.bind (hread.mono ?_ ?_)
    · intro r w₁ hw₁
      subst hw₁
      refine Ends.bind (onVfs_ends ((advance_quiet hio).mono ?_ (fun _ _ hq => ⟨hq, rfl⟩)))
      intro _ s₂ h₂
      refine Ends.bind (onVfs_ends ((fdArrayRelease_quiet h₂).mono ?_ (fun _ _ hq => ⟨hq, rfl⟩)))
      intro _ s₃ h₃
      cases r.ret with
      | error e => exact Ends.fail ⟨h₃, rfl⟩
      | ok _ => exact Ends.pure ⟨h₃, rfl⟩
    · intro e w₁ hw₁
      subst hw₁
      exact ⟨hio, rfl⟩

theorem Reading.step {op : WorldOp × VfsIo} (h : Reading T w₀ w) (hvol : Volumes T w₀)
    (hop : WorldOp.Untruncating T op) (hkeeps : WorldOp.Keeps T w op) (hstep : World.step w op = some w') :
    Reading T w₀ w' := by
  obtain ⟨op, io⟩ := op
  obtain ⟨hio, hflags⟩ := hop
  obtain ⟨f, g, hserves⟩ := h.quiet.serves
  have hshows := hio.world w
  unfold World.step at hstep
  cases hfilesp : w.vfs.files.filesp op.caller with
  | none =>
    simp only [hfilesp] at hstep
    exact absurd hstep.symm (Option.some_ne_none w')
  | some t =>
    simp only [hfilesp] at hstep
    by_cases hmay : (op.mayCall w.vfs.files && decide (t ∈ w.vfs.files.tables)) = true
    · rw [if_pos hmay] at hstep
      obtain ⟨⟨res, v⟩, hrun, hv⟩ := Option.map_eq_some_iff.mp hstep
      have hvw : v = w' := hv
      subst hvw
      have ht : t ∈ w.vfs.files.tables := of_decide_eq_true ((Bool.and_eq_true _ _).mp hmay).2
      cases op with
      | «open» p path flags =>
        have hstill := fileOpen_still hserves ht hshows hflags (hkeeps t hfilesp)
        have herase := Erases.fileOpen w res v hrun
        refine ⟨?_, (hstill.state hrun).trans h.sfs⟩
        by_cases hsafe : SysOpenSafe T w.vfs t path flags
        · have hends := (fileOpen_serves hserves ht hshows hsafe).weaken (q := True) False.elim
          obtain ⟨hserves', hunclosed⟩ := hends.state herase
          exact ⟨hserves', fun u j hbad => h.quiet.unclosed u j (hunclosed u j hbad)⟩
        · rw [fileOpen_stops hserves ht hshows hsafe] at herase
          exact absurd herase.symm (Option.some_ne_none _)
      | readStart p fd =>
        have hends : Ends True (World.perform (w.io io) t (.readStart p fd)) w
            (fun _ v => Reading T w₀ v) (fun _ v => Reading T w₀ v) := by
          refine onVfs_ends (Ends.bind ((ioStart_quiet h.quiet).mono ?_ ?_))
          · intro _ s₁ h₁
            exact Ends.pure ⟨h₁, h.sfs⟩
          · intro _ s₁ h₁
            exact ⟨h₁, h.sfs⟩
        exact hends.state hrun
      | readEnd p buf pos len dev =>
        have hends : Ends True (World.perform (w.io io) t (.readEnd p buf pos len dev)) w
            (fun _ v => Reading T w₀ v) (fun _ v => Reading T w₀ v) := by
          refine Ends.bind (onVfs_ends (Ends.read ?_))
          cases w.vfs.files.ioFile p with
          | none => exact Ends.panic trivial
          | some i =>
            have hvol' : Volumes T w := fun fs ino htype => h.sfs ▸ hvol fs ino htype
            refine (readEnd_keeps h.quiet hvol').mono ?_ ?_
            · intro _ v hv
              exact ⟨hv.1, hv.2.trans h.sfs⟩
            · intro _ v hv
              exact ⟨hv.1, hv.2.trans h.sfs⟩
        exact hends.state hrun
    · rw [if_neg hmay] at hstep
      exact absurd hstep.symm (Option.some_ne_none w')

/-- A file has the size and the bytes that it had. -/
def World.SameFile (w w' : World) (fs ino : ℕ) : Prop :=
  ((w'.sfs fs).din ino).size = ((w.sfs fs).din ino).size ∧
    ∀ i, (w'.sfs fs).content ino i = (w.sfs fs).content ino i

/-- No run of such opens and of reads changes a file. -/
theorem opens_keep_files {ops : List (WorldOp × VfsIo)} (h : Quiet T w.vfs) (hvol : Volumes T w)
    (hops : ∀ op ∈ ops, WorldOp.Untruncating T op)
    (hmeets : RunMeets World.step (WorldOp.Keeps T) w ops)
    (hrun : runOps World.step w ops = some w') :
    ∀ fs ino, T.type fs ino = some .file → w.SameFile w' fs ino := by
  have hboth : RunMeets World.step (fun w op => WorldOp.Untruncating T op ∧ WorldOp.Keeps T w op) w ops :=
    (RunMeets.of_forall (fun _ op hop => hops op hop)).and hmeets
  have hfinal : Reading T w w' :=
    runOps_invariant_of_meets (fun _ _ _ hinv hcond hstep => hinv.step hvol hcond.1 hcond.2 hstep)
      ⟨h, rfl⟩ hboth hrun
  intro fs ino _
  unfold World.SameFile
  rw [hfinal.sfs]
  exact ⟨rfl, fun _ => rfl⟩

/-! A volume on which `/f` has one byte. -/

def homeWorld : World := ⟨homeState, fun _ => Fs.sfsImage 5 1 1 (fun _ _ => 7)⟩

omit [SfsDevice] in
theorem homeWorld_quiet : Quiet smallTree homeWorld.vfs :=
  ⟨⟨homeRefs, 0, homeState_serves⟩, fun _ _ => FdStatus.noConfusion⟩

omit [SfsDevice] in
theorem homeWorld_volumes : Volumes smallTree homeWorld := by
  intro fs ino htype
  have hino : ino = Fs.imageIno := by
    unfold smallTree smallTypes at htype
    simp only at htype
    split at htype
    · split at htype
      · cases htype
      · cases htype
      · rfl
      · cases htype
    · cases htype
  subst hino
  exact ⟨Fs.sfsImage_inv (by decide) (by decide) (by decide), Fs.sfsImage_fits (by decide)⟩

/-- The file is opened to read and read. -/
def readingOps : List (WorldOp × VfsIo) :=
  [(.open 0 ['f'] oRdonly, smallTree.disk), (.readStart 0 0, smallTree.disk),
    (.readEnd 0 (fun _ => 0) 0 1 ⟨.ok ⟨⟩, 0, fun _ => 0⟩, smallTree.disk)]

omit [SfsDevice] in
theorem opens_keep_home : letI := Fs.workingDevice
    ∃ w', runOps World.step homeWorld readingOps = some w' ∧
      ∀ fs ino, smallTree.type fs ino = some .file → homeWorld.SameFile w' fs ino := by
  let := Fs.workingDevice
  have hsome : (runOps World.step homeWorld readingOps).isSome = true := by decide +kernel
  obtain ⟨w', hrun⟩ := Option.isSome_iff_exists.mp hsome
  have hshows := smallTree.shows_disk
  refine ⟨w', hrun, opens_keep_files homeWorld_quiet homeWorld_volumes ?_ (RunMeets.of_forall ?_) hrun⟩
  · intro op hop
    simp only [readingOps, List.mem_cons, List.not_mem_nil, or_false] at hop
    rcases hop with rfl | rfl | rfl
    · exact ⟨hshows, rfl⟩
    · exact ⟨hshows, trivial⟩
    · exact ⟨hshows, trivial⟩
  · intro w op hop
    simp only [readingOps, List.mem_cons, List.not_mem_nil, or_false] at hop
    rcases hop with rfl | rfl | rfl
    · intro t _ _ _ hcreat
      exact absurd hcreat (by decide)
    · trivial
    · trivial

omit [SfsDevice] in
/-- An open with `O_CREAT` and without `O_TRUNC` cuts the file off. -/
theorem open_creat_truncates : letI := Fs.workingDevice
    hasFlag oCreat oTrunc = false ∧ ∃ w', runOps World.step homeWorld
      [(.open 0 ['f'] oCreat, smallTree.disk)] = some w' ∧ ¬ homeWorld.SameFile w' 0 Fs.imageIno := by
  let := Fs.workingDevice
  refine ⟨rfl, ?_⟩
  have hsize : (runOps World.step homeWorld [(.open 0 ['f'] oCreat, smallTree.disk)]).map
      (fun w' => ((w'.sfs 0).din Fs.imageIno).size) = some 0 := by decide +kernel
  obtain ⟨w', hrun, hzero⟩ := Option.map_eq_some_iff.mp hsize
  refine ⟨w', hrun, fun hsame => ?_⟩
  have hbad := hsame.1
  rw [hzero] at hbad
  exact absurd hbad (by decide)

end Ucore.Vfs
