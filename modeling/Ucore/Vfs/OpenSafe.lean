import Ucore.Vfs.PathLookup

/-!
When `vfs_open` stops the kernel. `OpenSafe` names the combinations of path and flags that it
gets through; for all others one of its assertions fails, or a NULL operation is called.
-/
namespace Ucore.Vfs

open Library Call

variable {T : DirTree} {st st' : InodeStore} {f g : ℕ → ℤ} {n : ℕ} {i : VfsInode} {io : VfsIo}
  {r : Roots} {path : List Char} {flags : ℕ} {p q : Place}

/-- What has been found is no directory that `O_CREAT` would truncate. -/
structure FoundOk (T : DirTree) (st : InodeStore) (flags : ℕ) (q : Place) : Prop where
  room : st.Room q
  dir : ∀ fs ino, q = .inode fs ino → T.type fs ino = some .dir → hasFlag flags oCreat = true →
    flags &&& oAccmode ≠ oRdonly ∨ hasFlag flags oAppend = true

/-- The lookup passes its assertions, what it finds may be opened, and nothing is created: where
the file is missing, so is the directory it would be created in. -/
structure OpenSafe (T : DirTree) (r : Roots) (st : InodeStore) (path : List Char) (flags : ℕ) :
    Prop where
  lookup : r.Safe st path
  found : ∀ q, r.target T st path = some q →
    (hasFlag flags oExcl && hasFlag flags oCreat) = false → FoundOk T st flags q
  missing : r.target T st path = none → hasFlag flags oCreat = true →
    r.startPlace st (pathStart path).1 = none ∨ r.startPlace st (pathStart (pathLeft path)).1 = none

/-- What `vop_open` lets through. -/
def Openable (T : DirTree) (flags : ℕ) : Place → Prop
  | .device _ => hasFlag flags oCreat = false ∧ hasFlag flags oTrunc = false
  | .inode fs ino => T.type fs ino = some .dir →
      flags &&& oAccmode = oRdonly ∧ hasFlag flags oAppend = false

/-! The operations of an inode that is opened. -/

theorem Good.type_of_inode {sin : SfsNode} (h : Good T f g st) (hi : st.inode n = some i)
    (hinfo : i.info = .sfs sin) : T.type sin.fs sin.ino = some sin.type := by
  have hfits := h.fits n i hi
  unfold VfsInode.Fits at hfits
  rw [hinfo] at hfits
  exact hfits.1

theorem vopOpen_good (h : Good T f g st) (hplace : st.place n = some q) (hle : g n ≤ f n)
    (hroom : f n < maxInodeCount) :
    Ends False (vopOpen n flags) st (fun _ st' => st' = st ∧ Openable T flags q)
      (fun _ st' => st' = st ∧ ∀ fs ino, q = .inode fs ino → ¬ Openable T flags q) := by
  obtain ⟨i, hi, hinode⟩ := inode_of_place hplace
  obtain ⟨hopens, hrefs⟩ := h.check hi hle hroom
  unfold vopOpen
  refine Ends.bind (inodeCheck_found hi hopens hrefs ?_)
  subst hinode
  cases hinfo : i.info with
  | device dev =>
    simp only [openCheck]
    by_cases hbad : (hasFlag flags oCreat || hasFlag flags oTrunc || hasFlag flags oExcl ||
        hasFlag flags oAppend) = true
    · rw [if_pos hbad]
      exact Ends.fail ⟨rfl, fun _ _ hq => Place.noConfusion hq⟩
    · rw [if_neg hbad]
      simp only [Bool.or_eq_true, not_or, Bool.not_eq_true] at hbad
      cases dev.dOpen flags with
      | ok _ => exact Ends.pure ⟨rfl, hbad.1.1.1, hbad.1.1.2⟩
      | error e => exact Ends.fail ⟨rfl, fun _ _ hq => Place.noConfusion hq⟩
  | sfs sin =>
    have htype := h.type_of_inode hi hinfo
    simp only [openCheck]
    by_cases hdir : sin.type = .dir
    · rw [if_pos hdir]
      by_cases hacc : flags &&& oAccmode ≠ oRdonly
      · rw [if_pos hacc]
        exact Ends.fail ⟨rfl, fun _ _ _ hopen => hacc (hopen (hdir ▸ htype)).1⟩
      · rw [if_neg hacc]
        by_cases happ : hasFlag flags oAppend = true
        · rw [if_pos happ]
          refine Ends.fail ⟨rfl, fun _ _ _ hopen => ?_⟩
          have hno := (hopen (hdir ▸ htype)).2
          rw [happ] at hno
          exact Bool.false_ne_true hno.symm
        · rw [if_neg happ]
          exact Ends.pure ⟨rfl, fun _ => ⟨not_not.mp hacc, Bool.eq_false_iff.mpr happ⟩⟩
    · rw [if_neg hdir]
      refine Ends.pure ⟨rfl, fun hbad => ?_⟩
      exact absurd (Option.some.inj (htype.symm.trans hbad)) hdir

theorem sfsTruncfile_good {sin : SfsNode} (h : Good T f g st) (hi : st.inode n = some i)
    (hinfo : i.info = .sfs sin) :
    Ends False (sfsTruncfile io n i sin) st (fun _ st' => Good T f g st' ∧ st'.place = st.place)
      (fun _ st' => Good T f g st' ∧ st'.place = st.place) := by
  unfold sfsTruncfile
  by_cases hsize : sin.size = 0
  · rw [if_pos hsize]
    exact Ends.pure ⟨h, rfl⟩
  · rw [if_neg hsize]
    cases io.truncate sin.fs sin.ino with
    | ok _ => exact setInfo_good h hi hinfo rfl
    | error e =>
      refine Ends.bind ((setInfo_good h hi hinfo rfl).mono ?_ (fun _ _ he => he))
      intro _ st₁ h₁
      exact Ends.fail h₁

theorem truncateIf_good (h : Good T f g st) (hplace : st.place n = some q) (hle : g n ≤ f n)
    (hroom : f n < maxInodeCount) (hflags : vfsFlagsOk flags = true) (hopen : Openable T flags q)
    (hdir : ∀ fs ino, q = .inode fs ino → T.type fs ino = some .dir → hasFlag flags oCreat = true →
      flags &&& oAccmode ≠ oRdonly ∨ hasFlag flags oAppend = true) :
    Ends False (truncateIf io n flags) st (fun _ st' => Good T f g st' ∧ st'.place = st.place)
      (fun _ st' => Good T f g st' ∧ st'.place = st.place) := by
  unfold truncateIf
  by_cases hcut : (hasFlag flags oTrunc || hasFlag flags oCreat) = true
  · rw [if_pos hcut]
    obtain ⟨i, hi, hinode⟩ := inode_of_place hplace
    obtain ⟨hopens, hrefs⟩ := h.check hi hle hroom
    unfold vopTruncate
    refine Ends.bind (inodeCheck_found hi hopens hrefs ?_)
    subst hinode
    cases hinfo : i.info with
    | device dev =>
      rw [hinfo] at hopen
      obtain ⟨hcreat, htrunc⟩ := hopen
      rw [hcreat, htrunc] at hcut
      exact absurd hcut Bool.false_ne_true
    | sfs sin =>
      rw [hinfo] at hopen hdir
      have htype := h.type_of_inode hi hinfo
      rcases T.kind htype with hkind | hkind
      · -- `O_TRUNC` asks for write access, which a directory does not give
        rw [hkind] at htype
        obtain ⟨hacc, happ⟩ := hopen htype
        rcases (Bool.or_eq_true _ _).mp hcut with htrunc | hcreat
        · unfold vfsFlagsOk accessMode at hflags
          rw [hacc] at hflags
          simp only [oRdonly, htrunc, Bool.not_true, Bool.or_self] at hflags
          exact absurd hflags Bool.false_ne_true
        · rcases hdir sin.fs sin.ino rfl htype hcreat with hbad | hbad
          · exact absurd hacc hbad
          · rw [happ] at hbad
            exact absurd hbad Bool.false_ne_true
      · simp only [hkind, if_true]
        exact sfsTruncfile_good h hi hinfo
  · rw [if_neg hcut]
    exact Ends.pure ⟨h, rfl⟩

theorem vopClose_good (h : Good T f g st) (hi : st.inode n = some i) (hle : g n ≤ f n)
    (hroom : f n < maxInodeCount) :
    Ends False (vopClose io n) st (fun _ st' => Good T f g st' ∧ st'.place = st.place)
      (fun _ st' => Good T f g st' ∧ st'.place = st.place) := by
  obtain ⟨hopens, hrefs⟩ := h.check hi hle hroom
  unfold vopClose
  refine Ends.bind (inodeCheck_found hi hopens hrefs ?_)
  cases hinfo : i.info with
  | device dev => exact Ends.pure ⟨h, rfl⟩
  | sfs sin =>
    have hplace : st.place n = some (.inode sin.fs sin.ino) := by
      rw [place_of_inode hi, hinfo]
      rfl
    exact vopFsync_good h hplace hle hroom

theorem inodeOpenDec_good (h : Good T f (g + one n) st) (hle : g n + 1 ≤ f n)
    (hroom : f n < maxInodeCount) (hnonneg : 0 ≤ g n) {E : VfsError → InodeStore → Prop} :
    Ends False (inodeOpenDec io n) st (fun _ st' => Good T f g st' ∧ st'.place = st.place) E := by
  obtain ⟨i, hi⟩ := h.inode (n := n) (by omega)
  have hopens := h.opens_eq hi
  rw [Pi.add_apply, one_self] at hopens
  unfold inodeOpenDec
  refine Ends.bind (getInode_found hi ?_)
  refine Ends.bind (require_holds (by omega) ?_)
  refine Ends.bind (Ends.modify ?_)
  have hset := @Counts.set st f (g + one n) n i h.counts hi ⟨i.refCount, i.openCount - 1, i.info⟩ 0 (-1)
    (add_zero _).symm (Nat.cast_pred (by omega))
  rw [Pi.single_zero, add_zero, Pi.single_neg, ← sub_eq_add_neg] at hset
  have hback : g + one n - Pi.single n 1 = g := add_sub_cancel_right g (one n)
  rw [hback] at hset
  have hgood := h.count hi Iff.rfl hset
  by_cases hlast : i.openCount - 1 = 0
  · rw [if_pos hlast]
    refine Ends.warn ((vopClose_good hgood (Function.update_self ..) (by omega) hroom).mono ?_ ?_)
    · intro _ st₁ h₁
      exact ⟨h₁.1, h₁.2.trans (place_set hi rfl)⟩
    · intro _ st₁ h₁
      exact ⟨h₁.1, h₁.2.trans (place_set hi rfl)⟩
  · rw [if_neg hlast]
    exact Ends.pure ⟨hgood, place_set hi rfl⟩

theorem vfsClose_good (h : Good T (f + one n) (g + one n) st) (hb : Base f g st)
    (hroom : f n + 1 < maxInodeCount) (hnonneg : 0 ≤ g n) {E : VfsError → InodeStore → Prop} :
    Ends False (vfsClose io n) st (fun _ st' => Good T f g st' ∧ Holds f st st') E := by
  have hone : (f + one n) n = f n + 1 := by rw [Pi.add_apply, one_self]
  have hle := hb.le n
  refine Ends.bind ((inodeOpenDec_good h (by omega) (by omega) hnonneg).mono ?_ (fun _ _ he => he))
  intro _ st₁ h₁
  have hholds : Holds f st st₁ := Holds.of_place h₁.2
  refine (inodeRefDec_good h₁.1 (hb.holds hholds)).mono ?_ (fun _ _ he => he)
  intro _ st₂ h₂
  exact ⟨h₂.1, hholds.trans h₂.2⟩

/-! `vfs_open` -/

/-- The roots are held, and stay where they are. -/
theorem startPlace_holds (hr : RootsOk T r f st) (hholds : Holds f st st') (start : PathStart) :
    r.startPlace st' start = r.startPlace st start := by
  have hheld : ∀ o : Option ℕ, (∀ n, o = some n → HeldDir T f st n) → o.bind st'.place = o.bind st.place := by
    intro o ho
    cases o with
    | none => rfl
    | some n =>
      obtain ⟨fs, ino, hplace, -⟩ := (ho n rfl).dir
      exact (hholds.kept n _ (ho n rfl).held hplace).trans hplace.symm
  cases start with
  | curdir => exact hheld r.pwd hr.pwd
  | bootfs => exact hheld r.bootfs hr.bootfs
  | curfs => exact congrArg (Option.bind · rootPlace) (hheld r.pwd hr.pwd)
  | device name =>
    unfold Roots.startPlace
    simp only
    cases hfind : r.vdevList.find? (fun v => v.devname == name) with
    | none => rfl
    | some v =>
      have hready := hr.vdev v (List.mem_of_find?_eq_some hfind)
      unfold Vdev.Ready at hready
      change v.place st' = v.place st
      unfold Vdev.place
      cases hfs : v.fs with
      | some fs => rfl
      | none =>
        rw [hfs] at hready
        simp only
        by_cases hm : v.mountable = true
        · rw [if_pos hm, if_pos hm]
        · obtain ⟨n, hnode, hpos, hplace⟩ := hready (Bool.eq_false_iff.mpr hm)
          rw [if_neg hm, if_neg hm, hnode]
          exact (hholds.kept n _ hpos hplace).trans hplace.symm

/-- An open that fails may keep a reference to what it has found. -/
structure Leaks (T : DirTree) (f g : ℕ → ℤ) (st st' : InodeStore) : Prop where
  good : ∃ f', (∀ n, f n ≤ f' n) ∧ Good T f' g st'
  holds : Holds f st st'

theorem Good.leaks (h : Good T f g st') (hholds : Holds f st st') : Leaks T f g st st' :=
  ⟨⟨f, fun _ => le_rfl, h⟩, hholds⟩

theorem findOrCreate_good (h : Good T f g st) (hb : Base f g st) (hr : RootsOk T r f st)
    (hio : Shows io T) (hsafe : OpenSafe T r st path flags) :
    Ends False (findOrCreate io r path flags) st
      (fun m st' => Good T (f + one m) g st' ∧ Holds f st st' ∧ ∃ q, r.target T st path = some q ∧
        st'.place m = some q ∧ (hasFlag flags oExcl && hasFlag flags oCreat) = false)
      (fun _ st' => Leaks T f g st st') := by
  unfold findOrCreate
  refine Ends.branch ((vfsLookup_good h hb hr hio hsafe.lookup).mono ?_ ?_)
  · intro m st₁ h₁
    obtain ⟨hgood, hholds, q, htarget, hplace⟩ := h₁
    by_cases hexcl : (hasFlag flags oExcl && hasFlag flags oCreat) = true
    · rw [if_pos hexcl]
      refine Ends.fail ⟨⟨f + one m, fun k => ?_, hgood⟩, hholds⟩
      have hone := one_nonneg m k
      rw [Pi.add_apply]
      omega
    · rw [if_neg hexcl]
      exact Ends.pure ⟨hgood, hholds, q, htarget, hplace, Bool.eq_false_iff.mpr hexcl⟩
  · intro e st₁ h₁
    obtain ⟨hgood, hholds, htarget, hwhy⟩ := h₁
    by_cases hcreate : e = .noEnt ∧ hasFlag flags oCreat = true
    · rw [if_pos hcreate]
      -- there is no directory to create the file in
      have hparent : r.startPlace st₁ (pathStart (pathLeft path)).1 = none := by
        rw [startPlace_holds hr hholds]
        rcases hsafe.missing htarget hcreate.2 with hmissing | hmissing
        · have hleft : (pathStart (pathLeft path)).1 = (pathStart path).1 := by
            unfold pathLeft
            rcases hwhy with hwhy | hwhy
            · cases hstart : (pathStart path).1 with
              | device name =>
                have hnot := hwhy.2
                rw [hstart] at hnot
                exact absurd hcreate.1 hnot
              | curdir => exact hstart
              | bootfs => exact hstart
              | curfs => exact hstart
            · obtain ⟨p, hp⟩ := hwhy.1
              rw [hmissing] at hp
              exact absurd hp.symm (Option.some_ne_none p)
          rw [hleft]
          exact hmissing
        · exact hmissing
      have hdevice := @getDevice_good T st₁ f g io r (pathStart (pathLeft path)).1 hgood
        (hb.holds hholds) (hr.holds hholds) hio
      unfold Starts at hdevice
      rw [hparent] at hdevice
      refine Ends.bind (Ends.bind (hdevice.mono ?_ ?_))
      · intro n st₂ h₂
        obtain ⟨-, -, p, hp, -⟩ := h₂
        exact absurd hp.symm (Option.some_ne_none p)
      · intro e' st₂ h₂
        rw [h₂.2.2]
        exact hgood.leaks hholds
    · rw [if_neg hcreate]
      exact Ends.fail (hgood.leaks hholds)

theorem vfsOpen_good (h : Good T f g st) (hb : Base f g st) (hr : RootsOk T r f st) (hio : Shows io T)
    (hsafe : vfsFlagsOk flags = true → OpenSafe T r st path flags) :
    Ends False (vfsOpen io r path flags) st
      (fun m st' => Good T (f + one m) (g + one m) st' ∧ Holds f st st' ∧ f m + 1 < maxInodeCount)
      (fun _ st' => Leaks T f g st st') := by
  unfold vfsOpen checkFlags
  by_cases hflags : vfsFlagsOk flags = true
  · rw [if_pos hflags]
    have hopensafe := hsafe hflags
    refine Ends.bind (Ends.pure ?_)
    refine Ends.bind ((findOrCreate_good h hb hr hio hopensafe).mono ?_ (fun _ _ he => he))
    intro m st₁ h₁
    obtain ⟨hgood₁, hholds₁, q, htarget, hplace₁, hexcl⟩ := h₁
    have hfound := hopensafe.found q htarget hexcl
    have hroom := h.room_of_holds hholds₁ hfound.room hplace₁
    have hone : (f + one m) m = f m + 1 := by rw [Pi.add_apply, one_self]
    have hnonneg := h.opens_nonneg m
    have hle := hb.le m
    refine Ends.bind (Ends.onError ((vopOpen_good hgood₁ hplace₁ ((hb.add m).le m) (by omega)).mono ?_ ?_))
    · intro _ st₂ h₂
      obtain ⟨hst, hopen⟩ := h₂
      subst hst
      refine Ends.bind ((inodeOpenInc_good hgood₁ (by omega)).mono ?_ (fun _ _ he => he))
      intro _ st₃ h₃
      obtain ⟨hgood₃, hplace₃⟩ := h₃
      have hholds₃ : Holds f st st₃ := hholds₁.trans (Holds.of_place hplace₃)
      have hone' : (g + one m) m = g m + 1 := by rw [Pi.add_apply, one_self]
      have hcut := @truncateIf_good T st₃ _ _ m io flags q hgood₃ (hplace₃ ▸ hplace₁) (by omega) (by omega)
        hflags hopen hfound.dir
      refine Ends.bind (Ends.onError (hcut.mono ?_ ?_))
      · intro _ st₄ h₄
        exact Ends.pure ⟨h₄.1, hholds₃.trans (Holds.of_place h₄.2), hroom⟩
      · intro _ st₄ h₄
        have hholds₄ : Holds f st st₄ := hholds₃.trans (Holds.of_place h₄.2)
        refine (vfsClose_good h₄.1 (hb.holds hholds₄) hroom hnonneg).mono ?_ (fun _ _ he => he)
        intro _ st₅ h₅
        exact h₅.1.leaks (hholds₄.trans h₅.2)
    · intro _ st₂ h₂
      obtain ⟨hst, -⟩ := h₂
      subst hst
      refine (inodeRefDec_good hgood₁ (hb.holds hholds₁)).mono ?_ (fun _ _ he => he)
      intro _ st₃ h₃
      exact h₃.1.leaks (hholds₁.trans h₃.2)
  · rw [if_neg hflags]
    exact Ends.bind (Ends.fail (h.leaks (Holds.refl f st)))

/-! Opens that stop the kernel. -/

/-- A directory has no `vop_truncate`. -/
theorem vopTruncate_dir {fs ino : ℕ} (h : Good T f g st) (hplace : st.place n = some (.inode fs ino))
    (hdir : T.type fs ino = some .dir) : vopTruncate io n st = none := by
  have hends : Ends True (vopTruncate io n) st (fun _ _ => False) (fun _ _ => False) := by
    obtain ⟨i, sin, hi, hinfo, hfs, hino⟩ := sfs_of_place hplace
    have htype := h.type_of_inode hi hinfo
    rw [hfs, hino, hdir] at htype
    have hnot : sin.type ≠ .file := by
      rw [← Option.some.inj htype]
      exact Fs.FileType.noConfusion
    refine Ends.bind (inodeCheck_ends (fun j hj => ?_))
    have hij : j = i := Option.some.inj (hj.symm.trans hi)
    subst hij
    simp only [hinfo, if_neg hnot]
    exact panic_ends
  exact hends.eq_none

/-- What is found and must not be opened. -/
theorem vfsOpen_found_stops (h : Good T f g st) (hb : Base f g st) (hr : RootsOk T r f st)
    (hio : Shows io T) (hlookup : r.Safe st path) (htarget : r.target T st path = some q)
    (hexcl : (hasFlag flags oExcl && hasFlag flags oCreat) = false) (hbad : ¬ FoundOk T st flags q) :
    Ends True (vfsOpen io r path flags) st (fun _ _ => False) (fun _ _ => vfsFlagsOk flags = false) := by
  unfold vfsOpen checkFlags
  by_cases hflags : vfsFlagsOk flags = true
  · rw [if_pos hflags]
    refine Ends.bind (Ends.pure (Ends.bind (Ends.branch ?_)))
    refine ((vfsLookup_good h hb hr hio hlookup).weaken False.elim).mono ?_ ?_
    · intro m st₁ h₁
      obtain ⟨hgood₁, hholds₁, q', hq', hplace₁⟩ := h₁
      have hqq : q = q' := Option.some.inj (htarget.symm.trans hq')
      subst hqq
      rw [hexcl, if_neg Bool.false_ne_true]
      refine Ends.pure (Ends.bind (Ends.onError ?_))
      by_cases hroom : st.Room q
      · have hdir : ∃ fs ino, q = .inode fs ino ∧ T.type fs ino = some .dir ∧
            hasFlag flags oCreat = true := by
          by_contra hno
          refine hbad ⟨hroom, fun fs ino hq htype hcreat => ?_⟩
          exact absurd ⟨fs, ino, hq, htype, hcreat⟩ hno
        obtain ⟨fs, ino, hq, htype, hcreat⟩ := hdir
        have hnot : ¬ (flags &&& oAccmode ≠ oRdonly ∨ hasFlag flags oAppend = true) := by
          intro hor
          refine hbad ⟨hroom, fun fs' ino' hq' _ _ => hor⟩
        subst hq
        have hfm := h.room_of_holds hholds₁ hroom hplace₁
        have hle := (hb.add m).le m
        have hone : (f + one m) m = f m + 1 := by rw [Pi.add_apply, one_self]
        have hnonneg := h.nonneg m
        refine ((vopOpen_good hgood₁ hplace₁ hle (by omega)).weaken False.elim).mono ?_ ?_
        · intro _ st₂ h₂
          obtain ⟨hst, -⟩ := h₂
          subst hst
          refine Ends.bind ((inodeOpenInc_good hgood₁ (by omega)).mono ?_ (fun _ _ he => he))
          intro _ st₃ h₃
          unfold truncateIf
          rw [hcreat, Bool.or_true, if_pos rfl]
          refine Ends.bind (Ends.onError (Ends.of_eq_none ?_ trivial))
          exact vopTruncate_dir h₃.1 (h₃.2 ▸ hplace₁) htype
        · intro _ st₂ h₂
          push Not at hnot
          exact absurd (fun _ => ⟨hnot.1, Bool.eq_false_iff.mpr hnot.2⟩) (h₂.2 fs ino rfl)
      · refine Ends.of_eq_none ?_ trivial
        have hends : Ends True (vopOpen m flags) st₁ (fun _ _ => False) (fun _ _ => False) :=
          Ends.bind (Ends.of_eq_none (h.full_of_holds hholds₁ hgood₁ hplace₁ hroom) trivial)
        exact hends.eq_none
    · intro e st₁ h₁
      rw [htarget] at h₁
      exact absurd h₁.2.2.1.symm (Option.some_ne_none q).symm
  · rw [if_neg hflags]
    exact Ends.bind (Ends.fail (Bool.eq_false_iff.mpr hflags))

/-- What is missing and must not be created: no inode has a `vop_create`. -/
theorem vfsOpen_missing_stops (h : Good T f g st) (hb : Base f g st) (hr : RootsOk T r f st)
    (hio : Shows io T) (hlookup : r.Safe st path) (htarget : r.target T st path = none)
    (hcreat : hasFlag flags oCreat = true) (hstart : r.startPlace st (pathStart path).1 = some p)
    (hparent : r.startPlace st (pathStart (pathLeft path)).1 = some q) :
    Ends True (vfsOpen io r path flags) st (fun _ _ => False) (fun _ _ => vfsFlagsOk flags = false) := by
  unfold vfsOpen checkFlags
  by_cases hflags : vfsFlagsOk flags = true
  · rw [if_pos hflags]
    refine Ends.bind (Ends.pure (Ends.bind (Ends.branch ?_)))
    refine ((vfsLookup_good h hb hr hio hlookup).weaken False.elim).mono ?_ ?_
    · intro m st₁ h₁
      obtain ⟨-, -, q', hq', -⟩ := h₁
      rw [htarget] at hq'
      exact absurd hq'.symm (Option.some_ne_none q')
    · intro e st₁ h₁
      obtain ⟨hgood₁, hholds₁, -, hwhy⟩ := h₁
      have he : e = .noEnt := by
        rcases hwhy with hwhy | hwhy
        · rw [hstart] at hwhy
          exact absurd hwhy.1 (Option.some_ne_none p)
        · exact hwhy.2
      rw [if_pos ⟨he, hcreat⟩]
      have hdevice := @getDevice_good T st₁ f g io r (pathStart (pathLeft path)).1 hgood₁
        (hb.holds hholds₁) (hr.holds hholds₁) hio
      unfold Starts at hdevice
      refine Ends.bind (Ends.bind ((hdevice.weaken False.elim).mono ?_ ?_))
      · intro n st₂ _
        exact Ends.pure panic_ends
      · intro e' st₂ h₂
        rw [startPlace_holds hr hholds₁, hparent] at h₂
        exact absurd h₂.1 (Option.some_ne_none q)
  · rw [if_neg hflags]
    exact Ends.bind (Ends.fail (Bool.eq_false_iff.mpr hflags))

theorem vfsOpen_stops (h : Good T f g st) (hb : Base f g st) (hr : RootsOk T r f st) (hio : Shows io T)
    (hflags : vfsFlagsOk flags = true) (hbreaks : ¬ OpenSafe T r st path flags) :
    vfsOpen io r path flags st = none := by
  have hclose : ∀ x : StoreCall ℕ, Ends True x st (fun _ _ => False) (fun _ _ => vfsFlagsOk flags = false) →
      x st = none := by
    intro x hx
    refine (hx.mono (fun _ _ hbad => hbad) (fun _ _ hbad => ?_)).eq_none
    rw [hflags] at hbad
    exact Bool.false_ne_true hbad.symm
  apply hclose
  by_cases hlookup : r.Safe st path
  · by_cases hfound : ∀ q, r.target T st path = some q →
        (hasFlag flags oExcl && hasFlag flags oCreat) = false → FoundOk T st flags q
    · have hmissing : ¬ (r.target T st path = none → hasFlag flags oCreat = true →
          r.startPlace st (pathStart path).1 = none ∨
            r.startPlace st (pathStart (pathLeft path)).1 = none) :=
        fun hok => hbreaks ⟨hlookup, hfound, hok⟩
      push Not at hmissing
      obtain ⟨htarget, hcreat, hstart, hparent⟩ := hmissing
      obtain ⟨p, hp⟩ := Option.ne_none_iff_exists'.mp hstart
      obtain ⟨q, hq⟩ := Option.ne_none_iff_exists'.mp hparent
      exact vfsOpen_missing_stops h hb hr hio hlookup htarget hcreat hp hq
    · push Not at hfound
      obtain ⟨q, htarget, hexcl, hbad⟩ := hfound
      exact vfsOpen_found_stops h hb hr hio hlookup htarget hexcl hbad
  · unfold vfsOpen checkFlags
    rw [if_pos hflags]
    refine Ends.bind (Ends.pure (Ends.bind (Ends.branch ?_)))
    exact Ends.of_eq_none (vfsLookup_stops h hb hr hio hlookup) trivial

end Ucore.Vfs
