import Ucore.Vfs.RefCounts

/-!
How the calls on open files end: what is held is what is counted, entry by entry.
-/
namespace Ucore.Vfs

open Library Call

variable {s : VfsState} {f g : ℕ → ℤ} {t i n : ℕ} {io : VfsIo} {E : VfsError → VfsState → Prop}

theorem held_of_status {file : File} (h : file.status = .init ∨ file.status = .none) :
    file.held = none := by
  unfold File.held
  rcases h with h | h
  · rw [h]
  · rw [h]

theorem held_of_opened {file : File} (h : file.status = .opened ∨ file.status = .closed) :
    file.held = file.node := by
  unfold File.held
  rcases h with h | h
  · rw [h]
  · rw [h]

/-! One entry. -/

/-- Entry `i` is the only thing that changes in the tables. -/
def Touches (t i : ℕ) (f g : ℕ → ℤ) (fs : Files) (s : VfsState) : Prop :=
  ∃ file, s.files = fs.setFile t i file ∧ At t f g s

theorem Touches.trans {fs : Files} {s' : VfsState} (h : ∃ file, s.files = fs.setFile t i file)
    (h' : Touches t i f g s.files s') : Touches t i f g fs s' := by
  obtain ⟨file, hfile⟩ := h
  obtain ⟨file', hfile', hat⟩ := h'
  refine ⟨file', ?_, hat⟩
  rw [hfile', hfile, Files.setFile_setFile]

/-- The entry is free afterwards, and what it held is given back. -/
theorem fdArrayFree_ends (h : At t f g s) (hi : i < filesStructNentry) :
    Ends True (fdArrayFree io t i) s (fun _ s' => s'.files =
      s.files.setFile t i { s.files.file t i with status := .none } ∧ At t f g s') E := by
  unfold fdArrayFree
  refine Ends.bind (getFile_ends ?_)
  refine Ends.bind (check_ends (fun hc => ?_))
  have hclose : Ends True (closeNode io (s.files.file t i)) s (fun _ s' => s'.files = s.files ∧
      At t (f - unit (s.files.file t i).held) (g - unit (s.files.file t i).held) s') E := by
    unfold closeNode
    rcases hc.1 with hinit | hclosed
    · have hne : (s.files.file t i).status ≠ .closed := by
        rw [hinit]
        exact FdStatus.noConfusion
      rw [if_neg hne, held_of_status (Or.inl hinit), unit_none, sub_zero, sub_zero]
      exact Ends.pure ⟨rfl, h⟩
    · rw [if_pos hclosed, held_of_opened (Or.inr hclosed)]
      cases (s.files.file t i).node with
      | none => exact stop_ends
      | some n => exact close_ends h
  refine Ends.bind (hclose.mono ?_ (fun _ _ he => he))
  rintro _ s' ⟨hfiles, hat⟩
  refine setFile_ends ⟨by rw [hfiles], ?_⟩
  have hnone : File.held { s.files.file t i with status := .none } = none := held_of_status (Or.inr rfl)
  apply hat.setFile hi
  · rw [hnone, hfiles, unit_none, add_zero, sub_add_cancel]
  · rw [hnone, hfiles, unit_none, add_zero, sub_add_cancel]

/-- A file that stays, and is freed with its last user. -/
theorem freeIf_ends {fs : Files} {c : Prop} [Decidable c] (h : Touches t i f g fs s)
    (hi : i < filesStructNentry) :
    Ends True (if c then fdArrayFree io t i else pure ⟨⟩) s
      (fun _ s' => Touches t i f g fs s') E := by
  obtain ⟨file, hfile, hat⟩ := h
  by_cases hc : c
  · rw [if_pos hc]
    refine (fdArrayFree_ends hat hi).mono ?_ (fun _ _ he => he)
    rintro _ s' ⟨hfiles, hat'⟩
    exact Touches.trans ⟨file, hfile⟩ ⟨_, hfiles, hat'⟩
  · rw [if_neg hc]
    exact Ends.pure ⟨file, hfile, hat⟩

theorem fdArrayClose_ends (h : At t f g s) (hi : i < filesStructNentry) :
    Ends True (fdArrayClose io t i) s (fun _ s' => Touches t i f g s.files s') E := by
  unfold fdArrayClose
  refine Ends.bind (getFile_ends ?_)
  refine Ends.bind (check_ends (fun hc => ?_))
  refine Ends.bind (setFile_ends ?_)
  refine freeIf_ends ⟨_, rfl, h.setFile_keep hi _ ?_⟩ hi
  rw [held_of_opened (Or.inr rfl), held_of_opened (Or.inl hc.1)]

theorem fdArrayRelease_ends (h : At t f g s) (hi : i < filesStructNentry) :
    Ends True (fdArrayRelease io t i) s (fun _ s' => Touches t i f g s.files s') E := by
  unfold fdArrayRelease
  refine Ends.bind (getFile_ends ?_)
  refine Ends.bind (check_ends (fun _ => ?_))
  refine Ends.bind (setFile_ends ?_)
  exact freeIf_ends ⟨_, rfl, h.setFile_keep hi _ rfl⟩ hi

theorem fdArrayAcquire_ends (h : At t f g s) (hi : i < filesStructNentry) :
    Ends True (fdArrayAcquire t i) s (fun _ s' => Touches t i f g s.files s') E := by
  unfold fdArrayAcquire
  refine Ends.bind (getFile_ends ?_)
  refine Ends.bind (check_ends (fun _ => ?_))
  exact setFile_ends ⟨_, rfl, h.setFile_keep hi _ rfl⟩

/-- The reference and the open in hand go to the entry. -/
theorem fdArrayOpen_ends (h : At t (f + unit (s.files.file t i).node)
    (g + unit (s.files.file t i).node) s) (hi : i < filesStructNentry) :
    Ends True (fdArrayOpen t i) s (fun _ s' => Touches t i f g s.files s') E := by
  unfold fdArrayOpen
  refine Ends.bind (getFile_ends ?_)
  refine Ends.bind (check_ends (fun hc => ?_))
  have hnew : File.held { s.files.file t i with status := .opened, openCount := (s.files.file t i).openCount + 1 } =
      (s.files.file t i).node := held_of_opened (Or.inl rfl)
  refine setFile_ends ⟨_, rfl, h.setFile hi ?_ ?_⟩
  · rw [hnew, held_of_status (Or.inl hc.1), unit_none, add_zero]
  · rw [hnew, held_of_status (Or.inl hc.1), unit_none, add_zero]

theorem fdArrayDup_ends (h : At t f g s) (hi : i < filesStructNentry) {u j : ℕ} :
    Ends True (fdArrayDup t i u j) s (fun _ s' => Touches t i f g s.files s') E := by
  unfold fdArrayDup
  refine Ends.bind (getFile_ends ?_)
  refine Ends.bind (getFile_ends ?_)
  refine Ends.bind (check_ends (fun hc => ?_))
  cases (s.files.file u j).node with
  | none => exact stop_ends
  | some n =>
    refine Ends.bind ((refInc_ends h).mono ?_ (fun _ _ he => he))
    rintro _ s₁ ⟨hf₁, h₁⟩
    refine Ends.bind ((openInc_ends h₁).mono ?_ (fun _ _ he => he))
    rintro _ s₂ ⟨hf₂, h₂⟩
    have hfiles : s₂.files = s.files := hf₂.trans hf₁
    refine Ends.bind (setFile_ends ?_)
    have hold : (s₂.files.file t i).held = none := by
      rw [hfiles]
      exact held_of_status (Or.inl hc.1)
    have hset := h₂.setFile_keep hi { s.files.file t i with
      pos := (s.files.file u j).pos, readable := (s.files.file u j).readable,
      writable := (s.files.file u j).writable, node := some n }
      (by rw [hold]; exact held_of_status (Or.inl hc.1))
    refine (fdArrayOpen_ends (f := f) (g := g) ?_ hi).mono ?_ (fun _ _ he => he)
    · rw [Files.setFile_file_self]
      exact hset
    · intro _ s₃ h₃
      exact Touches.trans ⟨_, by rw [hfiles]⟩ h₃

/-! Descriptors. -/

theorem chooseEntry_lt {tab : FilesStruct} {fd : ℤ} (h : chooseEntry tab fd = .ok i) :
    i < filesStructNentry ∧ (tab.fdArray i).status = .none := by
  unfold chooseEntry at h
  by_cases hno : fd = noFd
  · rw [if_pos hno] at h
    rcases hfree : freeEntry tab with _ | j
    · rw [hfree] at h
      exact absurd h (by simp)
    · rw [hfree] at h
      simp only [Except.ok.injEq] at h
      subst h
      unfold freeEntry at hfree
      refine ⟨List.mem_range.mp (List.mem_of_find?_eq_some hfree), ?_⟩
      simpa using List.find?_some hfree
  · rw [if_neg hno] at h
    by_cases htest : testfd fd = true
    · rw [if_pos htest] at h
      by_cases hnone : (tab.fdArray fd.toNat).status = .none
      · rw [if_pos hnone] at h
        simp only [Except.ok.injEq] at h
        subst h
        unfold testfd at htest
        have hrange := of_decide_eq_true htest
        exact ⟨by omega, hnone⟩
      · rw [if_neg hnone] at h
        exact absurd h (by simp)
    · rw [if_neg htest] at h
      exact absurd h (by simp)

/-- A free entry is set to `FD_INIT`; without one nothing changes. -/
theorem fdArrayAlloc_ends (h : At t f g s) (fd : ℤ) :
    Ends True (fdArrayAlloc t fd) s
      (fun i s' => i < filesStructNentry ∧ (s.files.file t i).status = .none ∧
        (s.files.file t i).openCount = 0 ∧ At t f g s' ∧ s'.store = s.store ∧ s'.files = s.files.setFile t i { s.files.file t i with status := .init, node := none })
      (fun _ s' => s' = s) := by
  unfold fdArrayAlloc getFdArray
  refine Ends.bind (Ends.bind (Ends.require (fun _ => ?_) (fun _ => trivial)))
  refine Ends.read ?_
  cases hch : chooseEntry (s.files.table t) fd with
  | error e => exact Ends.fail rfl
  | ok i =>
    obtain ⟨hi, hnone⟩ := chooseEntry_lt hch
    unfold initEntry
    refine Ends.bind (getFile_ends ?_)
    refine Ends.bind (check_ends (fun hcount => ?_))
    refine Ends.bind (setFile_ends (Ends.pure ?_))
    refine ⟨hi, hnone, hcount, h.setFile_keep hi _ ?_, rfl, rfl⟩
    rw [held_of_status (Or.inl rfl)]
    exact (held_of_status (Or.inr hnone)).symm

theorem fd2file_ends {fd : ℤ} :
    Ends True (fd2file t fd) s (fun i s' => i < filesStructNentry ∧ s' = s) (fun _ s' => s' = s) := by
  unfold fd2file getFdArray
  refine Ends.bind (Ends.bind (Ends.require (fun _ => ?_) (fun _ => trivial)))
  refine Ends.read ?_
  by_cases hc : testfd fd ∧ ((s.files.table t).fdArray fd.toNat).status = .opened ∧
      ((s.files.table t).fdArray fd.toNat).fd = fd
  · rw [if_pos hc]
    have htest := hc.1
    unfold testfd at htest
    have hrange := of_decide_eq_true htest
    exact Ends.pure ⟨by omega, rfl⟩
  · rw [if_neg hc]
    exact Ends.fail rfl

/-! Calls on descriptors. -/

theorem fileClose_ends (h : At t 0 0 s) {fd : ℤ} :
    Ends True (fileClose io t fd) s (fun _ s' => Ready s') (fun _ s' => Ready s') := by
  unfold fileClose
  refine Ends.bind (fd2file_ends.mono ?_ ?_)
  · rintro i _ ⟨hi, rfl⟩
    refine Ends.bind ((fdArrayClose_ends h hi).mono ?_ (fun _ _ he => he))
    rintro _ s' ⟨-, -, hat⟩
    exact Ends.pure hat.ready
  · rintro _ _ rfl
    exact h.ready

theorem fileDup_ends (h : At t 0 0 s) {fd₁ fd₂ : ℤ} :
    Ends True (fileDup t fd₁ fd₂) s (fun _ s' => Ready s') (fun _ s' => Ready s') := by
  unfold fileDup
  refine Ends.bind (fd2file_ends.mono ?_ ?_)
  · rintro j _ ⟨-, rfl⟩
    refine Ends.bind ((fdArrayAlloc_ends h fd₂).mono ?_ ?_)
    · rintro i s₁ ⟨hi, -, -, h₁, -, -⟩
      refine Ends.bind ((fdArrayDup_ends h₁ hi).mono ?_ (fun _ _ he => he))
      rintro _ s₂ ⟨-, -, h₂⟩
      exact Ends.bind (getFile_ends (Ends.pure h₂.ready))
    · rintro _ _ rfl
      exact h.ready
  · rintro _ _ rfl
    exact h.ready

/-- Setting an entry to `FD_INIT` and back does not matter. -/
theorem same_of_free {fs : Files} {file : File} (hnone : (fs.file t i).status = .none)
    (hfile : file.status = .none) : fs.Same (fs.setFile t i file) where
  tables := rfl
  filesp := rfl
  bootfs := rfl
  vdevList := rfl
  pwd := Files.setFile_pwd
  filesCount := Files.setFile_filesCount
  status u j := by
    by_cases h : (u, j) = (t, i)
    · obtain ⟨rfl, rfl⟩ := Prod.mk.inj h
      rw [Files.setFile_file_self, hfile, hnone]
    · rw [Files.setFile_file_of_ne h]
  file u j huj := by
    by_cases h : (u, j) = (t, i)
    · obtain ⟨rfl, rfl⟩ := Prod.mk.inj h
      exact absurd hnone huj
    · exact Files.setFile_file_of_ne h

theorem Files.Same.refl (fs : Files) : fs.Same fs :=
  ⟨rfl, rfl, rfl, rfl, fun _ => rfl, fun _ => rfl, fun _ _ => rfl, fun _ _ _ => rfl⟩

/-- The lookup of an open that reaches it does not find a node with `O_CREAT` and `O_EXCL`. -/
def NoExcl (io : VfsIo) (s : VfsState) (t : ℕ) (path : List Char) (flags : ℕ) : Prop :=
  vfsFlagsOk flags = true → ∀ m st, vfsLookup io (s.files.roots t) path s.store = some (.ok m, st) →
    (hasFlag flags oExcl && hasFlag flags oCreat) = false

theorem setFile_roots {fs : Files} {file : File} (u : ℕ) :
    (fs.setFile t i file).roots u = fs.roots u := by
  unfold Files.roots
  rw [Files.setFile_pwd]
  rfl

theorem vfsOpenAt_ends (h : At t f g s) {path : List Char} {flags : ℕ}
    (hno : NoExcl io s t path flags) :
    Ends True (vfsOpenAt io t path flags) s
      (fun m s' => s'.files = s.files ∧ At t (f + one m) (g + one m) s')
      (fun _ s' => s'.files = s.files ∧ At t f g s') := by
  unfold vfsOpenAt
  refine Ends.bind (Ends.read ?_)
  refine onStore_ends ((vfsOpen_ends h.counts hno).mono ?_ ?_)
  · intro m st hc
    rw [add_assoc, add_assoc] at hc
    exact ⟨rfl, h.ofStore hc⟩
  · intro _ st hc
    exact ⟨rfl, h.ofStore hc⟩

/-- The entry `i` of an open that fails is free again. -/
theorem undo_ends {fs : Files} (h : At t 0 0 s) (hi : i < filesStructNentry)
    (hnone : (fs.file t i).status = .none) {file : File} (hfiles : s.files = fs.setFile t i file) :
    Ends True (fdArrayFree io t i) s (fun _ s' => Ready s' ∧ fs.Same s'.files) E := by
  refine (fdArrayFree_ends h hi).mono ?_ (fun _ _ he => he)
  rintro _ s' ⟨hf, hat⟩
  refine ⟨hat.ready, ?_⟩
  rw [hf, hfiles, Files.setFile_setFile]
  exact same_of_free hnone rfl

theorem fileOpen_ends (h : At t 0 0 s) {path : List Char} {flags : ℕ}
    (hno : ∀ i s', fdArrayAlloc t noFd s = some (.ok i, s') → NoExcl io s t path flags) :
    Ends True (fileOpen io t path flags) s (fun _ s' => Ready s')
      (fun _ s' => Ready s' ∧ s.files.Same s'.files) := by
  unfold fileOpen getMode
  cases accessMode flags with
  | none => exact Ends.bind (Ends.fail ⟨h.ready, Files.Same.refl _⟩)
  | some mode =>
    refine Ends.bind (Ends.pure (Ends.bind ?_))
    have halloc := fdArrayAlloc_ends h noFd
    unfold Ends at halloc ⊢
    rcases hx : fdArrayAlloc t noFd s with _ | ⟨e | i, s₁⟩
    · trivial
    · rw [hx] at halloc
      subst halloc
      exact ⟨h.ready, Files.Same.refl _⟩
    · rw [hx] at halloc
      obtain ⟨hi, hnone, -, h₁, hstore, hf₁⟩ := halloc
      have hno₁ : NoExcl io s₁ t path flags := by
        unfold NoExcl
        rw [hstore, hf₁, setFile_roots]
        exact hno i s₁ hx
      refine Ends.bind (Ends.onError ((vfsOpenAt_ends h₁ hno₁).mono ?_ ?_))
      · rintro node s₂ ⟨hf₂, h₂⟩
        refine Ends.bind (Ends.onError ((steady_ends ?_ h₂).mono ?_ ?_))
        · exact Steady.ite vopFstat_steady (Steady.pure _)
        · rintro pos s₃ ⟨hf₃, h₃⟩
          refine Ends.bind (getFile_ends (Ends.bind (setFile_ends ?_)))
          have hstatus : (s₃.files.file t i).status = .init := by
            rw [hf₃, hf₂, hf₁, Files.setFile_file_self]
          have hset := h₃.setFile_keep hi { s₃.files.file t i with
            pos := pos, node := some node, readable := mode.1, writable := mode.2 }
            (by rw [held_of_status (Or.inl hstatus)]; exact held_of_status (Or.inl hstatus))
          refine Ends.bind ((fdArrayOpen_ends (f := 0) (g := 0) ?_ hi).mono ?_ (fun _ _ he => he))
          · rw [Files.setFile_file_self]
            exact hset
          · rintro _ s₄ ⟨-, -, h₄⟩
            exact Ends.pure h₄.ready
        · rintro _ s₃ ⟨hf₃, h₃⟩
          unfold undoOpen
          refine Ends.bind ((close_ends h₃).mono ?_ (fun _ _ he => he))
          rintro _ s₄ ⟨hf₄, h₄⟩
          rw [add_sub_cancel_right] at h₄
          exact undo_ends h₄ hi hnone (by rw [hf₄, hf₃, hf₂, hf₁])
      · rintro _ s₂ ⟨hf₂, h₂⟩
        exact undo_ends h₂ hi hnone (by rw [hf₂, hf₁])

/-! Working directories. -/

theorem vfsSetCurdir_ends (h : At t f g s) {dir : ℕ} :
    Ends True (vfsSetCurdir io t dir) s (fun _ s' => At t f g s') (fun _ s' => At t f g s') := by
  unfold vfsSetCurdir
  refine Ends.bind (Ends.read ?_)
  by_cases hold : (s.files.table t).pwd = some dir
  · rw [if_pos hold]
    exact Ends.pure h
  · rw [if_neg hold]
    refine Ends.bind ((steady_ends vopIsDir_steady h).mono ?_ ?_)
    · rintro isDir s₁ ⟨hf₁, h₁⟩
      by_cases hdir : isDir = true
      · rw [if_pos hdir]
        refine Ends.bind ((refInc_ends h₁).mono ?_ (fun _ _ he => he))
        rintro _ s₂ ⟨hf₂, h₂⟩
        have hfiles : s₂.files = s.files := hf₂.trans hf₁
        refine Ends.bind (Ends.modify ?_)
        refine (dropRef_ends (t := t) (f := f) (g := g) ?_).mono ?_ (fun _ _ he => he)
        · exact h₂.setPwd (by rw [hfiles, unit_some, add_right_comm])
        · rintro _ s₃ ⟨-, h₃⟩
          exact h₃
      · rw [if_neg hdir]
        exact Ends.fail h₁
    · rintro _ s₁ ⟨-, h₁⟩
      exact h₁

theorem vfsChdir_ends (h : At t f g s) {path : List Char} :
    Ends True (vfsChdir io t path) s (fun _ s' => At t f g s') (fun _ s' => At t f g s') := by
  unfold vfsChdir
  refine Ends.bind (Ends.read ?_)
  refine Ends.bind ((takes_ends vfsLookup_takes h).mono ?_ ?_)
  · rintro node s₁ ⟨-, h₁⟩
    refine Ends.bind (Ends.onError ((vfsSetCurdir_ends h₁).mono ?_ ?_))
    · intro _ s₂ h₂
      refine (refDec_ends h₂).mono ?_ (fun _ _ he => he)
      rintro _ s₃ ⟨-, h₃⟩
      rwa [add_sub_cancel_right] at h₃
    · intro _ s₂ h₂
      refine (refDec_ends h₂).mono ?_ (fun _ _ he => he)
      rintro _ s₃ ⟨-, h₃⟩
      rwa [add_sub_cancel_right] at h₃
  · rintro _ s₁ ⟨-, h₁⟩
    exact h₁

theorem changeBootfs_ends {o : Option ℕ} (h : At t (f + unit o) g s) :
    Ends True (changeBootfs io o) s (fun _ s' => At t f g s') E := by
  unfold changeBootfs
  refine Ends.bind (Ends.read (Ends.bind (Ends.modify ?_)))
  refine (dropRef_ends (t := t) (f := f) (g := g) ?_).mono ?_ (fun _ _ he => he)
  · exact h.setBootfs (by rw [add_right_comm])
  · rintro _ s₃ ⟨-, h₃⟩
    exact h₃

theorem vfsSetBootfs_ends (h : At t f g s) {fsname : Option (List Char)} :
    Ends True (vfsSetBootfs io t fsname) s (fun _ s' => At t f g s') (fun _ s' => At t f g s') := by
  cases fsname with
  | none => exact changeBootfs_ends (by rwa [unit_none, add_zero])
  | some fsname =>
    simp only [vfsSetBootfs]
    by_cases hname : fsname.dropWhile (· != ':') ≠ [':']
    · rw [if_pos hname]
      exact Ends.fail h
    · rw [if_neg hname]
      refine Ends.bind ((vfsChdir_ends h).mono ?_ (fun _ _ he => he))
      intro _ s₁ h₁
      refine Ends.bind (Ends.read ?_)
      refine Ends.bind ((takes_ends takeRoot_takes h₁).mono ?_ ?_)
      · rintro node s₂ ⟨-, h₂⟩
        exact changeBootfs_ends h₂
      · rintro _ s₂ ⟨-, h₂⟩
        exact h₂

end Ucore.Vfs
