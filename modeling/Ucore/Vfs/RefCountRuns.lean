import Ucore.Vfs.OpenFiles

/-!
The counts over whole runs: the tables through fork, exec and exit, one system call after
the other, and the one exit of `vfs_open` that keeps a reference.
-/
namespace Ucore.Vfs

open Library Call

variable {s : VfsState} {f g : ℕ → ℤ} {t i n : ℕ} {io : VfsIo} {E : VfsError → VfsState → Prop}

/-! Tables. -/

theorem closeOpened_ends (h : At t f g s) (hi : i < filesStructNentry) :
    Ends True (closeOpened io t i) s (fun _ s' => Touches t i f g s.files s') E := by
  unfold closeOpened
  refine Ends.bind (getFile_ends ?_)
  by_cases hopen : (s.files.file t i).status = .opened
  · rw [if_pos hopen]
    exact fdArrayClose_ends h hi
  · rw [if_neg hopen]
    exact Ends.pure ⟨_, Files.setFile_self.symm, h⟩

theorem filesCloseall_ends (h : At t f g s) :
    Ends True (filesCloseall io t) s (fun _ s' => At t f g s') E := by
  unfold filesCloseall
  refine Ends.bind (Ends.require (fun _ => ?_) (fun _ => trivial))
  refine Ends.each ?_ h
  intro i hi s₁ h₁
  have hlt : i < filesStructNentry := by
    obtain ⟨_, _⟩ := List.mem_range'_1.mp hi
    omega
  refine (closeOpened_ends h₁ hlt).mono ?_ (fun _ _ he => he)
  rintro _ s₂ ⟨-, -, h₂⟩
  exact h₂

/-- The loop of `files_destroy` has closed the entries of `done`. -/
structure Closing (t : ℕ) (f g : ℕ → ℤ) (pwd : Option ℕ) (done : List ℕ) (s : VfsState) : Prop where
  counts : At t f g s
  pwd : (s.files.table t).pwd = pwd
  closed : ∀ j ∈ done, (s.files.file t j).status = .none

theorem closeForGood_ends {pwd : Option ℕ} {done : List ℕ} (h : Closing t f g pwd done s)
    (hi : i < filesStructNentry) :
    Ends True (closeForGood io t i) s (fun _ s' => Closing t f g pwd (done ++ [i]) s') E := by
  unfold closeForGood
  refine Ends.bind ((closeOpened_ends h.counts hi).mono ?_ (fun _ _ he => he))
  rintro _ s₁ ⟨file, hf₁, h₁⟩
  refine Ends.require (fun hnone => ⟨h₁, ?_, ?_⟩) (fun _ => trivial)
  · rw [hf₁, Files.setFile_pwd]
    exact h.pwd
  · intro j hj
    rcases List.mem_append.mp hj with hj | hj
    · by_cases hji : j = i
      · rw [hji]
        exact hnone
      · rw [hf₁, Files.setFile_file_of_ne (fun heq => hji (Prod.mk.inj heq).2)]
        exact h.closed j hj
    · rw [List.mem_singleton.mp hj]
      exact hnone

/-- A table without entries in use goes; its working directory was dropped before. -/
theorem Closing.erase {pwd : Option ℕ} (h : Closing t (0 - unit pwd) 0 pwd (List.range filesStructNentry) s) :
    Ready { s with files := { s.files with tables := s.files.tables.erase t } } := by
  have hheld : ∀ j < filesStructNentry, (s.files.file t j).held = none := fun j hj =>
    held_of_status (Or.inr (h.closed j (List.mem_range.mpr hj)))
  have hentry := @Files.entryCount_erase s.files t hheld
  have hpwd := @Files.pwdCount_erase s.files t h.counts.table
  have hc := h.counts.counts
  refine ⟨⟨fun u hu => h.counts.sane.fresh u (Finset.mem_of_mem_erase hu), h.counts.sane.io⟩, ?_⟩
  have hrefs : refsOf { s.files with tables := s.files.tables.erase t } =
      refsOf s.files + (0 - unit pwd) := by
    funext m
    have hm := hpwd m
    have hfs : ({ s.files with tables := s.files.tables.erase t } : Files).fsCount m =
        s.files.fsCount m := rfl
    rw [h.pwd] at hm
    simp only [Pi.add_apply, Pi.sub_apply, Pi.zero_apply]
    unfold refsOf Files.refHolders
    rw [hentry, hfs]
    push_cast
    omega
  have hopens : opensOf { s.files with tables := s.files.tables.erase t } = opensOf s.files + 0 := by
    funext m
    rw [add_zero]
    unfold opensOf
    rw [hentry]
  rw [hrefs, hopens]
  exact hc

theorem filesDestroy_ends (h : At t 0 0 s) :
    Ends True (filesDestroy io t) s (fun _ s' => Ready s') E := by
  unfold filesDestroy
  refine Ends.bind (Ends.require (fun _ => ?_) (fun _ => trivial))
  refine Ends.bind (Ends.read ?_)
  have hdrop : At t (0 - unit (s.files.table t).pwd + unit (s.files.table t).pwd) 0 s := by
    rwa [sub_add_cancel]
  refine Ends.bind ((dropRef_ends hdrop).mono ?_ (fun _ _ he => he))
  rintro _ s₁ ⟨hf₁, h₁⟩
  have hstart : Closing t (0 - unit (s.files.table t).pwd) 0 (s.files.table t).pwd [] s₁ :=
    ⟨h₁, by rw [hf₁], fun j hj => absurd hj List.not_mem_nil⟩
  refine Ends.bind ((Ends.eachDone ?_ hstart).mono ?_ (fun _ _ he => he))
  · intro done j rest hrange s₂ h₂
    refine closeForGood_ends h₂ (List.mem_range.mp ?_)
    rw [← List.nil_append (List.range _), hrange]
    exact List.mem_append_right done List.mem_cons_self
  · intro _ s₂ h₂
    exact Ends.modify h₂.erase

/-- Counts of users and pointers to tables do not matter. -/
theorem At.setFilesCount (h : At t f g s) {u : ℕ} {count : ℤ} {filesp : ℕ → Option ℕ} :
    At t f g { s with files := { s.files.setFilesCount u count with filesp := filesp } } := by
  have htab : ∀ v, ((s.files.setFilesCount u count).table v).pwd = (s.files.table v).pwd ∧
      ((s.files.setFilesCount u count).table v).fdArray = (s.files.table v).fdArray := by
    intro v
    unfold Files.setFilesCount
    by_cases hv : v = u
    · rw [hv, Files.setTable_table_self]
      exact ⟨rfl, rfl⟩
    · rw [Files.setTable_table_of_ne hv]
      exact ⟨rfl, rfl⟩
  refine h.congr ⟨h.sane.fresh, h.sane.io⟩ rfl (fun v => (htab v).1) ?_ rfl rfl
  intro v j
  exact congrArg File.held (congrFun (htab v).2 j)

theorem putFiles_ends {p : ℕ} (h : At t 0 0 s) :
    Ends True (putFiles io p t) s (fun _ s' => Ready s') E := by
  unfold putFiles
  refine Ends.bind (Ends.modify (Ends.bind (Ends.read (Ends.bind (Ends.modify ?_)))))
  have hat : At t 0 0 { s with files := { s.files.setFilesCount t ((s.files.table t).filesCount - 1) with
      filesp := Function.update s.files.filesp p none } } := h.setFilesCount
  by_cases hz : (s.files.table t).filesCount - 1 = 0
  · rw [if_pos hz]
    exact filesDestroy_ends hat
  · rw [if_neg hz]
    exact Ends.pure hat.ready

/-- A new table has a number of its own, and nothing is held in it. -/
theorem At.newTable (h : At t f g s) : At s.files.nextTable f g { s with files :=
    { s.files.setTable s.files.nextTable emptyTable with
      tables := insert s.files.nextTable s.files.tables, nextTable := s.files.nextTable + 1 } } := by
  have hnew : s.files.nextTable ∉ s.files.tables := fun hin =>
    absurd (h.sane.fresh _ hin) (lt_irrefl _)
  have hself := @Files.setTable_table_self s.files s.files.nextTable emptyTable
  have hold : ∀ v, v ≠ s.files.nextTable →
      (s.files.setTable s.files.nextTable emptyTable).table v = s.files.table v :=
    fun v hv => Files.setTable_table_of_ne hv emptyTable
  have hentry := @Files.entryCount_insert s.files
    { s.files.setTable s.files.nextTable emptyTable with
      tables := insert s.files.nextTable s.files.tables, nextTable := s.files.nextTable + 1 }
    s.files.nextTable hnew rfl (fun j => congrArg (fun tab => File.held (tab.fdArray j)) hself)
    (fun v j hv => congrArg (fun tab => tab.fdArray j) (hold v hv))
  have hpwd := @Files.pwdCount_insert s.files
    { s.files.setTable s.files.nextTable emptyTable with
      tables := insert s.files.nextTable s.files.tables, nextTable := s.files.nextTable + 1 }
    s.files.nextTable hnew rfl (congrArg FilesStruct.pwd hself)
    (fun v hv => congrArg FilesStruct.pwd (hold v hv))
  refine ⟨Finset.mem_insert_self _ _, ⟨?_, h.sane.io⟩, ?_⟩
  · intro u hu
    rcases Finset.mem_insert.mp hu with rfl | hu
    · exact Nat.lt_succ_self _
    · exact Nat.lt_succ_of_lt (h.sane.fresh u hu)
  · have hrefs : refsOf { s.files.setTable s.files.nextTable emptyTable with
        tables := insert s.files.nextTable s.files.tables, nextTable := s.files.nextTable + 1 } =
        refsOf s.files := by
      funext m
      unfold refsOf Files.refHolders
      rw [hentry, hpwd]
      rfl
    have hopens : opensOf { s.files.setTable s.files.nextTable emptyTable with
        tables := insert s.files.nextTable s.files.tables, nextTable := s.files.nextTable + 1 } =
        opensOf s.files := by
      funext m
      unfold opensOf
      rw [hentry]
    rw [hrefs, hopens]
    exact h.counts

theorem filesCreate_ends (h : At t f g s) {kmem : Bool} :
    Ends True (filesCreate kmem) s (fun u s' => At u f g s' ∧ s'.files.table u = emptyTable)
      (fun _ s' => At t f g s') := by
  unfold filesCreate
  cases kmem with
  | false => exact Ends.fail h
  | true =>
    refine Ends.bind (Ends.read (Ends.bind (Ends.modify (Ends.pure ⟨h.newTable, ?_⟩))))
    exact Files.setTable_table_self emptyTable

theorem dupPwd_ends {o : Option ℕ} (h : At t f g s) (hpwd : (s.files.table t).pwd = none) :
    Ends True (dupPwd t o) s
      (fun _ s' => At t f g s' ∧ ∀ j, s'.files.file t j = s.files.file t j) E := by
  cases o with
  | none =>
    refine Ends.modify ⟨h.setPwd ?_, fun j => Files.setPwd_file⟩
    rw [hpwd]
  | some n =>
    have hset : At t (f - one n) g { s with files := s.files.setPwd t (some n) } := by
      apply h.setPwd
      rw [hpwd, unit_some, unit_none, sub_add_cancel, add_zero]
    refine Ends.bind (Ends.modify (Ends.bind ((refInc_ends hset).mono ?_ (fun _ _ he => he))))
    rintro _ s₁ ⟨hf₁, h₁⟩
    rw [sub_add_cancel] at h₁
    refine Ends.pure ⟨h₁, ?_⟩
    intro j
    rw [hf₁]
    exact Files.setPwd_file

theorem dupEntry_ends {src : ℕ} (h : At t f g s) (hi : i < filesStructNentry)
    (hnone : (s.files.file t i).held = none) :
    Ends True (dupEntry t src i) s (fun _ s' => Touches t i f g s.files s') E := by
  unfold dupEntry
  refine Ends.bind (getFile_ends ?_)
  by_cases hopen : (s.files.file src i).status = .opened
  · rw [if_pos hopen]
    refine Ends.bind (getFile_ends (Ends.bind (setFile_ends ?_)))
    refine (fdArrayDup_ends (h.setFile_keep hi _ ?_) hi).mono ?_ (fun _ _ he => he)
    · rw [hnone]
      exact held_of_status (Or.inl rfl)
    · intro _ s₁ h₁
      exact Touches.trans ⟨_, rfl⟩ h₁
  · rw [if_neg hopen]
    exact Ends.pure ⟨_, Files.setFile_self.symm, h⟩

/-- The loop of `dup_files` has not come to the entries outside `done`. -/
structure Filling (t : ℕ) (f g : ℕ → ℤ) (done : List ℕ) (s : VfsState) : Prop where
  counts : At t f g s
  empty : ∀ j, j ∉ done → (s.files.file t j).held = none

theorem Filling.entry {done : List ℕ} {src : ℕ} (h : Filling t f g done s)
    (hi : i < filesStructNentry) (hnew : i ∉ done) :
    Ends True (dupEntry t src i) s (fun _ s' => Filling t f g (done ++ [i]) s') E := by
  refine (dupEntry_ends h.counts hi (h.empty i hnew)).mono ?_ (fun _ _ he => he)
  rintro _ s₁ ⟨file, hf₁, h₁⟩
  refine ⟨h₁, ?_⟩
  intro j hj
  rw [List.mem_append, not_or, List.mem_singleton] at hj
  rw [hf₁, Files.setFile_file_of_ne (fun heq => hj.2 (Prod.mk.inj heq).2)]
  exact h.empty j hj.1

theorem dupFiles_ends {src : ℕ} (h : At t f g s) (hempty : s.files.table t = emptyTable) :
    Ends True (dupFiles t src) s (fun _ s' => At t f g s') E := by
  unfold dupFiles
  refine Ends.bind (Ends.require (fun _ => ?_) (fun _ => trivial))
  refine Ends.bind (Ends.read ?_)
  refine Ends.bind ((dupPwd_ends h (by rw [hempty]; rfl)).mono ?_ (fun _ _ he => he))
  rintro _ s₁ ⟨h₁, hsame⟩
  have hstart : Filling t f g [] s₁ := by
    refine ⟨h₁, fun j _ => ?_⟩
    rw [hsame j]
    unfold Files.file
    rw [hempty]
    rfl
  refine (Ends.eachDone ?_ hstart).mono (fun _ _ hdone => hdone.counts) (fun _ _ he => he)
  intro done j rest hrange s₂ h₂
  rw [List.nil_append] at hrange
  have hmem : j ∈ List.range filesStructNentry := by
    rw [hrange]
    exact List.mem_append_right done List.mem_cons_self
  have hnew : j ∉ done := by
    have hnodup := hrange ▸ List.nodup_range (n := filesStructNentry)
    intro hj
    exact List.disjoint_of_nodup_append hnodup hj List.mem_cons_self
  exact h₂.entry (List.mem_range.mp hmem) hnew

theorem goodFilesStruct_ends {p u : ℕ} (h : At t f g s) :
    Ends True (goodFilesStruct p u) s
      (fun _ s' => At t f g s' ∧ s'.files.filesp p = some u) E :=
  Ends.modify ⟨h.setFilesCount, Function.update_self ..⟩

/-- The child has a table afterwards. -/
theorem copyFiles_ends {child : ℕ} {cloneFs kmem : Bool} (h : At t 0 0 s) :
    Ends True (copyFiles t child cloneFs kmem) s
      (fun _ s' => ∃ u, s'.files.filesp child = some u ∧ At u 0 0 s') (fun _ s' => Ready s') := by
  unfold copyFiles
  cases cloneFs with
  | true =>
    refine (goodFilesStruct_ends h).mono ?_ (fun _ _ he => he)
    rintro _ s₁ ⟨h₁, hp⟩
    exact ⟨t, hp, h₁⟩
  | false =>
    refine Ends.bind ((filesCreate_ends h).mono ?_ (fun _ _ he => he.ready))
    rintro u s₁ ⟨h₁, hempty⟩
    refine Ends.bind ((dupFiles_ends h₁ hempty).mono ?_ (fun _ _ he => he))
    intro _ s₂ h₂
    refine (goodFilesStruct_ends h₂).mono ?_ (fun _ _ he => he)
    rintro _ s₃ ⟨h₃, hp⟩
    exact ⟨u, hp, h₃⟩

theorem forkFiles_ends {child : ℕ} {cloneFs kmem done : Bool} (h : At t 0 0 s) :
    Ends True (forkFiles io t child cloneFs kmem done) s (fun _ s' => Ready s')
      (fun _ s' => Ready s') := by
  unfold forkFiles
  refine Ends.bind ((copyFiles_ends h).mono ?_ (fun _ _ he => he))
  rintro _ s₁ ⟨u, hp, h₁⟩
  refine Ends.bind (Ends.read ?_)
  rw [hp]
  cases done with
  | false => exact putFiles_ends h₁
  | true => exact Ends.pure h₁.ready

/-! Reading and writing. -/

theorem ioStart_ends {p : ℕ} {fd : ℤ} {write : Bool} (h : At t 0 0 s) :
    Ends True (ioStart p t fd write) s (fun _ s' => Ready s') (fun _ s' => Ready s') := by
  unfold ioStart
  refine Ends.bind (fd2file_ends.mono ?_ ?_)
  · rintro i s' ⟨hi, heq⟩
    rw [heq]
    refine Ends.bind (getFile_ends ?_)
    by_cases hmode : (write && !(s.files.file t i).writable || !write && !(s.files.file t i).readable) = true
    · rw [if_pos hmode]
      exact Ends.fail h.ready
    · rw [if_neg hmode]
      refine Ends.bind ((fdArrayAcquire_ends h hi).mono ?_ (fun _ _ he => he))
      rintro _ s₁ ⟨-, -, h₁⟩
      cases (s.files.file t i).node with
      | none => exact stop_ends
      | some n =>
        have hcheck : Steady (inodeCheck n) := fun _ _ _ hc => inodeCheck_ends (fun _ _ => hc)
        refine Ends.bind ((steady_ends hcheck h₁).mono ?_ (fun _ _ he => he.2.ready))
        rintro inode s₂ ⟨-, h₂⟩
        refine Ends.bind (check_ends (fun _ => Ends.modify ?_))
        refine ⟨⟨h₂.sane.fresh, ?_⟩, h₂.ready.counts⟩
        intro q j hq
        have hio : Function.update s₂.files.ioFile p (some i) q = some j := hq
        by_cases hqp : q = p
        · rw [hqp, Function.update_self] at hio
          exact Option.some.inj hio ▸ hi
        · rw [Function.update_of_ne hqp] at hio
          exact h₂.sane.io q j hio
  · rintro _ _ rfl
    exact h.ready

theorem setSize_steady {size : ℕ} {dirty : Bool} : Steady (setSize n size dirty) := by
  intro st f g h
  unfold setSize
  refine Ends.bind (getInode_ends (fun i hi => ?_))
  cases i.info with
  | sfs sin => exact setInode_keep h hi
  | device dev => exact Ends.pure h

theorem sizeOf_ends {size : ℕ} {dirty : Bool} {o : Option ℕ} (h : At t f g s) :
    Ends True (sizeOf size dirty o) s (fun _ s' => At t f g s') (fun _ s' => At t f g s') := by
  cases o with
  | none => exact stop_ends
  | some n => exact (steady_ends setSize_steady h).mono (fun _ _ h' => h'.2) (fun _ _ h' => h'.2)

theorem advance_ends {copied : ℕ} (h : At t f g s) (hi : i < filesStructNentry) :
    Ends True (advance t i copied) s (fun _ s' => At t f g s') E := by
  unfold advance
  refine Ends.bind (getFile_ends ?_)
  by_cases hopen : (s.files.file t i).status = .opened
  · rw [if_pos hopen]
    exact setFile_ends (h.setFile_keep hi _ rfl)
  · rw [if_neg hopen]
    exact Ends.pure h

theorem ioEnd_ends {p copied size : ℕ} {dirty : Bool} (h : At t 0 0 s) (hi : i < filesStructNentry) :
    Ends True (ioEnd io p t i copied size dirty) s (fun _ s' => Ready s') (fun _ s' => Ready s') := by
  unfold ioEnd
  have hdone : At t 0 0 { s with files := { s.files with
      ioFile := Function.update s.files.ioFile p none } } := by
    refine h.congr ⟨h.sane.fresh, ?_⟩ rfl (fun _ => rfl) (fun _ _ => rfl) rfl rfl
    intro q j hq
    have hio : Function.update s.files.ioFile p none q = some j := hq
    by_cases hqp : q = p
    · rw [hqp, Function.update_self] at hio
      exact absurd hio (Option.some_ne_none j).symm
    · rw [Function.update_of_ne hqp] at hio
      exact h.sane.io q j hio
  refine Ends.bind (Ends.modify (Ends.bind (getFile_ends ?_)))
  refine Ends.bind ((sizeOf_ends hdone).mono ?_ (fun _ _ he => he.ready))
  intro _ s₁ h₁
  refine Ends.bind ((advance_ends h₁ hi).mono ?_ (fun _ _ he => he))
  intro _ s₂ h₂
  refine (fdArrayRelease_ends h₂ hi).mono ?_ (fun _ _ he => he)
  rintro _ s₃ ⟨-, -, h₃⟩
  exact h₃.ready

/-! One call. -/

theorem zeroOf_ends {x : VfsCall PUnit} {Q E : VfsState → Prop}
    (h : Ends True x s (fun _ s' => Q s') (fun _ s' => E s')) :
    Ends True (zeroOf x) s (fun _ s' => Q s') (fun _ s' => E s') :=
  Ends.bind (h.mono (fun _ _ hq => Ends.pure hq) (fun _ _ he => he))

def FsOp.isOpen : FsOp → Bool
  | .open _ _ _ => true
  | _ => false

/-- An open that reaches the lookup finds a node, with `O_CREAT` and `O_EXCL`. -/
def ExclFound (s : VfsState) (op : FsOp × VfsIo) : Prop :=
  match op.1 with
  | .open p (.ok path) flags => ∃ t i s' m st, s.files.filesp p = some t ∧ s.files.ioFile p = none ∧
      t ∈ s.files.tables ∧ fdArrayAlloc t noFd s = some (.ok i, s') ∧ vfsFlagsOk flags = true ∧
      (hasFlag flags oExcl && hasFlag flags oCreat) = true ∧
      vfsLookup op.2 (s.files.roots t) path s.store = some (.ok m, st)
  | _ => False

/-- The calls that cannot fail halfway are ready again in both endings. -/
theorem perform_ends {op : FsOp} (h : At t 0 0 s)
    (hno : ∀ p path flags i s', op = .open p (.ok path) flags →
      fdArrayAlloc t noFd s = some (.ok i, s') → NoExcl io s t path flags) :
    Ends True (perform io t op) s (fun _ s' => Ready s')
      (fun _ s' => Ready s' ∧ (op.isOpen = true → s.files.Same s'.files)) := by
  have weaken : ∀ (x : VfsCall ℕ), op.isOpen = false →
      Ends True x s (fun _ s' => Ready s') (fun _ s' => Ready s') →
      Ends True x s (fun _ s' => Ready s')
        (fun _ s' => Ready s' ∧ (op.isOpen = true → s.files.Same s'.files)) := by
    intro x hop hx
    refine hx.mono (fun _ _ hq => hq) (fun _ _ hr => ⟨hr, ?_⟩)
    rw [hop]
    exact fun hfalse => absurd hfalse Bool.false_ne_true
  have settle : ∀ (x : VfsCall PUnit), Ends True x s (fun _ s' => At t 0 0 s') (fun _ s' => At t 0 0 s') →
      Ends True (zeroOf x) s (fun _ s' => Ready s') (fun _ s' => Ready s') := fun x hx =>
    zeroOf_ends (hx.mono (fun _ _ h' => h'.ready) (fun _ _ h' => h'.ready))
  cases op with
  | «open» p path flags =>
    cases path with
    | error e => exact Ends.fail ⟨h.ready, fun _ => Files.Same.refl _⟩
    | ok path =>
      refine (fileOpen_ends h (fun i s' hx => hno p path flags i s' rfl hx)).mono (fun _ _ hq => hq) ?_
      rintro _ s' ⟨hready, hsame⟩
      exact ⟨hready, fun _ => hsame⟩
  | close p fd => exact weaken _ rfl (fileClose_ends h)
  | dup p fd₁ fd₂ => exact weaken _ rfl (fileDup_ends h)
  | chdir p path =>
    cases path with
    | error e => exact weaken _ rfl (Ends.fail h.ready)
    | ok path => exact weaken _ rfl (settle _ (vfsChdir_ends h))
  | setBootfs p fsname => exact weaken _ rfl (settle _ (vfsSetBootfs_ends h))
  | fork p child cloneFs kmem done =>
    refine weaken _ rfl (Ends.bind (Ends.require (fun _ => ?_) (fun _ => trivial)))
    exact zeroOf_ends (forkFiles_ends h)
  | closeall p => exact weaken _ rfl (settle _ (filesCloseall_ends h))
  | exit p => exact weaken _ rfl (zeroOf_ends (putFiles_ends h))
  | ioStart p fd write => exact weaken _ rfl (zeroOf_ends (ioStart_ends h))
  | ioEnd p copied size dirty =>
    refine weaken _ rfl (Ends.bind (Ends.read ?_))
    cases hio : s.files.ioFile p with
    | none => exact stop_ends
    | some i => exact zeroOf_ends (ioEnd_ends h (h.sane.io p i hio))

/-- Every result of a call that keeps no reference, at its state. -/
theorem exec_ready {op : FsOp × VfsIo} {r : Except VfsError ℕ} {s' : VfsState} (h : Ready s)
    (hno : ¬ ExclFound s op) (hexec : s.exec op = some (r, s')) :
    Ready s' ∧ (op.1.isOpen = true → (∃ e, r = .error e) → s.files.Same s'.files) := by
  unfold VfsState.exec at hexec
  rcases hp : s.files.filesp op.1.caller with _ | t
  · rw [hp] at hexec
    exact absurd hexec (by simp)
  · rw [hp] at hexec
    simp only [Bool.and_eq_true, decide_eq_true_eq] at hexec
    by_cases hmay : mayCall s.files op.1 = true ∧ t ∈ s.files.tables
    · rw [if_pos hmay] at hexec
      have hends := @perform_ends s t op.2 op.1 (h.at hmay.2) ?_
      · unfold Ends at hends
        rw [hexec] at hends
        cases r with
        | error e => exact ⟨hends.1, fun hopen _ => hends.2 hopen⟩
        | ok a =>
          refine ⟨hends, ?_⟩
          rintro - ⟨e, he⟩
          exact absurd he (by simp)
      · rintro p path flags i s₁ hop halloc hflags m st hlook
        rw [Bool.eq_false_iff]
        intro hexcl
        apply hno
        unfold ExclFound
        rw [hop] at hmay hp ⊢
        exact ⟨t, i, s₁, m, st, hp, Option.isNone_iff_eq_none.mp hmay.1, hmay.2, halloc, hflags,
          hexcl, hlook⟩
    · rw [if_neg hmay] at hexec
      exact absurd hexec (by simp)

/-! The statement. -/

theorem Ready.balanced (h : Ready s) : s.Balanced where
  opens n := Int.ofNat.inj (h.counts.opens n)
  refs n := Int.ofNat.inj (h.counts.refs n)

/-- What a call has to leave behind. -/
def Matches (s : VfsState) (op : FsOp × VfsIo) : Prop :=
  ∀ r s', s.exec op = some (r, s') →
    s'.Balanced ∧ (op.1.isOpen = true → (∃ e, r = .error e) → s.Unchanged s')

/-- Equal tables have equal holders. -/
theorem Files.Same.held {fs gs : Files} (h : fs.Same gs) (u j : ℕ) :
    (gs.file u j).held = (fs.file u j).held := by
  by_cases hnone : (fs.file u j).status = .none
  · rw [held_of_status (Or.inr hnone)]
    exact held_of_status (Or.inr ((h.status u j).trans hnone))
  · rw [h.file u j hnone]

theorem unchanged_of_same {s' : VfsState} (h : Ready s) (h' : Ready s')
    (hsame : s.files.Same s'.files) : s.Unchanged s' := by
  have hentry := Files.entryCount_congr hsame.tables hsame.held
  have hpwd := Files.pwdCount_congr hsame.tables hsame.pwd
  have hfs := Files.fsCount_congr hsame.bootfs hsame.vdevList
  refine ⟨fun n => ?_, fun n => ?_, hsame⟩
  · rw [h'.balanced.opens, h.balanced.opens, hentry]
  · rw [h'.balanced.refs, h.balanced.refs]
    unfold Files.refHolders
    rw [hentry, hpwd, hfs]

theorem matches_of_not_excl {op : FsOp × VfsIo} (h : Ready s) (hno : ¬ ExclFound s op) :
    Matches s op := by
  intro r s' hexec
  obtain ⟨hready, hsame⟩ := exec_ready h hno hexec
  exact ⟨hready.balanced, fun hopen herr => unchanged_of_same h hready (hsame hopen herr)⟩

/-- The exit with `-E_EXISTS` keeps the reference that the lookup has taken. -/
theorem fileOpen_leaks {path : List Char} {flags m : ℕ} {s₁ : VfsState} {st : InodeStore}
    (h : At t 0 0 s) (halloc : fdArrayAlloc t noFd s = some (.ok i, s₁))
    (hflags : vfsFlagsOk flags = true)
    (hexcl : (hasFlag flags oExcl && hasFlag flags oCreat) = true)
    (hlook : vfsLookup io (s.files.roots t) path s.store = some (.ok m, st)) :
    Ends False (fileOpen io t path flags) s (fun _ _ => False) (fun _ s' => ¬ s'.Balanced) := by
  obtain ⟨hi, hnone, hcount, h₁, hstore, hf₁⟩ := (fdArrayAlloc_ends h noFd).of_ok halloc
  have hlook₁ : vfsLookup io (s₁.files.roots t) path s₁.store = some (.ok m, st) := by
    rw [hstore, hf₁, setFile_roots]
    exact hlook
  have hat := h₁.ofStore (by
    have hcounts := (vfsLookup_takes s₁.store _ _ h₁.counts).of_ok hlook₁
    rwa [add_assoc] at hcounts)
  have hfile : s₁.files.file t i = { s.files.file t i with status := .init, node := none } := by
    rw [hf₁, Files.setFile_file_self]
  unfold fileOpen getMode
  rcases hmode : accessMode flags with _ | mode
  · unfold vfsFlagsOk at hflags
    rw [hmode] at hflags
    exact absurd hflags Bool.false_ne_true
  · refine Ends.bind (Ends.pure (Ends.bind (Ends.of_eq_ok halloc ?_)))
    refine Ends.bind (Ends.onError ?_)
    unfold vfsOpenAt
    refine Ends.bind (Ends.read (Ends.zoom ?_))
    unfold vfsOpen checkFlags
    rw [if_pos hflags]
    refine Ends.bind (Ends.pure (Ends.bind (Ends.branch (Ends.of_eq_ok hlook₁ ?_))))
    rw [if_pos hexcl]
    refine Ends.fail ?_
    -- the entry is set back to `FD_NONE`
    unfold fdArrayFree
    refine Ends.bind (Ends.read (Ends.bind (Ends.require (fun hc => ?_) (fun hbad => hbad ?_))))
    · have hne : ¬ (s₁.files.file t i).status = .closed := by
        rw [hfile]
        exact FdStatus.noConfusion
      unfold closeNode
      rw [if_neg hne]
      refine Ends.bind (Ends.pure (Ends.modify ?_))
      intro hbal
      have hset := hat.setFile_keep hi { s₁.files.file t i with status := .none } (by
        rw [hfile, held_of_status (Or.inr rfl)]
        exact (held_of_status (Or.inl rfl)).symm)
      have hone : (st.refCount m : ℤ) = (Files.refHolders
        (s₁.files.setFile t i { s₁.files.file t i with status := .none }) m : ℤ) + (0 + one m) m :=
        hset.counts.refs m
      have hrefs : st.refCount m = Files.refHolders
        (s₁.files.setFile t i { s₁.files.file t i with status := .none }) m := hbal.refs m
      rw [hrefs] at hone
      simp only [zero_add, one, Pi.single_eq_same] at hone
      omega
    · rw [hfile]
      exact ⟨Or.inl rfl, hcount⟩

theorem exec_leaks {op : FsOp × VfsIo} (h : Ready s) (hexcl : ExclFound s op) :
    ∃ r s', s.exec op = some (r, s') ∧ ¬ s'.Balanced := by
  obtain ⟨op, io⟩ := op
  cases op with
  | «open» p path flags =>
    cases path with
    | error e => exact hexcl.elim
    | ok path =>
      obtain ⟨t, i, s₁, m, st, hp, hio, ht, halloc, hflags, hboth, hlook⟩ := hexcl
      have hleak := fileOpen_leaks (h.at ht) halloc hflags hboth hlook
      obtain ⟨⟨r, s'⟩, hr⟩ := hleak.exists
      have hexec : s.exec (.open p (.ok path) flags, io) = some (r, s') := by
        have hmay : (mayCall s.files (.open p (.ok path) flags) && decide (t ∈ s.files.tables)) = true := by
          rw [Bool.and_eq_true, decide_eq_true_eq]
          exact ⟨Option.isNone_iff_eq_none.mpr hio, ht⟩
        unfold VfsState.exec
        have hcaller : s.files.filesp (FsOp.caller (.open p (.ok path) flags)) = some t := hp
        simp only [hcaller, hmay, if_true]
        exact hr
      refine ⟨r, s', hexec, ?_⟩
      cases r with
      | ok a => exact (hleak.of_ok hr).elim
      | error e => exact hleak.of_error hr
  | close p fd => exact hexcl.elim
  | dup p fd₁ fd₂ => exact hexcl.elim
  | chdir p path => exact hexcl.elim
  | setBootfs p fsname => exact hexcl.elim
  | fork p child cloneFs kmem done => exact hexcl.elim
  | closeall p => exact hexcl.elim
  | exit p => exact hexcl.elim
  | ioStart p fd write => exact hexcl.elim
  | ioEnd p copied size dirty => exact hexcl.elim

theorem matches_iff {op : FsOp × VfsIo} (h : Ready s) : Matches s op ↔ ¬ ExclFound s op := by
  constructor
  · intro hm hexcl
    obtain ⟨r, s', hexec, hbad⟩ := exec_leaks h hexcl
    exact hbad (hm r s' hexec).1
  · exact matches_of_not_excl h

/-! The start. -/

theorem boot_held (blocks t i : ℕ) : ((VfsState.boot blocks).files.file t i).held = none := rfl

theorem boot_ready (blocks : ℕ) : Ready (VfsState.boot blocks) := by
  have hentry : ∀ n, (VfsState.boot blocks).files.entryCount n = 0 := by
    intro n
    apply Nat.eq_zero_of_not_pos
    intro hpos
    obtain ⟨e, -, he⟩ := holders_pos_iff.mp hpos
    exact absurd ((boot_held blocks e.1 e.2).symm.trans he) (Option.some_ne_none n).symm
  have hpwd : ∀ n, (VfsState.boot blocks).files.pwdCount n = 0 := by
    intro n
    apply Nat.eq_zero_of_not_pos
    intro hpos
    obtain ⟨u, -, hu⟩ := holders_pos_iff.mp hpos
    exact absurd hu (Option.some_ne_none n).symm
  refine ⟨⟨?_, ?_⟩, ⟨?_, ?_, ?_⟩⟩
  · intro t ht
    rw [Finset.mem_singleton.mp ht]
    exact Nat.zero_lt_one
  · intro p i hi
    exact absurd hi (Option.some_ne_none i).symm
  · intro n
    unfold refsOf Files.refHolders
    rw [hentry, hpwd]
    match n with
    | 0 => rfl
    | 1 => rfl
    | 2 => rfl
    | n + 3 =>
      have hdev : (VfsState.boot blocks).files.fsCount (n + 3) = 0 := by
        unfold Files.fsCount
        have hboot : ¬ (VfsState.boot blocks).files.bootfs = some (n + 3) :=
          (Option.some_ne_none (n + 3)).symm
        rw [List.countP_eq_zero.mpr ?_, if_neg hboot]
        simp [VfsState.boot]
      rw [hdev]
      rfl
  · intro n
    unfold opensOf
    rw [hentry]
    match n with
    | 0 => rfl
    | 1 => rfl
    | 2 => rfl
    | n + 3 => rfl
  · intro n hn
    match n, hn with
    | n + 3, _ => rfl

/-- In the runs from the start of the system, every count is that of its holders after every
call and an open that fails changes nothing, exactly if no open that reaches the lookup with
`O_CREAT` and `O_EXCL` finds a node. -/
theorem counts_match_holders (blocks : ℕ) (ops : List (FsOp × VfsIo)) :
    (VfsState.boot blocks).Balanced ∧
      (RunMeets VfsState.step Matches (VfsState.boot blocks) ops ↔
        RunMeets VfsState.step (fun s op => ¬ ExclFound s op) (VfsState.boot blocks) ops) := by
  refine ⟨(boot_ready blocks).balanced, ?_⟩
  refine RunMeets.iff (fun s op hs => @matches_iff s op hs) ?_ (boot_ready blocks)
  intro s op s' hs hm hstep
  unfold VfsState.step at hstep
  rcases hexec : s.exec op with _ | ⟨r, t⟩
  · rw [hexec] at hstep
    exact absurd hstep (by simp)
  · rw [hexec] at hstep
    have heq : t = s' := Option.some.inj hstep
    exact heq ▸ (exec_ready hs ((matches_iff hs).mp hm) hexec).1

/-- A disk with one file in its root directory. -/
def oneFile : VfsIo where
  direntSearch _ _ name := if name = ['f'] then .ok 2 else .error .noEnt
  diskInode _ ino := if ino = Fs.blknRoot then .inode .dir 0 2 else .inode .file 10 1
  fsync _ _ := .ok ()
  truncate _ _ := .ok ()

/-- `init` sets the boot file system, and its child opens the file with `O_CREAT` and `O_EXCL`. -/
def exclRun : List (FsOp × VfsIo) :=
  [(.fork 0 1 false true true, oneFile), (.setBootfs 1 (some "disk0:".toList), oneFile),
    (.fork 1 2 false true true, oneFile), (.open 2 (.ok ['f']) 14, oneFile)]

theorem excl_open_keeps_reference :
    ¬ RunMeets VfsState.step Matches (VfsState.boot 1000) exclRun := by
  intro h
  have hcounts : ((runOps VfsState.step (VfsState.boot 1000) (exclRun.take 3)).bind fun s =>
      (s.exec (.open 2 (.ok ['f']) 14, oneFile)).map fun r =>
        (r.2.store.refCount 4, r.2.files.refHolders 4)) = some (1, 0) := by decide +kernel
  obtain ⟨s, hrun, hexec⟩ := Option.bind_eq_some_iff.mp hcounts
  obtain ⟨⟨r, s'⟩, hr, heq⟩ := Option.map_eq_some_iff.mp hexec
  have hcount : s'.store.refCount 4 = 1 := congrArg Prod.fst heq
  have hholders : s'.files.refHolders 4 = 0 := congrArg Prod.snd heq
  rw [← List.take_append_drop 3 exclRun] at h
  have hopen := (h.of_append hrun).1 r s' hr
  have hrefs := hopen.1.refs 4
  omega

end Ucore.Vfs
