import Ucore.Vfs.OpenSafe
import Ucore.Vfs.RefCounts

/-!
`sysfile_open` returns exactly for the paths and flags that `vfs_open` gets through, and leaves the
tables and the inodes as the next call needs them.
-/
namespace Ucore.Vfs

open Library Call

variable {T : DirTree} {s : VfsState} {f g : ℕ → ℤ} {t i n : ℕ} {io : VfsIo} {path : List Char}
  {flags : ℕ}

/-- What a call finds: the inodes of the tree, roots to start from, and tables in use whose free
entries are idle. -/
structure Serves (T : DirTree) (f g : ℕ → ℤ) (s : VfsState) : Prop where
  good : Good T f g s.store
  base : Base f g s.store
  roots : ∀ t ∈ s.files.tables, RootsOk T (s.files.roots t) f s.store
  counted : ∀ t ∈ s.files.tables, 0 < (s.files.table t).filesCount
  idle : ∀ t ∈ s.files.tables, ∀ i < filesStructNentry, (s.files.file t i).status = .none →
    (s.files.file t i).openCount = 0

/-- More references are held. -/
theorem RootsOk.more {f' : ℕ → ℤ} {r : Roots} {st : InodeStore} (h : RootsOk T r f st)
    (hle : ∀ n, f n ≤ f' n) : RootsOk T r f' st := by
  have hmore : ∀ n, HeldDir T f st n → HeldDir T f' st n :=
    fun n hn => ⟨lt_of_lt_of_le hn.held (hle n), hn.dir⟩
  refine ⟨fun n hn => hmore n (h.pwd n hn), fun n hn => hmore n (h.bootfs n hn), fun v hv => ?_⟩
  have hready := h.vdev v hv
  unfold Vdev.Ready at hready ⊢
  cases hfs : v.fs with
  | some fs =>
    rw [hfs] at hready
    exact hready
  | none =>
    rw [hfs] at hready
    intro hm
    obtain ⟨n, hnode, hpos, hplace⟩ := hready hm
    exact ⟨n, hnode, lt_of_lt_of_le hpos (hle n), hplace⟩

theorem Files.setFile_roots {fs : Files} {file : File} (u : ℕ) :
    (fs.setFile t i file).roots u = fs.roots u := by
  unfold Files.roots
  rw [Files.setFile_pwd]
  rfl

/-- An entry is written that is idle when it is free. -/
theorem Serves.setFile (h : Serves T f g s) {file : File}
    (hfile : file.status = .none → file.openCount = 0) :
    Serves T f g { s with files := s.files.setFile t i file } := by
  refine ⟨h.good, h.base, fun u hu => ?_, fun u hu => ?_, fun u hu j hj => ?_⟩
  · rw [Files.setFile_roots]
    exact h.roots u hu
  · simp only [Files.setFile_filesCount]
    exact h.counted u hu
  · by_cases hentry : (u, j) = (t, i)
    · obtain ⟨hut, hji⟩ := Prod.mk.inj hentry
      rw [hut, hji, Files.setFile_file_self]
      exact hfile
    · rw [Files.setFile_file_of_ne hentry]
      exact h.idle u hu j hj

/-- The inodes change, and what was held is held. -/
theorem Serves.setStore {f' g' : ℕ → ℤ} {st : InodeStore} (h : Serves T f g s)
    (hgood : Good T f' g' st) (hle : ∀ n, f n ≤ f' n) (hopens : ∀ n, g' n ≤ f' n)
    (hholds : Holds f s.store st) : Serves T f' g' { s with store := st } := by
  refine ⟨hgood, ⟨hopens, fun n hn => ?_⟩, fun u hu => ?_, h.counted, h.idle⟩
  · exact lt_of_lt_of_le (h.base.devices n (hholds.devices n hn)) (hle n)
  · exact ((h.roots u hu).holds hholds).more hle

/-- No entry has become one that is closed and still in use. -/
def Unclosed (s s' : VfsState) : Prop :=
  ∀ u j, (s'.files.file u j).status = .closed → (s.files.file u j).status = .closed

theorem Unclosed.refl (s : VfsState) : Unclosed s s := fun _ _ h => h

theorem Unclosed.trans {s' s'' : VfsState} (h : Unclosed s s') (h' : Unclosed s' s'') : Unclosed s s'' :=
  fun u j hclosed => h u j (h' u j hclosed)

theorem Unclosed.setFile {file : File} (hfile : file.status ≠ .closed) :
    Unclosed s { s with files := s.files.setFile t i file } := by
  intro u j hclosed
  by_cases hentry : (u, j) = (t, i)
  · obtain ⟨hut, hji⟩ := Prod.mk.inj hentry
    rw [hut, hji, Files.setFile_file_self] at hclosed
    exact absurd hclosed hfile
  · rwa [Files.setFile_file_of_ne hentry] at hclosed

/-! The parts of `file_open`. -/

theorem onStore_rule {α : Type} {p : Prop} {x : StoreCall α} {Q : α → VfsState → Prop}
    {E : VfsError → VfsState → Prop}
    (h : Ends p x s.store (fun a st => Q a { s with store := st })
      (fun e st => E e { s with store := st })) : Ends p (onStore x) s Q E := Ends.zoom h

theorem require_rule {p c : Prop} [Decidable c] {Q : PUnit → VfsState → Prop}
    {E : VfsError → VfsState → Prop} (hc : c) (h : Q ⟨⟩ s) :
    Ends p (require (fun _ => c) : VfsCall PUnit) s Q E :=
  Ends.require (fun _ => h) (fun hno => absurd hc hno)

theorem freeEntry_spec {tab : FilesStruct} (h : freeEntry tab = some i) :
    i < filesStructNentry ∧ (tab.fdArray i).status = .none := by
  have hmem := List.mem_of_find?_eq_some h
  have hp := List.find?_some h
  exact ⟨List.mem_range.mp hmem, of_decide_eq_true hp⟩

/-- The entry that `fd_array_alloc` leaves. -/
def File.fresh (file : File) : File := { file with status := .init, node := none }

theorem fdArrayAlloc_serves (h : Serves T f g s) (ht : t ∈ s.files.tables) :
    Ends False (fdArrayAlloc t noFd) s
      (fun i s' => freeEntry (s.files.table t) = some i ∧
        s' = { s with files := s.files.setFile t i (s.files.file t i).fresh })
      (fun _ s' => freeEntry (s.files.table t) = none ∧ s' = s) := by
  unfold fdArrayAlloc getFdArray
  refine Ends.bind (Ends.bind (Ends.require (fun _ => ?_) (fun hno => hno (h.counted t ht))))
  refine Ends.read ?_
  unfold chooseEntry
  rw [if_pos rfl]
  cases hfree : freeEntry (s.files.table t) with
  | none => exact Ends.fail ⟨rfl, rfl⟩
  | some i =>
    obtain ⟨hi, hstatus⟩ := freeEntry_spec hfree
    unfold initEntry
    refine Ends.bind (Ends.read ?_)
    refine Ends.bind (require_rule (h.idle t ht i hi hstatus) ?_)
    exact Ends.bind (Ends.modify (Ends.pure ⟨rfl, rfl⟩))

/-- An entry that was not opened is free again. -/
theorem fdArrayFree_serves (h : Serves T f g s) (hstatus : (s.files.file t i).status = .init)
    (hcount : (s.files.file t i).openCount = 0) {E : VfsError → VfsState → Prop} :
    Ends False (fdArrayFree io t i) s (fun _ s' => Serves T f g s' ∧ Unclosed s s') E := by
  unfold fdArrayFree
  refine Ends.bind (Ends.read ?_)
  refine Ends.bind (require_rule ⟨.inl hstatus, hcount⟩ ?_)
  have hnot : (s.files.file t i).status ≠ .closed := by
    rw [hstatus]
    exact FdStatus.noConfusion
  unfold closeNode
  rw [if_neg hnot]
  refine Ends.bind (Ends.pure ?_)
  exact Ends.modify ⟨h.setFile (fun _ => hcount), Unclosed.setFile FdStatus.noConfusion⟩

/-- An entry with a node is opened. -/
theorem fdArrayOpen_serves (h : Serves T f g s) (hstatus : (s.files.file t i).status = .init)
    (hnode : (s.files.file t i).node ≠ none) {E : VfsError → VfsState → Prop} :
    Ends False (fdArrayOpen t i) s (fun _ s' => Serves T f g s' ∧ Unclosed s s') E := by
  unfold fdArrayOpen
  refine Ends.bind (Ends.read ?_)
  refine Ends.bind (require_rule ⟨hstatus, hnode⟩ ?_)
  exact Ends.modify ⟨h.setFile (fun hbad => FdStatus.noConfusion hbad),
    Unclosed.setFile FdStatus.noConfusion⟩

theorem openPos_ends {st : InodeStore} (h : Good T f g st) (hpos : 0 < f n) (hle : g n ≤ f n)
    (hroom : f n < maxInodeCount) {E : VfsError → InodeStore → Prop} :
    Ends False (openPos n flags) st (fun _ st' => st' = st) E := by
  unfold openPos
  by_cases happ : hasFlag flags oAppend = true
  · rw [if_pos happ]
    obtain ⟨i, hi⟩ := h.inode hpos
    obtain ⟨hopens, hrefs⟩ := h.check hi hle hroom
    unfold vopFstat
    refine Ends.bind (inodeCheck_found hi hopens hrefs ?_)
    cases i.info with
    | sfs sin => exact Ends.pure rfl
    | device dev => exact Ends.pure rfl
  · rw [if_neg happ]
    exact Ends.pure rfl

/-! `sysfile_open` -/

/-- The flags are refused, or no entry is free, or `vfs_open` gets through. -/
def SysOpenSafe (T : DirTree) (s : VfsState) (t : ℕ) (path : List Char) (flags : ℕ) : Prop :=
  vfsFlagsOk flags = true → freeEntry (s.files.table t) ≠ none →
    OpenSafe T (s.files.roots t) s.store path flags

theorem fileOpen_serves (h : Serves T f g s) (ht : t ∈ s.files.tables) (hio : Shows io T)
    (hsafe : SysOpenSafe T s t path flags) :
    Ends False (fileOpen io t path flags) s
      (fun _ s' => (∃ f' g', Serves T f' g' s') ∧ Unclosed s s')
      (fun _ s' => (∃ f' g', Serves T f' g' s') ∧ Unclosed s s') := by
  unfold fileOpen getMode
  cases hmode : accessMode flags with
  | none => exact Ends.bind (Ends.fail ⟨⟨f, g, h⟩, Unclosed.refl s⟩)
  | some mode =>
    refine Ends.bind (Ends.pure ?_)
    refine Ends.bind ((fdArrayAlloc_serves h ht).mono ?_ ?_)
    · intro i s₁ h₁
      obtain ⟨hfree, hs₁⟩ := h₁
      obtain ⟨hi, hnone⟩ := freeEntry_spec hfree
      have hidle := h.idle t ht i hi hnone
      have hserves₁ : Serves T f g s₁ := by
        rw [hs₁]
        exact h.setFile (fun hbad => FdStatus.noConfusion hbad)
      have hclosed₁ : Unclosed s s₁ := by
        rw [hs₁]
        exact Unclosed.setFile FdStatus.noConfusion
      have hfile₁ : s₁.files.file t i = (s.files.file t i).fresh := by
        rw [hs₁]
        exact Files.setFile_file_self
      have ht₁ : t ∈ s₁.files.tables := by
        rw [hs₁]
        exact ht
      have hsafe₁ : vfsFlagsOk flags = true → OpenSafe T (s₁.files.roots t) s₁.store path flags := by
        intro hflags
        rw [hs₁, Files.setFile_roots]
        exact hsafe hflags (by rw [hfree]; exact Option.some_ne_none i)
      have hopen := vfsOpen_good hserves₁.good hserves₁.base (hserves₁.roots t ht₁) hio hsafe₁
      unfold vfsOpenAt
      refine Ends.bind (Ends.onError (Ends.bind (Ends.read (onStore_rule (hopen.mono ?_ ?_)))))
      · intro m st₂ h₂
        obtain ⟨hgood₂, hholds₂, hroom⟩ := h₂
        have hnonneg := h.good.nonneg m
        have hopens : ∀ k, (g + one m) k ≤ (f + one m) k := by
          intro k
          have hk := h.base.le k
          simp only [Pi.add_apply]
          omega
        have hmore : ∀ k, f k ≤ (f + one m) k := by
          intro k
          have hk := one_nonneg m k
          rw [Pi.add_apply]
          omega
        have hserves₂ := hserves₁.setStore hgood₂ hmore hopens hholds₂
        have hone : (f + one m) m = f m + 1 := by rw [Pi.add_apply, one_self]
        have hpos : Ends False (openPos m flags) _ (fun _ st' => st' = _) (fun _ _ => False) :=
          openPos_ends hgood₂ (by omega) (hopens m) (by omega)
        refine Ends.bind (Ends.onError (onStore_rule (hpos.mono ?_ (fun _ _ hbad => hbad.elim))))
        intro pos st₃ hst₃
        subst hst₃
        refine Ends.bind (Ends.read (Ends.bind (Ends.modify ?_)))
        have hserves₄ := @Serves.setFile T _ _ _ t i hserves₂
          { s₁.files.file t i with pos := pos, node := some m, readable := mode.1, writable := mode.2 }
          (by rw [hfile₁]; exact fun hbad => FdStatus.noConfusion hbad)
        refine Ends.bind ((fdArrayOpen_serves hserves₄ ?_ ?_).mono ?_ (fun _ _ he => he))
        · rw [Files.setFile_file_self, hfile₁]
          rfl
        · rw [Files.setFile_file_self]
          exact Option.some_ne_none m
        · intro _ s₅ h₅
          refine Ends.pure ⟨⟨_, _, h₅.1⟩, (hclosed₁.trans ?_).trans h₅.2⟩
          refine Unclosed.setFile ?_
          rw [hfile₁]
          exact FdStatus.noConfusion
      · intro e st₂ h₂
        obtain ⟨⟨f', hle, hgood₂⟩, hholds₂⟩ := h₂
        have hserves₂ := hserves₁.setStore hgood₂ hle
          (fun k => (h.base.le k).trans (hle k)) hholds₂
        refine (fdArrayFree_serves hserves₂ ?_ ?_).mono ?_ (fun _ _ he => he)
        · exact congrArg File.status hfile₁
        · exact (congrArg File.openCount hfile₁).trans hidle
        · intro _ s₃ h₃
          exact ⟨⟨f', g, h₃.1⟩, hclosed₁.trans h₃.2⟩
    · intro e s₁ h₁
      rw [h₁.2]
      exact ⟨⟨f, g, h⟩, Unclosed.refl s⟩

/-- An open that is not safe stops in `vfs_open`. -/
theorem fileOpen_stops (h : Serves T f g s) (ht : t ∈ s.files.tables) (hio : Shows io T)
    (hbreaks : ¬ SysOpenSafe T s t path flags) : fileOpen io t path flags s = none := by
  unfold SysOpenSafe at hbreaks
  push Not at hbreaks
  obtain ⟨hflags, hfree, hbreaks⟩ := hbreaks
  have hends : Ends True (fileOpen io t path flags) s (fun _ _ => False) (fun _ _ => False) := by
    unfold fileOpen getMode
    cases hmode : accessMode flags with
    | none =>
      unfold vfsFlagsOk at hflags
      rw [hmode] at hflags
      exact absurd hflags Bool.false_ne_true
    | some mode =>
      refine Ends.bind (Ends.pure ?_)
      refine Ends.bind (((fdArrayAlloc_serves h ht).weaken False.elim).mono ?_ ?_)
      · intro i s₁ h₁
        obtain ⟨-, hs₁⟩ := h₁
        have hstop : vfsOpen io (s.files.roots t) path flags s.store = none :=
          vfsOpen_stops h.good h.base (h.roots t ht) hio hflags hbreaks
        unfold vfsOpenAt
        refine Ends.bind (Ends.onError (Ends.bind (Ends.read (onStore_rule ?_))))
        refine Ends.of_eq_none ?_ trivial
        rw [hs₁, Files.setFile_roots]
        exact hstop
      · intro e s₁ h₁
        exact hfree h₁.1
  exact hends.eq_none

/-- The first process, with the root as its current directory. -/
def homeState : VfsState :=
  ⟨homeStore, { (VfsState.boot 0).files with
    table := fun _ => { emptyTable with filesCount := 1, pwd := some 3 } }⟩

theorem homeState_serves : Serves smallTree homeRefs 0 homeState := by
  refine ⟨homeStore_good, homeStore_base, fun _ _ => ⟨fun n hn => ?_, homeRoots_ok.bootfs,
    homeRoots_ok.vdev⟩, fun _ _ => Int.one_pos, fun _ _ _ _ _ => rfl⟩
  cases hn
  exact homeRoots_ok.pwd 3 rfl

end Ucore.Vfs
