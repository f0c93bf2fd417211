import Ucore.Vfs.FileTable
import Ucore.Vfs.InodeCounts

/-!
Every reference to an inode has a holder. `At t f g s` says that the counts of the inodes
are those of the entries, working directories and devices, with `f` references and `g`
opens in the hands of the call that is running on table `t`.
-/
namespace Ucore.Vfs

open Library Call

/-- What a pointer holds. -/
def unit (o : Option ℕ) : ℕ → ℤ := o.elim 0 one

@[simp] theorem unit_none : unit none = 0 := rfl

@[simp] theorem unit_some (n : ℕ) : unit (some n) = one n := rfl

theorem unit_apply (o : Option ℕ) (n : ℕ) : unit o n = if o = some n then 1 else 0 := by
  cases o with
  | none => simp
  | some m =>
    rw [unit_some, one, Pi.single_apply]
    by_cases hmn : n = m
    · rw [if_pos hmn, if_pos (congrArg some hmn.symm)]
    · rw [if_neg hmn, if_neg (fun heq => hmn (Option.some.inj heq).symm)]

/-! The holders after one pointer is changed. -/

namespace Files

variable {f f' : Files} {t i n : ℕ} {file : File} {o : Option ℕ}

@[simp] theorem setTable_table_self (tab : FilesStruct) : (f.setTable t tab).table t = tab :=
  Function.update_self ..

theorem setTable_table_of_ne {u : ℕ} (h : u ≠ t) (tab : FilesStruct) :
    (f.setTable t tab).table u = f.table u := Function.update_of_ne h ..

@[simp] theorem setFile_tables : (f.setFile t i file).tables = f.tables := rfl

theorem setFile_file_self : (f.setFile t i file).file t i = file := by
  unfold Files.file setFile
  rw [setTable_table_self]
  exact Function.update_self ..

theorem setFile_file_of_ne {u j : ℕ} (h : (u, j) ≠ (t, i)) :
    (f.setFile t i file).file u j = f.file u j := by
  unfold Files.file setFile
  by_cases hu : u = t
  · subst hu
    have hj : j ≠ i := by
      intro heq
      exact h (by rw [heq])
    rw [setTable_table_self]
    exact Function.update_of_ne hj ..
  · rw [setTable_table_of_ne hu]

theorem setFile_pwd (u : ℕ) : ((f.setFile t i file).table u).pwd = (f.table u).pwd := by
  unfold setFile
  by_cases hu : u = t
  · rw [hu, setTable_table_self]
  · rw [setTable_table_of_ne hu]

theorem setFile_filesCount (u : ℕ) :
    ((f.setFile t i file).table u).filesCount = (f.table u).filesCount := by
  unfold setFile
  by_cases hu : u = t
  · rw [hu, setTable_table_self]
  · rw [setTable_table_of_ne hu]

theorem setFile_setFile {file' : File} :
    (f.setFile t i file).setFile t i file' = f.setFile t i file' := by
  unfold setFile setTable
  simp only [Function.update_self, Function.update_idem]

theorem setFile_self : f.setFile t i (f.file t i) = f := by
  unfold setFile setTable Files.file
  simp only [Function.update_eq_self]

theorem entryCount_setFile (ht : t ∈ f.tables) (hi : i < filesStructNentry) (n : ℕ) :
    ((f.setFile t i file).entryCount n : ℤ) + unit (f.file t i).held n =
      f.entryCount n + unit file.held n := by
  have hmem : (t, i) ∈ f.entries := Finset.mem_product.mpr ⟨ht, Finset.mem_range.mpr hi⟩
  have hnode : (f.setFile t i file).entryNode = Function.update f.entryNode (t, i) file.held := by
    funext e
    by_cases he : e = (t, i)
    · subst he
      rw [Function.update_self]
      exact congrArg File.held setFile_file_self
    · rw [Function.update_of_ne he]
      exact congrArg File.held (setFile_file_of_ne he)
  have hcount := holders_update hmem f.entryNode file.held n
  rw [← hnode] at hcount
  rw [unit_apply, unit_apply]
  exact_mod_cast hcount

/-- The working directories and devices are those of before, and so are the entries. -/
theorem entryCount_congr (htables : f'.tables = f.tables)
    (hheld : ∀ u j, (f'.file u j).held = (f.file u j).held) (n : ℕ) :
    f'.entryCount n = f.entryCount n := by
  unfold entryCount entries
  rw [htables]
  exact holders_congr (fun e _ => hheld e.1 e.2) n

theorem pwdCount_congr (htables : f'.tables = f.tables)
    (hpwd : ∀ u, (f'.table u).pwd = (f.table u).pwd) (n : ℕ) : f'.pwdCount n = f.pwdCount n := by
  unfold pwdCount
  rw [htables]
  exact holders_congr (fun u _ => hpwd u) n

theorem fsCount_congr (hboot : f'.bootfs = f.bootfs) (hdev : f'.vdevList = f.vdevList) (n : ℕ) :
    f'.fsCount n = f.fsCount n := by
  unfold fsCount
  rw [hboot, hdev]

theorem setPwd_file {u j : ℕ} : (f.setPwd t o).file u j = f.file u j := by
  unfold setPwd Files.file
  by_cases hu : u = t
  · rw [hu, setTable_table_self]
  · rw [setTable_table_of_ne hu]

theorem pwdCount_setPwd (ht : t ∈ f.tables) (n : ℕ) :
    ((f.setPwd t o).pwdCount n : ℤ) + unit (f.table t).pwd n = f.pwdCount n + unit o n := by
  have hpwd : (fun u => ((f.setPwd t o).table u).pwd) =
      Function.update (fun u => (f.table u).pwd) t o := by
    funext u
    by_cases hu : u = t
    · rw [hu, Function.update_self]
      unfold setPwd
      rw [setTable_table_self]
    · rw [Function.update_of_ne hu]
      unfold setPwd
      rw [setTable_table_of_ne hu]
  have hcount := holders_update ht (fun u => (f.table u).pwd) o n
  rw [← hpwd] at hcount
  rw [unit_apply, unit_apply]
  exact_mod_cast hcount

theorem fsCount_bootfs (n : ℕ) :
    (({ f with bootfs := o } : Files).fsCount n : ℤ) + unit f.bootfs n = f.fsCount n + unit o n := by
  unfold fsCount
  rw [unit_apply, unit_apply]
  push_cast
  ring

/-- A table in which nothing is held. -/
theorem entryCount_insert (ht : t ∉ f.tables) (htables : f'.tables = insert t f.tables)
    (hnew : ∀ j, (f'.file t j).held = none) (hold : ∀ u j, u ≠ t → f'.file u j = f.file u j) (n : ℕ) :
    f'.entryCount n = f.entryCount n := by
  unfold entryCount holders entries
  congr 1
  ext ⟨u, j⟩
  simp only [Finset.mem_filter, Finset.mem_product, htables, Finset.mem_insert]
  unfold entryNode
  by_cases hu : u = t
  · subst hu
    simp [hnew, ht]
  · simp only [hu, false_or, hold u j hu]

theorem pwdCount_insert (ht : t ∉ f.tables) (htables : f'.tables = insert t f.tables)
    (hnew : (f'.table t).pwd = none) (hold : ∀ u, u ≠ t → (f'.table u).pwd = (f.table u).pwd) (n : ℕ) :
    f'.pwdCount n = f.pwdCount n := by
  unfold pwdCount holders
  congr 1
  ext u
  simp only [Finset.mem_filter, htables, Finset.mem_insert]
  by_cases hu : u = t
  · subst hu
    simp [hnew, ht]
  · simp only [hu, false_or, hold u hu]

/-- A table without entries in use goes. -/
theorem entryCount_erase (hnone : ∀ j < filesStructNentry, (f.file t j).held = none) (n : ℕ) :
    ({ f with tables := f.tables.erase t } : Files).entryCount n = f.entryCount n := by
  unfold entryCount holders entries
  congr 1
  ext ⟨u, j⟩
  simp only [Finset.mem_filter, Finset.mem_product, Finset.mem_erase, Finset.mem_range]
  constructor
  · rintro ⟨⟨⟨-, hu⟩, hj⟩, hnode⟩
    exact ⟨⟨hu, hj⟩, hnode⟩
  · rintro ⟨⟨hu, hj⟩, hnode⟩
    have hne : u ≠ t := by
      rintro rfl
      have hheld := hnone j hj
      unfold entryNode at hnode
      rw [hheld] at hnode
      exact absurd hnode.symm (Option.some_ne_none n)
    exact ⟨⟨⟨hne, hu⟩, hj⟩, hnode⟩

theorem pwdCount_erase (ht : t ∈ f.tables) (n : ℕ) :
    (({ f with tables := f.tables.erase t } : Files).pwdCount n : ℤ) + unit (f.table t).pwd n =
      f.pwdCount n := by
  rw [unit_apply]
  exact_mod_cast holders_erase ht (fun u => (f.table u).pwd) n

end Files

/-! The assertion about a state. -/

def refsOf (f : Files) : ℕ → ℤ := fun n => f.refHolders n

def opensOf (f : Files) : ℕ → ℤ := fun n => f.entryCount n

/-- Tables have numbers that were given out, and a read or write is on an entry. -/
structure Sane (f : Files) : Prop where
  fresh : ∀ t ∈ f.tables, t < f.nextTable
  io : ∀ p i, f.ioFile p = some i → i < filesStructNentry

structure At (t : ℕ) (f g : ℕ → ℤ) (s : VfsState) : Prop where
  table : t ∈ s.files.tables
  sane : Sane s.files
  counts : Counts s.store (refsOf s.files + f) (opensOf s.files + g)

/-- No call is running. -/
structure Ready (s : VfsState) : Prop where
  sane : Sane s.files
  counts : Counts s.store (refsOf s.files) (opensOf s.files)

variable {s : VfsState} {f f' g g' : ℕ → ℤ} {t i n : ℕ} {α : Type} {io : VfsIo} {o : Option ℕ}

theorem At.ready (h : At t 0 0 s) : Ready s :=
  ⟨h.sane, by simpa only [add_zero] using h.counts⟩

theorem Ready.at (h : Ready s) (ht : t ∈ s.files.tables) : At t 0 0 s :=
  ⟨ht, h.sane, by simpa only [add_zero] using h.counts⟩

/-- The tables change, and what is in hand changes by as much. -/
theorem At.files (h : At t f g s) (fs : Files) (ht : t ∈ fs.tables) (hsane : Sane fs)
    (href : refsOf fs + f' = refsOf s.files + f) (hopen : opensOf fs + g' = opensOf s.files + g) :
    At t f' g' { s with files := fs } :=
  ⟨ht, hsane, by
    have hc := h.counts
    rw [← href, ← hopen] at hc
    exact hc⟩

theorem Sane.setFile {fs : Files} (h : Sane fs) {file : File} : Sane (fs.setFile t i file) :=
  ⟨h.fresh, h.io⟩

/-- One entry changes. -/
theorem At.setFile (h : At t f g s) (hi : i < filesStructNentry) {file : File}
    (hf : f' + unit file.held = f + unit (s.files.file t i).held)
    (hg : g' + unit file.held = g + unit (s.files.file t i).held) :
    At t f' g' { s with files := s.files.setFile t i file } := by
  have hentry : ∀ m, ((s.files.setFile t i file).entryCount m : ℤ) + unit (s.files.file t i).held m =
      s.files.entryCount m + unit file.held m := Files.entryCount_setFile h.table hi
  have hpwd := @Files.pwdCount_congr s.files (s.files.setFile t i file) rfl Files.setFile_pwd
  have hfs := @Files.fsCount_congr s.files (s.files.setFile t i file) rfl rfl
  refine h.files (s.files.setFile t i file) h.table h.sane.setFile ?_ ?_
  · funext m
    have hm := congrFun hf m
    have he := hentry m
    simp only [Pi.add_apply] at hm ⊢
    unfold refsOf Files.refHolders
    rw [hpwd, hfs]
    push_cast
    omega
  · funext m
    have hm := congrFun hg m
    have he := hentry m
    simp only [Pi.add_apply] at hm ⊢
    unfold opensOf
    omega

/-- An entry changes that holds the same. -/
theorem At.setFile_keep (h : At t f g s) (hi : i < filesStructNentry) (file : File)
    (hheld : file.held = (s.files.file t i).held) :
    At t f g { s with files := s.files.setFile t i file } :=
  h.setFile hi (by rw [hheld]) (by rw [hheld])

theorem At.setPwd (h : At t f g s) (hf : f' + unit o = f + unit (s.files.table t).pwd) :
    At t f' g { s with files := s.files.setPwd t o } := by
  have hentry := @Files.entryCount_congr s.files (s.files.setPwd t o) rfl
    (fun u j => congrArg File.held Files.setPwd_file)
  have hpwd := @Files.pwdCount_setPwd s.files t o h.table
  have hfs := @Files.fsCount_congr s.files (s.files.setPwd t o) rfl rfl
  refine h.files (s.files.setPwd t o) h.table ⟨h.sane.fresh, h.sane.io⟩ ?_ ?_
  · funext m
    have hm := congrFun hf m
    have hp := hpwd m
    simp only [Pi.add_apply] at hm ⊢
    unfold refsOf Files.refHolders
    rw [hentry, hfs]
    push_cast
    omega
  · funext m
    simp only [Pi.add_apply, opensOf, hentry]

theorem At.setBootfs (h : At t f g s) (hf : f' + unit o = f + unit s.files.bootfs) :
    At t f' g { s with files := { s.files with bootfs := o } } := by
  have hfs := @Files.fsCount_bootfs s.files o
  refine h.files { s.files with bootfs := o } h.table ⟨h.sane.fresh, h.sane.io⟩ ?_ rfl
  funext m
  have hm := congrFun hf m
  have hb := hfs m
  have hentry : ({ s.files with bootfs := o } : Files).entryCount m = s.files.entryCount m := rfl
  have hpwd : ({ s.files with bootfs := o } : Files).pwdCount m = s.files.pwdCount m := rfl
  simp only [Pi.add_apply] at hm ⊢
  unfold refsOf Files.refHolders
  rw [hentry, hpwd]
  push_cast
  omega

/-- Nothing that counts changes. -/
theorem At.congr (h : At t f g s) {fs : Files} (hsane : Sane fs) (htables : fs.tables = s.files.tables)
    (hpwd : ∀ u, (fs.table u).pwd = (s.files.table u).pwd)
    (hheld : ∀ u j, (fs.file u j).held = (s.files.file u j).held) (hboot : fs.bootfs = s.files.bootfs)
    (hdev : fs.vdevList = s.files.vdevList) : At t f g { s with files := fs } := by
  have hentry := Files.entryCount_congr htables hheld
  refine h.files fs (htables ▸ h.table) hsane ?_ ?_
  · funext m
    simp only [Pi.add_apply, refsOf, Files.refHolders, hentry, Files.pwdCount_congr htables hpwd,
      Files.fsCount_congr hboot hdev]
  · funext m
    simp only [Pi.add_apply, opensOf, hentry]

/-! Rules. -/

theorem onStore_ends {x : StoreCall α} {Q : α → VfsState → Prop} {E : VfsError → VfsState → Prop}
    (h : Ends True x s.store (fun a st => Q a { s with store := st })
      (fun e st => E e { s with store := st })) : Ends True (onStore x) s Q E := Ends.zoom h

theorem At.ofStore (h : At t f g s) {st : InodeStore}
    (hc : Counts st (refsOf s.files + f') (opensOf s.files + g')) : At t f' g' { s with store := st } :=
  ⟨h.table, h.sane, hc⟩

theorem getFile_ends {Q : File → VfsState → Prop} {E : VfsError → VfsState → Prop}
    (h : Q (s.files.file t i) s) : Ends True (getFile t i) s Q E := Ends.read h

theorem setFile_ends {Q : PUnit → VfsState → Prop} {E : VfsError → VfsState → Prop} {file : File}
    (h : Q ⟨⟩ { s with files := s.files.setFile t i file }) : Ends True (setFile t i file) s Q E :=
  Ends.modify h

theorem check_ends {c : Prop} [Decidable c] {Q : PUnit → VfsState → Prop}
    {E : VfsError → VfsState → Prop} (h : c → Q ⟨⟩ s) :
    Ends True (require (fun _ => c) : VfsCall PUnit) s Q E := Ends.require h (fun _ => trivial)

theorem stop_ends {Q : α → VfsState → Prop} {E : VfsError → VfsState → Prop} :
    Ends True (panic : VfsCall α) s Q E := Ends.panic trivial

theorem refInc_ends (h : At t f g s) {E : VfsError → VfsState → Prop} :
    Ends True (onStore (inodeRefInc n)) s
      (fun _ s' => s'.files = s.files ∧ At t (f + one n) g s') E := by
  refine onStore_ends ((inodeRefInc_ends h.counts).mono ?_ (fun _ _ he => he))
  intro _ st hc
  rw [add_assoc] at hc
  exact ⟨rfl, h.ofStore hc⟩

theorem openInc_ends (h : At t f g s) {E : VfsError → VfsState → Prop} :
    Ends True (onStore (inodeOpenInc n)) s
      (fun _ s' => s'.files = s.files ∧ At t f (g + one n) s') E := by
  refine onStore_ends ((inodeOpenInc_ends h.counts).mono ?_ (fun _ _ he => he))
  intro _ st hc
  rw [add_assoc] at hc
  exact ⟨rfl, h.ofStore hc⟩

theorem refDec_ends (h : At t f g s) {E : VfsError → VfsState → Prop} :
    Ends True (onStore (inodeRefDec io n)) s
      (fun _ s' => s'.files = s.files ∧ At t (f - one n) g s') E := by
  refine onStore_ends ((inodeRefDec_ends h.counts).mono ?_ (fun _ _ he => he))
  intro _ st hc
  rw [add_sub_assoc] at hc
  exact ⟨rfl, h.ofStore hc⟩

theorem close_ends (h : At t f g s) {E : VfsError → VfsState → Prop} :
    Ends True (onStore (vfsClose io n)) s
      (fun _ s' => s'.files = s.files ∧ At t (f - one n) (g - one n) s') E := by
  refine onStore_ends ((vfsClose_ends h.counts).mono ?_ (fun _ _ he => he))
  intro _ st hc
  rw [add_sub_assoc, add_sub_assoc] at hc
  exact ⟨rfl, h.ofStore hc⟩

theorem steady_ends {x : StoreCall α} (hx : Steady x) (h : At t f g s) :
    Ends True (onStore x) s (fun _ s' => s'.files = s.files ∧ At t f g s')
      (fun _ s' => s'.files = s.files ∧ At t f g s') := by
  refine onStore_ends ((hx _ _ _ h.counts).mono ?_ ?_)
  · intro _ st hc
    exact ⟨rfl, h.ofStore hc⟩
  · intro _ st hc
    exact ⟨rfl, h.ofStore hc⟩

theorem takes_ends {x : StoreCall ℕ} (hx : Takes x) (h : At t f g s) :
    Ends True (onStore x) s (fun m s' => s'.files = s.files ∧ At t (f + one m) g s')
      (fun _ s' => s'.files = s.files ∧ At t f g s') := by
  refine onStore_ends ((hx _ _ _ h.counts).mono ?_ ?_)
  · intro m st hc
    rw [add_assoc] at hc
    exact ⟨rfl, h.ofStore hc⟩
  · intro _ st hc
    exact ⟨rfl, h.ofStore hc⟩

theorem dropRef_ends (h : At t (f + unit o) g s) {E : VfsError → VfsState → Prop} :
    Ends True (dropRef io o) s (fun _ s' => s'.files = s.files ∧ At t f g s') E := by
  cases o with
  | none =>
    rw [unit_none, add_zero] at h
    exact Ends.pure ⟨rfl, h⟩
  | some n =>
    refine (refDec_ends h).mono ?_ (fun _ _ he => he)
    intro _ s' hs'
    rw [unit_some, add_sub_cancel_right] at hs'
    exact hs'

end Ucore.Vfs
