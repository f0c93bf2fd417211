import Ucore.Vfs.RefCounts

/-!
What the calls on open files leave alone: which tables there are, who works on which, how
many users each has, and the entries of the other tables.
-/
namespace Ucore.Vfs

open Library Call

/-- A call on the inodes that returns no error. -/
def Sure {α : Type} (x : StoreCall α) : Prop :=
  ∀ st, Ends True x st (fun _ _ => True) (fun _ _ => False)

/-- Nothing but the working directory of table `t` and those of its entries that `I` allows
has changed. -/
structure Kept (t : ℕ) (I : ℕ → Prop) (s s' : VfsState) : Prop where
  tables : s'.files.tables = s.files.tables
  filesp : s'.files.filesp = s.files.filesp
  nextTable : s'.files.nextTable = s.files.nextTable
  filesCount : ∀ u, (s'.files.table u).filesCount = (s.files.table u).filesCount
  other : ∀ u, u ≠ t → s'.files.table u = s.files.table u
  entry : ∀ i, ¬ I i → s'.files.file t i = s.files.file t i

/-- A call that keeps the rest of the tables. It returns an error only where `F` allows it. -/
def Keeps {α : Type} (F : Prop) (t : ℕ) (I : ℕ → Prop) (x : VfsCall α) : Prop :=
  ∀ s, Ends True x s (fun _ s' => Kept t I s s') (fun _ s' => F ∧ Kept t I s s')

variable {α β : Type} {F : Prop} {t i : ℕ} {I : ℕ → Prop} {s s' : VfsState} {io : VfsIo}

theorem Kept.refl (t : ℕ) (I : ℕ → Prop) (s : VfsState) : Kept t I s s :=
  ⟨rfl, rfl, rfl, fun _ => rfl, fun _ _ => rfl, fun _ _ => rfl⟩

theorem Kept.trans {s'' : VfsState} (h : Kept t I s s') (h' : Kept t I s' s'') :
    Kept t I s s'' where
  tables := h'.tables.trans h.tables
  filesp := h'.filesp.trans h.filesp
  nextTable := h'.nextTable.trans h.nextTable
  filesCount u := (h'.filesCount u).trans (h.filesCount u)
  other u hu := (h'.other u hu).trans (h.other u hu)
  entry i hi := (h'.entry i hi).trans (h.entry i hi)

namespace Keeps

/-- However the call ends. -/
theorem kept {x : VfsCall α} (h : Keeps F t I x) {r : Except VfsError α × VfsState}
    (hx : x s = some r) : Kept t I s r.2 := by
  obtain ⟨e | a, s'⟩ := r
  · exact ((h s).of_error hx).2
  · exact (h s).of_ok hx

theorem mono {G : Prop} {x : VfsCall α} (h : Keeps F t I x) (hFG : F → G) : Keeps G t I x := fun s =>
  (h s).mono (fun _ _ hk => hk) (fun _ _ hk => ⟨hFG hk.1, hk.2⟩)

theorem pure (a : α) : Keeps F t I (pure a : VfsCall α) := fun s => Ends.pure (Kept.refl t I s)

theorem panic : Keeps F t I (panic : VfsCall α) := fun _ => Ends.panic trivial

theorem fail {e : VfsError} (h : F) : Keeps F t I (fail e : VfsCall α) := fun s =>
  Ends.fail ⟨h, Kept.refl t I s⟩

theorem read {f : VfsState → α} : Keeps F t I (read f) := fun s => Ends.read (Kept.refl t I s)

theorem require {c : VfsState → Prop} [DecidablePred c] :
    Keeps F t I (require c : VfsCall PUnit) := fun s =>
  Ends.require (fun _ => Kept.refl t I s) (fun _ => trivial)

theorem bind {x : VfsCall α} {f : α → VfsCall β} (hx : Keeps F t I x) (hf : ∀ a, Keeps F t I (f a)) :
    Keeps F t I (x >>= f) := by
  intro s
  refine Ends.bind ((hx s).mono ?_ (fun _ _ hk => hk))
  intro a s' hk
  refine (hf a s').mono ?_ ?_
  · exact fun _ _ hk' => hk.trans hk'
  · exact fun _ _ hk' => ⟨hk'.1, hk.trans hk'.2⟩

theorem onError {x : VfsCall α} {c : VfsCall PUnit} (hx : Keeps F t I x) (hc : Keeps False t I c) :
    Keeps F t I (onError x c) := by
  intro s
  refine Ends.onError ((hx s).mono (fun _ _ hk => hk) ?_)
  intro e s' hk
  refine (hc s').mono ?_ (fun _ _ hk' => hk'.1)
  exact fun _ _ hk' => ⟨hk.1, hk.2.trans hk'⟩

theorem each {ι : Type} {f : ι → VfsCall PUnit} (hf : ∀ x, Keeps F t I (f x)) (xs : List ι) :
    Keeps F t I (each f xs) := by
  induction xs with
  | nil => exact Keeps.pure _
  | cons x xs ih => exact Keeps.bind (hf x) (fun _ => ih)

theorem ite {c : Prop} [Decidable c] {x y : VfsCall α} (hx : Keeps F t I x) (hy : Keeps F t I y) :
    Keeps F t I (if c then x else y) := by
  split
  · exact hx
  · exact hy

/-- A call on the inodes has nothing to do with the tables. -/
theorem onStore (x : StoreCall α) : Keeps True t I (onStore x) := by
  intro s
  refine onStore_ends ?_
  unfold Ends
  split
  · trivial
  · exact ⟨trivial, rfl, rfl, rfl, fun _ => rfl, fun _ _ => rfl, fun _ _ => rfl⟩
  · exact ⟨rfl, rfl, rfl, fun _ => rfl, fun _ _ => rfl, fun _ _ => rfl⟩

theorem onStore_sure {x : StoreCall α} (hx : Sure x) : Keeps F t I (Vfs.onStore x) := by
  intro s
  refine onStore_ends ((hx s.store).mono ?_ (fun _ _ hno => hno.elim))
  exact fun _ _ _ => ⟨rfl, rfl, rfl, fun _ => rfl, fun _ _ => rfl, fun _ _ => rfl⟩

theorem getFile {u j : ℕ} : Keeps F t I (getFile u j) := read

theorem setFile {file : File} (hi : I i) : Keeps F t I (setFile t i file) := by
  intro s
  refine Ends.modify ⟨rfl, rfl, rfl, Files.setFile_filesCount, ?_, ?_⟩
  · exact fun u hu => Files.setTable_table_of_ne hu _
  · exact fun j hj => Files.setFile_file_of_ne fun heq => hj ((Prod.mk.inj heq).2 ▸ hi)

theorem setPwd {o : Option ℕ} : Keeps F t I (onFiles fun f => f.setPwd t o) := by
  intro s
  refine Ends.modify ⟨rfl, rfl, rfl, ?_, ?_, fun j _ => Files.setPwd_file⟩
  · intro u
    by_cases hu : u = t
    · rw [hu]
      change ((Files.setTable _ t _).table t).filesCount = _
      rw [Files.setTable_table_self]
    · exact congrArg FilesStruct.filesCount (Files.setTable_table_of_ne hu _)
  · exact fun u hu => Files.setTable_table_of_ne hu _

/-- A change of the boot file system or of who is inside a read or a write. -/
theorem onFiles {g : Files → Files} (htables : ∀ f, (g f).tables = f.tables)
    (hfilesp : ∀ f, (g f).filesp = f.filesp) (hnext : ∀ f, (g f).nextTable = f.nextTable)
    (htable : ∀ f, (g f).table = f.table) : Keeps F t I (Vfs.onFiles g) := by
  intro s
  refine Ends.modify ⟨htables _, hfilesp _, hnext _, ?_, ?_, ?_⟩
  · exact fun u => congrArg FilesStruct.filesCount (congrFun (htable _) u)
  · exact fun u _ => congrFun (htable _) u
  · exact fun i _ => congrFun (congrArg FilesStruct.fdArray (congrFun (htable _) t)) i

end Keeps

/-! The inode calls without an error. -/

namespace Sure

theorem bind {x : StoreCall α} {f : α → StoreCall β} (hx : Sure x) (hf : ∀ a, Sure (f a)) :
    Sure (x >>= f) := fun st =>
  Ends.bind ((hx st).mono (fun a st' _ => hf a st') (fun _ _ hno => hno))

theorem pure (a : α) : Sure (pure a : StoreCall α) := fun _ => Ends.pure trivial

theorem require {c : InodeStore → Prop} [DecidablePred c] : Sure (require c : StoreCall PUnit) :=
  fun _ => Ends.require (fun _ => trivial) (fun _ => trivial)

theorem warn (x : StoreCall α) : Sure (warn x) := by
  intro st
  refine Ends.warn ?_
  unfold Ends
  split <;> trivial

theorem getInode (n : ℕ) : Sure (getInode n) := by
  intro st
  unfold Ends Vfs.getInode
  cases st.inode n with
  | none => trivial
  | some i => trivial

theorem setInode (n : ℕ) (i : VfsInode) : Sure (setInode n i) := fun _ => Ends.modify trivial

theorem inodeCheck (n : ℕ) : Sure (inodeCheck n) :=
  bind (getInode n) fun _ => bind require fun _ => pure _

theorem inodeRefInc (n : ℕ) : Sure (inodeRefInc n) :=
  bind (getInode n) fun _ => bind (setInode n _) fun _ => pure _

theorem inodeOpenInc (n : ℕ) : Sure (inodeOpenInc n) := bind (getInode n) fun _ => setInode n _

theorem warnIf {c : Prop} [Decidable c] (x : StoreCall α) :
    Sure (if c then Call.warn x else Pure.pure ⟨⟩) := by
  split
  · exact warn x
  · exact pure _

theorem inodeRefDec (io : VfsIo) (n : ℕ) : Sure (inodeRefDec io n) :=
  bind (getInode n) fun _ => bind require fun _ => bind (setInode n _) fun _ => warnIf _

theorem inodeOpenDec (io : VfsIo) (n : ℕ) : Sure (inodeOpenDec io n) :=
  bind (getInode n) fun _ => bind require fun _ => bind (setInode n _) fun _ => warnIf _

theorem vfsClose (io : VfsIo) (n : ℕ) : Sure (vfsClose io n) :=
  bind (inodeOpenDec io n) fun _ => inodeRefDec io n

end Sure

/-! The calls. -/

namespace Keeps

theorem closeNode (file : File) : Keeps F t I (closeNode io file) := by
  unfold Vfs.closeNode
  refine ite ?_ (pure _)
  cases file.node with
  | none => exact panic
  | some n => exact onStore_sure (Sure.vfsClose io n)

theorem fdArrayFree (hi : I i) : Keeps F t I (fdArrayFree io t i) :=
  bind getFile fun _ => bind require fun _ => bind (closeNode _) fun _ => setFile hi

theorem fdArrayAcquire (hi : I i) : Keeps F t I (fdArrayAcquire t i) :=
  bind getFile fun _ => bind require fun _ => setFile hi

theorem fdArrayRelease (hi : I i) : Keeps F t I (fdArrayRelease io t i) :=
  bind getFile fun _ => bind require fun _ => bind (setFile hi) fun _ =>
    ite (fdArrayFree hi) (pure _)

theorem fdArrayOpen (hi : I i) : Keeps F t I (fdArrayOpen t i) :=
  bind getFile fun _ => bind require fun _ => setFile hi

theorem fdArrayClose (hi : I i) : Keeps F t I (fdArrayClose io t i) :=
  bind getFile fun _ => bind require fun _ => bind (setFile hi) fun _ =>
    ite (fdArrayFree hi) (pure _)

theorem fdArrayDup {u j : ℕ} (hi : I i) : Keeps F t I (fdArrayDup t i u j) := by
  refine bind getFile fun dst => bind getFile fun src => bind require fun _ => ?_
  cases src.node with
  | none => exact panic
  | some n =>
    exact bind (onStore_sure (Sure.inodeRefInc n)) fun _ =>
      bind (onStore_sure (Sure.inodeOpenInc n)) fun _ => bind (setFile hi) fun _ =>
        fdArrayOpen hi

theorem getFdArray {u : ℕ} : Keeps F t I (getFdArray u) := bind require fun _ => read

theorem fdArrayAlloc (fd : ℤ) : Keeps True t (fun _ => True) (fdArrayAlloc t fd) := by
  refine bind getFdArray fun tab => ?_
  cases chooseEntry tab fd with
  | error e => exact fail trivial
  | ok i => exact bind getFile fun _ => bind require fun _ => bind (setFile trivial) fun _ => pure _

theorem fd2file {u : ℕ} (fd : ℤ) : Keeps True t (fun _ => True) (fd2file u fd) :=
  bind getFdArray fun _ => ite (pure _) (fail trivial)

theorem fileClose (fd : ℤ) : Keeps True t (fun _ => True) (fileClose io t fd) :=
  bind (fd2file fd) fun _ => bind (fdArrayClose trivial) fun _ => pure _

theorem fileDup (fd₁ fd₂ : ℤ) : Keeps True t (fun _ => True) (fileDup t fd₁ fd₂) :=
  bind (fd2file fd₁) fun _ => bind (fdArrayAlloc fd₂) fun _ => bind (fdArrayDup trivial) fun _ =>
    bind getFile fun _ => pure _

theorem getMode (flags : ℕ) : Keeps True t (fun _ => True) (getMode flags) := by
  unfold Vfs.getMode
  cases accessMode flags with
  | none => exact fail trivial
  | some mode => exact pure mode

theorem undoOpen (node : ℕ) (hi : I i) : Keeps False t I (undoOpen io t i node) :=
  bind (onStore_sure (Sure.vfsClose io node)) fun _ => fdArrayFree hi

theorem fileOpen (path : List Char) (flags : ℕ) : Keeps True t (fun _ => True) (fileOpen io t path flags) := by
  refine bind (getMode flags) fun _ => bind (fdArrayAlloc noFd) fun _ => ?_
  refine bind (onError (bind read fun _ => onStore _) (fdArrayFree trivial)) fun node => ?_
  refine bind (onError (onStore _) (undoOpen node trivial)) fun _ => ?_
  exact bind getFile fun _ => bind (setFile trivial) fun _ => bind (fdArrayOpen trivial) fun _ => pure _

theorem dropRef (o : Option ℕ) : Keeps F t I (dropRef io o) := by
  cases o with
  | none => exact pure _
  | some n => exact onStore_sure (Sure.inodeRefDec io n)

theorem vfsSetCurdir (dir : ℕ) : Keeps True t (fun _ => True) (vfsSetCurdir io t dir) := by
  refine bind read fun old => ite (pure _) ?_
  refine bind (onStore _) fun isDir => ite ?_ (fail trivial)
  exact bind (onStore _) fun _ => bind setPwd fun _ => dropRef old

theorem vfsChdir (path : List Char) : Keeps True t (fun _ => True) (vfsChdir io t path) := by
  refine bind read fun _ => bind (onStore _) fun node => ?_
  exact bind (onError (vfsSetCurdir node) (onStore_sure (Sure.inodeRefDec io node))) fun _ =>
    onStore _

theorem changeBootfs (node : Option ℕ) : Keeps True t (fun _ => True) (changeBootfs io node) :=
  bind read fun old => bind (onFiles (fun _ => rfl) (fun _ => rfl) (fun _ => rfl) (fun _ => rfl))
    fun _ => dropRef old

theorem vfsSetBootfs (fsname : Option (List Char)) : Keeps True t (fun _ => True) (vfsSetBootfs io t fsname) := by
  cases fsname with
  | none => exact changeBootfs none
  | some fsname =>
    refine ite (fail trivial) (bind (vfsChdir fsname) fun _ => bind read fun _ => ?_)
    exact bind (onStore _) fun node => changeBootfs (some node)

theorem dupEntry {src : ℕ} (hi : I i) : Keeps F t I (dupEntry t src i) :=
  bind getFile fun _ => ite
    (bind getFile fun _ => bind (setFile hi) fun _ => fdArrayDup hi) (pure _)

theorem dupPwd (o : Option ℕ) : Keeps F t I (dupPwd t o) := by
  cases o with
  | none => exact setPwd
  | some n =>
    exact bind setPwd fun _ => bind (onStore_sure (Sure.inodeRefInc n)) fun _ => pure _

theorem dupFiles {src : ℕ} : Keeps F t (fun _ => True) (dupFiles t src) :=
  bind require fun _ => bind read fun _ => bind (dupPwd _) fun _ =>
    each (fun _ => dupEntry trivial) _

theorem closeOpened (hi : I i) : Keeps F t I (closeOpened io t i) :=
  bind getFile fun _ => ite (fdArrayClose hi) (pure _)

theorem closeForGood (hi : I i) : Keeps F t I (closeForGood io t i) :=
  bind (closeOpened hi) fun _ => require

theorem filesCloseall : Keeps F t (fun _ => True) (filesCloseall io t) :=
  bind require fun _ => each (fun _ => closeOpened trivial) _

theorem setIo {p : ℕ} {o : Option ℕ} : Keeps F t I (Vfs.onFiles fun f =>
    { f with ioFile := Function.update f.ioFile p o }) :=
  onFiles (fun _ => rfl) (fun _ => rfl) (fun _ => rfl) (fun _ => rfl)

theorem ioStart (p : ℕ) (fd : ℤ) (write : Bool) : Keeps True t (fun _ => True) (ioStart p t fd write) := by
  refine bind (fd2file fd) fun _ => bind getFile fun file => ite (fail trivial) ?_
  refine bind (fdArrayAcquire trivial) fun _ => ?_
  cases file.node with
  | none => exact panic
  | some n => exact bind (onStore _) fun _ => bind require fun _ => setIo

theorem ioEnd (p copied size : ℕ) (dirty : Bool) : Keeps True t (fun _ => True) (ioEnd io p t i copied size dirty) := by
  refine bind setIo fun _ => bind getFile fun file => bind ?_ fun _ => bind ?_ fun _ =>
    fdArrayRelease trivial
  · cases file.node with
    | none => exact panic
    | some n => exact onStore _
  · exact bind getFile fun _ => ite (setFile trivial) (pure _)

end Keeps
end Ucore.Vfs
