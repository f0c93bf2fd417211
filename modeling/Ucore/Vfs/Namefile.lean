import Mathlib.Data.List.GetD
import Ucore.Vfs.PathLookup

/-!
`sfs_namefile`, which climbs from a directory to the root and writes the names it passes from
the end of the buffer to its front. `SfsDirs` are the directories of one file system with their
slots, `PathTo` is the path that the climb should give.
-/
namespace Ucore.Vfs

open Library Call
open Fs (FileType blknRoot)

/-- The slots of a directory, each with the inode number and the name; 0 is an empty slot. -/
abbrev Slots := List (ℕ × List Char)

/-- The loop of `sfs_dirent_search_nolock`. -/
def direntSearch (name : List Char) : Slots → Option ℕ
  | [] => none
  | (ino, entryName) :: rest =>
    if ino = 0 then direntSearch name rest
    else if name = entryName then some ino
    else direntSearch name rest

/-- The loop of `sfs_dirent_findino_nolock`. -/
def direntFindino (ino : ℕ) : Slots → Option (List Char)
  | [] => none
  | (entryIno, entryName) :: rest =>
    if entryIno = ino then some entryName else direntFindino ino rest

def dotdot : List Char := ['.', '.']

/-- A directory tree on the disk `fs`: every directory but the root has a slot in the one that
its `..` leads to, and the `..` lead to the root. -/
structure SfsDirs (T : DirTree) (fs : ℕ) where
  slots : ℕ → Slots
  parent : ℕ → ℕ
  superBlock : T.type fs 0 = none
  root_dir : T.type fs blknRoot = some .dir
  root_parent : parent blknRoot = blknRoot
  entry : ∀ {dir}, T.type fs dir = some .dir → ∀ name, T.entry fs dir name = direntSearch name (slots dir)
  unique : ∀ {dir}, T.type fs dir = some .dir →
    ((slots dir).filter (fun e => e.1 ≠ 0)).Pairwise (fun e e' => e.2 ≠ e'.2)
  short : ∀ {dir}, T.type fs dir = some .dir → ∀ e ∈ slots dir, e.2.length ≤ maxFnameLen
  dotdot : ∀ {dir}, T.type fs dir = some .dir → T.entry fs dir dotdot = some (parent dir)
  parent_dir : ∀ {dir}, T.type fs dir = some .dir → T.type fs (parent dir) = some .dir
  listed : ∀ {dir}, T.type fs dir = some .dir → dir ≠ blknRoot →
    ∃ name, (dir, name) ∈ slots (parent dir)
  climbs : ∀ {dir}, T.type fs dir = some .dir → ∃ k, parent^[k] dir = blknRoot

/-! The calls. -/

structure Iobuf where
  base : ℕ
  offset : ℕ
  resid : ℕ

/-- The inodes in memory, and the bytes that the buffer is part of. -/
structure NameState where
  store : InodeStore
  mem : ℕ → Char

/-- Why `sfs_namefile` fails. -/
inductive NameError where
  | noRoom
  | kmalloc
  | lookup (e : VfsError)
  | findino (e : VfsError)

/-- The error code that is returned. -/
def NameError.code : NameError → VfsError
  | .noRoom => .noMem
  | .kmalloc => .noMem
  | .lookup e => e
  | .findino e => e

/-- What memory and the disk give to the call. `entry` is its own `kmalloc`, and `lookup k` is
what the lookup `k` levels up meets. -/
structure NameIo where
  entry : Bool
  lookup : ℕ → VfsIo
  direntFindino : ℕ → ℕ → ℕ → Except VfsError (List Char)

abbrev NameCall (α : Type) := Call NameState NameError α

/-- A call on the inodes. -/
def inodeCall {α : Type} (x : StoreCall α) : NameCall α := fun s =>
  (x s.store).map fun r => (r.1.mapError NameError.lookup, { s with store := r.2 })

def sfsInfo (n : ℕ) : NameCall SfsNode := do
  let i ← inodeCall (getInode n)
  match i.info with
  | .sfs sin => pure sin
  | .device _ => Call.panic

/-- `memcpy` of the characters of a list. -/
def copyChars (mem : ℕ → Char) (dst : ℕ) (src : List Char) : ℕ → Char := fun a =>
  if dst ≤ a ∧ a < dst + src.length then src.getD (a - dst) '\x00' else mem a

def writeChars (dst : ℕ) (src : List Char) : NameCall PUnit :=
  Call.modify fun s => { s with mem := copyChars s.mem dst src }

/-- The characters from an address on. -/
def readChars (mem : ℕ → Char) (src len : ℕ) : List Char := (List.range len).map fun i => mem (src + i)

/-- The loop of `sfs_namefile` at the directory `n`, with one reference to it. -/
def nameLoop (io : NameIo) : ℕ → ℕ → ℕ → ℕ → ℕ → NameCall (ℕ × ℕ)
  | 0, _, _, _, _ => Call.panic
  | fuel + 1, k, n, ptr, resid => do
    let sin ← sfsInfo n
    let parent ← Call.onError (inodeCall (sfsLookupOnce (io.lookup k) sin dotdot))
      (inodeCall (inodeRefDec (io.lookup k) n))
    inodeCall (inodeRefDec (io.lookup k) n)
    if n = parent then do
      inodeCall (inodeRefDec (io.lookup k) n)
      pure (ptr, resid)
    else do
      let up ← sfsInfo parent
      Call.require (fun _ => sin.ino ≠ up.ino ∧ up.type = .dir)
      match io.direntFindino up.fs up.ino sin.ino with
      | .error e => do
        inodeCall (inodeRefDec (io.lookup k) parent)
        Call.fail (.findino e)
      | .ok name =>
        if name.length + 1 > resid then do
          inodeCall (inodeRefDec (io.lookup k) parent)
          Call.fail .noRoom
        else do
          writeChars (ptr - (name.length + 1)) name
          writeChars (ptr - (name.length + 1) + name.length) ['/']
          nameLoop io fuel (k + 1) parent (ptr - (name.length + 1)) (resid - (name.length + 1))

/-- The buffer as `iobuf_skip` leaves it is returned. -/
def sfsNamefile (io : NameIo) (fuel n : ℕ) (iob : Iobuf) : NameCall Iobuf :=
  if iob.resid ≤ 2 then Call.fail .noRoom
  else if io.entry = false then Call.fail .kmalloc
  else do
    let _ ← inodeCall (inodeRefInc n)
    let r ← nameLoop io fuel 0 n (iob.base + iob.resid) (iob.resid - 2)
    let alen := iob.resid - r.2 - 2
    let text ← Call.read (fun s => readChars s.mem r.1 alen)
    writeChars (iob.base + 1) text
    writeChars iob.base ['/']
    writeChars (iob.base + 1 + alen) ['\x00']
    Call.require (fun _ => alen ≤ iob.resid)
    pure ⟨iob.base + alen, iob.offset + alen, iob.resid - alen⟩

variable {T : DirTree} {st st' : InodeStore} {f g : ℕ → ℤ} {n : ℕ} {io : VfsIo} {fs dir : ℕ}
  {name : List Char} {names : List (List Char)} {D : SfsDirs T fs}

/-! Slots. -/

theorem direntFindino_mem {slots : Slots} (h : direntFindino dir slots = some name) :
    (dir, name) ∈ slots := by
  induction slots with
  | nil => exact absurd h.symm (Option.some_ne_none name)
  | cons e rest ih =>
    simp only [direntFindino] at h
    split_ifs at h with hino
    · rw [← hino, ← Option.some.inj h]
      exact List.mem_cons_self
    · exact List.mem_cons_of_mem _ (ih h)

theorem direntFindino_of_mem {slots : Slots} (h : (dir, name) ∈ slots) :
    ∃ found, direntFindino dir slots = some found := by
  induction slots with
  | nil => exact absurd h List.not_mem_nil
  | cons e rest ih =>
    simp only [direntFindino]
    split_ifs with hino
    · exact ⟨e.2, rfl⟩
    · rcases List.mem_cons.mp h with heq | hmem
      · exact absurd (congrArg Prod.fst heq.symm) hino
      · exact ih hmem

/-- Where no two slots in use have one name, the search for a name finds its slot. -/
theorem direntSearch_of_mem {slots : Slots} (hdir : dir ≠ 0) (hmem : (dir, name) ∈ slots)
    (hunique : (slots.filter (fun e => e.1 ≠ 0)).Pairwise (fun e e' => e.2 ≠ e'.2)) :
    direntSearch name slots = some dir := by
  induction slots with
  | nil => exact absurd hmem List.not_mem_nil
  | cons e rest ih =>
    obtain ⟨ino, entryName⟩ := e
    simp only [direntSearch]
    by_cases hino : ino = 0
    · rw [if_pos hino]
      rw [List.filter_cons_of_neg (by simp [hino])] at hunique
      rcases List.mem_cons.mp hmem with heq | hrest
      · exact absurd ((congrArg Prod.fst heq).trans hino) hdir
      · exact ih hrest hunique
    · rw [if_neg hino]
      rw [List.filter_cons_of_pos (by simp [hino])] at hunique
      rcases List.mem_cons.mp hmem with heq | hrest
      · obtain ⟨rfl, rfl⟩ := Prod.mk.inj heq
        rw [if_pos rfl]
      · have hrest' : (dir, name) ∈ rest.filter (fun e => e.1 ≠ 0) :=
          List.mem_filter.mpr ⟨hrest, by simp [hdir]⟩
        have hne := (List.pairwise_cons.mp hunique).1 (dir, name) hrest'
        rw [if_neg (fun heq => hne heq.symm)]
        exact ih hrest (List.pairwise_cons.mp hunique).2

namespace SfsDirs

/-- The path from the root, by the names that the climb finds. -/
inductive PathTo (D : SfsDirs T fs) : ℕ → List (List Char) → Prop
  | root : PathTo D blknRoot []
  | child {dir : ℕ} {name : List Char} {names : List (List Char)} (hdir : T.type fs dir = some .dir)
      (hne : dir ≠ blknRoot) (hfind : direntFindino dir (D.slots (D.parent dir)) = some name)
      (hup : PathTo D (D.parent dir) names) : PathTo D dir (names ++ [name])

/-- The names, each with a slash behind it. -/
def slashed (names : List (List Char)) : List Char := names.flatMap (fun name => name ++ ['/'])

def pathText (names : List (List Char)) : List Char := '/' :: slashed names

theorem dir_ne_zero (hdir : T.type fs dir = some .dir) (D : SfsDirs T fs) : dir ≠ 0 := by
  rintro rfl
  rw [D.superBlock] at hdir
  exact Option.some_ne_none _ hdir.symm

theorem find (D : SfsDirs T fs) (hdir : T.type fs dir = some .dir) (hne : dir ≠ blknRoot) :
    ∃ name, direntFindino dir (D.slots (D.parent dir)) = some name := by
  obtain ⟨name, hmem⟩ := D.listed hdir hne
  exact direntFindino_of_mem hmem

/-- The name that is found leads back. -/
theorem entry_find (hdir : T.type fs dir = some .dir)
    (hfind : direntFindino dir (D.slots (D.parent dir)) = some name) :
    T.entry fs (D.parent dir) name = some dir := by
  have hup := D.parent_dir hdir
  rw [D.entry hup]
  exact direntSearch_of_mem (dir_ne_zero hdir D) (direntFindino_mem hfind) (D.unique hup)

/-- A directory that is its own parent is the root. -/
theorem eq_root (D : SfsDirs T fs) (hdir : T.type fs dir = some .dir) (h : D.parent dir = dir) :
    dir = blknRoot := by
  obtain ⟨k, hk⟩ := D.climbs hdir
  rw [← hk]
  exact (Function.iterate_fixed h k).symm

theorem exists_pathTo (D : SfsDirs T fs) (hdir : T.type fs dir = some .dir) :
    ∃ names, PathTo D dir names := by
  obtain ⟨k, hk⟩ := D.climbs hdir
  induction k generalizing dir with
  | zero =>
    rw [Function.iterate_zero_apply] at hk
    exact ⟨[], hk ▸ PathTo.root⟩
  | succ k ih =>
    by_cases hroot : dir = blknRoot
    · exact ⟨[], hroot ▸ PathTo.root⟩
    · obtain ⟨names, hnames⟩ := ih (D.parent_dir hdir) hk
      obtain ⟨name, hfind⟩ := D.find hdir hroot
      exact ⟨names ++ [name], PathTo.child hdir hroot hfind hnames⟩

theorem PathTo.eq_nil (h : PathTo D blknRoot names) : names = [] := by
  cases h with
  | root => rfl
  | child _ hne _ _ => exact absurd rfl hne

theorem PathTo.ne_nil (h : PathTo D dir names) (hne : dir ≠ blknRoot) : names ≠ [] := by
  cases h with
  | root => exact absurd rfl hne
  | child _ _ _ _ => exact List.append_ne_nil_of_right_ne_nil _ (List.cons_ne_nil _ _)

/-- The climb finds one path. -/
theorem PathTo.unique {names' : List (List Char)} (h : PathTo D dir names)
    (h' : PathTo D dir names') : names = names' := by
  induction h generalizing names' with
  | root => exact h'.eq_nil.symm
  | child hdir hne hfind _ ih =>
    cases h' with
    | root => exact absurd rfl hne
    | child _ _ hfind' hup' =>
      rw [ih hup', Option.some.inj (hfind.symm.trans hfind')]

theorem walk_append (names names' : List (List Char)) (p : Place) :
    T.walk (names ++ names') p = (T.walk names p).bind (T.walk names') := by
  induction names generalizing p with
  | nil => rfl
  | cons name names ih =>
    simp only [List.cons_append, DirTree.walk]
    cases T.step name p with
    | none => rfl
    | some q => exact ih q

/-- The path leads from the root to the directory. -/
theorem PathTo.walk (h : PathTo D dir names) :
    T.walk names (.inode fs blknRoot) = some (.inode fs dir) := by
  induction h with
  | root => rfl
  | child hdir _ hfind _ ih =>
    rw [walk_append, ih, Option.bind_some, T.walk_one, DirTree.step, entry_find hdir hfind]
    rfl

theorem PathTo.short (h : PathTo D dir names) : ∀ name ∈ names, name.length ≤ maxFnameLen := by
  induction h with
  | root => exact fun name hname => absurd hname List.not_mem_nil
  | child hdir _ hfind _ ih =>
    intro name hname
    rcases List.mem_append.mp hname with hname | hname
    · exact ih name hname
    · rw [List.mem_singleton.mp hname]
      exact D.short (D.parent_dir hdir) _ (direntFindino_mem hfind)

end SfsDirs

/-! The buffer. -/

section Chars

variable {mem : ℕ → Char} {dst a : ℕ} {src rest : List Char}

theorem copyChars_out (h : a < dst ∨ dst + src.length ≤ a) : copyChars mem dst src a = mem a := by
  rw [copyChars, if_neg]
  omega

theorem copyChars_nil : copyChars mem dst [] = mem := by
  funext a
  apply copyChars_out
  simp only [List.length_nil]
  omega

theorem copyChars_in {i : ℕ} (h : i < src.length) :
    copyChars mem dst src (dst + i) = src.getD i '\x00' := by
  rw [copyChars, if_pos (by omega), Nat.add_sub_cancel_left]

/-- Two copies, the second one behind the first. -/
theorem copyChars_behind : copyChars (copyChars mem dst src) (dst + src.length) rest =
    copyChars mem dst (src ++ rest) := by
  funext a
  simp only [copyChars, List.length_append]
  by_cases hrest : dst + src.length ≤ a ∧ a < dst + src.length + rest.length
  · rw [if_pos hrest, if_pos (by omega), List.getD_append_right _ _ _ _ (by omega)]
    rw [Nat.sub_sub]
  · rw [if_neg hrest]
    by_cases hsrc : dst ≤ a ∧ a < dst + src.length
    · rw [if_pos hsrc, if_pos (by omega), List.getD_append _ _ _ _ (by omega)]
    · rw [if_neg hsrc, if_neg (by omega)]

/-- Two copies, the second one in front of the first. -/
theorem copyChars_before : copyChars (copyChars mem (dst + src.length) rest) dst src =
    copyChars mem dst (src ++ rest) := by
  rw [← copyChars_behind]
  funext a
  simp only [copyChars]
  split_ifs <;> first | rfl | omega

theorem length_readChars (mem : ℕ → Char) (dst len : ℕ) : (readChars mem dst len).length = len := by
  simp [readChars]

/-- The first part of what was copied, read back. -/
theorem readChars_copyChars :
    readChars (copyChars mem dst (src ++ rest)) dst src.length = src := by
  apply List.ext_getElem (length_readChars _ _ _)
  intro i _ hi
  have hi' : i < (src ++ rest).length := by
    rw [List.length_append]
    omega
  simp only [readChars, List.getElem_map, List.getElem_range]
  rw [copyChars_in hi', List.getD_append _ _ _ _ hi, List.getD_eq_getElem _ _ hi]

end Chars

/-! The climb. -/

/-- What the disk and memory answer when `T` is on the disk: a search and a load may fail in a
`kmalloc`. -/
structure VfsIo.Serves (io : VfsIo) (T : DirTree) : Prop where
  search : ∀ {fs ino name}, T.type fs ino = some .dir → name.length ≤ maxFnameLen →
    io.direntSearch fs ino name = .error .noMem ∨
      io.direntSearch fs ino name = (T.entry fs ino name).elim (.error .noEnt) .ok
  load : ∀ {fs ino t}, T.type fs ino = some t → io.diskInode fs ino = .failed .noMem ∨
    ∃ size nlinks, io.diskInode fs ino = .inode t size nlinks ∧ nlinks ≠ 0

structure NameIo.Serves (io : NameIo) (D : SfsDirs T fs) : Prop where
  lookup : ∀ k, (io.lookup k).Serves T
  findino : ∀ {dir}, T.type fs dir = some .dir → ∀ ino,
    io.direntFindino fs dir ino = (Vfs.direntFindino ino (D.slots dir)).elim (.error .noEnt) .ok

theorem Ends.inodeCall {α : Type} {p : Prop} {x : StoreCall α} {s : NameState}
    {Q : α → NameState → Prop} {E : NameError → NameState → Prop}
    (h : Ends p x s.store (fun a t => Q a { s with store := t })
      (fun e t => E (.lookup e) { s with store := t })) : Ends p (inodeCall x) s Q E := by
  unfold Ends Vfs.inodeCall
  unfold Ends at h
  rcases hx : x s.store with _ | ⟨_ | a, t⟩
  · rw [hx] at h
    exact h
  · rw [hx] at h
    exact h
  · rw [hx] at h
    exact h

theorem sfsLookupOnce_serves {sin : SfsNode} {child : ℕ} {t : FileType} (h : Good T f g st)
    (hio : io.Serves T) (hdir : T.type sin.fs sin.ino = some .dir)
    (hlen : name.length ≤ maxFnameLen) (hentry : T.entry sin.fs sin.ino name = some child)
    (htype : T.type sin.fs child = some t) :
    Ends False (sfsLookupOnce io sin name) st
      (fun m st' => Good T (f + one m) g st' ∧ Holds f st st' ∧
        st'.place m = some (.inode sin.fs child))
      (fun e st' => e = .noMem ∧ st' = st) := by
  unfold sfsLookupOnce
  refine Ends.bind (require_holds hlen ?_)
  rcases hio.search hdir hlen with hsearch | hsearch
  · rw [hsearch]
    exact Ends.fail ⟨rfl, rfl⟩
  · rw [hsearch, hentry]
    apply sfsLoadInode_loads h htype
    rcases hio.load htype with hfail | hload
    · left
      exact ⟨.noMem, hfail, rfl, rfl⟩
    · right
      exact hload

/-- The inode of a place of a directory tree, read. -/
theorem sfsInfo_good {s : NameState} {p : Prop} (h : Good T f g s.store)
    (hplace : s.store.place n = some (.inode fs dir)) (htype : T.type fs dir = some .dir)
    {Q : SfsNode → NameState → Prop} {E : NameError → NameState → Prop}
    (hQ : ∀ sin : SfsNode, sin.fs = fs → sin.ino = dir → sin.type = .dir → Q sin s) :
    Ends p (sfsInfo n) s Q E := by
  obtain ⟨i, sin, hi, hinfo, hfs, hino⟩ := sfs_of_place hplace
  have hfits := h.fits n i hi
  unfold VfsInode.Fits at hfits
  rw [hinfo] at hfits
  have hdir : sin.type = .dir := by
    have htype' := hfits.1
    rw [hfs, hino, htype] at htype'
    exact (Option.some.inj htype').symm
  unfold sfsInfo
  refine Ends.bind (Ends.inodeCall (getInode_found hi ?_))
  simp only [hinfo]
  exact Ends.pure (hQ sin hfs hino hdir)

/-- Nothing is written but from `lo` to `hi`. -/
def KeptOutside (lo hi : ℕ) (mem mem' : ℕ → Char) : Prop := ∀ a, a < lo ∨ hi ≤ a → mem' a = mem a

/-- How the loop ends: with the path in front of `ptr`, or with an error and a buffer that is
written to within its bounds. Its reference to the directory is gone. -/
def Climbs (T : DirTree) (f g : ℕ → ℤ) (text : List Char) (ptr resid : ℕ) (s : NameState)
    (x : NameCall (ℕ × ℕ)) : Prop :=
  Ends False x s
    (fun r s' => text.length ≤ resid ∧ r = (ptr - text.length, resid - text.length) ∧
      s'.mem = copyChars s.mem (ptr - text.length) text ∧ Good T f g s'.store ∧
      Holds f s.store s'.store)
    (fun e s' => (e = .noRoom ∧ resid < text.length ∨ e = .lookup .noMem) ∧
      KeptOutside (ptr - resid) ptr s.mem s'.mem ∧ Good T f g s'.store ∧ Holds f s.store s'.store)

theorem length_dotdot_le : dotdot.length ≤ maxFnameLen := by decide

/-- The part of the loop that is the same at every directory: the parent is found, and the
reference to the directory given back. -/
theorem parentStep_good {io : NameIo} {k : ℕ} {s : NameState} {sin : SfsNode} (hio : io.Serves D)
    (h : Good T (f + one n) g s.store) (hb : Base f g s.store) (hdir : T.type fs dir = some .dir)
    (hplace : s.store.place n = some (.inode fs dir)) (hfs : sin.fs = fs) (hino : sin.ino = dir)
    {α : Type} {next : ℕ → NameCall α} {Q : α → NameState → Prop} {E : NameError → NameState → Prop}
    (hnext : ∀ m t, Good T (f + one m) g t → Holds f s.store t →
      t.place m = some (.inode fs (D.parent dir)) → (n = m ↔ dir = blknRoot) →
      Ends False (next m) { s with store := t } Q E)
    (hfail : ∀ t, Good T f g t → Holds f s.store t → E (.lookup .noMem) { s with store := t }) :
    Ends False (do
      let parent ← Call.onError (inodeCall (sfsLookupOnce (io.lookup k) sin dotdot))
        (inodeCall (inodeRefDec (io.lookup k) n))
      inodeCall (inodeRefDec (io.lookup k) n)
      next parent) s Q E := by
  have hdir' : T.type sin.fs sin.ino = some .dir := by rw [hfs, hino, hdir]
  have hentry : T.entry sin.fs sin.ino dotdot = some (D.parent dir) := by
    rw [hfs, hino]
    exact D.dotdot hdir
  have hup : T.type sin.fs (D.parent dir) = some .dir := by
    rw [hfs]
    exact D.parent_dir hdir
  have hlookup := sfsLookupOnce_serves h (hio.lookup k) hdir' length_dotdot_le hentry hup
  refine Ends.bind (Ends.onError (Ends.inodeCall (hlookup.mono ?_ ?_)))
  · intro m s₁ h₁
    obtain ⟨hgood₁, hholds₁, hplace₁⟩ := h₁
    have hheld : Holds f s.store s₁ := hholds₁.of_add
    rw [add_right_comm] at hgood₁
    have hdec : Ends False (inodeRefDec (io.lookup k) n) s₁
        (fun _ t => Good T (f + one m) g t ∧ Holds (f + one m) s₁ t)
        (fun e t => E (.lookup e) { s with store := t }) :=
      inodeRefDec_good hgood₁ ((hb.holds hheld).add m)
    refine Ends.bind (Ends.inodeCall (hdec.mono ?_ (fun _ _ he => he)))
    intro _ s₂ h₂
    obtain ⟨hgood₂, hholds₂⟩ := h₂
    rw [hfs] at hplace₁
    have hfn := h.nonneg n
    have hone : (f + one n) n = f n + 1 := by rw [Pi.add_apply, one_self]
    have hsame : n = m ↔ dir = blknRoot := by
      have hbase : 0 ≤ f n := le_trans (h.opens_nonneg n) (hb.le n)
      have hplace_n : s₁.place n = some (.inode fs dir) := hholds₁.kept n _ (by omega) hplace
      constructor
      · rintro rfl
        rw [hplace_n] at hplace₁
        exact D.eq_root hdir (Place.inode.inj (Option.some.inj hplace₁)).2.symm
      · intro hroot
        apply hgood₁.once n m fs dir hplace_n
        rw [hplace₁, hroot, D.root_parent]
    have hfm : 0 < (f + one m) m := by
      have hbase : 0 ≤ f m := le_trans (h.opens_nonneg m) (hb.le m)
      rw [Pi.add_apply, one_self]
      omega
    exact hnext m s₂ hgood₂ (hheld.trans hholds₂.of_add) (hholds₂.kept m _ hfm hplace₁) hsame
  · intro e s₁ h₁
    obtain ⟨rfl, rfl⟩ := h₁
    refine Ends.inodeCall ((inodeRefDec_good h hb).mono ?_ (fun _ _ he => he))
    intro _ s₂ h₂
    exact hfail s₂ h₂.1 h₂.2

theorem nameLoop_good {io : NameIo} {fuel k ptr resid : ℕ} {s : NameState} (hio : io.Serves D)
    (hpath : D.PathTo dir names) (hdir : T.type fs dir = some .dir)
    (hfuel : names.length < fuel) (hptr : resid ≤ ptr) (h : Good T (f + one n) g s.store)
    (hb : Base f g s.store) (hplace : s.store.place n = some (.inode fs dir)) :
    Climbs T f g (SfsDirs.slashed names) ptr resid s (nameLoop io fuel k n ptr resid) := by
  induction hpath generalizing fuel k n ptr resid s with
  | root =>
    obtain ⟨fuel, rfl⟩ : ∃ m, fuel = m + 1 := ⟨fuel - 1, by omega⟩
    unfold Climbs nameLoop
    refine Ends.bind (sfsInfo_good h hplace hdir ?_)
    intro sin hfs hino _
    apply parentStep_good hio h hb hdir hplace hfs hino
    · intro m t hgood hholds hplace' hsame
      obtain rfl := hsame.mpr rfl
      rw [if_pos rfl]
      refine Ends.bind (Ends.inodeCall ((inodeRefDec_good hgood (hb.holds hholds)).mono ?_
        (fun _ _ he => he)))
      intro _ t' h'
      refine Ends.pure ⟨Nat.zero_le _, rfl, copyChars_nil.symm, h'.1, hholds.trans h'.2⟩
    · intro t hgood hholds
      exact ⟨Or.inr rfl, fun _ _ => rfl, hgood, hholds⟩
  | @child dir name names hdir' hne hfind hup ih =>
    obtain ⟨fuel, rfl⟩ : ∃ m, fuel = m + 1 := ⟨fuel - 1, by omega⟩
    have htext : SfsDirs.slashed (names ++ [name]) = SfsDirs.slashed names ++ (name ++ ['/']) := by
      simp [SfsDirs.slashed]
    have hlen : (SfsDirs.slashed (names ++ [name])).length =
        (SfsDirs.slashed names).length + (name.length + 1) := by
      rw [htext]
      simp
    have hparent := D.parent_dir hdir
    unfold Climbs nameLoop
    refine Ends.bind (sfsInfo_good h hplace hdir ?_)
    intro sin hfs hino _
    apply parentStep_good hio h hb hdir hplace hfs hino
    · intro m t hgood hholds hplace' hsame
      rw [if_neg (fun heq => hne (hsame.mp heq))]
      have hbase := hb.holds hholds
      refine Ends.bind (@sfsInfo_good T (f + one m) g m fs (D.parent dir) { s with store := t } False hgood hplace'
        hparent _ _ ?_)
      intro up hupfs hupino huptype
      have hinos : sin.ino ≠ up.ino := by
        rw [hino, hupino]
        exact fun heq => hne (D.eq_root hdir heq.symm)
      refine Ends.bind (Ends.require (fun _ => ?_) (fun hno => hno ⟨hinos, huptype⟩))
      rw [hupfs, hupino, hino, hio.findino hparent, hfind]
      simp only [Option.elim_some]
      by_cases hroom : name.length + 1 > resid
      · rw [if_pos hroom]
        refine Ends.bind (Ends.inodeCall ((inodeRefDec_good hgood hbase).mono ?_
          (fun _ _ he => he)))
        intro _ t' h'
        refine Ends.fail ⟨Or.inl ⟨rfl, by omega⟩, fun _ _ => rfl, h'.1, hholds.trans h'.2⟩
      · rw [if_neg hroom]
        refine Ends.bind (Ends.modify (Ends.bind (Ends.modify ?_)))
        have hcopy : ptr - (name.length + 1) + name.length + 1 = ptr := by omega
        have hmem : copyChars (copyChars s.mem (ptr - (name.length + 1)) name)
            (ptr - (name.length + 1) + name.length) ['/'] =
            copyChars s.mem (ptr - (name.length + 1)) (name ++ ['/']) := copyChars_behind
        have hrec : Climbs T f g (SfsDirs.slashed names) (ptr - (name.length + 1))
            (resid - (name.length + 1))
            ⟨t, copyChars s.mem (ptr - (name.length + 1)) (name ++ ['/'])⟩
            (nameLoop io fuel (k + 1) m (ptr - (name.length + 1)) (resid - (name.length + 1))) := by
          apply ih hparent _ (by omega) hgood hbase hplace'
          simp only [List.length_append, List.length_singleton] at hfuel
          omega
        simp only [hmem]
        refine hrec.mono ?_ ?_
        · intro r s' h'
          obtain ⟨hfits, hr, hmem', hgood', hholds'⟩ := h'
          have hstart : ptr - (name.length + 1) - (SfsDirs.slashed names).length =
              ptr - (SfsDirs.slashed (names ++ [name])).length := by omega
          refine ⟨by omega, ?_, ?_, hgood', hholds.trans hholds'⟩
          · rw [hr, hstart, hlen]
            congr 1
            omega
          · have hend : ptr - (name.length + 1) = ptr - (SfsDirs.slashed (names ++ [name])).length +
                (SfsDirs.slashed names).length := by omega
            rw [hmem', hstart]
            dsimp only
            rw [hend]
            generalize ptr - (SfsDirs.slashed (names ++ [name])).length = lo
            rw [htext]
            exact copyChars_before
        · intro e s' h'
          obtain ⟨hwhy, hkept, hgood', hholds'⟩ := h'
          refine ⟨?_, ?_, hgood', hholds.trans hholds'⟩
          · rcases hwhy with ⟨he, hlt⟩ | he
            · left
              exact ⟨he, by omega⟩
            · right
              exact he
          · intro a ha
            rw [hkept a (by omega)]
            apply copyChars_out
            simp only [List.length_append, List.length_singleton]
            omega
    · intro t hgood hholds
      exact ⟨Or.inr rfl, fun _ _ => rfl, hgood, hholds⟩

/-! The whole call. -/

/-- The names looked up one after the other, each directory given back for the next one. -/
def lookupNames (io : VfsIo) : List (List Char) → ℕ → StoreCall ℕ
  | [], n => pure n
  | name :: names, n => do
    let i ← getInode n
    match i.info with
    | .device _ => Call.panic
    | .sfs sin => do
      let m ← sfsLookupOnce io sin name
      inodeRefDec io n
      lookupNames io names m

/-- Up to the root and down again by names. -/
def lookupFromRoot (io : VfsIo) (fs : ℕ) (names : List (List Char)) : StoreCall ℕ := do
  let root ← sfsGetRoot io fs
  lookupNames io names root

theorem lookupNames_good {path : List (List Char)} {m target : ℕ} (h : Good T (f + one m) g st)
    (hb : Base f g st) (hio : Shows io T) (hplace : st.place m = some (.inode fs dir))
    (hshort : ∀ name ∈ path, name.length ≤ maxFnameLen)
    (hwalk : T.walk path (.inode fs dir) = some (.inode fs target)) :
    Ends False (lookupNames io path m) st
      (fun n st' => Good T (f + one n) g st' ∧ Holds f st st' ∧
        st'.place n = some (.inode fs target)) (fun _ _ => False) := by
  induction path generalizing m dir st with
  | nil =>
    obtain rfl := (Place.inode.inj (Option.some.inj hwalk)).2
    exact Ends.pure ⟨h, Holds.refl f st, hplace⟩
  | cons name path ih =>
    obtain ⟨q, hq, hrest⟩ := Option.bind_eq_some_iff.mp hwalk
    obtain ⟨child, hentry, rfl⟩ := Option.map_eq_some_iff.mp hq
    obtain ⟨t, htype⟩ := T.child hentry
    obtain ⟨i, sin, hi, hinfo, rfl, rfl⟩ := sfs_of_place hplace
    have hlen := hshort name List.mem_cons_self
    unfold lookupNames
    refine Ends.bind (getInode_found hi ?_)
    simp only [hinfo]
    unfold sfsLookupOnce
    refine Ends.bind (Ends.bind (require_holds hlen ?_))
    rw [hio.search (T.inDir hentry) hlen, hentry]
    refine (sfsLoadInode_good h hio htype).mono ?_ (fun _ _ he => he)
    intro n st₁ h₁
    obtain ⟨hgood₁, hholds₁, hplace₁⟩ := h₁
    have hheld : Holds f st st₁ := hholds₁.of_add
    rw [add_right_comm] at hgood₁
    refine Ends.bind ((inodeRefDec_good hgood₁ ((hb.holds hheld).add n)).mono ?_ (fun _ _ he => he))
    intro _ st₂ h₂
    obtain ⟨hgood₂, hholds₂⟩ := h₂
    have hfn : 0 < (f + one n) n := by
      have hbase : 0 ≤ f n := le_trans (h.opens_nonneg n) (hb.le n)
      rw [Pi.add_apply, one_self]
      omega
    have hheld₂ : Holds f st st₂ := hheld.trans hholds₂.of_add
    refine (ih hgood₂ (hb.holds hheld₂) (hholds₂.kept n _ hfn hplace₁)
      (fun name hname => hshort name (List.mem_cons_of_mem _ hname)) hrest).mono ?_ (fun _ _ he => he)
    intro r st₃ h₃
    exact ⟨h₃.1, hheld₂.trans h₃.2.1, h₃.2.2⟩

/-- The path of a directory leads back to its inode while that one is held. -/
theorem lookupFromRoot_good {m : ℕ} (hpath : D.PathTo dir names) (h : Good T f g st)
    (hb : Base f g st) (hio : Shows io T) (hheld : 0 < f m)
    (hplace : st.place m = some (.inode fs dir)) :
    Ends False (lookupFromRoot io fs names) st (fun n _ => n = m) (fun _ _ => False) := by
  unfold lookupFromRoot sfsGetRoot
  have hload : Ends False (sfsLoadInode io fs blknRoot) st
      (fun n st' => Good T (f + one n) g st' ∧ Holds f st st' ∧
        st'.place n = some (.inode fs blknRoot)) (fun _ _ => False) :=
    sfsLoadInode_good h hio D.root_dir
  refine Ends.bind (Ends.orPanic (hload.mono ?_ (fun _ _ he => he)))
  intro r st₁ h₁
  refine (lookupNames_good h₁.1 (hb.holds h₁.2.1) hio h₁.2.2 hpath.short hpath.walk).mono ?_
    (fun _ _ he => he)
  intro n st₂ h₂
  have hkept := (h₁.2.1.trans h₂.2.1).kept m _ hheld hplace
  exact h₂.1.once n m fs dir h₂.2.2 hkept

/-- The path with the character that ends it has room in the buffer. -/
def SfsDirs.Fits (D : SfsDirs T fs) (dir size : ℕ) : Prop :=
  ∀ names, D.PathTo dir names → (SfsDirs.pathText names).length + 1 ≤ size

/-- What the call has done to the rest of the memory and to the counts. -/
structure NameFrame (iob : Iobuf) (s s' : NameState) : Prop where
  mem : KeptOutside iob.base (iob.base + iob.resid) s.mem s'.mem
  refs : ∀ k, s'.store.refCount k = s.store.refCount k

/-- The call ends as it should: without an error the buffer holds a path whose names lead from the
root back to the inode, and `E_NO_MEM` says that the path does not fit or a `kmalloc` failed. -/
def NamefileRight (D : SfsDirs T fs) (dir n : ℕ) (iob : Iobuf) (s : NameState)
    (x : NameCall Iobuf) : Prop :=
  Ends False x s
    (fun iob' s' => NameFrame iob s s' ∧ D.Fits dir iob.resid ∧ ∃ names : List (List Char),
      (∀ name ∈ names, '/' ∉ name) ∧
      readChars s'.mem iob.base (SfsDirs.pathText names).length = SfsDirs.pathText names ∧
      s'.mem (iob.base + (SfsDirs.pathText names).length) = '\x00' ∧
      iob' = ⟨iob.base + (SfsDirs.slashed names).length, iob.offset + (SfsDirs.slashed names).length,
        iob.resid - (SfsDirs.slashed names).length⟩ ∧
      ∀ io, Shows io T → Ends False (lookupFromRoot io fs names) s'.store (fun m _ => m = n)
        (fun _ _ => False))
    (fun e s' => NameFrame iob s s' ∧
      (e.code = .noMem ↔ ¬ D.Fits dir iob.resid ∨ e = .kmalloc ∨ e = .lookup .noMem))

theorem SfsDirs.PathTo.noSlash (h : D.PathTo dir names) : ∀ name ∈ names, '/' ∉ name := by
  induction h with
  | root => exact fun name hname => absurd hname List.not_mem_nil
  | child hdir _ hfind _ ih =>
    intro name hname
    rcases List.mem_append.mp hname with hname | hname
    · exact ih name hname
    · rw [List.mem_singleton.mp hname]
      exact T.noSlash (SfsDirs.entry_find hdir hfind)

theorem SfsDirs.PathTo.fits_iff {size : ℕ} (h : D.PathTo dir names) :
    D.Fits dir size ↔ (SfsDirs.slashed names).length + 2 ≤ size := by
  have hlen : (SfsDirs.pathText names).length = (SfsDirs.slashed names).length + 1 := rfl
  constructor
  · intro hfits
    have := hfits names h
    omega
  · intro hle names' h'
    rw [← h.unique h']
    omega

theorem SfsDirs.PathTo.length_pos (h : D.PathTo dir names) (hne : dir ≠ blknRoot) :
    0 < (SfsDirs.slashed names).length := by
  have hnames := h.ne_nil hne
  cases names with
  | nil => exact absurd rfl hnames
  | cons name names =>
    simp [SfsDirs.slashed]

/-- Only the root has a path that fits into two bytes. -/
theorem SfsDirs.PathTo.fits_two (h : D.PathTo dir names) {size : ℕ} (hsize : size ≤ 2) :
    D.Fits dir size ↔ dir = blknRoot ∧ size = 2 := by
  rw [h.fits_iff]
  constructor
  · intro hle
    by_cases hroot : dir = blknRoot
    · exact ⟨hroot, by omega⟩
    · have := h.length_pos hroot
      omega
  · rintro ⟨rfl, rfl⟩
    rw [h.eq_nil]
    exact le_refl 2

/-- The end of the call, once the path stands at the end of the buffer. -/
theorem namefileEnd_mem {mem : ℕ → Char} {base : ℕ} {text : List Char} :
    copyChars (copyChars (copyChars mem (base + 1) text) base ['/']) (base + 1 + text.length)
      ['\x00'] = copyChars mem base ('/' :: text ++ ['\x00']) := by
  have hfront : copyChars (copyChars mem (base + 1) text) base ['/'] =
      copyChars mem base ('/' :: text) := copyChars_before
  have hlen : base + 1 + text.length = base + ('/' :: text).length := by
    rw [List.length_cons]
    omega
  rw [hfront, hlen, copyChars_behind]

theorem refCount_eq (h : Good T f g st) (h' : Good T f g st') (k : ℕ) :
    st'.refCount k = st.refCount k := by
  have hrefs := h.counts.refs k
  have hrefs' := h'.counts.refs k
  omega

theorem sfsNamefile_good {io : NameIo} {fuel : ℕ} {iob : Iobuf} {s : NameState}
    (hio : io.Serves D) (hpath : D.PathTo dir names) (hdir : T.type fs dir = some .dir)
    (hfuel : names.length < fuel) (h : Good T f g s.store) (hb : Base f g s.store) (hheld : 0 < f n)
    (hplace : s.store.place n = some (.inode fs dir)) (hsize : 2 < iob.resid) :
    NamefileRight D dir n iob s (sfsNamefile io fuel n iob) := by
  have hfits : D.Fits dir iob.resid ↔ (SfsDirs.slashed names).length + 2 ≤ iob.resid :=
    hpath.fits_iff
  unfold NamefileRight sfsNamefile
  rw [if_neg (Nat.not_le_of_lt hsize)]
  by_cases hentry : io.entry = false
  · rw [if_pos hentry]
    refine Ends.fail ⟨⟨fun _ _ => rfl, fun _ => rfl⟩, ?_⟩
    simp [NameError.code]
  rw [if_neg hentry]
  refine Ends.bind (Ends.inodeCall ((inodeRefInc_good h hheld).mono ?_ (fun _ _ he => he)))
  intro _ st₁ h₁
  obtain ⟨hgood₁, hplace₁⟩ := h₁
  have hloop : Climbs T f g (SfsDirs.slashed names) (iob.base + iob.resid) (iob.resid - 2)
      { s with store := st₁ } (nameLoop io fuel 0 n (iob.base + iob.resid) (iob.resid - 2)) := by
    apply nameLoop_good hio hpath hdir hfuel (by omega) hgood₁ (hb.holds (Holds.of_place hplace₁))
    dsimp only
    rw [hplace₁]
    exact hplace
  refine Ends.bind (hloop.mono ?_ ?_)
  · intro r s₂ h₂
    obtain ⟨hroom, rfl, hmem, hgood, hholds⟩ := h₂
    have halen : iob.resid - (iob.resid - 2 - (SfsDirs.slashed names).length) - 2 =
        (SfsDirs.slashed names).length := by omega
    have htext : readChars s₂.mem (iob.base + iob.resid - (SfsDirs.slashed names).length)
        (SfsDirs.slashed names).length = SfsDirs.slashed names := by
      rw [hmem]
      have hread := @readChars_copyChars s.mem
        (iob.base + iob.resid - (SfsDirs.slashed names).length) (SfsDirs.slashed names) []
      rwa [List.append_nil] at hread
    simp only [halen]
    refine Ends.bind (Ends.read (Ends.bind (Ends.modify (Ends.bind (Ends.modify (Ends.bind
      (Ends.modify (Ends.bind (Ends.require (fun _ => Ends.pure ?_) (fun hno => hno (by omega)))))))))))
    simp only [htext, namefileEnd_mem]
    have hlen : (SfsDirs.pathText names).length = (SfsDirs.slashed names).length + 1 := rfl
    have hlen' : (SfsDirs.pathText names ++ ['\x00']).length =
        (SfsDirs.slashed names).length + 2 := by simp [SfsDirs.pathText]
    have hheld' : Holds f s.store s₂.store := (Holds.of_place hplace₁).trans hholds
    refine ⟨⟨?_, fun k => refCount_eq h hgood k⟩, hfits.mpr (by omega), names, hpath.noSlash,
      readChars_copyChars, ?_, rfl, ?_⟩
    · intro a ha
      have hout : a < iob.base ∨ iob.base + (SfsDirs.pathText names ++ ['\x00']).length ≤ a := by
        omega
      refine (copyChars_out hout).trans ?_
      rw [hmem]
      apply copyChars_out
      omega
    · have hin := @copyChars_in s₂.mem iob.base (SfsDirs.pathText names ++ ['\x00'])
        (SfsDirs.pathText names).length (by omega)
      rw [List.getD_append_right _ _ _ _ (le_refl _), Nat.sub_self] at hin
      exact hin
    · intro io' hio'
      exact lookupFromRoot_good hpath hgood (hb.holds hheld') hio' hheld
        (hheld'.kept n _ hheld hplace)
  · intro e s₂ h₂
    obtain ⟨hwhy, hkept, hgood, -⟩ := h₂
    refine ⟨⟨?_, fun k => refCount_eq h hgood k⟩, ?_⟩
    · intro a ha
      exact hkept a (by omega)
    · rw [hfits]
      rcases hwhy with ⟨rfl, hlt⟩ | rfl
      · simp only [NameError.code, true_iff]
        left
        omega
      · simp [NameError.code]

theorem Shows.serves {io : VfsIo} (h : Shows io T) : io.Serves T :=
  ⟨fun hdir hlen => Or.inr (h.search hdir hlen), fun htype => Or.inr (h.load htype)⟩

def smallSlots : ℕ → Slots
  | 1 => [(1, ['.']), (1, ['.', '.']), (2, ['a']), (3, ['f'])]
  | 2 => [(2, ['.']), (1, ['.', '.']), (3, ['b'])]
  | _ => []

theorem smallTree_dir {dir : ℕ} (h : smallTree.type 0 dir = some .dir) : dir = 1 ∨ dir = 2 := by
  change smallTypes dir = some .dir at h
  unfold smallTypes at h
  split at h
  · exact Or.inl rfl
  · exact Or.inr rfl
  · exact absurd h (by decide)
  · exact absurd h.symm (Option.some_ne_none _)

theorem smallTree_entry (dir : ℕ) (name : List Char) (h : dir = 1 ∨ dir = 2) :
    smallTree.entry 0 dir name = direntSearch name (smallSlots dir) := by
  change smallEntries.lookup (dir, name) = _
  by_cases hknown : name ∈ [['.'], ['.', '.'], ['a'], ['f'], ['b']]
  · have hall : ∀ known ∈ [['.'], ['.', '.'], ['a'], ['f'], ['b']],
        smallEntries.lookup (1, known) = direntSearch known (smallSlots 1) ∧
        smallEntries.lookup (2, known) = direntSearch known (smallSlots 2) := by decide
    rcases h with rfl | rfl
    · exact (hall name hknown).1
    · exact (hall name hknown).2
  · have hnone : smallEntries.lookup (dir, name) = none := by
      have hall : ∀ e ∈ smallEntries, e.1.2 ∈ [['.'], ['.', '.'], ['a'], ['f'], ['b']] := by decide
      rw [List.lookup_eq_none_iff]
      intro e he
      apply bne_iff_ne.mpr
      intro heq
      apply hknown
      have hname : name = e.1.2 := congrArg Prod.snd heq
      rw [hname]
      exact hall e he
    rw [hnone]
    simp only [List.mem_cons, List.not_mem_nil, or_false, not_or] at hknown
    obtain ⟨h1, h2, h3, h4, h5⟩ := hknown
    rcases h with rfl | rfl
    · simp [direntSearch, smallSlots, h1, h2, h3, h4]
    · simp [direntSearch, smallSlots, h1, h2, h5]

def smallDirs : SfsDirs smallTree 0 where
  slots := smallSlots
  parent := fun _ => blknRoot
  superBlock := rfl
  root_dir := rfl
  root_parent := rfl
  entry := fun hdir name => smallTree_entry _ name (smallTree_dir hdir)
  unique := by
    intro dir hdir
    rcases smallTree_dir hdir with rfl | rfl
    · decide
    · decide
  short := by
    intro dir hdir
    rcases smallTree_dir hdir with rfl | rfl
    · decide
    · decide
  dotdot := by
    intro dir hdir
    rcases smallTree_dir hdir with rfl | rfl
    · rfl
    · rfl
  parent_dir := fun _ => rfl
  listed := by
    intro dir hdir hne
    rcases smallTree_dir hdir with rfl | rfl
    · exact absurd rfl hne
    · exact ⟨['a'], by decide⟩
  climbs := fun _ => ⟨1, rfl⟩

/-- Memory and a disk that holds the small file system. -/
def smallNameIo : NameIo where
  entry := true
  lookup _ := smallTree.disk
  direntFindino _ dir ino := (Vfs.direntFindino ino (smallSlots dir)).elim (.error .noEnt) .ok

theorem smallNameIo_serves : smallNameIo.Serves smallDirs :=
  ⟨fun _ => smallTree.shows_disk.serves, fun _ _ => rfl⟩

/-- A buffer of the size at address 0. -/
def emptyBuffer (size : ℕ) : Iobuf := ⟨0, 0, size⟩

def homeNames : NameState := ⟨homeStore, fun _ => '\x00'⟩

end Ucore.Vfs
