import Ucore.Process.FilesLife
import Ucore.Vfs.TableFrame
import Ucore.Vfs.RefCountRuns

/-!
The count of a table is the number of processes that point to it, dead or alive. So the
tables are gone with their last process as long as none exits without putting its table,
and it puts it only if it has an `mm`.
-/
namespace Ucore.Process.FilesLife

open Library Vfs Call

/-- The count of every table in memory is the number of its processes, and the entries of
the tables that are gone are closed. -/
structure Sharing (v : VfsState) : Prop where
  count : ∀ t ∈ v.files.tables,
    Headcount (fun p => v.files.filesp p = some t) (v.files.table t).filesCount
  owned : ∀ p t, v.files.filesp p = some t → t ∈ v.files.tables
  fresh : ∀ t ∈ v.files.tables, t < v.files.nextTable
  closed : ∀ t < v.files.nextTable, t ∉ v.files.tables →
    ∀ i < filesStructNentry, (v.files.file t i).status = .none

/-- Table `t` may be the only one without a process. -/
def UsedBut (t : Option ℕ) (v : VfsState) : Prop :=
  ∀ u ∈ v.files.tables, some u ≠ t → ∃ p, v.files.filesp p = some u

variable {v v' : VfsState} {t p i : ℕ} {I : ℕ → Prop} {io : VfsIo} {o : Option ℕ}

theorem Sharing.kept (h : Sharing v) (ht : t ∈ v.files.tables) (hk : Kept t I v v') : Sharing v' where
  count u hu := by
    rw [hk.tables] at hu
    rw [hk.filesp, hk.filesCount]
    exact h.count u hu
  owned q u hq := by
    rw [hk.filesp] at hq
    rw [hk.tables]
    exact h.owned q u hq
  fresh u hu := by
    rw [hk.tables] at hu
    rw [hk.nextTable]
    exact h.fresh u hu
  closed u hu hgone i hi := by
    rw [hk.nextTable] at hu
    rw [hk.tables] at hgone
    have hne : u ≠ t := fun heq => hgone (heq ▸ ht)
    unfold Files.file
    rw [hk.other u hne]
    exact h.closed u hu hgone i hi

theorem UsedBut.kept (h : UsedBut o v) (hk : Kept t I v v') : UsedBut o v' := by
  intro u hu hne
  rw [hk.tables] at hu
  rw [hk.filesp]
  exact h u hu hne

theorem UsedBut.weaken (h : UsedBut none v) : UsedBut o v :=
  fun u hu _ => h u hu (Option.some_ne_none u)

/-! Creating a table and pointing to it. -/

theorem filesCreate_shares (h : Sharing v) (hused : UsedBut none v) {kmem : Bool} :
    Ends True (filesCreate kmem) v
      (fun t v' => Sharing v' ∧ UsedBut (some t) v' ∧ t ∈ v'.files.tables ∧
        v'.files.filesp = v.files.filesp)
      (fun _ v' => v' = v) := by
  cases kmem with
  | false => exact Ends.fail rfl
  | true =>
    have hnew : v.files.nextTable ∉ v.files.tables := fun hin => Nat.lt_irrefl _ (h.fresh _ hin)
    refine Ends.bind (Ends.read (Ends.bind (Ends.modify (Ends.pure ?_))))
    refine ⟨⟨?_, ?_, ?_, ?_⟩, ?_, Finset.mem_insert_self _ _, rfl⟩
    · intro u hu
      rcases Finset.mem_insert.mp hu with heq | hold
      · subst heq
        change Headcount _ ((v.files.setTable _ emptyTable).table _).filesCount
        rw [Files.setTable_table_self]
        exact Headcount.zero fun q hq => hnew (h.owned q _ hq)
      · have hne : u ≠ v.files.nextTable := fun heq => hnew (heq ▸ hold)
        change Headcount _ ((v.files.setTable _ emptyTable).table u).filesCount
        rw [Files.setTable_table_of_ne hne]
        exact h.count u hold
    · intro q u hq
      exact Finset.mem_insert_of_mem (h.owned q u hq)
    · intro u hu
      change u < v.files.nextTable + 1
      rcases Finset.mem_insert.mp hu with heq | hold
      · omega
      · exact Nat.lt_succ_of_lt (h.fresh u hold)
    · intro u hu hgone i hi
      have hne : u ≠ v.files.nextTable := fun heq => hgone (heq ▸ Finset.mem_insert_self _ _)
      have hold : u ∉ v.files.tables := fun hin => hgone (Finset.mem_insert_of_mem hin)
      change (((v.files.setTable _ emptyTable).table u).fdArray i).status = _
      rw [Files.setTable_table_of_ne hne]
      have hlt : u < v.files.nextTable + 1 := hu
      exact h.closed u (by omega) hold i hi
    · intro u hu hne
      rcases Finset.mem_insert.mp hu with heq | hold
      · exact absurd (congrArg some heq) hne
      · exact hused u hold (Option.some_ne_none u)

theorem goodFilesStruct_shares (h : Sharing v) (hused : UsedBut (some t) v) (ht : t ∈ v.files.tables)
    (hp : v.files.filesp p = none) {E : VfsError → VfsState → Prop} :
    Ends True (goodFilesStruct p t) v
      (fun _ v' => Sharing v' ∧ UsedBut none v' ∧
        v'.files.filesp = Function.update v.files.filesp p (some t)) E := by
  refine Ends.modify ⟨⟨?_, ?_, h.fresh, ?_⟩, ?_, rfl⟩
  · intro u hu
    have hno : ¬ v.files.filesp p = some u := by
      rw [hp]
      exact (Option.some_ne_none u).symm
    by_cases heq : u = t
    · subst heq
      change Headcount _ ((Files.setTable _ u _).table u).filesCount
      rw [Files.setTable_table_self]
      exact Headcount.update_add (R := (· = some u)) (h.count u hu) hno rfl
    · change Headcount _ ((Files.setTable _ t _).table u).filesCount
      rw [Files.setTable_table_of_ne heq]
      refine Headcount.update_same (R := (· = some u)) (h.count u hu) ?_
      simp only [hno, Option.some.injEq, Ne.symm heq]
  · intro q u hq
    change Function.update v.files.filesp p (some t) q = some u at hq
    by_cases heq : q = p
    · rw [heq, Function.update_self] at hq
      exact Option.some.inj hq ▸ ht
    · rw [Function.update_of_ne heq] at hq
      exact h.owned q u hq
  · intro u hu hgone i hi
    have hne : u ≠ t := fun heq => hgone (heq ▸ ht)
    change (((Files.setTable _ t _).table u).fdArray i).status = _
    rw [Files.setTable_table_of_ne hne]
    exact h.closed u hu hgone i hi
  · intro u hu _
    change ∃ q, Function.update v.files.filesp p (some t) q = some u
    by_cases heq : u = t
    · exact ⟨p, by rw [Function.update_self, heq]⟩
    · obtain ⟨q, hq⟩ := hused u hu fun hsome => heq (Option.some.inj hsome)
      have hne : q ≠ p := by
        intro hqp
        rw [hqp, hp] at hq
        exact absurd hq.symm (Option.some_ne_none u)
      exact ⟨q, by rw [Function.update_of_ne hne]; exact hq⟩

theorem copyFiles_shares (h : Sharing v) (hused : UsedBut none v) (ht : t ∈ v.files.tables)
    (hp : v.files.filesp p = none) {share kmem : Bool} :
    Ends True (copyFiles t p share kmem) v
      (fun _ v' => Sharing v' ∧ UsedBut none v' ∧
        ∃ u, v'.files.filesp = Function.update v.files.filesp p (some u))
      (fun _ v' => v' = v) := by
  unfold copyFiles
  cases share with
  | true =>
    refine (goodFilesStruct_shares h hused.weaken ht hp).mono ?_ (fun _ _ he => he)
    exact fun _ _ hk => ⟨hk.1, hk.2.1, t, hk.2.2⟩
  | false =>
    refine Ends.bind ((filesCreate_shares h hused).mono ?_ (fun _ _ he => he))
    intro u v₁ hnew
    obtain ⟨h₁, hused₁, hin₁, hsame₁⟩ := hnew
    refine Ends.bind ((Keeps.dupFiles (F := False) v₁).mono ?_ (fun _ _ he => he.1.elim))
    intro _ v₂ hk
    have hp₂ : v₂.files.filesp p = none := by
      rw [hk.filesp, hsame₁]
      exact hp
    have hin₂ : u ∈ v₂.files.tables := by
      rw [hk.tables]
      exact hin₁
    refine (goodFilesStruct_shares (h₁.kept hin₁ hk) (hused₁.kept hk) hin₂ hp₂).mono ?_
      (fun _ _ he => he)
    intro _ v₃ hgood
    refine ⟨hgood.1, hgood.2.1, u, ?_⟩
    rw [hgood.2.2, hk.filesp, hsame₁]

/-! Destroying a table. -/

theorem closeForGood_closes :
    Ends True (closeForGood io t i) v
      (fun _ v' => Kept t (· = i) v v' ∧ (v'.files.file t i).status = .none) (fun _ _ => False) := by
  unfold closeForGood
  refine Ends.bind ((Keeps.closeOpened (F := False) (I := (· = i)) rfl v).mono ?_
    (fun _ _ he => he.1))
  intro _ v₁ hk
  exact Ends.require (fun hnone => ⟨hk, hnone⟩) (fun _ => trivial)

/-- The entries of a destroyed table are closed. -/
structure Closed (t : ℕ) (done : List ℕ) (v v' : VfsState) : Prop where
  kept : Kept t (fun _ => True) v v'
  closed : ∀ i ∈ done, (v'.files.file t i).status = .none

theorem closeForGood_step {done : List ℕ} (h : Closed t done v v') :
    Ends True (closeForGood io t i) v' (fun _ v'' => Closed t (done ++ [i]) v v'')
      (fun _ _ => False) := by
  refine closeForGood_closes.mono ?_ (fun _ _ he => he)
  intro _ v'' hk
  obtain ⟨hkept, hnone⟩ := hk
  refine ⟨h.kept.trans ⟨hkept.tables, hkept.filesp, hkept.nextTable, hkept.filesCount, hkept.other,
    fun j hj => absurd trivial hj⟩, ?_⟩
  intro j hj
  by_cases heq : j = i
  · rw [heq]
    exact hnone
  · rcases List.mem_append.mp hj with hold | hnew
    · rw [hkept.entry j heq]
      exact h.closed j hold
    · exact absurd (List.mem_singleton.mp hnew) heq

/-- A table without processes is taken out of memory. -/
theorem Sharing.erase (h : Sharing v) (hused : UsedBut (some t) v)
    (hno : ∀ p, v.files.filesp p ≠ some t)
    (hclosed : ∀ i < filesStructNentry, (v.files.file t i).status = .none) {files : Files}
    (hfiles : files = { v.files with tables := v.files.tables.erase t }) :
    Sharing { v with files := files } ∧ UsedBut none { v with files := files } := by
  subst hfiles
  refine ⟨⟨?_, ?_, ?_, ?_⟩, ?_⟩
  · exact fun u hu => h.count u (Finset.mem_of_mem_erase hu)
  · intro q u hq
    refine Finset.mem_erase.mpr ⟨?_, h.owned q u hq⟩
    intro heq
    exact hno q (heq ▸ hq)
  · exact fun u hu => h.fresh u (Finset.mem_of_mem_erase hu)
  · intro u hu hgone i hi
    by_cases heq : u = t
    · rw [heq]
      exact hclosed i hi
    · exact h.closed u hu (fun hin => hgone (Finset.mem_erase.mpr ⟨heq, hin⟩)) i hi
  · intro u hu _
    obtain ⟨hne, hin⟩ := Finset.mem_erase.mp hu
    exact hused u hin fun hsome => hne (Option.some.inj hsome)

theorem filesDestroy_shares (h : Sharing v) (hused : UsedBut (some t) v) (ht : t ∈ v.files.tables)
    (hno : ∀ p, v.files.filesp p ≠ some t) :
    Ends True (filesDestroy io t) v
      (fun _ v' => Sharing v' ∧ UsedBut none v' ∧ v'.files.filesp = v.files.filesp)
      (fun _ _ => False) := by
  unfold filesDestroy
  refine Ends.bind (Ends.require (fun _ => ?_) (fun _ => trivial))
  refine Ends.bind (Ends.read ?_)
  refine Ends.bind ((Keeps.dropRef (F := False) (t := t) (I := fun _ => True) _ v).mono ?_
    (fun _ _ he => he.1))
  intro _ v₁ hk
  have hstart : Closed t [] v v₁ := ⟨hk, fun i hi => absurd hi List.not_mem_nil⟩
  refine Ends.bind ((Ends.eachDone (I := fun done => Closed t done v) ?_ hstart).mono ?_
    (fun _ _ he => he))
  · intro done j rest _ v₂ h₂
    exact closeForGood_step h₂
  · intro _ v₂ h₂
    have hclosed : ∀ i < filesStructNentry, (v₂.files.file t i).status = .none := fun i hi =>
      h₂.closed i (List.mem_range.mpr hi)
    have hno₂ : ∀ q, v₂.files.filesp q ≠ some t := by
      intro q
      rw [h₂.kept.filesp]
      exact hno q
    obtain ⟨hshare, hall⟩ := (h.kept ht h₂.kept).erase (hused.kept h₂.kept) hno₂ hclosed rfl
    exact Ends.modify ⟨hshare, hall, h₂.kept.filesp⟩

/-- A process stops pointing to its table, and the count goes down. -/
theorem Sharing.drop (h : Sharing v) (hused : UsedBut none v) (hp : v.files.filesp p = some t)
    {files : Files} (hfiles : files = ({ v.files with
      filesp := Function.update v.files.filesp p none } : Files).setFilesCount t
        ((v.files.table t).filesCount - 1)) :
    Sharing { v with files := files } ∧ UsedBut (some t) { v with files := files } := by
  subst hfiles
  have ht := h.owned p t hp
  refine ⟨⟨?_, ?_, h.fresh, ?_⟩, ?_⟩
  · intro u hu
    by_cases heq : u = t
    · subst heq
      change Headcount _ ((Files.setTable _ u _).table u).filesCount
      rw [Files.setTable_table_self]
      exact Headcount.update_remove (R := (· = some u)) (h.count u hu) hp (Option.some_ne_none u).symm
    · change Headcount _ ((Files.setTable _ t _).table u).filesCount
      rw [Files.setTable_table_of_ne heq]
      refine Headcount.update_same (R := (· = some u)) (h.count u hu) ?_
      simp only [hp, Option.some.injEq, Ne.symm heq, reduceCtorEq]
  · intro q u hq
    change Function.update v.files.filesp p none q = some u at hq
    by_cases heq : q = p
    · rw [heq, Function.update_self] at hq
      exact absurd hq.symm (Option.some_ne_none u)
    · rw [Function.update_of_ne heq] at hq
      exact h.owned q u hq
  · intro u hu hgone i hi
    have hne : u ≠ t := fun heq => hgone (heq ▸ ht)
    change (((Files.setTable _ t _).table u).fdArray i).status = _
    rw [Files.setTable_table_of_ne hne]
    exact h.closed u hu hgone i hi
  · intro u hu hne
    obtain ⟨q, hq⟩ := hused u hu (Option.some_ne_none u)
    have hqp : q ≠ p := by
      intro heq
      rw [heq, hp] at hq
      exact hne hq.symm
    refine ⟨q, ?_⟩
    change Function.update v.files.filesp p none q = some u
    rw [Function.update_of_ne hqp]
    exact hq

theorem putFiles_shares (h : Sharing v) (hused : UsedBut none v) (hp : v.files.filesp p = some t) :
    Ends True (putFiles io p t) v
      (fun _ v' => Sharing v' ∧ UsedBut none v' ∧
        v'.files.filesp = Function.update v.files.filesp p none)
      (fun _ _ => False) := by
  have ht := h.owned p t hp
  obtain ⟨hshare, hbut⟩ := h.drop hused hp rfl
  unfold putFiles
  refine Ends.bind (Ends.modify (Ends.bind (Ends.read (Ends.bind (Ends.modify ?_)))))
  have hcount : (Files.table (({ v.files with
      filesp := Function.update v.files.filesp p none } : Files).setFilesCount t
        ((v.files.table t).filesCount - 1)) t).filesCount = (v.files.table t).filesCount - 1 := by
    unfold Files.setFilesCount
    rw [Files.setTable_table_self]
  have hhead := hshare.count t ht
  rw [hcount] at hhead
  split
  · next hzero =>
    refine (filesDestroy_shares hshare hbut ht ?_).mono ?_ (fun _ _ he => he)
    · intro q hq
      have hpos := hhead.pos hq
      have hz : (v.files.table t).filesCount - 1 = 0 := hzero
      omega
    · exact fun _ _ hk => hk
  · next hmore =>
    refine Ends.pure ⟨hshare, ?_, rfl⟩
    have hpos : 0 < (v.files.table t).filesCount - 1 := lt_of_le_of_ne hhead.nonneg (Ne.symm hmore)
    intro u hu _
    by_cases heq : u = t
    · rw [heq]
      exact hhead.exists_of_pos hpos
    · exact hbut u hu fun hsome => heq (Option.some.inj hsome)

/-! The calls of a process. -/

variable {α : Type} {F : Prop}

theorem withPath_keeps {path : Except VfsError (List Char)} {f : List Char → VfsCall α}
    (h : ∀ path, Keeps True t I (f path)) : Keeps True t I (withPath path f) := by
  cases path with
  | error e => exact Keeps.fail trivial
  | ok path => exact h path

theorem zeroOf_keeps {x : VfsCall PUnit} (h : Keeps F t I x) : Keeps F t I (zeroOf x) :=
  h.bind fun _ => Keeps.pure _

/-- Whatever else a process calls on open files stays on its own table. -/
theorem perform_keeps {place : ExecPlace} {call : FsOp} (hmay : ProcTable.mayCall place call = true) :
    Keeps True t (fun _ => True) (perform io t call) := by
  cases call with
  | «open» p path flags => exact withPath_keeps fun path => Keeps.fileOpen path flags
  | close p fd => exact Keeps.fileClose fd
  | dup p fd₁ fd₂ => exact Keeps.fileDup fd₁ fd₂
  | chdir p path => exact withPath_keeps fun path => zeroOf_keeps (Keeps.vfsChdir path)
  | setBootfs p fsname => exact zeroOf_keeps (Keeps.vfsSetBootfs fsname)
  | fork p child share kmem done => cases place <;> exact absurd hmay Bool.false_ne_true
  | closeall p => cases place <;> exact absurd hmay Bool.false_ne_true
  | exit p => cases place <;> exact absurd hmay Bool.false_ne_true
  | ioStart p fd write => exact zeroOf_keeps (Keeps.ioStart p fd write)
  | ioEnd p copied size dirty =>
    refine Keeps.bind Keeps.read fun i => ?_
    cases i with
    | none => exact Keeps.panic
    | some i => exact zeroOf_keeps (Keeps.ioEnd p copied size dirty)

theorem putFilesOf_shares (h : Sharing v) (hused : UsedBut none v) :
    Ends True (putFilesOf io p) v
      (fun _ v' => Sharing v' ∧ UsedBut none v' ∧
        v'.files.filesp = Function.update v.files.filesp p none)
      (fun _ _ => False) := by
  unfold putFilesOf
  refine Ends.bind (Ends.read ?_)
  cases hp : v.files.filesp p with
  | none =>
    refine Ends.pure ⟨h, hused, ?_⟩
    rw [← hp, Function.update_eq_self]
  | some t => exact putFiles_shares h hused hp

theorem putFilesOf_result (h : Sharing v) (hused : UsedBut none v)
    {r : Except VfsError PUnit × VfsState} (hr : putFilesOf io p v = some r) :
    Sharing r.2 ∧ UsedBut none r.2 ∧ r.2.files.filesp = Function.update v.files.filesp p none := by
  obtain ⟨e | a, v'⟩ := r
  · exact ((putFilesOf_shares h hused).of_error hr).elim
  · exact (putFilesOf_shares h hused).of_ok hr

/-! Steps. -/

namespace ProcTable

variable {s s' : ProcTable} {op : FilesOp × VfsIo}

/-- Every process that has not exited has a table. -/
structure Lives (s : ProcTable) : Prop where
  sharing : Sharing s.vfs
  used : UsedBut none s.vfs
  table : ∀ p, s.live p = true → s.vfs.files.filesp p ≠ none

/-- What a step does to the processes and to their pointers. -/
inductive Moves (s s' : ProcTable) : FilesOp → Prop where
  | quiet {op : FilesOp} (hop : ∀ p, op ≠ .exit p) (hlive : s'.live = s.live)
      (hfilesp : s'.vfs.files.filesp = s.vfs.files.filesp) : Moves s s' op
  | forked {op : FilesOp} (hop : ∀ p, op ≠ .exit p) (child t : ℕ)
      (hfresh : s.vfs.files.filesp child = none) (hlive : s'.live = Function.update s.live child true)
      (hfilesp : s'.vfs.files.filesp = Function.update s.vfs.files.filesp child (some t)) :
      Moves s s' op
  | put (p : ℕ) (hp : s.live p = true) (hmm : s.mm p = true)
      (hlive : s'.live = Function.update s.live p false)
      (hfilesp : s'.vfs.files.filesp = Function.update s.vfs.files.filesp p none) :
      Moves s s' (.exit p)
  | left (p : ℕ) (hp : s.live p = true) (hmm : s.mm p = false)
      (hlive : s'.live = Function.update s.live p false)
      (hfilesp : s'.vfs.files.filesp = s.vfs.files.filesp) : Moves s s' (.exit p)

/-- The tables stay in order, and the step is one of the four kinds. -/
def Steps (s s' : ProcTable) (op : FilesOp) : Prop :=
  Sharing s'.vfs ∧ UsedBut none s'.vfs ∧ Moves s s' op

/-- A step that only works on the table of a process. -/
theorem Lives.quiet (h : Lives s) {op : FilesOp} (hop : ∀ p, op ≠ .exit p) {p t : ℕ}
    (hp : s.vfs.files.filesp p = some t) (hk : Kept t I s.vfs s'.vfs) (hlive : s'.live = s.live) :
    Steps s s' op :=
  ⟨h.sharing.kept (h.sharing.owned p t hp) hk, h.used.kept hk, .quiet hop hlive hk.filesp⟩

/-- Nothing happens to any table. -/
theorem Lives.idle (h : Lives s) {op : FilesOp} (hop : ∀ p, op ≠ .exit p) (hvfs : s'.vfs = s.vfs)
    (hlive : s'.live = s.live) : Steps s s' op := by
  refine ⟨?_, ?_, .quiet hop hlive (by rw [hvfs])⟩
  · rw [hvfs]
    exact h.sharing
  · rw [hvfs]
    exact h.used

theorem onTable_eq_some {p : ℕ} {x : ℕ → VfsCall α} {r : Except VfsError α × VfsState}
    (h : s.onTable p x = some r) : ∃ t, s.vfs.files.filesp p = some t ∧ x t s.vfs = some r := by
  unfold onTable at h
  split at h
  · cases h
  · next t hp => exact ⟨t, hp, h⟩

theorem doFork_steps (h : Lives s) {p child flags : ℕ} {ready kmem : Bool} {op : FilesOp}
    (hop : ∀ p, op ≠ .exit p) (hfresh : s.vfs.files.filesp child = none)
    (hstep : s.doFork io p child flags ready kmem = some s') : Steps s s' op := by
  unfold doFork at hstep
  split at hstep
  · obtain ⟨r, hr, hend⟩ := Option.bind_eq_some_iff.mp hstep
    obtain ⟨t, hp, hx⟩ := onTable_eq_some hr
    have hcopy := @copyFiles_shares _ _ _ h.sharing h.used (h.sharing.owned p t hp) hfresh
      (hasFlag flags cloneFs) kmem
    obtain ⟨e | a, v'⟩ := r
    · have hsame : v' = s.vfs := hcopy.of_error hx
      obtain ⟨r', hput, hs'⟩ := Option.map_eq_some_iff.mp hend
      rw [hsame] at hput
      obtain ⟨hshare, hall, hfilesp⟩ := putFilesOf_result h.sharing h.used hput
      subst hs'
      refine ⟨hshare, hall, .quiet hop rfl ?_⟩
      change r'.2.files.filesp = _
      rw [hfilesp, ← hfresh, Function.update_eq_self]
    · obtain ⟨hshare, hall, u, hfilesp⟩ := hcopy.of_ok hx
      rw [← Option.some.inj hend]
      exact ⟨hshare, hall, .forked hop child u hfresh rfl hfilesp⟩
  · rw [← Option.some.inj hstep]
    exact h.idle hop rfl rfl

theorem forkFrom_steps (h : Lives s) {p child flags : ℕ} {ready kmem : Bool} {op : FilesOp}
    (hop : ∀ p, op ≠ .exit p) (hstep : s.forkFrom io p child flags ready kmem = some s') :
    Steps s s' op := by
  unfold forkFrom at hstep
  split at hstep
  · split at hstep
    · next hguard =>
      refine doFork_steps h hop ?_ hstep
      have hfresh := (Bool.and_eq_true_iff.mp hguard).2
      exact Option.isNone_iff_eq_none.mp (Bool.and_eq_true_iff.mp hfresh).2
    · cases hstep
  · cases hstep

theorem execve_steps (h : Lives s) {p : ℕ} {args : Bool} (hstep : s.execve io p args = some s') :
    Steps s s' (.execve p args) := by
  have hop : ∀ q, FilesOp.execve p args ≠ .exit q := fun _ heq => nomatch heq
  unfold execve at hstep
  split at hstep
  · obtain ⟨r, hr, hs'⟩ := Option.map_eq_some_iff.mp hstep
    obtain ⟨t, hp, hx⟩ := onTable_eq_some hr
    subst hs'
    exact h.quiet hop hp (Keeps.kept (F := False) Keeps.filesCloseall hx) rfl
  · rw [← Option.some.inj hstep]
    exact h.idle hop rfl rfl

theorem execOpen_steps (h : Lives s) {p : ℕ} {path : Except VfsError (List Char)}
    (hstep : s.execOpen io p path = some s') : Steps s s' (.execOpen p path) := by
  have hop : ∀ q, FilesOp.execOpen p path ≠ .exit q := fun _ heq => nomatch heq
  obtain ⟨r, hr, hs'⟩ := Option.map_eq_some_iff.mp hstep
  obtain ⟨t, hp, hx⟩ := onTable_eq_some hr
  have hk := Keeps.kept (withPath_keeps fun path => Keeps.fileOpen path oRdonly) hx
  subst hs'
  apply h.quiet hop hp (I := fun _ => True)
  · obtain ⟨e | fd, v'⟩ := r
    · exact hk
    · exact hk
  · obtain ⟨e | fd, v'⟩ := r
    · rfl
    · rfl

theorem loadIcode_steps (h : Lives s) {p fd : ℕ} {result : LoadEnd}
    (hstep : s.loadIcode io p fd result = some s') : Steps s s' (.loadIcode p result) := by
  have hop : ∀ q, FilesOp.loadIcode p result ≠ .exit q := fun _ heq => nomatch heq
  obtain ⟨r, hr, hs'⟩ := Option.map_eq_some_iff.mp hstep
  obtain ⟨t, hp, hx⟩ := onTable_eq_some hr
  have hk := Keeps.kept (Keeps.fileClose fd) hx
  subst hs'
  cases result with
  | loaded => exact h.quiet hop hp hk rfl
  | badMagic => exact h.quiet hop hp hk rfl
  | failed => exact h.quiet hop hp hk rfl

theorem doExit_steps (h : Lives s) {p : ℕ} (hp : s.live p = true)
    (hstep : s.doExit io p = some s') : Steps s s' (.exit p) := by
  unfold doExit at hstep
  split at hstep
  · cases hstep
  · cases hmm : s.mm p with
    | true =>
      rw [hmm, if_pos rfl] at hstep
      obtain ⟨r, hput, hs'⟩ := Option.map_eq_some_iff.mp hstep
      obtain ⟨hshare, hall, hfilesp⟩ := putFilesOf_result h.sharing h.used hput
      subst hs'
      exact ⟨hshare, hall, .put p hp hmm rfl hfilesp⟩
    | false =>
      rw [hmm, if_neg Bool.false_ne_true] at hstep
      rw [← Option.some.inj hstep]
      exact ⟨h.sharing, h.used, .left p hp hmm rfl rfl⟩

theorem file_steps (h : Lives s) {place : ExecPlace} {call : FsOp} (hmay : mayCall place call = true)
    {v : VfsState} (hstep : s.vfs.step (call, io) = some v) : Steps s (s.setVfs v) (.file call) := by
  have hop : ∀ q, FilesOp.file call ≠ .exit q := fun _ heq => nomatch heq
  obtain ⟨r, hr, hv⟩ := Option.map_eq_some_iff.mp hstep
  unfold VfsState.exec at hr
  split at hr
  · cases hr
  · next t hp =>
    split at hr
    · subst hv
      exact h.quiet hop hp (Keeps.kept (perform_keeps hmay) hr) rfl
    · cases hr

theorem free_live {p : ℕ} (h : s.free p = true) : s.live p = true := (Bool.and_eq_true_iff.mp h).1

theorem guard_eq_some {c : Bool} {o : Option ProcTable} (h : (if c then o else none) = some s') :
    c = true ∧ o = some s' := by
  split at h
  · next hc => exact ⟨hc, h⟩
  · cases h

theorem step_steps (h : Lives s) (hstep : s.step op = some s') : Steps s s' op.1 := by
  obtain ⟨op, io⟩ := op
  cases op with
  | fork p child flags ready kmem => exact forkFrom_steps h (fun _ heq => nomatch heq) hstep
  | kernelThread p child flags ready kmem =>
    exact forkFrom_steps h (fun _ heq => nomatch heq) hstep
  | execve p args =>
    simp only [step] at hstep
    split at hstep
    · exact execve_steps h (guard_eq_some hstep).2
    · cases hstep
  | execOpen p path =>
    simp only [step] at hstep
    split at hstep
    · exact execOpen_steps h (guard_eq_some hstep).2
    · cases hstep
  | releaseMm p =>
    simp only [step] at hstep
    split at hstep
    · rw [← Option.some.inj (guard_eq_some hstep).2]
      exact h.idle (fun _ heq => nomatch heq) rfl rfl
    · cases hstep
  | loadIcode p result =>
    simp only [step] at hstep
    split at hstep
    · exact loadIcode_steps h (guard_eq_some hstep).2
    · cases hstep
  | exit p =>
    simp only [step] at hstep
    split at hstep
    · exact doExit_steps h (free_live (guard_eq_some hstep).1) (guard_eq_some hstep).2
    · exact doExit_steps h (free_live (guard_eq_some hstep).1) (guard_eq_some hstep).2
    · cases hstep
  | file call =>
    simp only [step] at hstep
    obtain ⟨hmay, hcall⟩ := guard_eq_some hstep
    obtain ⟨v, hv, hs'⟩ := Option.map_eq_some_iff.mp hcall
    rw [← hs']
    exact file_steps h (Bool.and_eq_true_iff.mp hmay).2 hv

/-! Runs. -/

theorem Lives.step (h : Lives s) (hstep : s.step op = some s') : Lives s' := by
  obtain ⟨op, io⟩ := op
  obtain ⟨hshare, hall, hmoves⟩ := step_steps h hstep
  refine ⟨hshare, hall, ?_⟩
  intro q hq
  cases hmoves with
  | quiet _ hlive hfilesp =>
    rw [hlive] at hq
    rw [hfilesp]
    exact h.table q hq
  | forked _ child t _ hlive hfilesp =>
    rw [hlive] at hq
    rw [hfilesp]
    by_cases heq : q = child
    · rw [heq, Function.update_self]
      exact Option.some_ne_none t
    · rw [Function.update_of_ne heq] at hq ⊢
      exact h.table q hq
  | put p _ _ hlive hfilesp =>
    rw [hlive] at hq
    rw [hfilesp]
    have heq : q ≠ p := by
      intro heq
      rw [heq, Function.update_self] at hq
      exact absurd hq Bool.false_ne_true
    rw [Function.update_of_ne heq] at hq ⊢
    exact h.table q hq
  | left p _ _ hlive hfilesp =>
    rw [hlive] at hq
    rw [hfilesp]
    have heq : q ≠ p := by
      intro heq
      rw [heq, Function.update_self] at hq
      exact absurd hq Bool.false_ne_true
    rw [Function.update_of_ne heq] at hq
    exact h.table q hq

/-- No process that has exited still points to a table. -/
def NoLeak (s : ProcTable) : Prop := ∀ p, s.vfs.files.filesp p ≠ none → s.live p = true

theorem noLeak_step (h : Lives s) (hstep : s.step op = some s') :
    NoLeak s' ↔ NoLeak s ∧ ExitsWithMm s op := by
  obtain ⟨op, io⟩ := op
  obtain ⟨_, _, hmoves⟩ := step_steps h hstep
  have hmeets : ∀ {op : FilesOp}, (∀ p, op ≠ .exit p) → ExitsWithMm s (op, io) := by
    intro op hop
    cases op with
    | exit p => exact absurd rfl (hop p)
    | _ => trivial
  cases hmoves with
  | quiet hop hlive hfilesp =>
    unfold NoLeak
    rw [hlive, hfilesp, and_iff_left (hmeets hop)]
  | forked hop child t hfresh hlive hfilesp =>
    rw [and_iff_left (hmeets hop)]
    unfold NoLeak
    rw [hlive, hfilesp]
    constructor
    · intro hno q hq
      have hne : q ≠ child := fun heq => hq (heq ▸ hfresh)
      have hq' := hno q
      rw [Function.update_of_ne hne, Function.update_of_ne hne] at hq'
      exact hq' hq
    · intro hno q hq
      by_cases heq : q = child
      · rw [heq, Function.update_self]
      · rw [Function.update_of_ne heq] at hq ⊢
        exact hno q hq
  | put p hp hmm hlive hfilesp =>
    have hcond : ExitsWithMm s (.exit p, io) := hmm
    rw [and_iff_left hcond]
    unfold NoLeak
    rw [hlive, hfilesp]
    constructor
    · intro hno q hq
      by_cases heq : q = p
      · exact heq ▸ hp
      · have hq' := hno q
        rw [Function.update_of_ne heq, Function.update_of_ne heq] at hq'
        exact hq' hq
    · intro hno q hq
      by_cases heq : q = p
      · rw [heq, Function.update_self] at hq
        exact absurd rfl hq
      · rw [Function.update_of_ne heq] at hq ⊢
        exact hno q hq
  | left p hp hmm hlive hfilesp =>
    constructor
    · intro hno
      have hq := hno p
      rw [hlive, hfilesp, Function.update_self] at hq
      exact absurd (hq (h.table p hp)) Bool.false_ne_true
    · intro hboth
      have hm : s.mm p = true := hboth.2
      rw [hmm] at hm
      exact absurd hm Bool.false_ne_true

theorem counted_iff (h : Lives s) : Counted s ↔ NoLeak s := by
  constructor
  · intro hc p hp
    obtain ⟨t, ht⟩ := Option.ne_none_iff_exists'.mp hp
    have hin := h.sharing.owned p t ht
    exact ((h.sharing.count t hin).all_of_some (hc.count t hin) (fun q hq => hq.2) ht).1
  · intro hno
    have hlive : ∀ p t, s.vfs.files.filesp p = some t → s.live p = true := by
      intro p t hp
      apply hno p
      rw [hp]
      exact Option.some_ne_none t
    refine ⟨?_, ?_, h.sharing.closed⟩
    · intro t _
      constructor
      · intro ht
        obtain ⟨p, hp⟩ := h.used t ht (Option.some_ne_none t)
        exact ⟨p, hlive p t hp, hp⟩
      · intro hp
        obtain ⟨p, _, hp⟩ := hp
        exact h.sharing.owned p t hp
    · intro t ht
      exact (h.sharing.count t ht).congr fun p => and_iff_right_of_imp (hlive p t)

theorem boot_filesp {blocks p t : ℕ} (h : (boot blocks).vfs.files.filesp p = some t) :
    p = 0 ∧ t = 0 := by
  change (if p = 0 then some 0 else none) = some t at h
  split at h
  · next hp => exact ⟨hp, (Option.some.inj h).symm⟩
  · cases h

theorem boot_lives (blocks : ℕ) : Lives (boot blocks) where
  sharing :=
    { count := by
        intro t ht
        have hzero : t = 0 := Finset.mem_singleton.mp ht
        subst hzero
        have hnobody : Headcount (fun _ : ℕ => False) 0 := Headcount.zero fun _ hno => hno
        have hcount := @Headcount.add _ _ (fun p => (boot blocks).vfs.files.filesp p = some 0) _ 0
          hnobody id ?_
        · exact hcount
        · intro p
          rw [or_false]
          constructor
          · exact fun hp => (boot_filesp hp).1
          · intro hp
            subst hp
            rfl
      owned := fun p t hp => Finset.mem_singleton.mpr (boot_filesp hp).2
      fresh := fun t ht => by
        rw [Finset.mem_singleton.mp ht]
        exact Nat.one_pos
      closed := fun _ _ _ _ _ => rfl }
  used := fun t ht _ => ⟨0, by rw [Finset.mem_singleton.mp ht]; rfl⟩
  table := fun p hp => by
    have hzero : p = 0 := of_decide_eq_true hp
    subst hzero
    exact Option.some_ne_none 0

theorem boot_noLeak (blocks : ℕ) : NoLeak (boot blocks) := by
  intro p hp
  obtain ⟨t, ht⟩ := Option.ne_none_iff_exists'.mp hp
  exact decide_eq_true (boot_filesp ht).1

end ProcTable

open ProcTable

/-- The count of every table is the number of its processes, and it goes with the last of
them, exactly as long as no process exits without an `mm`. -/
theorem counted_iff_exits_with_mm (blocks : ℕ) (ops : List (FilesOp × VfsIo)) (s : ProcTable)
    (h : runOps ProcTable.step (boot blocks) ops = some s) :
    Counted s ↔ RunMeets ProcTable.step ExitsWithMm (boot blocks) ops := by
  have hlives : Lives s := runOps_invariant (fun _ _ _ hs hstep => hs.step hstep) (boot_lives blocks) h
  rw [counted_iff hlives, runOps_iff_meets (fun _ _ _ hs hstep => hs.step hstep)
    (fun _ _ _ hs hstep => noLeak_step hs hstep) (boot_lives blocks) h]
  exact and_iff_right (boot_noLeak blocks)

/-- Calls that find nothing on disk. -/
def noDisk : VfsIo where
  direntSearch := fun _ _ _ => .error .noEnt
  diskInode := fun _ _ => .failed .noEnt
  fsync := fun _ _ => .ok ()
  truncate := fun _ _ => .ok ()

/-- `initproc` creates a kernel thread, and the function of the thread returns. -/
def threadRun : List (FilesOp × VfsIo) :=
  [(.kernelThread 0 1 0 true true, noDisk), (.kernelThread 1 2 0 true true, noDisk),
    (.exit 2, noDisk)]

theorem counted_iff_exits_with_mm_thread : ∃ s,
    runOps ProcTable.step (boot 8) threadRun = some s ∧
      (Counted s ↔ RunMeets ProcTable.step ExitsWithMm (boot 8) threadRun) := by
  have hrun : (runOps ProcTable.step (boot 8) threadRun).isSome = true := by decide +kernel
  obtain ⟨s, hs⟩ := Option.isSome_iff_exists.mp hrun
  exact ⟨s, hs, counted_iff_exits_with_mm 8 threadRun s hs⟩

theorem thread_exit_keeps_table : ∃ s,
    runOps ProcTable.step (boot 8) threadRun = some s ∧ ¬ Counted s := by
  have hrun : (runOps ProcTable.step (boot 8) threadRun).map (fun s =>
      (s.vfs.files.filesp 2, s.live 2)) = some (some 2, false) := by decide +kernel
  obtain ⟨s, hs, hpair⟩ := Option.map_eq_some_iff.mp hrun
  refine ⟨s, hs, ?_⟩
  have hlives : Lives s := runOps_invariant (fun _ _ _ hs hstep => hs.step hstep) (boot_lives 8) hs
  intro hc
  have hlive := (counted_iff hlives).mp hc 2
  rw [(Prod.mk.inj hpair).1, (Prod.mk.inj hpair).2] at hlive
  exact absurd (hlive (Option.some_ne_none 2)) Bool.false_ne_true

end Ucore.Process.FilesLife
