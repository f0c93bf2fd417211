import Ucore.Vfs.FileTable
import Ucore.Vfs.TreeStore

/-!
What `vfs_lookup` finds in a directory tree. Below the start it takes the rest of a path for one
name, so a path of several components is resolved only where it leads nowhere.
-/
namespace Ucore.Vfs

open Library Call
open Fs (blknRoot)

variable {T : DirTree} {st st' : InodeStore} {f g : ℕ → ℤ} {n : ℕ} {i : VfsInode} {io : VfsIo}
  {r : Roots} {start : PathStart} {path rest : List Char} {p : Place}

/-- The root of the file system that a place is in. -/
def rootPlace : Place → Option Place
  | .device _ => none
  | .inode fs _ => some (.inode fs blknRoot)

def Vdev.place (st : InodeStore) (v : Vdev) : Option Place :=
  match v.fs with
  | some fs => some (.inode fs blknRoot)
  | none => if v.mountable then none else v.devnode.bind st.place

/-- Where a path starts. -/
def Roots.startPlace (r : Roots) (st : InodeStore) : PathStart → Option Place
  | .curdir => r.pwd.bind st.place
  | .bootfs => r.bootfs.bind st.place
  | .device name => (r.vdevList.find? (fun v => v.devname == name)).bind (Vdev.place st)
  | .curfs => (r.pwd.bind st.place).bind rootPlace

/-- A place where a path may start. -/
def DirTree.Origin (T : DirTree) : Place → Prop
  | .device _ => True
  | .inode fs ino => T.type fs ino = some .dir

/-- A directory that is held, in a file system that has a root. -/
structure HeldDir (T : DirTree) (f : ℕ → ℤ) (st : InodeStore) (n : ℕ) : Prop where
  held : 0 < f n
  dir : ∃ fs ino, st.place n = some (.inode fs ino) ∧ T.type fs ino = some .dir ∧
    T.type fs blknRoot = some .dir

/-- The devices of `vdev_list` have a file system, or may get one, or have a node. -/
def Vdev.Ready (T : DirTree) (f : ℕ → ℤ) (st : InodeStore) (v : Vdev) : Prop :=
  match v.fs with
  | some fs => T.type fs blknRoot = some .dir
  | none => v.mountable = false → ∃ n, v.devnode = some n ∧ 0 < f n ∧ st.place n = some (.device n)

structure RootsOk (T : DirTree) (r : Roots) (f : ℕ → ℤ) (st : InodeStore) : Prop where
  pwd : ∀ n, r.pwd = some n → HeldDir T f st n
  bootfs : ∀ n, r.bootfs = some n → HeldDir T f st n
  vdev : ∀ v ∈ r.vdevList, v.Ready T f st

theorem HeldDir.holds (h : HeldDir T f st n) (h' : Holds f st st') : HeldDir T f st' n := by
  obtain ⟨fs, ino, hplace, htype⟩ := h.dir
  exact ⟨h.held, fs, ino, h'.kept n _ h.held hplace, htype⟩

theorem RootsOk.holds (h : RootsOk T r f st) (h' : Holds f st st') : RootsOk T r f st' := by
  refine ⟨fun n hn => (h.pwd n hn).holds h', fun n hn => (h.bootfs n hn).holds h', fun v hv => ?_⟩
  have hready := h.vdev v hv
  unfold Vdev.Ready at hready ⊢
  cases hfs : v.fs with
  | some fs =>
    rw [hfs] at hready
    exact hready
  | none =>
    rw [hfs] at hready
    intro hm
    obtain ⟨n, hnode, hpos, hplace⟩ := hready hm
    exact ⟨n, hnode, hpos, h'.kept n _ hpos hplace⟩

/-- One place has one inode. -/
theorem Good.place_inj (h : Good T f g st) {m : ℕ} (hn : st.place n = some p) (hm : st.place m = some p) :
    n = m := by
  cases p with
  | inode fs ino => exact h.once n m fs ino hn hm
  | device k =>
    have hdevice : ∀ j, st.place j = some (.device k) → j = k := by
      intro j hj
      obtain ⟨i, -, hplace⟩ := inode_of_place hj
      cases hinfo : i.info with
      | device dev =>
        rw [hinfo] at hplace
        exact Place.device.inj hplace
      | sfs sin =>
        rw [hinfo] at hplace
        exact Place.noConfusion hplace
    rw [hdevice n hn, hdevice m hm]

/-! The start of a path. -/

theorem takeRoot_good {o : Option ℕ} {e : VfsError} (h : Good T f g st) (ho : ∀ n, o = some n → 0 < f n) :
    Ends False (takeRoot e o) st
      (fun n st' => o = some n ∧ Good T (f + one n) g st' ∧ st'.place = st.place)
      (fun e' st' => o = none ∧ e' = e ∧ st' = st) := by
  cases o with
  | none => exact Ends.fail ⟨rfl, rfl, rfl⟩
  | some n =>
    refine Ends.bind ((inodeRefInc_good h (ho n rfl)).mono ?_ (fun _ _ he => he))
    intro _ st₁ h₁
    exact Ends.pure ⟨rfl, h₁⟩

/-- A start that is missing is an error; only a device is missing otherwise than with `E_NOENT`. -/
def PathStart.MissingIs (e : VfsError) : PathStart → Prop
  | .device _ => e ≠ .noEnt
  | _ => e = .noEnt

/-- What `get_device` does, by what is at the start. -/
def Starts (T : DirTree) (f g : ℕ → ℤ) (st : InodeStore) (start : PathStart) (want : Option Place)
    (x : StoreCall ℕ) : Prop :=
  Ends False x st
    (fun n st' => Good T (f + one n) g st' ∧ Holds f st st' ∧
      ∃ p, want = some p ∧ st'.place n = some p ∧ T.Origin p)
    (fun e st' => want = none ∧ start.MissingIs e ∧ st' = st)

theorem takeDir_good {o : Option ℕ} (h : Good T f g st) (ho : ∀ n, o = some n → HeldDir T f st n)
    (hstart : start.MissingIs .noEnt) : Starts T f g st start (o.bind st.place) (takeRoot .noEnt o) := by
  refine (takeRoot_good h (fun n hn => (ho n hn).held)).mono ?_ ?_
  · intro n st₁ h₁
    obtain ⟨hn, hgood, hplace⟩ := h₁
    obtain ⟨fs, ino, hdir, htype, -⟩ := (ho n hn).dir
    rw [hn]
    exact ⟨hgood, Holds.of_place hplace, .inode fs ino, hdir, hplace ▸ hdir, htype⟩
  · intro e st₁ h₁
    obtain ⟨hn, he, hst⟩ := h₁
    rw [hn, he]
    exact ⟨rfl, hstart, hst⟩

theorem vfsGetRoot_good {name : List Char} (h : Good T f g st) (hr : RootsOk T r f st)
    (hio : Shows io T) : Starts T f g st (.device name) (r.startPlace st (.device name))
      (vfsGetRoot io r name) := by
  change Starts T f g st (.device name)
    ((r.vdevList.find? (fun v => v.devname == name)).bind (Vdev.place st)) (vfsGetRoot io r name)
  unfold vfsGetRoot
  cases hfind : r.vdevList.find? (fun v => v.devname == name) with
  | none => exact Ends.fail ⟨rfl, fun hbad => VfsError.noConfusion hbad, rfl⟩
  | some v =>
    have hready := hr.vdev v (List.mem_of_find?_eq_some hfind)
    unfold Vdev.Ready at hready
    rw [Option.bind_some]
    unfold Vdev.place
    simp only
    cases hfs : v.fs with
    | some fs =>
      rw [hfs] at hready
      refine Ends.orPanic ((sfsLoadInode_good h hio hready).mono ?_ (fun _ _ hbad => hbad))
      · intro n st₁ h₁
        obtain ⟨hgood, hholds, hplace⟩ := h₁
        exact ⟨hgood, hholds, .inode fs blknRoot, rfl, hplace, hready⟩
    | none =>
      rw [hfs] at hready
      simp only
      by_cases hm : v.mountable = true
      · rw [if_pos hm, if_pos hm]
        exact Ends.fail ⟨rfl, fun hbad => VfsError.noConfusion hbad, rfl⟩
      · obtain ⟨n, hnode, hpos, hdev⟩ := hready (Bool.eq_false_iff.mpr hm)
        rw [if_neg hm, if_neg hm, hnode]
        have hheld : ∀ k, some n = some k → 0 < f k := fun k hk => Option.some.inj hk ▸ hpos
        refine Ends.orPanic ((takeRoot_good h hheld).mono ?_ ?_)
        · intro m st₁ h₁
          obtain ⟨hnm, hgood, hplace⟩ := h₁
          cases hnm
          exact ⟨hgood, Holds.of_place hplace, .device n, hdev, hplace ▸ hdev, trivial⟩
        · intro e st₁ h₁
          exact Option.some_ne_none n h₁.1

/-- The root of the file system of the current directory, which is given back. -/
theorem getCurfs_good (h : Good T f g st) (hb : Base f g st) (hr : RootsOk T r f st)
    (hio : Shows io T) : Starts T f g st .curfs (r.startPlace st .curfs) (getDevice io r .curfs) := by
  refine Ends.bind ((takeRoot_good h (fun n hn => (hr.pwd n hn).held)).mono ?_ ?_)
  · intro n st₁ h₁
    obtain ⟨hn, hgood, hplace⟩ := h₁
    obtain ⟨fs, ino, hdir, -, hroot⟩ := (hr.pwd n hn).dir
    have hdir₁ : st₁.place n = some (.inode fs ino) := by
      rw [hplace]
      exact hdir
    obtain ⟨i, sin, hi, hinfo, hfs, -⟩ := sfs_of_place hdir₁
    have hstart : r.startPlace st .curfs = some (.inode fs blknRoot) := by
      change (r.pwd.bind st.place).bind rootPlace = _
      rw [hn, Option.bind_some, hdir]
      rfl
    unfold rootOf
    refine Ends.bind (Ends.bind (getInode_found hi ?_))
    simp only [hinfo, hfs]
    refine Ends.orPanic ((sfsLoadInode_good hgood hio hroot).mono ?_ (fun _ _ hbad => hbad))
    intro m st₂ h₂
    obtain ⟨hgood₂, hholds, hplace₂⟩ := h₂
    have hholds₂ : Holds f st st₂ := ((Holds.of_place hplace).trans hholds).of_add
    have hbase : Base (f + one m) g st₂ := (hb.holds hholds₂).add m
    rw [add_right_comm] at hgood₂
    refine Ends.bind ((inodeRefDec_good hgood₂ hbase).mono ?_ (fun _ _ he => he))
    intro _ st₃ h₃
    obtain ⟨hgood₃, hholds₃⟩ := h₃
    refine Ends.pure ⟨hgood₃, hholds₂.trans hholds₃.of_add, .inode fs blknRoot, hstart, ?_, hroot⟩
    refine hholds₃.kept m _ ?_ hplace₂
    have hnonneg := h.nonneg m
    rw [Pi.add_apply, one_self]
    omega
  · intro e st₁ h₁
    obtain ⟨hn, he, hst⟩ := h₁
    refine ⟨?_, he, hst⟩
    change (r.pwd.bind st.place).bind rootPlace = none
    rw [hn]
    rfl

theorem getDevice_good (h : Good T f g st) (hb : Base f g st) (hr : RootsOk T r f st) (hio : Shows io T) :
    Starts T f g st start (r.startPlace st start) (getDevice io r start) := by
  cases start with
  | curdir => exact takeDir_good h hr.pwd rfl
  | bootfs => exact takeDir_good h hr.bootfs rfl
  | device name => exact vfsGetRoot_good h hr hio
  | curfs => exact getCurfs_good h hb hr hio

/-! The rest of the path. -/

/-- The directory that a lookup goes through is given back. -/
theorem sfsLookup_good {sin : SfsNode} (h : Good T (f + one n) g st) (hb : Base f g st)
    (hio : Shows io T) (hpos : 0 < (f + one n) n) (hdir : T.type sin.fs sin.ino = some .dir)
    (hlen : rest.length ≤ maxFnameLen) (hrest : rest ≠ [] ∧ rest.head? ≠ some '/') :
    Ends False (sfsLookup io n sin rest) st
      (fun m st' => Good T (f + one n + one m) g st' ∧ Holds (f + one n) st st' ∧
        ∃ q, T.step rest (.inode sin.fs sin.ino) = some q ∧ st'.place m = some q)
      (fun e st' => Good T (f + one n) g st' ∧ Holds (f + one n) st st' ∧
        T.step rest (.inode sin.fs sin.ino) = none ∧ e = .noEnt) := by
  have hsearch := @Shows.search io T hio sin.fs sin.ino rest hdir hlen
  have hbn : Base (f + one n) g st := hb.add n
  unfold sfsLookup
  refine Ends.bind (require_holds hrest ?_)
  refine Ends.bind ((inodeRefInc_good h hpos).mono ?_ (fun _ _ he => he))
  intro _ st₁ h₁
  obtain ⟨hgood₁, hplace₁⟩ := h₁
  have hholds₁ : Holds (f + one n) st st₁ := Holds.of_place hplace₁
  refine Ends.bind (Ends.onError ?_)
  unfold sfsLookupOnce
  refine Ends.bind (require_holds hlen ?_)
  unfold DirTree.step
  cases hentry : T.entry sin.fs sin.ino rest with
  | none =>
    rw [hsearch, hentry]
    refine Ends.fail ((inodeRefDec_good hgood₁ (hbn.holds hholds₁)).mono ?_ (fun _ _ he => he))
    intro _ st₂ h₂
    simp only [hentry]
    exact ⟨h₂.1, hholds₁.trans h₂.2, rfl, trivial⟩
  | some child =>
    rw [hsearch, hentry]
    obtain ⟨t, htype⟩ := T.child hentry
    refine (sfsLoadInode_good hgood₁ hio htype).mono ?_ (fun _ _ hbad => hbad)
    intro m st₂ h₂
    obtain ⟨hgood₂, hholds₂, hplace₂⟩ := h₂
    have hheld : Holds (f + one n) st st₂ := hholds₁.trans hholds₂.of_add
    rw [add_right_comm] at hgood₂
    refine Ends.bind ((inodeRefDec_good hgood₂ ((hbn.holds hheld).add m)).mono ?_ (fun _ _ he => he))
    intro _ st₃ h₃
    simp only [hentry]
    refine Ends.pure ⟨h₃.1, hheld.trans h₃.2.of_add, _, rfl, h₃.2.kept m _ ?_ hplace₂⟩
    have hnonneg := h.nonneg m
    rw [Pi.add_apply (f + one n), one_self]
    omega

/-- `vop_lookup` at a place where a path may start. -/
theorem vopLookup_good (h : Good T (f + one n) g st) (hb : Base f g st) (hio : Shows io T)
    (hplace : st.place n = some p) (horigin : T.Origin p) (hroom : f n + 1 < maxInodeCount)
    (hlen : ∀ fs ino, p = .inode fs ino → rest.length ≤ maxFnameLen)
    (hrest : rest ≠ [] ∧ rest.head? ≠ some '/') :
    Ends False (vopLookup io n rest) st
      (fun m st' => Good T (f + one n + one m) g st' ∧ Holds (f + one n) st st' ∧
        ∃ q, T.step rest p = some q ∧ st'.place m = some q)
      (fun e st' => Good T (f + one n) g st' ∧ Holds (f + one n) st st' ∧ T.step rest p = none ∧
        e = .noEnt) := by
  have hle : g n ≤ (f + one n) n := (hb.add n).le n
  have hone : (f + one n) n = f n + 1 := by rw [Pi.add_apply, one_self]
  have hpos : 0 < (f + one n) n := by
    have hopens := h.opens_nonneg n
    have hbase := hb.le n
    omega
  obtain ⟨i, hi, hinode⟩ := inode_of_place hplace
  obtain ⟨hopens, hrefs⟩ := h.check hi hle (hone ▸ hroom)
  unfold vopLookup
  refine Ends.bind (inodeCheck_found hi hopens hrefs ?_)
  subst hinode
  cases hinfo : i.info with
  | device dev =>
    simp only
    unfold devLookup
    rw [if_pos hrest.1]
    exact Ends.fail ⟨h, Holds.refl _ _, rfl, rfl⟩
  | sfs sin =>
    rw [hinfo] at horigin
    have hfits := h.fits n i hi
    unfold VfsInode.Fits at hfits
    rw [hinfo] at hfits
    have htype : sin.type = .dir := Option.some.inj (hfits.1.symm.trans horigin)
    simp only [htype, if_true]
    exact sfsLookup_good h hb hio hpos horigin (hlen sin.fs sin.ino (by rw [hinfo]; rfl)) hrest

/-- The slashes behind a start are skipped. -/
theorem pathStart_head (path : List Char) : (pathStart path).2.head? ≠ some '/' := by
  have hdrop : ∀ l : List Char, (l.dropWhile (· == '/')).head? ≠ some '/' := by
    intro l heq
    have hnot := List.head?_dropWhile_not (· == '/') l
    rw [heq] at hnot
    exact absurd hnot (by decide)
  unfold pathStart
  split
  · exact hdrop _
  · exact hdrop _
  · exact hdrop _
  · rename_i hboot
    intro heq
    cases path with
    | nil => exact absurd heq.symm (Option.some_ne_none _)
    | cons c cs =>
      have hc : c = '/' := Option.some.inj heq
      refine hboot cs ?_
      rw [hc, List.span_eq_takeWhile_dropWhile, List.takeWhile_cons_of_neg (by decide),
        List.dropWhile_cons_of_neg (by decide)]

/-- The place that `vfs_lookup` looks for: the rest of the path is one name. -/
def Roots.target (T : DirTree) (r : Roots) (st : InodeStore) (path : List Char) : Option Place :=
  (r.startPlace st (pathStart path).1).bind (fun p =>
    if (pathStart path).2 = [] then some p else T.step (pathStart path).2 p)

/-- There is room for one more reference to what is at a place. -/
def InodeStore.Room (st : InodeStore) (p : Place) : Prop :=
  ∀ n, st.place n = some p → st.refCount n + 1 < maxInodeCount

/-- No assertion fails on the way. -/
def Roots.Safe (r : Roots) (st : InodeStore) (path : List Char) : Prop :=
  ∀ p, r.startPlace st (pathStart path).1 = some p → (pathStart path).2 ≠ [] →
    st.Room p ∧ ∀ fs ino, p = .inode fs ino → (pathStart path).2.length ≤ maxFnameLen

/-- The inode that a call has got is new, or has the place it had before. -/
theorem Good.room_of_holds (h : Good T f g st) (hholds : Holds f st st') (hroom : st.Room p)
    (hplace : st'.place n = some p) : f n + 1 < maxInodeCount := by
  by_cases hpos : 0 < f n
  · obtain ⟨i, hi⟩ := h.inode hpos
    have hkept := hholds.kept n _ hpos (place_of_inode hi)
    have hrefs := h.counts.refs n
    have hn := hroom n (by rw [place_of_inode hi, ← hkept, hplace])
    omega
  · unfold maxInodeCount
    omega

theorem vfsLookup_good (h : Good T f g st) (hb : Base f g st) (hr : RootsOk T r f st)
    (hio : Shows io T) (hsafe : r.Safe st path) :
    Ends False (vfsLookup io r path) st
      (fun m st' => Good T (f + one m) g st' ∧ Holds f st st' ∧
        ∃ q, r.target T st path = some q ∧ st'.place m = some q)
      (fun e st' => Good T f g st' ∧ Holds f st st' ∧ r.target T st path = none ∧
        ((r.startPlace st (pathStart path).1 = none ∧ (pathStart path).1.MissingIs e) ∨
          (∃ p, r.startPlace st (pathStart path).1 = some p) ∧ e = .noEnt)) := by
  unfold vfsLookup Roots.target
  refine Ends.bind ((getDevice_good h hb hr hio).mono ?_ ?_)
  · intro n st₁ h₁
    obtain ⟨hgood₁, hholds₁, p, hstart, hplace₁, horigin⟩ := h₁
    rw [hstart]
    simp only [Option.bind_some]
    by_cases hrest : (pathStart path).2 = []
    · rw [if_neg (not_not.mpr hrest), if_pos hrest]
      exact Ends.pure ⟨hgood₁, hholds₁, p, rfl, hplace₁⟩
    · obtain ⟨hroom, hlen⟩ := hsafe p hstart hrest
      rw [if_pos hrest, if_neg hrest]
      have hlook := vopLookup_good hgood₁ (hb.holds hholds₁) hio hplace₁ horigin
        (h.room_of_holds hholds₁ hroom hplace₁) hlen ⟨hrest, pathStart_head path⟩
      refine Ends.bind (Ends.onError (hlook.mono ?_ ?_))
      · intro m st₂ h₂
        obtain ⟨hgood₂, hholds₂, q, hq, hplace₂⟩ := h₂
        have hholds : Holds f st st₂ := hholds₁.trans hholds₂.of_add
        rw [add_right_comm] at hgood₂
        refine Ends.bind ((inodeRefDec_good hgood₂ ((hb.holds hholds).add m)).mono ?_ (fun _ _ he => he))
        intro _ st₃ h₃
        refine Ends.pure ⟨h₃.1, hholds.trans h₃.2.of_add, q, hq, h₃.2.kept m q ?_ hplace₂⟩
        have hnonneg := h.nonneg m
        rw [Pi.add_apply, one_self]
        omega
      · intro e st₂ h₂
        obtain ⟨hgood₂, hholds₂, hnone, he⟩ := h₂
        have hholds : Holds f st st₂ := hholds₁.trans hholds₂.of_add
        refine (inodeRefDec_good hgood₂ (hb.holds hholds)).mono ?_ (fun _ _ he => he)
        intro _ st₃ h₃
        exact ⟨h₃.1, hholds.trans h₃.2, hnone, .inr ⟨⟨p, rfl⟩, he⟩⟩
  · intro e st₁ h₁
    obtain ⟨hnone, hmissing, hst⟩ := h₁
    subst hst
    rw [hnone]
    exact ⟨h, Holds.refl f _, rfl, .inl ⟨rfl, hmissing⟩⟩

/-! Lookups that stop the kernel. -/

/-- An inode without room fails `inode_check`. -/
theorem Good.full_of_holds (h : Good T f g st) (hholds : Holds f st st') (h' : Good T (f + one n) g st')
    (hplace : st'.place n = some p) (hfull : ¬ st.Room p) : inodeCheck n st' = none := by
  unfold InodeStore.Room at hfull
  push Not at hfull
  obtain ⟨k, hk, hcount⟩ := hfull
  have hrefs := h.counts.refs k
  have hpos : 0 < f k := by
    unfold maxInodeCount at hcount
    omega
  have hkn : k = n := h'.place_inj (hholds.kept k p hpos hk) hplace
  subst hkn
  obtain ⟨i, hi, -⟩ := inode_of_place hplace
  have hrefs' := h'.refs_eq hi
  rw [Pi.add_apply, one_self] at hrefs'
  exact inodeCheck_full hi (by omega)

theorem vopLookup_full (hcheck : inodeCheck n st = none) : vopLookup io n rest st = none := by
  have hends : Ends True (vopLookup io n rest) st (fun _ _ => False) (fun _ _ => False) :=
    Ends.bind (Ends.of_eq_none hcheck trivial)
  exact hends.eq_none

/-- `assert(strlen(name) <= SFS_MAX_FNAME_LEN)` -/
theorem vopLookup_long {fs ino : ℕ} (hplace : st.place n = some (.inode fs ino))
    (hlen : maxFnameLen < rest.length) : vopLookup io n rest st = none := by
  have hends : Ends True (vopLookup io n rest) st (fun _ _ => False) (fun _ _ => False) := by
    obtain ⟨i, sin, hi, hinfo, -, -⟩ := sfs_of_place hplace
    refine Ends.bind (inodeCheck_ends (fun j hj => ?_))
    have hij : j = i := Option.some.inj (hj.symm.trans hi)
    subst hij
    simp only [hinfo]
    by_cases htype : sin.type = .dir
    · simp only [htype, if_true]
      refine Ends.bind (require_ends (fun _ => ?_))
      refine Ends.bind (Ends.bind (getInode_ends (fun _ _ => ?_)))
      refine Ends.bind (Ends.modify (Ends.pure ?_))
      refine Ends.bind (Ends.onError ?_)
      exact Ends.bind (require_ends (fun hok => absurd hok (by omega)))
    · simp only [htype, if_false]
      exact panic_ends
  exact hends.eq_none

theorem vfsLookup_stops (h : Good T f g st) (hb : Base f g st) (hr : RootsOk T r f st)
    (hio : Shows io T) (hbreaks : ¬ r.Safe st path) : vfsLookup io r path st = none := by
  unfold Roots.Safe at hbreaks
  push Not at hbreaks
  obtain ⟨p, hstart, hrest, hbad⟩ := hbreaks
  have hends : Ends True (vfsLookup io r path) st (fun _ _ => False) (fun _ _ => False) := by
    unfold vfsLookup
    refine Ends.bind (((getDevice_good h hb hr hio).weaken False.elim).mono ?_ ?_)
    · intro n st₁ h₁
      obtain ⟨hgood₁, hholds₁, q, hq, hplace₁, -⟩ := h₁
      have hpq : p = q := Option.some.inj (hstart.symm.trans hq)
      subst hpq
      rw [if_pos hrest]
      refine Ends.bind (Ends.onError (Ends.of_eq_none ?_ trivial))
      by_cases hroom : st.Room p
      · obtain ⟨fs, ino, hp, hlen⟩ := hbad hroom
        subst hp
        exact vopLookup_long hplace₁ hlen
      · exact vopLookup_full (h.full_of_holds hholds₁ hgood₁ hplace₁ hroom)
    · intro e st₁ h₁
      rw [hstart] at h₁
      exact Option.some_ne_none p h₁.1
  exact hends.eq_none

/-! Paths of several components. -/

/-- `vfs_lookup` gives what the walk gives, with a reference to it, or an error and no reference. -/
def Resolves (io : VfsIo) (r : Roots) (st : InodeStore) (f g : ℕ → ℤ) (path : List Char) :
    Option Place → Prop
  | some p => ∃ n st', vfsLookup io r path st = some (.ok n, st') ∧ st'.place n = some p ∧
      Counts st' (f + one n) g
  | none => ∃ e st', vfsLookup io r path st = some (.error e, st') ∧ Counts st' f g

/-- What a path is meant to lead to. -/
def Path.leads (T : DirTree) (r : Roots) (st : InodeStore) (path : Path) : Option Place :=
  (r.startPlace st path.start).bind (T.walk path.names)

/-- No more than one component, unless one of them is missing, and none of them too long. -/
def Path.Single (T : DirTree) (r : Roots) (st : InodeStore) (path : Path) : Prop :=
  ∀ p, r.startPlace st path.start = some p → path.names ≠ [] →
    st.Room p ∧ ∀ fs ino, p = .inode fs ino →
      path.body.length ≤ maxFnameLen ∧ (path.names.length ≤ 1 ∨ T.walk path.names p = none)

/-- The lookup that takes the rest for one name, and the walk. -/
theorem target_eq_leads_iff {path : Path} (hp : path.WellFormed) :
    r.target T st path.text = path.leads T r st ↔
      ∀ p, r.startPlace st path.start = some p → path.names.length ≤ 1 ∨ T.walk path.names p = none := by
  unfold Roots.target Path.leads
  rw [Path.pathStart_text hp]
  simp only
  cases hstart : r.startPlace st path.start with
  | none =>
    exact ⟨fun _ p hbad => absurd hbad.symm (Option.some_ne_none p), fun _ => rfl⟩
  | some p =>
    simp only [Option.bind_some, Option.some.injEq, forall_eq', Path.body_eq_nil hp]
    match hnames : path.names with
    | [] => exact ⟨fun _ => .inl (Nat.zero_le 1), fun _ => rfl⟩
    | [name] =>
      have hbody : path.body = name := by
        unfold Path.body
        rw [hnames]
        rfl
      rw [if_neg (List.cons_ne_nil _ _), hbody, T.walk_one]
      exact ⟨fun _ => .inl le_rfl, fun _ => rfl⟩
    | name :: next :: names =>
      have hslash : '/' ∈ path.body := by
        unfold Path.body
        rw [hnames]
        exact slash_mem_joinNames (Nat.le_add_left 2 _)
      rw [if_neg (List.cons_ne_nil _ _), T.step_slash hslash p]
      constructor
      · intro heq
        exact .inr heq.symm
      · intro hshort
        rcases hshort with hshort | hnone
        · simp only [List.length_cons] at hshort
          omega
        · exact hnone.symm

theorem safe_text_iff {path : Path} (hp : path.WellFormed) : r.Safe st path.text ↔
    ∀ p, r.startPlace st path.start = some p → path.names ≠ [] →
      st.Room p ∧ ∀ fs ino, p = .inode fs ino → path.body.length ≤ maxFnameLen := by
  unfold Roots.Safe
  rw [Path.pathStart_text hp]
  simp only [ne_eq, Path.body_eq_nil hp]

/-- A device has nothing below it. -/
theorem walk_device {names : List (List Char)} (k : ℕ) (h : names ≠ []) :
    T.walk names (.device k) = none := by
  cases names with
  | nil => exact absurd rfl h
  | cons name names => rfl

theorem single_iff {path : Path} (hp : path.WellFormed) : path.Single T r st ↔
    r.Safe st path.text ∧ r.target T st path.text = path.leads T r st := by
  rw [safe_text_iff hp, target_eq_leads_iff hp]
  unfold Path.Single
  constructor
  · intro h
    refine ⟨fun p hstart hnames => ?_, fun p hstart => ?_⟩
    · obtain ⟨hroom, hlong⟩ := h p hstart hnames
      exact ⟨hroom, fun fs ino hfs => (hlong fs ino hfs).1⟩
    · by_cases hnames : path.names = []
      · rw [hnames]
        exact .inl (Nat.zero_le 1)
      · cases p with
        | device k => exact .inr (walk_device k hnames)
        | inode fs ino => exact ((h _ hstart hnames).2 fs ino rfl).2
  · intro h p hstart hnames
    obtain ⟨hroom, hlong⟩ := h.1 p hstart hnames
    exact ⟨hroom, fun fs ino hfs => ⟨hlong fs ino hfs, h.2 p hstart⟩⟩

/-- A path is resolved exactly when it has at most one component below a directory, or leads
nowhere, and passes the assertions. -/
theorem vfsLookup_resolves_iff (h : Good T f g st) (hb : Base f g st) (hr : RootsOk T r f st)
    (hio : Shows io T) {path : Path} (hp : path.WellFormed) :
    Resolves io r st f g path.text (path.leads T r st) ↔ path.Single T r st := by
  rw [single_iff hp]
  by_cases hsafe : r.Safe st path.text
  · have hends := vfsLookup_good h hb hr hio hsafe
    unfold Ends at hends
    rcases hrun : vfsLookup io r path.text st with _ | ⟨e | n, st'⟩
    · rw [hrun] at hends
      exact hends.elim
    · rw [hrun] at hends
      obtain ⟨hgood, -, hnone, -⟩ := hends
      rw [hnone]
      cases hleads : path.leads T r st with
      | none => exact ⟨fun _ => ⟨hsafe, rfl⟩, fun _ => ⟨e, st', hrun, hgood.counts⟩⟩
      | some p =>
        constructor
        · intro hbad
          obtain ⟨n, st₁, hok, -⟩ := hbad
          rw [hrun] at hok
          cases hok
        · intro hbad
          exact absurd hbad.2.symm (Option.some_ne_none p)
    · rw [hrun] at hends
      obtain ⟨hgood, -, q, hq, hplace⟩ := hends
      rw [hq]
      cases hleads : path.leads T r st with
      | none =>
        constructor
        · intro hbad
          obtain ⟨e, st₁, herror, -⟩ := hbad
          rw [hrun] at herror
          cases herror
        · intro hbad
          exact absurd hbad.2 (Option.some_ne_none q)
      | some p =>
        constructor
        · intro hok
          obtain ⟨m, st₁, hok, hp, -⟩ := hok
          rw [hrun] at hok
          obtain ⟨hn, hst⟩ := Prod.mk.inj (Option.some.inj hok)
          rw [← Except.ok.inj hn, ← hst, hplace] at hp
          exact ⟨hsafe, hp⟩
        · intro heq
          exact ⟨n, st', hrun, heq.2 ▸ hplace, hgood.counts⟩
  · have hstop := vfsLookup_stops h hb hr hio hsafe
    constructor
    · intro hbad
      cases hleads : path.leads T r st with
      | none =>
        rw [hleads] at hbad
        obtain ⟨e, st', hrun, -⟩ := hbad
        rw [hstop] at hrun
        exact absurd hrun.symm (Option.some_ne_none _)
      | some p =>
        rw [hleads] at hbad
        obtain ⟨n, st', hrun, -⟩ := hbad
        rw [hstop] at hrun
        exact absurd hrun.symm (Option.some_ne_none _)
    · intro hbad
      exact absurd hbad.1 hsafe

/-! A small file system in which the current directory is the root. -/

/-- A disk that holds the tree, with empty files. -/
def DirTree.disk (T : DirTree) : VfsIo where
  direntSearch fs ino name := (T.entry fs ino name).elim (.error .noEnt) .ok
  diskInode fs ino := (T.type fs ino).elim .unused (fun t => .inode t 0 1)
  fsync _ _ := .ok ⟨⟩
  truncate _ _ := .ok ⟨⟩

theorem DirTree.shows_disk (T : DirTree) : Shows T.disk T := by
  refine ⟨fun _ _ => rfl, fun h => ⟨0, 1, ?_, one_ne_zero⟩⟩
  unfold DirTree.disk
  simp only [h, Option.elim_some]

def smallTypes : ℕ → Option Fs.FileType
  | 1 => some .dir
  | 2 => some .dir
  | 3 => some .file
  | _ => none

/-- `/a` is a directory, and `/a/b` a file that is linked as `/f` too. -/
def smallEntries : List ((ℕ × List Char) × ℕ) :=
  [((1, ['.']), 1), ((1, ['.', '.']), 1), ((1, ['a']), 2), ((1, ['f']), 3), ((2, ['.']), 2),
    ((2, ['.', '.']), 1), ((2, ['b']), 3)]

theorem mem_of_lookup {α β : Type} [BEq α] [LawfulBEq α] {list : List (α × β)} {a : α} {b : β}
    (h : list.lookup a = some b) : (a, b) ∈ list := by
  obtain ⟨l₁, l₂, heq, -⟩ := List.lookup_eq_some_iff.mp h
  rw [heq]
  exact List.mem_append_right l₁ List.mem_cons_self

def smallTree : DirTree where
  type fs ino := if fs = 0 then smallTypes ino else none
  entry fs ino name := if fs = 0 then smallEntries.lookup (ino, name) else none
  kind := by
    intro fs ino t h
    split at h
    · unfold smallTypes at h
      split at h
      · exact .inl (Option.some.inj h).symm
      · exact .inl (Option.some.inj h).symm
      · exact .inr (Option.some.inj h).symm
      · exact absurd h.symm (Option.some_ne_none t)
    · exact absurd h.symm (Option.some_ne_none t)
  inDir := by
    intro fs ino name child h
    split at h
    · have hall : ∀ e ∈ smallEntries, smallTypes e.1.1 = some .dir := by decide
      rename_i hfs
      rw [if_pos hfs]
      exact hall _ (mem_of_lookup h)
    · exact absurd h.symm (Option.some_ne_none child)
  child := by
    intro fs ino name child h
    split at h
    · have hall : ∀ e ∈ smallEntries, (smallTypes e.2).isSome := by decide
      rename_i hfs
      rw [if_pos hfs]
      exact Option.isSome_iff_exists.mp (hall _ (mem_of_lookup h))
    · exact absurd h.symm (Option.some_ne_none child)
  noSlash := by
    intro fs ino name child h
    split at h
    · have hall : ∀ e ∈ smallEntries, '/' ∉ e.1.2 := by decide
      exact hall _ (mem_of_lookup h)
    · exact absurd h.symm (Option.some_ne_none child)

/-- What the inodes hold after start-up. -/
theorem boot_good {blocks : ℕ} : Good T (fun n => ((VfsState.boot blocks).store.refCount n : ℤ))
    (fun n => ((VfsState.boot blocks).store.openCount n : ℤ)) (VfsState.boot blocks).store := by
  have hplace : ∀ n fs ino, (VfsState.boot blocks).store.place n ≠ some (.inode fs ino) := by
    intro n fs ino heq
    match n with
    | 0 => exact Place.noConfusion (Option.some.inj heq)
    | 1 => exact Place.noConfusion (Option.some.inj heq)
    | 2 => exact Place.noConfusion (Option.some.inj heq)
    | n + 3 => exact Option.some_ne_none _ heq.symm
  refine ⟨⟨fun n => rfl, fun n => rfl, ?_⟩, ?_, ?_, fun _ _ => List.nodup_nil, ?_⟩
  · intro n hn
    match n, hn with
    | n + 3, _ => rfl
  · intro n i hi
    match n with
    | 0 =>
      rw [← Option.some.inj hi]
      exact trivial
    | 1 =>
      rw [← Option.some.inj hi]
      exact trivial
    | 2 =>
      rw [← Option.some.inj hi]
      exact trivial
    | n + 3 => exact absurd hi.symm (Option.some_ne_none i)
  · intro fs hash n
    constructor
    · intro hbad
      exact absurd hbad List.not_mem_nil
    · intro hbad
      obtain ⟨ino, hino, -⟩ := hbad
      exact absurd hino (hplace n fs ino)
  · intro n m fs ino hn
    exact absurd hn (hplace n fs ino)

/-- After start-up the root has been loaded as inode 3. -/
def homeStore : InodeStore :=
  let st := (VfsState.boot 0).store
  ⟨Function.update st.inode 3 (some ⟨1, 0, .sfs ⟨0, blknRoot, .dir, 0, 1, false, 1⟩⟩),
    Function.update st.hashList 0 (Function.update (st.hashList 0) (Fs.sinHashfn blknRoot) [3]), 4⟩

def homeRoots : Roots := ⟨some 3, none, (VfsState.boot 0).files.vdevList⟩

/-- The references to the devices and to the root. -/
def homeRefs : ℕ → ℤ := fun n => homeStore.refCount n

theorem homeStore_good : Good smallTree homeRefs 0 homeStore := by
  have hnew : ∀ n, (VfsState.boot 0).store.place n ≠ some (.inode 0 blknRoot) := by
    intro n heq
    obtain ⟨i, sin, hi, hinfo, -, -⟩ := sfs_of_place heq
    match n with
    | 0 => cases hi; cases hinfo
    | 1 => cases hi; cases hinfo
    | 2 => cases hi; cases hinfo
    | n + 3 => cases hi
  have hgood : Good smallTree ((fun n => ((VfsState.boot 0).store.refCount n : ℤ)) + one 3)
      (fun n => ((VfsState.boot 0).store.openCount n : ℤ)) homeStore :=
    (@boot_good smallTree 0).create rfl one_ne_zero hnew
  have hrefs : (fun n => ((VfsState.boot 0).store.refCount n : ℤ)) + one 3 = homeRefs :=
    funext (fun n => (hgood.counts.refs n).symm)
  have hopens : (fun n => ((VfsState.boot 0).store.openCount n : ℤ)) = 0 := by
    funext n
    match n with
    | 0 => rfl
    | 1 => rfl
    | 2 => rfl
    | n + 3 => rfl
  rwa [hrefs, hopens] at hgood

theorem homeStore_base : Base homeRefs 0 homeStore := by
  refine ⟨fun n => homeStore_good.nonneg n, fun n hn => ?_⟩
  match n with
  | 0 => exact Int.one_pos
  | 1 => exact Int.one_pos
  | 2 => exact Int.one_pos
  | 3 => exact Int.one_pos
  | n + 4 => exact absurd hn.symm (Option.some_ne_none _)

theorem homeRoots_ok : RootsOk smallTree homeRoots homeRefs homeStore := by
  refine ⟨fun n hn => ?_, fun n hn => absurd hn.symm (Option.some_ne_none n), fun v hv => ?_⟩
  · cases hn
    exact ⟨Int.one_pos, 0, blknRoot, rfl, rfl, rfl⟩
  · simp only [homeRoots, VfsState.boot, List.mem_cons, List.not_mem_nil, or_false] at hv
    rcases hv with rfl | rfl | rfl
    · exact rfl
    · exact fun _ => ⟨1, rfl, Int.one_pos, rfl⟩
    · exact fun _ => ⟨0, rfl, Int.one_pos, rfl⟩

/-- The path `disk0:a`. -/
def shortPath : Path := ⟨.device "disk0".toList, 0, [['a']], fun _ => 0⟩

/-- The path `a/b`. -/
def nestedPath : Path := ⟨.curdir, 0, [['a'], ['b']], fun _ => 0⟩

theorem shortPath_wellFormed : shortPath.WellFormed := by
  refine ⟨by decide, fun h => ?_, fun h => PathStart.noConfusion h⟩
  cases h
  decide

theorem vfsLookup_resolves_short : Resolves smallTree.disk homeRoots homeStore homeRefs 0 shortPath.text
    (shortPath.leads smallTree homeRoots homeStore) := by
  refine (vfsLookup_resolves_iff homeStore_good homeStore_base homeRoots_ok smallTree.shows_disk
    shortPath_wellFormed).mpr ?_
  intro p hp _
  have hroot : p = .inode 0 blknRoot := (Option.some.inj hp).symm
  subst hroot
  refine ⟨fun n hn => ?_, fun _ _ _ => ⟨by decide, .inl le_rfl⟩⟩
  match n with
  | 0 => exact Place.noConfusion (Option.some.inj hn)
  | 1 => exact Place.noConfusion (Option.some.inj hn)
  | 2 => exact Place.noConfusion (Option.some.inj hn)
  | 3 => decide
  | n + 4 => exact absurd hn.symm (Option.some_ne_none _)

/-- `a/b` is there, and `vfs_lookup` does not find it. -/
theorem nested_path_not_resolved : nestedPath.WellFormed ∧
    nestedPath.leads smallTree homeRoots homeStore = some (.inode 0 3) ∧
    ¬ Resolves smallTree.disk homeRoots homeStore homeRefs 0 nestedPath.text
      (nestedPath.leads smallTree homeRoots homeStore) := by
  refine ⟨⟨by decide, fun h => PathStart.noConfusion h, fun _ => ⟨rfl, by decide⟩⟩, rfl, ?_⟩
  intro hbad
  obtain ⟨n, st', hrun, -, -⟩ := hbad
  have hfails : (vfsLookup smallTree.disk homeRoots nestedPath.text homeStore).map Prod.fst =
      some (.error .noEnt) := rfl
  rw [hrun] at hfails
  cases hfails

end Ucore.Vfs
