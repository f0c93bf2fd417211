import Ucore.Vfs.Inode
import Mathlib.Algebra.Group.Pi.Lemmas
import Mathlib.Tactic.Abel

/-!
What the calls on inodes do to the counts. `Counts st f g` says that the reference counts
are `f` and the open counts `g`; a call that takes a reference to `n` adds one at `n`, and
one that fails gives back what it has taken.
-/
namespace Ucore.Vfs

open Library Call

structure Counts (st : InodeStore) (f g : ℕ → ℤ) : Prop where
  refs : ∀ n, (st.refCount n : ℤ) = f n
  opens : ∀ n, (st.openCount n : ℤ) = g n
  fresh : ∀ n, st.nextNode ≤ n → st.inode n = none

/-- One at `n`. -/
def one (n : ℕ) : ℕ → ℤ := Pi.single n 1

/-- The endings of a call that leaves the counts alone. -/
def Steady {α : Type} (x : StoreCall α) : Prop :=
  ∀ st f g, Counts st f g → Ends True x st (fun _ st' => Counts st' f g) (fun _ st' => Counts st' f g)

/-- A call that takes a reference to its result, if it has one. -/
def Takes (x : StoreCall ℕ) : Prop :=
  ∀ st f g, Counts st f g →
    Ends True x st (fun n st' => Counts st' (f + one n) g) (fun _ st' => Counts st' f g)

variable {st : InodeStore} {f g : ℕ → ℤ} {n : ℕ} {i i' : VfsInode} {α β : Type} {io : VfsIo}

/-! One inode is written. -/

theorem refCount_update {o : Option VfsInode} {hash : ℕ → ℕ → List ℕ} {next : ℕ} (m : ℕ) :
    InodeStore.refCount ⟨Function.update st.inode n o, hash, next⟩ m =
      if m = n then o.elim 0 VfsInode.refCount else st.refCount m := by
  unfold InodeStore.refCount
  by_cases hmn : m = n
  · rw [if_pos hmn, hmn]
    simp only [Function.update_self]
  · rw [if_neg hmn]
    simp only [Function.update_of_ne hmn]

theorem openCount_update {o : Option VfsInode} {hash : ℕ → ℕ → List ℕ} {next : ℕ} (m : ℕ) :
    InodeStore.openCount ⟨Function.update st.inode n o, hash, next⟩ m =
      if m = n then o.elim 0 VfsInode.openCount else st.openCount m := by
  unfold InodeStore.openCount
  by_cases hmn : m = n
  · rw [if_pos hmn, hmn]
    simp only [Function.update_self]
  · rw [if_neg hmn]
    simp only [Function.update_of_ne hmn]

/-- The counts of `n` change by `a` and `b`. -/
theorem Counts.update (h : Counts st f g) {o : Option VfsInode} {hash : ℕ → ℕ → List ℕ}
    {next : ℕ} {a b : ℤ} (href : ((o.elim 0 VfsInode.refCount : ℕ) : ℤ) = st.refCount n + a)
    (hopen : ((o.elim 0 VfsInode.openCount : ℕ) : ℤ) = st.openCount n + b)
    (hfresh : ∀ m, next ≤ m → Function.update st.inode n o m = none) :
    Counts ⟨Function.update st.inode n o, hash, next⟩ (f + Pi.single n a) (g + Pi.single n b) where
  refs m := by
    rw [refCount_update]
    by_cases hmn : m = n
    · rw [if_pos hmn, href, hmn, Pi.add_apply, Pi.single_eq_same, h.refs]
    · rw [if_neg hmn, Pi.add_apply, Pi.single_eq_of_ne hmn, h.refs, add_zero]
  opens m := by
    rw [openCount_update]
    by_cases hmn : m = n
    · rw [if_pos hmn, hopen, hmn, Pi.add_apply, Pi.single_eq_same, h.opens]
    · rw [if_neg hmn, Pi.add_apply, Pi.single_eq_of_ne hmn, h.opens, add_zero]
  fresh := hfresh

/-- An inode in memory has a number that was given out. -/
theorem Counts.fresh_update (h : Counts st f g) (hi : st.inode n = some i) (o : Option VfsInode)
    (m : ℕ) (hm : st.nextNode ≤ m) : Function.update st.inode n o m = none := by
  have hne : m ≠ n := by
    intro heq
    have hnone := h.fresh m hm
    rw [heq, hi] at hnone
    exact absurd hnone (Option.some_ne_none i)
  rw [Function.update_of_ne hne]
  exact h.fresh m hm

theorem refCount_of_inode (hi : st.inode n = some i) : st.refCount n = i.refCount := by
  unfold InodeStore.refCount
  rw [hi]
  rfl

theorem openCount_of_inode (hi : st.inode n = some i) : st.openCount n = i.openCount := by
  unfold InodeStore.openCount
  rw [hi]
  rfl

theorem Counts.set (h : Counts st f g) (hi : st.inode n = some i) (i' : VfsInode) {a b : ℤ}
    (href : (i'.refCount : ℤ) = i.refCount + a) (hopen : (i'.openCount : ℤ) = i.openCount + b) :
    Counts { st with inode := Function.update st.inode n (some i') } (f + Pi.single n a)
      (g + Pi.single n b) := by
  apply h.update
  · rw [refCount_of_inode hi]
    exact href
  · rw [openCount_of_inode hi]
    exact hopen
  · exact h.fresh_update hi (some i')

/-- Only the rest of the inode is written. -/
theorem Counts.keep (h : Counts st f g) (hi : st.inode n = some i) (href : i'.refCount = i.refCount)
    (hopen : i'.openCount = i.openCount) :
    Counts { st with inode := Function.update st.inode n (some i') } f g := by
  have hset := @Counts.set st f g n i h hi i' 0 0 (by rw [href, add_zero]) (by rw [hopen, add_zero])
  rwa [Pi.single_zero, add_zero, add_zero] at hset

/-- An inode without references goes. -/
theorem Counts.kill (h : Counts st f g) (hi : st.inode n = some i) (href : i.refCount = 0)
    (hopen : i.openCount = 0) : Counts { st with inode := Function.update st.inode n none } f g := by
  have hkill := @Counts.update st f g n h none st.hashList st.nextNode 0 0
    (by rw [refCount_of_inode hi, href]; rfl) (by rw [openCount_of_inode hi, hopen]; rfl)
    (h.fresh_update hi none)
  rwa [Pi.single_zero, add_zero, add_zero] at hkill

/-- A new inode has one reference. -/
theorem Counts.create (h : Counts st f g) {info : InodeInfo} {hash : ℕ → ℕ → List ℕ} :
    Counts ⟨Function.update st.inode st.nextNode (some ⟨1, 0, info⟩), hash, st.nextNode + 1⟩
      (f + one st.nextNode) g := by
  have hnone := h.fresh st.nextNode le_rfl
  have hnew := @Counts.update st f g st.nextNode h (some ⟨1, 0, info⟩) hash (st.nextNode + 1) 1 0
    (by unfold InodeStore.refCount; rw [hnone]; rfl)
    (by unfold InodeStore.openCount; rw [hnone]; rfl) ?_
  · rwa [Pi.single_zero, add_zero] at hnew
  · intro m hm
    have hne : m ≠ st.nextNode := by omega
    rw [Function.update_of_ne hne]
    exact h.fresh m (by omega)

/-! Rules for the single calls. -/

theorem getInode_ends {Q : VfsInode → InodeStore → Prop} {E : VfsError → InodeStore → Prop}
    (h : ∀ i, st.inode n = some i → Q i st) : Ends True (getInode n) st Q E := by
  unfold Ends getInode
  rcases hi : st.inode n with _ | i
  · trivial
  · exact h i hi

theorem require_ends {c : Prop} [Decidable c] {Q : PUnit → InodeStore → Prop}
    {E : VfsError → InodeStore → Prop} (h : c → Q ⟨⟩ st) :
    Ends True (require (fun _ => c) : StoreCall PUnit) st Q E :=
  Ends.require h (fun _ => trivial)

theorem inodeCheck_ends {Q : VfsInode → InodeStore → Prop} {E : VfsError → InodeStore → Prop}
    (h : ∀ i, st.inode n = some i → Q i st) : Ends True (inodeCheck n) st Q E := by
  unfold inodeCheck
  refine Ends.bind (getInode_ends (fun i hi => ?_))
  exact Ends.bind (require_ends (fun _ => Ends.pure (h i hi)))

theorem panic_ends {Q : α → InodeStore → Prop} {E : VfsError → InodeStore → Prop} :
    Ends True (panic : StoreCall α) st Q E := Ends.panic trivial

/-! Calls that leave the counts alone. -/

theorem Steady.pure (a : α) : Steady (pure a : StoreCall α) := fun _ _ _ h => Ends.pure h

theorem Steady.fail (e : VfsError) : Steady (fail e : StoreCall α) := fun _ _ _ h => Ends.fail h

theorem Steady.panic : Steady (panic : StoreCall α) := fun _ _ _ _ => panic_ends

theorem Steady.bind {x : StoreCall α} {y : α → StoreCall β} (hx : Steady x)
    (hy : ∀ a, Steady (y a)) : Steady (x >>= y) := by
  intro st f g h
  refine Ends.bind ((hx st f g h).mono ?_ (fun _ _ he => he))
  intro a st' h'
  exact hy a st' f g h'

theorem Steady.ite {c : Prop} [Decidable c] {x y : StoreCall α} (hx : Steady x) (hy : Steady y) :
    Steady (if c then x else y) := by
  by_cases hc : c
  · rw [if_pos hc]
    exact hx
  · rw [if_neg hc]
    exact hy

theorem Steady.warn {x : StoreCall α} (hx : Steady x) : Steady (warn x) := fun st f g h =>
  Ends.warn ((hx st f g h).mono (fun _ _ h' => h') (fun _ _ h' => h'))

/-- A warned call has no error. -/
theorem Steady.warn_ends {x : StoreCall α} (hx : Steady x) (h : Counts st f g)
    {E : VfsError → InodeStore → Prop} :
    Ends True (Call.warn x) st (fun _ st' => Counts st' f g) E :=
  Ends.warn ((hx st f g h).mono (fun _ _ h' => h') (fun _ _ h' => h'))

/-- What is written in an inode that was read before. -/
theorem setInode_keep (h : Counts st f g) (hi : st.inode n = some i) {info : InodeInfo}
    {E : VfsError → InodeStore → Prop} :
    Ends True (setInode n { i with info := info }) st (fun _ st' => Counts st' f g) E :=
  Ends.modify (h.keep hi rfl rfl)

theorem sfsFsync_steady {sin : SfsNode} (h : Counts st f g) (hi : st.inode n = some i) :
    Ends True (sfsFsync io n i sin) st (fun _ st' => Counts st' f g) (fun _ st' => Counts st' f g) := by
  unfold sfsFsync
  by_cases hd : sin.dirty = true
  · rw [if_pos hd]
    cases io.fsync sin.fs sin.ino with
    | ok _ => exact setInode_keep h hi
    | error e => exact Ends.fail h
  · rw [if_neg hd]
    exact Ends.pure h

theorem vopFsync_steady : Steady (vopFsync io n) := by
  intro st f g h
  unfold vopFsync
  refine Ends.bind (inodeCheck_ends (fun i hi => ?_))
  cases i.info with
  | sfs sin => exact sfsFsync_steady h hi
  | device dev => exact panic_ends

theorem vopClose_steady : Steady (vopClose io n) := by
  intro st f g h
  unfold vopClose
  refine Ends.bind (inodeCheck_ends (fun i _ => ?_))
  cases i.info with
  | sfs sin => exact vopFsync_steady st f g h
  | device dev => exact Ends.pure h

theorem sfsTruncfile_steady {sin : SfsNode} (h : Counts st f g) (hi : st.inode n = some i) :
    Ends True (sfsTruncfile io n i sin) st (fun _ st' => Counts st' f g)
      (fun _ st' => Counts st' f g) := by
  unfold sfsTruncfile
  by_cases hsize : sin.size = 0
  · rw [if_pos hsize]
    exact Ends.pure h
  · rw [if_neg hsize]
    cases io.truncate sin.fs sin.ino with
    | ok _ => exact setInode_keep h hi
    | error e =>
      refine Ends.bind ((setInode_keep h hi).mono ?_ (fun _ _ he => he))
      intro _ st' h'
      exact Ends.fail h'

theorem vopTruncate_steady : Steady (vopTruncate io n) := by
  intro st f g h
  unfold vopTruncate
  refine Ends.bind (inodeCheck_ends (fun i hi => ?_))
  cases i.info with
  | sfs sin =>
    by_cases htype : sin.type = .file
    · simp only [htype, if_true]
      exact sfsTruncfile_steady h hi
    · simp only [htype, if_false]
      exact panic_ends
  | device dev => exact panic_ends

theorem vopFstat_steady : Steady (vopFstat n) := by
  intro st f g h
  unfold vopFstat
  refine Ends.bind (inodeCheck_ends (fun i _ => ?_))
  cases i.info with
  | sfs sin => exact Ends.pure h
  | device dev => exact Ends.pure h

theorem vopIsDir_steady : Steady (vopIsDir n) := fun _ _ _ h =>
  Ends.bind (inodeCheck_ends (fun _ _ => Ends.pure h))

theorem vopOpen_steady {flags : ℕ} : Steady (vopOpen n flags) := by
  intro st f g h
  unfold vopOpen
  refine Ends.bind (inodeCheck_ends (fun i _ => ?_))
  cases openCheck flags i.info with
  | ok _ => exact Ends.pure h
  | error e => exact Ends.fail h

theorem truncateIf_steady {flags : ℕ} : Steady (truncateIf io n flags) :=
  Steady.ite vopTruncate_steady (Steady.pure _)

/-! The last reference. -/

theorem inodeKill_steady {sin : SfsNode} : Steady (inodeKill n sin) := by
  intro st f g h
  unfold inodeKill
  refine Ends.bind (Ends.modify ?_)
  refine Ends.bind (getInode_ends (fun i hi => ?_))
  refine Ends.bind (require_ends (fun hz => ?_))
  refine Ends.modify ?_
  have hst : st.inode n = some i := hi
  have hkill := h.kill hst hz.1 hz.2
  exact ⟨hkill.refs, hkill.opens, hkill.fresh⟩

theorem syncIfDirty_steady : Steady (syncIfDirty io n) := by
  intro st f g h
  unfold syncIfDirty
  refine Ends.bind (getInode_ends (fun i _ => ?_))
  cases i.info with
  | sfs sin => exact Steady.ite vopFsync_steady (Steady.pure _) st f g h
  | device dev => exact panic_ends

theorem syncAndKill_steady {sin : SfsNode} : Steady (syncAndKill io n sin) :=
  syncIfDirty_steady.bind (fun _ => inodeKill_steady)

theorem sfsReclaim_steady {sin : SfsNode} (h : Counts st f g) (hi : st.inode n = some i) :
    Ends True (sfsReclaim io n i sin) st (fun _ st' => Counts st' f g)
      (fun _ st' => Counts st' f g) := by
  unfold sfsReclaim
  refine Ends.bind (require_ends (fun _ => ?_))
  refine Ends.bind ((setInode_keep h hi).mono ?_ (fun _ _ he => he))
  intro _ st' h'
  refine Steady.ite (Steady.fail _) (Steady.ite ?_ syncAndKill_steady) st' f g h'
  exact vopTruncate_steady.bind (fun _ => syncAndKill_steady)

theorem vopReclaim_steady : Steady (vopReclaim io n) := by
  intro st f g h
  unfold vopReclaim
  refine Ends.bind (inodeCheck_ends (fun i hi => ?_))
  cases i.info with
  | sfs sin => exact sfsReclaim_steady h hi
  | device dev => exact panic_ends

/-! Calls that change a count. -/

theorem inodeRefInc_ends (h : Counts st f g) {E : VfsError → InodeStore → Prop} :
    Ends True (inodeRefInc n) st (fun _ st' => Counts st' (f + one n) g) E := by
  unfold inodeRefInc
  refine Ends.bind (getInode_ends (fun i hi => ?_))
  refine Ends.bind (Ends.modify (Ends.pure ?_))
  have hset := @Counts.set st f g n i h hi { i with refCount := i.refCount + 1 } 1 0
    (Nat.cast_succ _) (add_zero _).symm
  rwa [Pi.single_zero, add_zero] at hset

theorem inodeOpenInc_ends (h : Counts st f g) {E : VfsError → InodeStore → Prop} :
    Ends True (inodeOpenInc n) st (fun _ st' => Counts st' f (g + one n)) E := by
  unfold inodeOpenInc
  refine Ends.bind (getInode_ends (fun i hi => ?_))
  refine Ends.modify ?_
  have hset := @Counts.set st f g n i h hi { i with openCount := i.openCount + 1 } 0 1
    (add_zero _).symm (Nat.cast_succ _)
  rwa [Pi.single_zero, add_zero] at hset

theorem inodeRefDec_ends (h : Counts st f g) {E : VfsError → InodeStore → Prop} :
    Ends True (inodeRefDec io n) st (fun _ st' => Counts st' (f - one n) g) E := by
  unfold inodeRefDec
  refine Ends.bind (getInode_ends (fun i hi => ?_))
  refine Ends.bind (require_ends (fun hpos => ?_))
  have hset := @Counts.set st f g n i h hi { i with refCount := i.refCount - 1 } (-1) 0
    (Nat.cast_pred hpos) (add_zero _).symm
  rw [Pi.single_zero, add_zero, Pi.single_neg, ← sub_eq_add_neg] at hset
  refine Ends.bind (Ends.modify ?_)
  by_cases hz : i.refCount - 1 = 0
  · rw [if_pos hz]
    exact vopReclaim_steady.warn_ends hset
  · rw [if_neg hz]
    exact Ends.pure hset

theorem inodeOpenDec_ends (h : Counts st f g) {E : VfsError → InodeStore → Prop} :
    Ends True (inodeOpenDec io n) st (fun _ st' => Counts st' f (g - one n)) E := by
  unfold inodeOpenDec
  refine Ends.bind (getInode_ends (fun i hi => ?_))
  refine Ends.bind (require_ends (fun hpos => ?_))
  have hset := @Counts.set st f g n i h hi { i with openCount := i.openCount - 1 } 0 (-1)
    (add_zero _).symm (Nat.cast_pred hpos)
  rw [Pi.single_zero, add_zero, Pi.single_neg, ← sub_eq_add_neg] at hset
  refine Ends.bind (Ends.modify ?_)
  by_cases hz : i.openCount - 1 = 0
  · rw [if_pos hz]
    exact vopClose_steady.warn_ends hset
  · rw [if_neg hz]
    exact Ends.pure hset

theorem vfsClose_ends (h : Counts st f g) {E : VfsError → InodeStore → Prop} :
    Ends True (vfsClose io n) st (fun _ st' => Counts st' (f - one n) (g - one n)) E :=
  Ends.bind ((inodeOpenDec_ends h).mono (fun _ _ h' => inodeRefDec_ends h') (fun _ _ he => he))

/-! Calls that take a reference to their result. -/

theorem Takes.fail (e : VfsError) : Takes (fail e) := fun _ _ _ h => Ends.fail h

theorem Takes.panic : Takes panic := fun _ _ _ _ => panic_ends

theorem Takes.ite {c : Prop} [Decidable c] {x y : StoreCall ℕ} (hx : Takes x) (hy : Takes y) :
    Takes (if c then x else y) := by
  by_cases hc : c
  · rw [if_pos hc]
    exact hx
  · rw [if_neg hc]
    exact hy

theorem Takes.refInc : Takes (inodeRefInc n >>= fun _ => Pure.pure n) := fun _ _ _ h =>
  Ends.bind ((inodeRefInc_ends h).mono (fun _ _ h' => Ends.pure h') (fun _ _ he => he))

theorem Takes.orPanic {x : StoreCall ℕ} (hx : Takes x) : Takes (orPanic x) := fun st f g h =>
  Ends.orPanic ((hx st f g h).mono (fun _ _ h' => h') (fun _ _ _ => trivial))

/-- The reference to `n` that was taken before is given back in both endings. -/
theorem Takes.andDrop {x : StoreCall ℕ} (hx : Takes x) (h : Counts st (f + one n) g) :
    Ends True (onError x (inodeRefDec io n) >>= fun m => inodeRefDec io n >>= fun _ => Pure.pure m) st
      (fun m st' => Counts st' (f + one m) g) (fun _ st' => Counts st' f g) := by
  refine Ends.bind (Ends.onError ((hx st _ g h).mono ?_ ?_))
  · intro m st' h'
    refine Ends.bind ((inodeRefDec_ends h').mono ?_ (fun _ _ he => he))
    intro _ st'' h''
    rw [add_sub_right_comm, add_sub_cancel_right] at h''
    exact Ends.pure h''
  · intro _ st' h'
    refine (inodeRefDec_ends h').mono ?_ (fun _ _ he => he)
    intro _ st'' h''
    rwa [add_sub_cancel_right] at h''

theorem findHash_steady {fs ino : ℕ} : Steady (findHash fs ino) := by
  intro st f g h
  unfold Ends findHash
  rcases searchHash st ino (st.hashList fs (Fs.sinHashfn ino)) with _ | r
  · trivial
  · exact h

theorem lookupHit_takes : Takes (lookupHit n) := by
  intro st f g h
  unfold lookupHit
  refine Ends.bind ((inodeRefInc_ends h).mono ?_ (fun _ _ he => he))
  intro refs st' h'
  by_cases hone : refs = 1
  · rw [if_pos hone]
    -- the error ending is that of `countReclaim`, which has none
    refine Ends.bind (?_ : Ends True (countReclaim n) st' _ _)
    unfold countReclaim
    refine Ends.bind (getInode_ends (fun i hi => ?_))
    cases i.info with
    | sfs sin => exact Ends.modify (Ends.pure (h'.keep hi rfl rfl))
    | device dev => exact panic_ends
  · rw [if_neg hone]
    exact Ends.pure h'

theorem sfsCreateInode_takes {fs ino size nlinks : ℕ} {type : Fs.FileType} :
    Takes (sfsCreateInode fs ino type size nlinks) := by
  intro st f g h
  unfold sfsCreateInode
  refine Ends.bind (require_ends (fun _ => ?_))
  refine Ends.bind (Ends.read ?_)
  exact Ends.bind (Ends.modify (Ends.pure h.create))

theorem sfsLoadInode_takes {fs ino : ℕ} : Takes (sfsLoadInode io fs ino) := by
  intro st f g h
  unfold sfsLoadInode
  refine Ends.bind ((findHash_steady st f g h).mono ?_ (fun _ _ he => he))
  intro found st' h'
  cases found with
  | some m => exact lookupHit_takes st' f g h'
  | none =>
    cases io.diskInode fs ino with
    | unused => exact panic_ends
    | failed e => exact Ends.fail h'
    | inode type size nlinks =>
      exact Ends.bind (require_ends (fun _ => sfsCreateInode_takes st' f g h'))

theorem sfsGetRoot_takes {fs : ℕ} : Takes (sfsGetRoot io fs) := sfsLoadInode_takes.orPanic

theorem sfsLookupOnce_takes {sin : SfsNode} {name : List Char} :
    Takes (sfsLookupOnce io sin name) := by
  intro st f g h
  unfold sfsLookupOnce
  refine Ends.bind (require_ends (fun _ => ?_))
  cases io.direntSearch sin.fs sin.ino name with
  | error e => exact Ends.fail h
  | ok ino => exact sfsLoadInode_takes st f g h

theorem sfsLookup_takes {sin : SfsNode} {path : List Char} : Takes (sfsLookup io n sin path) := by
  intro st f g h
  unfold sfsLookup
  refine Ends.bind (require_ends (fun _ => ?_))
  refine Ends.bind ((inodeRefInc_ends h).mono ?_ (fun _ _ he => he))
  intro _ st' h'
  exact sfsLookupOnce_takes.andDrop h'

theorem vopLookup_takes {path : List Char} : Takes (vopLookup io n path) := by
  intro st f g h
  unfold vopLookup
  refine Ends.bind (inodeCheck_ends (fun i _ => ?_))
  cases i.info with
  | device dev =>
    exact Takes.ite (Takes.fail _) Takes.refInc st f g h
  | sfs sin =>
    by_cases htype : sin.type = .dir
    · simp only [htype, if_true]
      exact sfsLookup_takes st f g h
    · simp only [htype, if_false]
      exact panic_ends

theorem takeRoot_takes {e : VfsError} {o : Option ℕ} : Takes (takeRoot e o) := by
  cases o with
  | none => exact Takes.fail e
  | some m => exact Takes.refInc

theorem vfsGetRoot_takes {r : Roots} {devname : List Char} : Takes (vfsGetRoot io r devname) := by
  unfold vfsGetRoot
  cases r.vdevList.find? (fun v => v.devname == devname) with
  | none => exact Takes.fail _
  | some v =>
    simp only
    cases v.fs with
    | some fs => exact sfsGetRoot_takes
    | none => exact Takes.ite (Takes.fail _) takeRoot_takes.orPanic

theorem getDevice_takes {r : Roots} {start : PathStart} : Takes (getDevice io r start) := by
  cases start with
  | curdir => exact takeRoot_takes
  | device name => exact vfsGetRoot_takes
  | bootfs => exact takeRoot_takes
  | curfs =>
    intro st f g h
    refine Ends.bind ((takeRoot_takes st f g h).mono ?_ (fun _ _ he => he))
    intro node st' h'
    -- a failing load of the root is a panic
    have hroot : Ends True (rootOf io node) st' (fun m st'' => Counts st'' (f + one node + one m) g)
        (fun _ st'' => Counts st'' f g) := by
      unfold rootOf
      refine Ends.bind (getInode_ends (fun i _ => ?_))
      cases i.info with
      | device dev => exact panic_ends
      | sfs sin =>
        exact Ends.orPanic ((sfsLoadInode_takes st' _ g h').mono (fun _ _ h'' => h'') (fun _ _ _ => trivial))
    refine Ends.bind (hroot.mono ?_ (fun _ _ he => he))
    intro root st'' h''
    refine Ends.bind ((inodeRefDec_ends h'').mono ?_ (fun _ _ he => he))
    intro _ st₃ h₃
    rw [add_sub_right_comm, add_sub_cancel_right] at h₃
    exact Ends.pure h₃

theorem vfsLookup_takes {r : Roots} {path : List Char} : Takes (vfsLookup io r path) := by
  intro st f g h
  unfold vfsLookup
  refine Ends.bind ((getDevice_takes st f g h).mono ?_ (fun _ _ he => he))
  intro node st' h'
  by_cases hp : (pathStart path).2 ≠ []
  · rw [if_pos hp]
    exact vopLookup_takes.andDrop h'
  · rw [if_neg hp]
    exact Ends.pure h'

/-! Opening. -/

/-- Unless an existing node is found with both `O_CREAT` and `O_EXCL`, the node of an open
that fails is given back. -/
theorem findOrCreate_ends {r : Roots} {path : List Char} {flags : ℕ} (h : Counts st f g)
    (hexcl : ∀ m st', vfsLookup io r path st = some (.ok m, st') →
      (hasFlag flags oExcl && hasFlag flags oCreat) = false) :
    Ends True (findOrCreate io r path flags) st (fun m st' => Counts st' (f + one m) g)
      (fun _ st' => Counts st' f g) := by
  have hlook := @vfsLookup_takes io r path st f g h
  unfold findOrCreate
  unfold Ends at hlook
  unfold Ends branch
  rcases hx : vfsLookup io r path st with _ | ⟨e | m, st'⟩
  · trivial
  · rw [hx] at hlook
    simp only
    by_cases hc : e = .noEnt ∧ hasFlag flags oCreat = true
    · rw [if_pos hc]
      refine Ends.bind (?_ : Ends True (vfsLookupParent io r (pathLeft path)) st' _ _)
      unfold vfsLookupParent
      refine Ends.bind ((getDevice_takes st' f g hlook).mono ?_ (fun _ _ he => he))
      intro dir st'' _
      exact Ends.pure panic_ends
    · rw [if_neg hc]
      exact hlook
  · rw [hx] at hlook
    simp only [hexcl m st' hx, Bool.false_eq_true, if_false]
    exact hlook

theorem vfsOpen_ends {r : Roots} {path : List Char} {flags : ℕ} (h : Counts st f g)
    (hexcl : vfsFlagsOk flags = true → ∀ m st', vfsLookup io r path st = some (.ok m, st') →
      (hasFlag flags oExcl && hasFlag flags oCreat) = false) :
    Ends True (vfsOpen io r path flags) st (fun m st' => Counts st' (f + one m) (g + one m))
      (fun _ st' => Counts st' f g) := by
  unfold vfsOpen checkFlags
  by_cases hflags : vfsFlagsOk flags = true
  · rw [if_pos hflags]
    refine Ends.bind (Ends.pure ?_)
    refine Ends.bind ((findOrCreate_ends h (hexcl hflags)).mono ?_ (fun _ _ he => he))
    intro node st₁ h₁
    refine Ends.bind (Ends.onError ((vopOpen_steady st₁ _ g h₁).mono ?_ ?_))
    · intro _ st₂ h₂
      refine Ends.bind ((inodeOpenInc_ends h₂).mono ?_ (fun _ _ he => he))
      intro _ st₃ h₃
      refine Ends.bind (Ends.onError ((truncateIf_steady st₃ _ _ h₃).mono ?_ ?_))
      · intro _ st₄ h₄
        exact Ends.pure h₄
      · intro _ st₄ h₄
        refine (vfsClose_ends h₄).mono ?_ (fun _ _ he => he)
        intro _ st₅ h₅
        rwa [add_sub_cancel_right, add_sub_cancel_right] at h₅
    · intro _ st₂ h₂
      refine (inodeRefDec_ends h₂).mono ?_ (fun _ _ he => he)
      intro _ st₃ h₃
      rwa [add_sub_cancel_right] at h₃
  · rw [if_neg hflags]
    exact Ends.bind (Ends.fail h)

end Ucore.Vfs
