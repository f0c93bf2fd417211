import Ucore.Vfs.DirTree
import Ucore.Vfs.InodeCounts

/-!
The inodes in memory are those of a directory tree, one for each place. `Good T f g st` says so
with the counts, and every call below keeps it without a panic.
-/
namespace Ucore.Vfs

open Library Call
open Fs (FileType sinHashfn)

/-- What the disk answers when `T` is on it. -/
structure Shows (io : VfsIo) (T : DirTree) : Prop where
  search : ∀ {fs ino name}, T.type fs ino = some .dir → name.length ≤ maxFnameLen →
    io.direntSearch fs ino name = (T.entry fs ino name).elim (.error .noEnt) .ok
  load : ∀ {fs ino t}, T.type fs ino = some t →
    ∃ size nlinks, io.diskInode fs ino = .inode t size nlinks ∧ nlinks ≠ 0

def InodeInfo.place (n : ℕ) : InodeInfo → Place
  | .device _ => .device n
  | .sfs sin => .inode sin.fs sin.ino

def InodeStore.place (st : InodeStore) (n : ℕ) : Option Place :=
  (st.inode n).map (fun i => i.info.place n)

/-- An inode is as the tree has it, and accounts for a reclaim while it has references. -/
def VfsInode.Fits (T : DirTree) (i : VfsInode) : Prop :=
  match i.info with
  | .device _ => True
  | .sfs sin => T.type sin.fs sin.ino = some sin.type ∧ sin.nlinks ≠ 0 ∧
      sin.reclaimCount = if i.refCount = 0 then 0 else 1

structure Good (T : DirTree) (f g : ℕ → ℤ) (st : InodeStore) : Prop where
  counts : Counts st f g
  fits : ∀ n i, st.inode n = some i → i.Fits T
  listed : ∀ fs h n, n ∈ st.hashList fs h ↔
    ∃ ino, st.place n = some (.inode fs ino) ∧ sinHashfn ino = h
  nodup : ∀ fs h, (st.hashList fs h).Nodup
  once : ∀ n m fs ino, st.place n = some (.inode fs ino) → st.place m = some (.inode fs ino) → n = m

/-- Opens have references, and the devices are held. -/
structure Base (f g : ℕ → ℤ) (st : InodeStore) : Prop where
  le : ∀ n, g n ≤ f n
  devices : ∀ n, st.place n = some (.device n) → 0 < f n

/-- What has references stays where it is, and no device is new. -/
structure Holds (f : ℕ → ℤ) (st st' : InodeStore) : Prop where
  kept : ∀ n p, 0 < f n → st.place n = some p → st'.place n = some p
  devices : ∀ n, st'.place n = some (.device n) → st.place n = some (.device n)

variable {T : DirTree} {st st' st'' : InodeStore} {f f' g g' : ℕ → ℤ} {n : ℕ} {i i' : VfsInode}
  {io : VfsIo} {α : Type} {p : Prop}

theorem Holds.refl (f : ℕ → ℤ) (st : InodeStore) : Holds f st st :=
  ⟨fun _ _ _ h => h, fun _ h => h⟩

theorem Holds.trans (h : Holds f st st') (h' : Holds f st' st'') : Holds f st st'' :=
  ⟨fun n q hpos hq => h'.kept n q hpos (h.kept n q hpos hq), fun n hn => h.devices n (h'.devices n hn)⟩

/-- Fewer references hold less. -/
theorem Holds.less (h : Holds f' st st') (hle : ∀ n, f n ≤ f' n) : Holds f st st' :=
  ⟨fun n q hpos hq => h.kept n q (lt_of_lt_of_le hpos (hle n)) hq, h.devices⟩

theorem Holds.of_place (h : st'.place = st.place) : Holds f st st' := by
  refine ⟨fun n q _ hq => ?_, fun n hn => ?_⟩
  · rw [h]
    exact hq
  · rw [← h]
    exact hn

theorem Base.holds (h : Base f g st) (h' : Holds f st st') : Base f g st' :=
  ⟨h.le, fun n hn => h.devices n (h'.devices n hn)⟩

theorem one_nonneg (n k : ℕ) : 0 ≤ one n k := by
  unfold one
  rw [Pi.single_apply]
  split
  · exact Int.one_nonneg
  · exact le_rfl

theorem one_self (n : ℕ) : one n n = 1 := Pi.single_eq_same n 1

theorem Base.add (h : Base f g st) (n : ℕ) : Base (f + one n) g st := by
  have hone := one_nonneg n
  refine ⟨fun k => ?_, fun k hk => ?_⟩
  · have hle := h.le k
    have hk := hone k
    simp only [Pi.add_apply]
    omega
  · have hpos := h.devices k hk
    have hk := hone k
    simp only [Pi.add_apply]
    omega

/-- A reference more holds no less. -/
theorem Holds.of_add (h : Holds (f + one n) st st') : Holds f st st' := by
  refine h.less (fun k => ?_)
  have hone := one_nonneg n k
  rw [Pi.add_apply]
  omega

theorem place_of_inode (hi : st.inode n = some i) : st.place n = some (i.info.place n) := by
  unfold InodeStore.place
  rw [hi]
  rfl

theorem inode_of_place {q : Place} (h : st.place n = some q) :
    ∃ i, st.inode n = some i ∧ i.info.place n = q := Option.map_eq_some_iff.mp h

theorem sfs_of_place {fs ino : ℕ} (h : st.place n = some (.inode fs ino)) :
    ∃ i sin, st.inode n = some i ∧ i.info = .sfs sin ∧ sin.fs = fs ∧ sin.ino = ino := by
  obtain ⟨i, hi, hplace⟩ := inode_of_place h
  cases hinfo : i.info with
  | device dev =>
    rw [hinfo] at hplace
    exact Place.noConfusion hplace
  | sfs sin =>
    rw [hinfo] at hplace
    obtain ⟨hfs, hino⟩ := Place.inode.inj hplace
    exact ⟨i, sin, hi, hinfo, hfs, hino⟩

/-- An inode is written that stays where it is. -/
theorem place_set (hi : st.inode n = some i) (hplace : i'.info.place n = i.info.place n) :
    ({ st with inode := Function.update st.inode n (some i') } : InodeStore).place = st.place := by
  funext k
  unfold InodeStore.place
  by_cases hk : k = n
  · simp only [hk, Function.update_self, hi]
    exact congrArg some hplace
  · simp only [Function.update_of_ne hk]

namespace Good

theorem nonneg (h : Good T f g st) (n : ℕ) : 0 ≤ f n := by
  rw [← h.counts.refs n]
  exact Int.natCast_nonneg _

theorem opens_nonneg (h : Good T f g st) (n : ℕ) : 0 ≤ g n := by
  rw [← h.counts.opens n]
  exact Int.natCast_nonneg _

theorem refs_eq (h : Good T f g st) (hi : st.inode n = some i) : (i.refCount : ℤ) = f n := by
  rw [← refCount_of_inode hi]
  exact h.counts.refs n

theorem opens_eq (h : Good T f g st) (hi : st.inode n = some i) : (i.openCount : ℤ) = g n := by
  rw [← openCount_of_inode hi]
  exact h.counts.opens n

/-- What has references is in memory. -/
theorem inode (h : Good T f g st) (hpos : 0 < f n) : ∃ i, st.inode n = some i := by
  have hrefs := h.counts.refs n
  unfold InodeStore.refCount at hrefs
  cases hi : st.inode n with
  | none =>
    rw [hi, Option.elim_none, Nat.cast_zero] at hrefs
    omega
  | some i => exact ⟨i, rfl⟩

theorem set (h : Good T f g st) (hi : st.inode n = some i)
    (hplace : i'.info.place n = i.info.place n) (hfits : i'.Fits T)
    (hc : Counts { st with inode := Function.update st.inode n (some i') } f' g') :
    Good T f' g' { st with inode := Function.update st.inode n (some i') } := by
  have hsame := place_set hi hplace
  refine ⟨hc, ?_, ?_, h.nodup, ?_⟩
  · intro k j hj
    by_cases hk : k = n
    · simp only [hk, Function.update_self] at hj
      rw [← Option.some.inj hj]
      exact hfits
    · simp only [Function.update_of_ne hk] at hj
      exact h.fits k j hj
  · rw [hsame]
    exact h.listed
  · rw [hsame]
    exact h.once

/-- The counts change, and nothing else of the inode. -/
theorem count (h : Good T f g st) (hi : st.inode n = some i) {refs opens : ℕ}
    (hzero : i.refCount = 0 ↔ refs = 0)
    (hc : Counts { st with inode := Function.update st.inode n (some ⟨refs, opens, i.info⟩) } f' g') :
    Good T f' g' { st with inode := Function.update st.inode n (some ⟨refs, opens, i.info⟩) } := by
  have hplace : (VfsInode.info ⟨refs, opens, i.info⟩).place n = i.info.place n := rfl
  apply h.set hi hplace ?_ hc
  have hfits := h.fits n i hi
  unfold VfsInode.Fits at hfits ⊢
  simp only [hzero] at hfits
  exact hfits

end Good

/-! Rules for the single calls. -/

theorem getInode_found {Q : VfsInode → InodeStore → Prop} {E : VfsError → InodeStore → Prop}
    (hi : st.inode n = some i) (h : Q i st) : Ends p (getInode n) st Q E := by
  apply Ends.of_eq_ok ?_ h
  unfold getInode
  rw [hi]
  rfl

theorem require_holds {c : Prop} [Decidable c] {Q : PUnit → InodeStore → Prop}
    {E : VfsError → InodeStore → Prop} (hc : c) (h : Q ⟨⟩ st) :
    Ends p (require (fun _ => c) : StoreCall PUnit) st Q E :=
  Ends.require (fun _ => h) (fun hno => absurd hc hno)

/-- `inode_check` in a state with room for one more reference. -/
theorem inodeCheck_found {Q : VfsInode → InodeStore → Prop} {E : VfsError → InodeStore → Prop}
    (hi : st.inode n = some i) (hle : i.openCount ≤ i.refCount) (hroom : i.refCount < maxInodeCount)
    (h : Q i st) : Ends p (inodeCheck n) st Q E := by
  unfold inodeCheck
  refine Ends.bind (getInode_found hi ?_)
  exact Ends.bind (require_holds ⟨hle, hroom, lt_of_le_of_lt hle hroom⟩ (Ends.pure h))

theorem inodeCheck_full (hi : st.inode n = some i) (hfull : ¬ i.refCount < maxInodeCount) :
    inodeCheck n st = none := by
  have hends : Ends True (inodeCheck n) st (fun _ _ => False) (fun _ _ => False) := by
    unfold inodeCheck
    refine Ends.bind (getInode_found hi ?_)
    exact Ends.bind (require_ends (fun hc => absurd hc.2.1 hfull))
  exact hends.eq_none

/-! References. -/

theorem inodeRefInc_good (h : Good T f g st) (hpos : 0 < f n) {E : VfsError → InodeStore → Prop} :
    Ends p (inodeRefInc n) st (fun _ st' => Good T (f + one n) g st' ∧ st'.place = st.place) E := by
  obtain ⟨i, hi⟩ := h.inode hpos
  have hrefs := h.refs_eq hi
  unfold inodeRefInc
  refine Ends.bind (getInode_found hi ?_)
  refine Ends.bind (Ends.modify (Ends.pure ⟨?_, place_set hi rfl⟩))
  have hset := @Counts.set st f g n i h.counts hi ⟨i.refCount + 1, i.openCount, i.info⟩ 1 0
    (Nat.cast_succ _) (add_zero _).symm
  rw [Pi.single_zero, add_zero] at hset
  exact h.count hi (by omega) hset

theorem inodeOpenInc_good (h : Good T f g st) (hpos : 0 < f n) {E : VfsError → InodeStore → Prop} :
    Ends p (inodeOpenInc n) st (fun _ st' => Good T f (g + one n) st' ∧ st'.place = st.place) E := by
  obtain ⟨i, hi⟩ := h.inode hpos
  unfold inodeOpenInc
  refine Ends.bind (getInode_found hi ?_)
  refine Ends.modify ⟨?_, place_set hi rfl⟩
  have hset := @Counts.set st f g n i h.counts hi ⟨i.refCount, i.openCount + 1, i.info⟩ 0 1
    (add_zero _).symm (Nat.cast_succ _)
  rw [Pi.single_zero, add_zero] at hset
  exact h.count hi Iff.rfl hset

/-- What does not say which inode it is, is written. -/
theorem setInfo_good (h : Good T f g st) (hi : st.inode n = some i) {sin sin' : SfsNode}
    (hinfo : i.info = .sfs sin) (hsame : sin' = { sin with size := sin'.size, dirty := sin'.dirty })
    {E : VfsError → InodeStore → Prop} :
    Ends p (setInode n { i with info := .sfs sin' }) st
      (fun _ st' => Good T f g st' ∧ st'.place = st.place) E := by
  have hplace : (VfsInode.info { i with info := .sfs sin' }).place n = i.info.place n := by
    rw [hinfo, hsame]
    rfl
  have hfits := h.fits n i hi
  unfold VfsInode.Fits at hfits
  rw [hinfo] at hfits
  refine Ends.modify ⟨h.set hi hplace ?_ (h.counts.keep hi rfl rfl), place_set hi hplace⟩
  unfold VfsInode.Fits
  rw [hsame]
  exact hfits

/-- An inode in use passes `inode_check`. -/
theorem Good.check (h : Good T f g st) (hi : st.inode n = some i) (hle : g n ≤ f n)
    (hroom : f n < maxInodeCount) : i.openCount ≤ i.refCount ∧ i.refCount < maxInodeCount := by
  have hrefs := h.refs_eq hi
  have hopens := h.opens_eq hi
  constructor
  · omega
  · omega

theorem vopFsync_good {fs ino : ℕ} (h : Good T f g st) (hplace : st.place n = some (.inode fs ino))
    (hle : g n ≤ f n) (hroom : f n < maxInodeCount) :
    Ends False (vopFsync io n) st (fun _ st' => Good T f g st' ∧ st'.place = st.place)
      (fun _ st' => Good T f g st' ∧ st'.place = st.place) := by
  obtain ⟨i, sin, hi, hinfo, -, -⟩ := sfs_of_place hplace
  obtain ⟨hopens, hrefs⟩ := h.check hi hle hroom
  unfold vopFsync
  refine Ends.bind (inodeCheck_found hi hopens hrefs ?_)
  simp only [hinfo]
  unfold sfsFsync
  by_cases hd : sin.dirty = true
  · rw [if_pos hd]
    cases io.fsync sin.fs sin.ino with
    | ok _ => exact setInfo_good h hi hinfo rfl
    | error e => exact Ends.fail ⟨h, rfl⟩
  · rw [if_neg hd]
    exact Ends.pure ⟨h, rfl⟩

theorem syncIfDirty_good {fs ino : ℕ} (h : Good T f g st)
    (hplace : st.place n = some (.inode fs ino)) (hle : g n ≤ f n) (hroom : f n < maxInodeCount) :
    Ends False (syncIfDirty io n) st (fun _ st' => Good T f g st' ∧ st'.place = st.place)
      (fun _ st' => Good T f g st' ∧ st'.place = st.place) := by
  obtain ⟨i, sin, hi, hinfo, -, -⟩ := sfs_of_place hplace
  unfold syncIfDirty
  refine Ends.bind (getInode_found hi ?_)
  simp only [hinfo]
  by_cases hd : sin.dirty = true
  · rw [if_pos hd]
    exact vopFsync_good h hplace hle hroom
  · rw [if_neg hd]
    exact Ends.pure ⟨h, rfl⟩

/-- An inode leaves memory. -/
theorem place_kill {hash : ℕ → ℕ → List ℕ} (n k : ℕ) :
    (⟨Function.update st.inode n none, hash, st.nextNode⟩ : InodeStore).place k =
      if k = n then none else st.place k := by
  unfold InodeStore.place
  by_cases hk : k = n
  · simp only [hk, Function.update_self, if_true, Option.map_none]
  · simp only [Function.update_of_ne hk, hk, if_false]

theorem Good.kill {sin : SfsNode} {ino : ℕ} (h : Good T f g st)
    (hplace : st.place n = some (.inode sin.fs ino)) (hrefs : f n = 0) (hle : g n ≤ f n) :
    Good T f g ⟨Function.update st.inode n none, Function.update st.hashList sin.fs
      (fun k => (st.hashList sin.fs k).erase n), st.nextNode⟩ := by
  obtain ⟨i, -, hi, -, -, -⟩ := sfs_of_place hplace
  have hr := h.refs_eq hi
  have ho := h.opens_eq hi
  have hkill := h.counts.kill hi (by omega) (by omega)
  refine ⟨⟨hkill.refs, hkill.opens, hkill.fresh⟩, ?_, ?_, ?_, ?_⟩
  · intro k j hj
    by_cases hk : k = n
    · simp only [hk, Function.update_self] at hj
      exact absurd hj.symm (Option.some_ne_none j)
    · simp only [Function.update_of_ne hk] at hj
      exact h.fits k j hj
  · intro fs hash k
    rw [place_kill]
    by_cases hfs : fs = sin.fs
    · subst hfs
      simp only [Function.update_self, (h.nodup sin.fs hash).mem_erase_iff, h.listed]
      by_cases hk : k = n
      · simp only [hk, ne_eq, not_true_eq_false, false_and, if_true, reduceCtorEq, exists_false]
      · simp only [hk, ne_eq, not_false_eq_true, true_and, if_false]
    · simp only [Function.update_of_ne hfs, h.listed]
      by_cases hk : k = n
      · -- the inode is of another file system
        simp only [hk, if_true, hplace, reduceCtorEq, false_and, exists_false, iff_false]
        intro hbad
        obtain ⟨ino', heq, -⟩ := hbad
        exact hfs (Place.inode.inj (Option.some.inj heq)).1.symm
      · simp only [hk, if_false]
  · intro fs hash
    by_cases hfs : fs = sin.fs
    · subst hfs
      simp only [Function.update_self]
      exact (h.nodup sin.fs hash).erase n
    · simp only [Function.update_of_ne hfs]
      exact h.nodup fs hash
  · intro a b fs ino' ha hb
    rw [place_kill] at ha hb
    by_cases hna : a = n
    · rw [if_pos hna] at ha
      exact absurd ha.symm (Option.some_ne_none _)
    · by_cases hnb : b = n
      · rw [if_pos hnb] at hb
        exact absurd hb.symm (Option.some_ne_none _)
      · rw [if_neg hna] at ha
        rw [if_neg hnb] at hb
        exact h.once a b fs ino' ha hb

theorem inodeKill_good {sin : SfsNode} {ino : ℕ} (h : Good T f g st)
    (hplace : st.place n = some (.inode sin.fs ino)) (hrefs : f n = 0) (hle : g n ≤ f n)
    {E : VfsError → InodeStore → Prop} :
    Ends False (inodeKill n sin) st (fun _ st' => Good T f g st' ∧ Holds f st st') E := by
  obtain ⟨i, -, hi, -, -, -⟩ := sfs_of_place hplace
  have hr := h.refs_eq hi
  have ho := h.opens_eq hi
  unfold inodeKill
  refine Ends.bind (Ends.modify ?_)
  refine Ends.bind (getInode_found hi ?_)
  refine Ends.bind (require_holds ⟨by omega, by omega⟩ (Ends.modify ⟨h.kill hplace hrefs hle, ?_, ?_⟩))
  · intro k q hpos hq
    have hk : k ≠ n := by
      intro heq
      rw [heq, hrefs] at hpos
      exact lt_irrefl _ hpos
    exact (place_kill n k).trans ((if_neg hk).trans hq)
  · intro k hk
    have hplaces := (place_kill n k).symm.trans hk
    by_cases hkn : k = n
    · rw [if_pos hkn] at hplaces
      exact absurd hplaces.symm (Option.some_ne_none _)
    · rwa [if_neg hkn] at hplaces

theorem syncAndKill_good {sin : SfsNode} {ino : ℕ} (h : Good T f g st)
    (hplace : st.place n = some (.inode sin.fs ino)) (hrefs : f n = 0) (hle : g n ≤ f n) :
    Ends False (syncAndKill io n sin) st (fun _ st' => Good T f g st' ∧ Holds f st st')
      (fun _ st' => Good T f g st' ∧ Holds f st st') := by
  have hroom : f n < maxInodeCount := by
    rw [hrefs]
    decide
  unfold syncAndKill
  refine Ends.bind ((syncIfDirty_good h hplace hle hroom).mono ?_ ?_)
  · intro _ st₁ h₁
    have hplace₁ : st₁.place n = some (.inode sin.fs ino) := by
      rw [h₁.2]
      exact hplace
    refine (inodeKill_good h₁.1 hplace₁ hrefs hle).mono ?_ (fun _ _ he => he)
    intro _ st₂ h₂
    exact ⟨h₂.1, (Holds.of_place h₁.2).trans h₂.2⟩
  · intro _ st₁ h₁
    exact ⟨h₁.1, Holds.of_place h₁.2⟩

/-- The last reference goes: a device is never without one, and an inode of a file system is written
back and freed. -/
theorem inodeRefDec_last {sin : SfsNode} (h : Good T (f + one n) g st) (hrefs : f n = 0)
    (hle : g n ≤ f n) (hi : st.inode n = some i) (hinfo : i.info = .sfs sin)
    {E : VfsError → InodeStore → Prop} :
    Ends False (warn (vopReclaim io n))
      { st with inode := Function.update st.inode n (some { i with refCount := i.refCount - 1 }) }
      (fun _ st' => Good T f g st' ∧ Holds f st st') E := by
  have hr := h.refs_eq hi
  have ho := h.opens_eq hi
  have hpos : 0 ≤ g n := h.opens_nonneg n
  have hone : f n + one n n = 1 := by rw [hrefs, one_self, zero_add]
  have hrone : i.refCount = 1 := by
    have hsum : ((i.refCount : ℕ) : ℤ) = 1 := hr.trans hone
    omega
  have hrc : i.refCount - 1 = 0 := by omega
  have hoc : i.openCount = 0 := by omega
  have hfits := h.fits n i hi
  unfold VfsInode.Fits at hfits
  rw [hinfo] at hfits
  obtain ⟨htype, hlinks, hreclaim⟩ := hfits
  rw [if_neg (show i.refCount ≠ 0 by omega)] at hreclaim
  -- the inode without its reference, as `sfs_reclaim` leaves it
  have hgood : Good T f g ⟨Function.update st.inode n
      (some ⟨0, i.openCount, .sfs { sin with reclaimCount := 0 }⟩), st.hashList, st.nextNode⟩ := by
    have hplace : (VfsInode.info ⟨0, i.openCount, .sfs { sin with reclaimCount := 0 }⟩).place n =
        i.info.place n := by
      rw [hinfo]
      rfl
    have hset := @Counts.set st (f + one n) g n i h.counts hi
      ⟨0, i.openCount, .sfs { sin with reclaimCount := 0 }⟩ (-1) 0
      (by change (0 : ℤ) = _; omega) (add_zero _).symm
    rw [Pi.single_zero, add_zero, Pi.single_neg, ← sub_eq_add_neg] at hset
    have hback : f + one n - Pi.single n 1 = f := add_sub_cancel_right f (one n)
    rw [hback] at hset
    refine h.set hi hplace ?_ hset
    unfold VfsInode.Fits
    exact ⟨htype, hlinks, rfl⟩
  have hplaces : (⟨Function.update st.inode n
      (some ⟨0, i.openCount, .sfs { sin with reclaimCount := 0 }⟩), st.hashList, st.nextNode⟩ :
      InodeStore).place = st.place := by
    refine place_set hi ?_
    rw [hinfo]
    rfl
  have hplace : st.place n = some (.inode sin.fs sin.ino) := by
    rw [place_of_inode hi, hinfo]
    rfl
  refine Ends.warn ?_
  unfold vopReclaim
  refine Ends.bind (inodeCheck_found (Function.update_self ..) ?_ ?_ ?_)
  · simp only [hrc, hoc, le_refl]
  · simp only [hrc]
    decide
  · simp only [hinfo]
    unfold sfsReclaim
    refine Ends.bind (require_holds (by omega) ?_)
    refine Ends.bind (Ends.modify ?_)
    have hsame : (⟨Function.update (Function.update st.inode n
        (some ⟨i.refCount - 1, i.openCount, .sfs sin⟩)) n
        (some ⟨i.refCount - 1, i.openCount, .sfs { sin with reclaimCount := sin.reclaimCount - 1 }⟩),
        st.hashList, st.nextNode⟩ : InodeStore) =
        ⟨Function.update st.inode n
          (some ⟨0, i.openCount, .sfs { sin with reclaimCount := 0 }⟩), st.hashList, st.nextNode⟩ := by
      rw [Function.update_idem, hrc, hreclaim]
    have hfree : ¬ (sin.reclaimCount - 1 ≠ 0 ∨ i.refCount - 1 ≠ 0) := by omega
    rw [if_neg hfree, if_neg hlinks, hsame]
    have hkill := @syncAndKill_good T _ f g n io sin sin.ino hgood (hplaces ▸ hplace) hrefs hle
    refine hkill.mono ?_ ?_
    · intro _ st₁ h₁
      exact ⟨h₁.1, (Holds.of_place hplaces).trans h₁.2⟩
    · intro _ st₁ h₁
      exact ⟨h₁.1, (Holds.of_place hplaces).trans h₁.2⟩

theorem inodeRefDec_good (h : Good T (f + one n) g st) (hb : Base f g st)
    {E : VfsError → InodeStore → Prop} :
    Ends False (inodeRefDec io n) st (fun _ st' => Good T f g st' ∧ Holds f st st') E := by
  have hnonneg : 0 ≤ f n := (h.opens_nonneg n).trans (hb.le n)
  have hone : (f + one n) n = f n + 1 := by rw [Pi.add_apply, one_self]
  obtain ⟨i, hi⟩ := h.inode (n := n) (by rw [hone]; omega)
  have hr := h.refs_eq hi
  rw [hone] at hr
  unfold inodeRefDec
  refine Ends.bind (getInode_found hi ?_)
  refine Ends.bind (require_holds (by omega) ?_)
  refine Ends.bind (Ends.modify ?_)
  by_cases hlast : i.refCount - 1 = 0
  · rw [if_pos hlast]
    cases hinfo : i.info with
    | device dev =>
      have hdev := hb.devices n (by rw [place_of_inode hi, hinfo]; rfl)
      omega
    | sfs sin =>
      have hends := @inodeRefDec_last T st f g n i io sin h (by omega) (hb.le n) hi hinfo E
      rw [hinfo] at hends
      exact hends
  · rw [if_neg hlast]
    have hset := @Counts.set st (f + one n) g n i h.counts hi ⟨i.refCount - 1, i.openCount, i.info⟩ (-1) 0
      (Nat.cast_pred (by omega)) (add_zero _).symm
    rw [Pi.single_zero, add_zero, Pi.single_neg, ← sub_eq_add_neg] at hset
    have hback : f + one n - Pi.single n 1 = f := add_sub_cancel_right f (one n)
    rw [hback] at hset
    exact Ends.pure ⟨h.count hi (by omega) hset, Holds.of_place (place_set hi rfl)⟩

/-! Loading. -/

/-- The loop over a hash list, with what it has not found. -/
theorem searchHash_spec {fs ino : ℕ} {list : List ℕ}
    (hlist : ∀ n ∈ list, ∃ k, st.place n = some (.inode fs k)) :
    ∃ r, searchHash st ino list = some r ∧
      match r with
      | some n => st.place n = some (.inode fs ino)
      | none => ∀ n ∈ list, st.place n ≠ some (.inode fs ino) := by
  induction list with
  | nil => exact ⟨none, rfl, fun n hn => absurd hn List.not_mem_nil⟩
  | cons n rest ih =>
    obtain ⟨k, hplace⟩ := hlist n List.mem_cons_self
    obtain ⟨⟨refs, opens, info⟩, sin, hi, hinfo, hfs, hino⟩ := sfs_of_place hplace
    simp only at hinfo
    subst hinfo
    unfold searchHash
    simp only [hi]
    by_cases hhit : sin.ino = ino
    · rw [if_pos hhit]
      exact ⟨some n, rfl, hplace.trans (by rw [← hino, hhit])⟩
    · rw [if_neg hhit]
      obtain ⟨r, hr, hspec⟩ := ih (fun m hm => hlist m (List.mem_cons_of_mem n hm))
      refine ⟨r, hr, ?_⟩
      cases r with
      | some m => exact hspec
      | none =>
        intro m hm
        rcases List.mem_cons.mp hm with heq | hm
        · rw [heq, hplace, ← hino]
          intro hbad
          exact hhit (Place.inode.inj (Option.some.inj hbad)).2
        · exact hspec m hm

theorem findHash_good {fs ino : ℕ} (h : Good T f g st) {E : VfsError → InodeStore → Prop} :
    Ends p (findHash fs ino) st (fun r st' => st' = st ∧
      match r with
      | some n => st.place n = some (.inode fs ino)
      | none => ∀ n, st.place n ≠ some (.inode fs ino)) E := by
  obtain ⟨r, hr, hspec⟩ := @searchHash_spec st fs ino (st.hashList fs (sinHashfn ino))
    (fun n hn => (h.listed fs _ n).mp hn |>.imp fun _ hk => hk.1)
  have hrun : findHash fs ino st = some (.ok r, st) := by
    unfold findHash
    rw [hr]
    rfl
  refine Ends.of_eq_ok hrun ⟨rfl, ?_⟩
  cases r with
  | some n => exact hspec
  | none =>
    intro n hn
    exact hspec n ((h.listed fs _ n).mpr ⟨ino, hn, rfl⟩) hn

theorem lookupHit_good {fs ino : ℕ} (h : Good T f g st) (hplace : st.place n = some (.inode fs ino))
    {E : VfsError → InodeStore → Prop} :
    Ends p (lookupHit n) st (fun m st' => m = n ∧ Good T (f + one n) g st' ∧ st'.place = st.place) E := by
  obtain ⟨i, sin, hi, hinfo, -, -⟩ := sfs_of_place hplace
  have hrefs := h.refs_eq hi
  unfold lookupHit
  by_cases hzero : i.refCount = 0
  · -- the first reference
    unfold inodeRefInc
    refine Ends.bind (Ends.bind (getInode_found hi ?_))
    refine Ends.bind (Ends.modify (Ends.pure ?_))
    rw [if_pos (show i.refCount + 1 = 1 by omega)]
    unfold countReclaim
    refine Ends.bind (Ends.bind (getInode_found (Function.update_self ..) ?_))
    simp only [hinfo]
    refine Ends.modify (Ends.pure ⟨rfl, ?_⟩)
    have hplace' : (VfsInode.info ⟨i.refCount + 1, i.openCount,
        .sfs { sin with reclaimCount := sin.reclaimCount + 1 }⟩).place n = i.info.place n := by
      rw [hinfo]
      rfl
    have hset := @Counts.set st f g n i h.counts hi ⟨i.refCount + 1, i.openCount,
      .sfs { sin with reclaimCount := sin.reclaimCount + 1 }⟩ 1 0 (Nat.cast_succ _) (add_zero _).symm
    rw [Pi.single_zero, add_zero] at hset
    have hfits := h.fits n i hi
    unfold VfsInode.Fits at hfits
    rw [hinfo] at hfits
    obtain ⟨htype, hlinks, hreclaim⟩ := hfits
    rw [if_pos hzero] at hreclaim
    rw [Function.update_idem]
    refine ⟨h.set hi hplace' ?_ hset, place_set hi hplace'⟩
    unfold VfsInode.Fits
    simp only [hreclaim, hzero, zero_add, one_ne_zero, if_false]
    exact ⟨htype, hlinks, trivial⟩
  · refine Ends.bind (?_ : Ends p (inodeRefInc n) st _ E)
    unfold inodeRefInc
    refine Ends.bind (getInode_found hi (Ends.bind (Ends.modify (Ends.pure ?_))))
    rw [if_neg (show i.refCount + 1 ≠ 1 by omega)]
    have hset := @Counts.set st f g n i h.counts hi ⟨i.refCount + 1, i.openCount, i.info⟩ 1 0
      (Nat.cast_succ _) (add_zero _).symm
    rw [Pi.single_zero, add_zero] at hset
    exact Ends.pure ⟨rfl, h.count hi (by omega) hset, place_set hi rfl⟩

/-- A new inode joins the others. -/
theorem place_create {hash : ℕ → ℕ → List ℕ} {sin : SfsNode} (n k next : ℕ) :
    (⟨Function.update st.inode n (some ⟨1, 0, .sfs sin⟩), hash, next⟩ : InodeStore).place k =
      if k = n then some (.inode sin.fs sin.ino) else st.place k := by
  unfold InodeStore.place
  by_cases hk : k = n
  · simp only [hk, Function.update_self, if_true, Option.map_some, InodeInfo.place]
  · simp only [Function.update_of_ne hk, hk, if_false]

theorem Good.create {fs ino size nlinks : ℕ} {t : FileType} (h : Good T f g st)
    (htype : T.type fs ino = some t) (hlinks : nlinks ≠ 0)
    (hnew : ∀ n, st.place n ≠ some (.inode fs ino)) :
    Good T (f + one st.nextNode) g
      ⟨Function.update st.inode st.nextNode (some ⟨1, 0, .sfs ⟨fs, ino, t, size, nlinks, false, 1⟩⟩),
        Function.update st.hashList fs (Function.update (st.hashList fs) (sinHashfn ino)
          (st.nextNode :: st.hashList fs (sinHashfn ino))), st.nextNode + 1⟩ := by
  have hfree : st.place st.nextNode = none := by
    unfold InodeStore.place
    rw [h.counts.fresh st.nextNode le_rfl]
    rfl
  have hout : ∀ fs' hash, st.nextNode ∉ st.hashList fs' hash := by
    intro fs' hash hmem
    obtain ⟨k, hk, -⟩ := (h.listed fs' hash _).mp hmem
    rw [hfree] at hk
    exact absurd hk.symm (Option.some_ne_none _)
  refine ⟨h.counts.create, ?_, ?_, ?_, ?_⟩
  · intro k j hj
    by_cases hk : k = st.nextNode
    · simp only [hk, Function.update_self] at hj
      rw [← Option.some.inj hj]
      exact ⟨htype, hlinks, rfl⟩
    · simp only [Function.update_of_ne hk] at hj
      exact h.fits k j hj
  · intro fs' hash k
    rw [place_create]
    by_cases hk : k = st.nextNode
    · subst hk
      rw [if_pos rfl]
      simp only [Option.some.injEq, Place.inode.injEq]
      by_cases hfs : fs' = fs
      · subst hfs
        by_cases hhash : hash = sinHashfn ino
        · subst hhash
          simp only [Function.update_self, List.mem_cons_self, true_iff]
          exact ⟨ino, ⟨trivial, rfl⟩, rfl⟩
        · simp only [Function.update_self, Function.update_of_ne hhash, hout, false_iff]
          intro hbad
          obtain ⟨k, ⟨-, hino⟩, heq⟩ := hbad
          exact hhash (by rw [hino, heq])
      · simp only [Function.update_of_ne hfs, hout, false_iff]
        intro hbad
        obtain ⟨k, ⟨heq, -⟩, -⟩ := hbad
        exact hfs heq.symm
    · rw [if_neg hk, ← h.listed]
      by_cases hfs : fs' = fs
      · subst hfs
        by_cases hhash : hash = sinHashfn ino
        · subst hhash
          simp only [Function.update_self, List.mem_cons, hk, false_or]
        · simp only [Function.update_self, Function.update_of_ne hhash]
      · simp only [Function.update_of_ne hfs]
  · intro fs' hash
    by_cases hfs : fs' = fs
    · subst hfs
      by_cases hhash : hash = sinHashfn ino
      · subst hhash
        simp only [Function.update_self]
        exact List.nodup_cons.mpr ⟨hout _ _, h.nodup _ _⟩
      · simp only [Function.update_self, Function.update_of_ne hhash]
        exact h.nodup _ _
    · simp only [Function.update_of_ne hfs]
      exact h.nodup _ _
  · intro a b fs' ino' ha hb
    rw [place_create] at ha hb
    by_cases hna : a = st.nextNode
    · by_cases hnb : b = st.nextNode
      · rw [hna, hnb]
      · rw [if_pos hna] at ha
        rw [if_neg hnb, ← ha] at hb
        exact absurd hb (hnew b)
    · by_cases hnb : b = st.nextNode
      · rw [if_pos hnb] at hb
        rw [if_neg hna, ← hb] at ha
        exact absurd ha (hnew a)
      · rw [if_neg hna] at ha
        rw [if_neg hnb] at hb
        exact h.once a b fs' ino' ha hb

/-- The inode of a place, loaded or found in memory, where a load may fail. -/
theorem sfsLoadInode_loads {fs ino : ℕ} {t : FileType} {E : VfsError → InodeStore → Prop}
    (h : Good T f g st) (htype : T.type fs ino = some t)
    (hload : (∃ e, io.diskInode fs ino = .failed e ∧ E e st) ∨
      ∃ size nlinks, io.diskInode fs ino = .inode t size nlinks ∧ nlinks ≠ 0) :
    Ends False (sfsLoadInode io fs ino) st (fun m st' => Good T (f + one m) g st' ∧ Holds f st st' ∧
      st'.place m = some (.inode fs ino)) E := by
  unfold sfsLoadInode
  refine Ends.bind ((findHash_good h).mono ?_ (fun _ _ he => he))
  intro r st₁ h₁
  obtain ⟨hst, hfound⟩ := h₁
  subst hst
  cases r with
  | some n =>
    refine (lookupHit_good h hfound).mono ?_ (fun _ _ he => he)
    intro m st₂ h₂
    obtain ⟨hm, hgood, hplace⟩ := h₂
    subst hm
    exact ⟨hgood, Holds.of_place hplace, hplace ▸ hfound⟩
  | none =>
    rcases hload with ⟨e, hdisk, he⟩ | ⟨size, nlinks, hdisk, hlinks⟩
    · simp only [hdisk]
      exact Ends.fail he
    simp only [hdisk]
    refine Ends.bind (require_holds hlinks ?_)
    unfold sfsCreateInode
    refine Ends.bind (require_holds (T.kind htype) ?_)
    refine Ends.bind (Ends.read ?_)
    refine Ends.bind (Ends.modify (Ends.pure ?_))
    have hfree : st₁.place st₁.nextNode = none := by
      unfold InodeStore.place
      rw [h.counts.fresh st₁.nextNode le_rfl]
      rfl
    refine ⟨h.create htype hlinks hfound, ⟨?_, ?_⟩, ?_⟩
    · intro k q _ hq
      have hk : k ≠ st₁.nextNode := by
        intro heq
        rw [heq, hfree] at hq
        exact absurd hq.symm (Option.some_ne_none q)
      exact (place_create _ _ _).trans ((if_neg hk).trans hq)
    · intro k hk
      have hplaces := (place_create _ _ _).symm.trans hk
      by_cases hkn : k = st₁.nextNode
      · rw [if_pos hkn] at hplaces
        exact Place.noConfusion (Option.some.inj hplaces)
      · rwa [if_neg hkn] at hplaces
    · exact (place_create _ _ _).trans (if_pos rfl)

/-- The inode of a place, where a load does not fail. -/
theorem sfsLoadInode_good {fs ino : ℕ} {t : FileType} (h : Good T f g st) (hio : Shows io T)
    (htype : T.type fs ino = some t) {E : VfsError → InodeStore → Prop} :
    Ends False (sfsLoadInode io fs ino) st (fun m st' => Good T (f + one m) g st' ∧ Holds f st st' ∧
      st'.place m = some (.inode fs ino)) E :=
  sfsLoadInode_loads h htype (.inr (hio.load htype))

end Ucore.Vfs
