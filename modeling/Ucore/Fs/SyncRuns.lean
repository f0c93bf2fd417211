import Ucore.Fs.SuperDirty
import Ucore.Fs.Sync

/-!
A volume from one `sfs_sync` to the next. Its inodes are loaded, used, written and given up in any
order, and what it holds survives that the machine is switched off behind `sfs_sync`.
-/
namespace Ucore.Fs

open Library Libs Call

/-- A call on the file `sin` leaves everything else where it was. -/
structure Beside (s : Sfs) (sin : ℕ) (t : Sfs) : Prop where
  inv : Inv False t
  inos : t.inos = s.inos
  superBlocks : t.superBlocks = s.superBlocks
  others : ∀ i, i ≠ sin → t.inodes i = s.inodes i
  owned : ∀ o b, s.owns o b → ¬ o.OfFile sin → t.owns o b ∧ t.disk b = s.disk b

variable {s t u : Sfs} {sin n : ℕ}

theorem Framed.beside (h : Framed False s sin n t) : Beside s sin t :=
  ⟨h.inv, h.inos, h.superBlocks, h.others, h.owned⟩

theorem Beside.refl (hi : Inv False s) : Beside s sin s := (Framed.refl hi).beside

/-- The size of a file is none of its places. -/
theorem Beside.setSize (h : Beside s sin t) (len : ℕ) : Beside s sin (t.setSize sin len) := by
  refine ⟨h.inv.setSize sin len, h.inos, h.superBlocks, ?_, ?_⟩
  · intro i hi
    have hsame : (t.setSize sin len).inodes i = t.inodes i := by
      unfold Sfs.setSize Sfs.setDirty Sfs.setDin
      dsimp only
      rw [Function.update_of_ne hi, Function.update_of_ne hi]
    exact hsame.trans (h.others i hi)
  · intro o b howns hfile
    obtain ⟨ht, hdisk⟩ := h.owned o b howns hfile
    refine ⟨?_, hdisk⟩
    unfold Sfs.setSize
    exact (Sfs.owns_setDirty _ sin o b).mpr ((Sfs.owns_setDin_other t _ b hfile).mpr ht)

section Working

variable [SfsDevice]

theorem enlarge_framed (hw : ¬ Faulty) (hc : Cached s sin) {left : ℕ} :
    Ends True (enlarge sin left (s.din sin).blocks) s (fun _ t => ∃ m, Framed False s sin m t)
      (fun _ t => ∃ m, Framed False s sin m t) := by
  refine (enlarge_of_load (R := fun m t => Framed False s sin m t)
    (F := fun t => ∃ m, Framed False s sin m t) ?_ rfl (Framed.refl hc.inv)).mono
    (fun _ t ht => ⟨_, ht⟩) (fun _ _ ht => ht)
  intro m t ht _
  exact ((load_behind hw ht hc.ino).weaken (fun _ => trivial)).mono (fun _ _ hu => hu.1)
    (fun _ _ hu => ⟨m, hu.1⟩)

theorem shrink_framed (hw : ¬ Faulty) (hc : Cached s sin) {left : ℕ}
    (hle : left ≤ (s.din sin).blocks) :
    Ends True (shrink sin left) s (fun _ t => ∃ m, Framed False s sin m t)
      (fun _ t => ∃ m, Framed False s sin m t) := by
  have hsplit : (s.din sin).blocks - left + left = (s.din sin).blocks := Nat.sub_add_cancel hle
  have hstart : Resized False s sin ((s.din sin).blocks - left + left) s := by
    rw [hsplit]
    exact Resized.refl hc.inv
  refine (shrink_ends hc.ino hstart hsplit.le ?_ ?_).weaken (fun _ => trivial)
  · exact fun t ht => ⟨_, ht.toFramed⟩
  · exact fun _ _ _ _ _ hbad => absurd hbad hw

theorem sfsTruncfile_beside (hw : ¬ Faulty) (hc : Cached s sin) (len : ℤ) :
    Ends True (sfsTruncfile sin len) s (fun _ t => Beside s sin t) (fun _ t => Beside s sin t) := by
  have hself : Beside s sin s := Beside.refl hc.inv
  unfold sfsTruncfile
  split
  · exact Ends.fail hself
  refine Ends.bind (Ends.read ?_)
  dsimp only
  split
  · exact Ends.require (fun _ => hself) (fun _ => trivial)
  · generalize (len.toNat + blkSize - 1) / blkSize = tblks
    have hlast : ∀ t, (∃ m, Framed False s sin m t) → Ends True (do
        Call.require (fun s => (s.din sin).blocks = tblks)
        Call.modify (fun s => (s.setDin sin { s.din sin with size := len.toNat }).setDirty sin) :
          SfsCall PUnit) t (fun _ t => Beside s sin t) (fun _ t => Beside s sin t) := by
      intro t ht
      obtain ⟨m, hframed⟩ := ht
      refine Ends.bind (Ends.require (fun _ => Ends.modify ?_) (fun _ => trivial))
      exact hframed.beside.setSize len.toNat
    have hfailed : ∀ t, (∃ m, Framed False s sin m t) → Beside s sin t :=
      fun _ ht => ht.elim fun _ h => h.beside
    split
    · exact Ends.bind ((enlarge_framed hw hc).mono (fun _ t ht => hlast t ht)
        (fun _ t ht => hfailed t ht))
    · exact Ends.bind ((shrink_framed hw hc (Nat.sub_le _ _)).mono (fun _ t ht => hlast t ht)
        (fun _ t ht => hfailed t ht))

theorem sfsTryseek_beside (hw : ¬ Faulty) (hc : Cached s sin) (pos : ℤ) :
    Ends True (sfsTryseek sin pos) s (fun _ t => Beside s sin t) (fun _ t => Beside s sin t) := by
  unfold sfsTryseek
  split
  · exact Ends.fail (Beside.refl hc.inv)
  refine Ends.bind (Ends.read ?_)
  split
  · exact sfsTruncfile_beside hw hc pos
  · exact Ends.pure (Beside.refl hc.inv)

theorem sfsIoNolock_beside (hw : ¬ Faulty) (hc : Cached s sin) {buf : Bytes} {offset : ℤ} {len : ℕ}
    {write : Bool} {r : IoResult} (hr : sfsIoNolock s sin buf offset len write = some r) :
    Beside s sin r.sfs := by
  obtain ⟨t, ht, hsfs⟩ := sfsIoNolock_keeps
    (R := fun k t => Along s sin offset.toNat write k t) (Along.start hc)
    (fun endpos _ hread => transfers_along hw hc hread) hr
  rw [hsfs]
  unfold growSize
  split
  · exact ht.framed.beside.setSize _
  · exact ht.framed.beside

theorem FileOp.after_beside (hw : ¬ Faulty) (hc : Cached s sin) {op : FileOp}
    (hop : op.after s sin = some t) : Beside s sin t := by
  cases op with
  | truncate len =>
    obtain ⟨⟨res, u⟩, hx, rfl⟩ := Option.map_eq_some_iff.mp hop
    exact (sfsTruncfile_beside hw hc len).state hx
  | seek pos =>
    obtain ⟨⟨res, u⟩, hx, rfl⟩ := Option.map_eq_some_iff.mp hop
    exact (sfsTryseek_beside hw hc pos).state hx
  | io buf offset len write =>
    obtain ⟨r, hr, rfl⟩ := Option.map_eq_some_iff.mp hop
    exact sfsIoNolock_beside hw hc hr

end Working

/-! The calls on a volume. -/

/-- A mounted volume. `nlinks` are the counts of links of the inodes in memory, and `info` is the
text in the super block. -/
structure Volume where
  sfs : Sfs
  inodeList : List ℕ
  nlinks : ℕ → ℕ
  info : Bytes

inductive VolumeOp
  | load (ino : ℕ)
  | file (ino : ℕ) (op : FileOp)
  | fsync (ino : ℕ)
  | reclaim (ino : ℕ)
  | sync
  | reboot

/-- The state behind a call that succeeded. -/
def succeeded (x : SfsCall PUnit) (s : Sfs) : Option Sfs :=
  match x s with
  | some (.ok _, t) => some t
  | _ => none

/-- The volume after a mount of the disk. -/
def Volume.mount (s : Sfs) : Option Volume :=
  match sfsDoMount (disk0 s.imgSize s.disk) (fun _ => true) with
  | some (.ok m) => some ⟨s.remounted m, [], fun _ => 0, fun i => s.disk blknSuper (12 + i)⟩
  | _ => none

/-- A call on an inode needs it in memory; `load` finds it there or reads it. `reboot` is a last
`sfs_sync` and a mount. -/
def Volume.step [SfsDevice] (v : Volume) : VolumeOp → Option Volume
  | .load ino =>
    if ino ∈ v.inodeList then some v
    else (succeeded (sfsLoadInode ino) v.sfs).map fun s => { v with
      sfs := s
      inodeList := ino :: v.inodeList
      nlinks := Function.update v.nlinks ino (nlinksOf (v.sfs.disk ino)) }
  | .file ino op =>
    if ino ∈ v.inodeList then (op.after v.sfs ino).map fun s => { v with sfs := s } else none
  | .fsync ino =>
    if ino ∈ v.inodeList then
      (succeeded (sfsFsync ino (v.nlinks ino)) v.sfs).map fun s => { v with sfs := s }
    else none
  | .reclaim ino =>
    if ino ∈ v.inodeList then
      (succeeded (sfsReclaim ino (v.nlinks ino)) v.sfs).map fun s =>
        { v with sfs := s, inodeList := v.inodeList.erase ino }
    else none
  | .sync =>
    (succeeded (sfsSync v.inodeList v.nlinks v.info) v.sfs).map fun s => { v with sfs := s }
  | .reboot => (succeeded (sfsSync v.inodeList v.nlinks v.info) v.sfs).bind Volume.mount

/-- Only inodes that a directory names are loaded, and no call stops with blocks that are counted
in memory only. -/
def Volume.Allows (v : Volume) : VolumeOp → Prop
  | .load ino => ino ∈ v.sfs.inos
  | .file ino op => ¬ op.StopsUnmarked v.sfs ino
  | .fsync _ => True
  | .reclaim _ => True
  | .sync => True
  | .reboot => True

structure Volume.Good (v : Volume) : Prop where
  backed : Backed v.sfs v.inodeList v.nlinks
  linked : ∀ ino ∈ v.inodeList, v.nlinks ino ≠ 0

variable {v w : Volume} {ino : ℕ} {inodeList : List ℕ} {nlinks : ℕ → ℕ}

theorem succeeded_eq_some {x : SfsCall PUnit} (h : succeeded x s = some t) :
    x s = some (.ok ⟨⟩, t) := by
  unfold succeeded at h
  split at h
  · rename_i hx
    rw [hx, Option.some.inj h]
  · cases h

theorem succeeded_of_ok {x : SfsCall PUnit} (h : x s = some (.ok ⟨⟩, t)) :
    succeeded x s = some t := by
  unfold succeeded
  rw [h]

/-- The inode is in memory from now on. -/
theorem Backed.loaded (h : Backed s inodeList nlinks) (hin : ino ∈ s.inos) (hno : ino ∉ inodeList) :
    Backed (s.loaded ino) (ino :: inodeList)
      (Function.update nlinks ino (nlinksOf (s.disk ino))) := by
  have hstored := (h.marked ino hin).resolve_right fun hbad => hno hbad.1
  have hmore : Backed s (ino :: inodeList)
      (Function.update nlinks ino (nlinksOf (s.disk ino))) := by
    refine ⟨h.inv, h.cached, h.room, h.range, ?_, ?_, h.super⟩
    · intro j hj
      by_cases hji : j = ino
      · rw [hji, Function.update_self]
        exact ⟨hin, rfl⟩
      · rw [Function.update_of_ne hji]
        exact h.list j ((List.mem_cons.mp hj).resolve_left hji)
    · intro j hj
      exact (h.marked j hj).imp_right fun hm => ⟨List.mem_cons_of_mem ino hm.1, hm.2⟩
  refine hmore.same (loaded_sameVolume hstored) (fun _ _ => rfl) ?_
    (h.super.imp_right fun hon => hon.congr rfl rfl rfl rfl fun _ _ => rfl)
  intro j hj
  by_cases hji : j = ino
  · rw [hji]
    have hdin : (s.loaded ino).inodes ino = ⟨s.storedInode ino, false⟩ := Function.update_self ..
    unfold Sfs.din
    rw [hdin]
    exact Or.inl (DiskInode.Same.refl _)
  · have hsame : (s.loaded ino).inodes j = s.inodes j := Function.update_of_ne hji _ _
    unfold Sfs.din
    rw [hsame]
    exact hmore.marked j hj

theorem Backed.erase (h : Backed s inodeList nlinks)
    (hstored : (s.storedInode ino).Same (s.din ino)) : Backed s (inodeList.erase ino) nlinks := by
  refine ⟨h.inv, h.cached, h.room, h.range, fun j hj => h.list j (List.mem_of_mem_erase hj), ?_,
    h.super⟩
  intro j hj
  by_cases hji : j = ino
  · rw [hji]
    exact Or.inl hstored
  · exact (h.marked j hj).imp_right fun hm => ⟨(List.mem_erase_of_ne hji).mpr hm.1, hm.2⟩

section Working

variable [SfsDevice]

/-- A call on a file in memory. -/
theorem Backed.file (hw : ¬ Faulty) (h : Backed s inodeList nlinks) (hino : ino ∈ inodeList)
    {op : FileOp} (hstop : ¬ op.StopsUnmarked s ino) (hop : op.after s ino = some t) :
    Backed t inodeList nlinks := by
  have hin := (h.list ino hino).1
  have hst := FileOp.after_stays hw (h.cached ino hin) hstop hop
  have hb := FileOp.after_beside hw (h.cached ino hin) hop
  have hnode : ∀ j ∈ s.inos, t.disk j = s.disk j :=
    fun j hj => (hb.owned (.inode j) j ⟨hj, rfl⟩ fun hbad => hbad).2
  refine ⟨hb.inv, ?_, ?_, ?_, ?_, ?_, ?_⟩
  · intro j hj
    rw [hb.inos] at hj
    by_cases hji : j = ino
    · rw [hji]
      exact hst.cached
    · have hc := h.cached j hj
      have hdin : t.din j = s.din j := congrArg SfsInode.din (hb.others j hji)
      refine ⟨hb.inos.symm ▸ hj, hb.inv, ?_, ?_⟩
      · rw [hdin]
        exact hc.room
      · unfold Sfs.EmptyTail
        rw [hdin]
        exact hc.tail
  · unfold Sfs.freemapBlocks
    rw [hb.superBlocks]
    exact h.room
  · intro j hj
    rw [hb.superBlocks]
    exact h.range j (hb.inos ▸ hj)
  · intro j hj
    obtain ⟨hj', hlinks⟩ := h.list j hj
    rw [hnode j hj']
    exact ⟨hb.inos.symm ▸ hj', hlinks⟩
  · intro j hj
    rw [hb.inos] at hj
    have hold : t.inodes j = s.inodes j → (t.storedInode j).Same (t.din j) ∨
        j ∈ inodeList ∧ (t.inodes j).dirty = true := by
      intro hsame
      unfold Sfs.storedInode Sfs.din
      rw [hnode j hj, hsame]
      exact h.marked j hj
    by_cases hji : j = ino
    · rw [hji] at hold ⊢
      rcases hst.marked with hdirty | hsame
      · exact Or.inr ⟨hino, hdirty⟩
      · exact hold hsame
    · exact hold (hb.others j hji)
  · rcases FileOp.after_quiet hop with hset | ⟨hdirty, hmap, hunused⟩
    · exact Or.inl hset
    · rw [hdirty]
      refine h.super.imp_right fun hon => hon.congr hb.superBlocks hunused hmap ?_ ?_
      · exact (hb.owned .super blknSuper rfl fun hbad => hbad).2
      · exact fun k hk => (hb.owned (.freemap k) _ ⟨hk, rfl⟩ fun hbad => hbad).2

/-- What is switched on again is what was switched off. -/
theorem Volume.Good.reboot (hw : ¬ Faulty) (h : v.Good) :
    ∃ w, v.step .reboot = some w ∧ w.Good ∧ SameVolume v.sfs w.sfs ∧
      ∀ ino ∈ v.sfs.inos, ∀ i, w.sfs.content ino i = v.sfs.content ino i := by
  have hends := h.backed.sync hw v.info
  obtain ⟨⟨ret, t⟩, ht⟩ := hends.exists
  cases ret with
  | error e => exact (hends.of_error ht).elim
  | ok a =>
    obtain ⟨hsettled, hback, hon, hstored⟩ := hends.of_ok ht
    have hinos := hsettled.volume.inos
    obtain ⟨m, hmount, hsame, hgood⟩ := hback.remounted hon
      (fun j hj => hstored j (hinos ▸ hj)) (fun _ => rfl)
    have hall := hsettled.trans hsame
    have hstep : v.step .reboot =
        some ⟨t.remounted m, [], fun _ => 0, fun i => t.disk blknSuper (12 + i)⟩ := by
      unfold Volume.step
      dsimp only
      rw [succeeded_of_ok ht, Option.bind_some]
      unfold Volume.mount
      rw [hmount]
    refine ⟨_, hstep, ⟨hgood _, fun j hj => absurd hj List.not_mem_nil⟩, hall.volume, ?_⟩
    exact fun ino hino i => hall.content h.backed.inv hino i

/-- One step of a run. -/
theorem Volume.Good.step (hw : ¬ Faulty) (h : v.Good) {op : VolumeOp} (hop : v.Allows op)
    (hstep : v.step op = some w) : w.Good := by
  have hm := h.backed.inv.accounts.mounted
  cases op with
  | load ino =>
    unfold Volume.step at hstep
    dsimp only at hstep
    split at hstep
    · exact Option.some.inj hstep ▸ h
    · rename_i hno
      obtain ⟨t, ht, rfl⟩ := Option.map_eq_some_iff.mp hstep
      obtain ⟨hload, rfl⟩ := (sfsLoadInode_ok_iff hw hm).mp (succeeded_eq_some ht)
      refine ⟨h.backed.loaded hop hno, ?_⟩
      intro j hj
      dsimp only at hj ⊢
      by_cases hji : j = ino
      · rw [hji, Function.update_self]
        exact hload.nlinks
      · rw [Function.update_of_ne hji]
        exact h.linked j ((List.mem_cons.mp hj).resolve_left hji)
  | file ino op =>
    unfold Volume.step at hstep
    dsimp only at hstep
    split at hstep
    · rename_i hino
      obtain ⟨t, ht, rfl⟩ := Option.map_eq_some_iff.mp hstep
      exact ⟨h.backed.file hw hino hop ht, h.linked⟩
    · cases hstep
  | fsync ino =>
    unfold Volume.step at hstep
    dsimp only at hstep
    split at hstep
    · rename_i hino
      obtain ⟨t, ht, rfl⟩ := Option.map_eq_some_iff.mp hstep
      obtain ⟨u, hu, hback, -, -⟩ := h.backed.fsync hw hino
      rw [succeeded_of_ok hu] at ht
      obtain rfl := Option.some.inj ht
      exact ⟨hback, h.linked⟩
    · cases hstep
  | reclaim ino =>
    unfold Volume.step at hstep
    dsimp only at hstep
    split at hstep
    · rename_i hino
      obtain ⟨t, ht, rfl⟩ := Option.map_eq_some_iff.mp hstep
      obtain ⟨u, hu, hback, -, hself⟩ := h.backed.fsync hw hino
      rw [← sfsReclaim_eq (h.linked ino hino)] at hu
      rw [succeeded_of_ok hu] at ht
      obtain rfl := Option.some.inj ht
      exact ⟨hback.erase hself, fun j hj => h.linked j (List.mem_of_mem_erase hj)⟩
    · cases hstep
  | sync =>
    obtain ⟨t, ht, rfl⟩ := Option.map_eq_some_iff.mp hstep
    exact ⟨((h.backed.sync hw v.info).of_ok (succeeded_eq_some ht)).2.1, h.linked⟩
  | reboot =>
    obtain ⟨u, hu, hgood, -⟩ := h.reboot hw
    rw [hu] at hstep
    exact Option.some.inj hstep ▸ hgood

/-- Whatever happened to the volume, `sfs_sync` and a mount give it back: the free map, the inodes
and the bytes of every file. -/
theorem volume_survives_reboot (hw : ¬ Faulty) (v₀ : Volume) (h₀ : v₀.Good) (ops : List VolumeOp)
    (hmeets : RunMeets Volume.step Volume.Allows v₀ ops)
    (hrun : runOps Volume.step v₀ ops = some v) :
    ∃ w, v.step .reboot = some w ∧ w.Good ∧ SameVolume v.sfs w.sfs ∧
      ∀ ino ∈ v.sfs.inos, ∀ i, w.sfs.content ino i = v.sfs.content ino i := by
  have hgood : v.Good :=
    runOps_invariant_of_meets (fun _ _ _ hs hc hstep => hs.step hw hc hstep) h₀ hmeets hrun
  exact hgood.reboot hw

end Working

/-- A volume of 1100 blocks with an empty file in memory. The free map is not on disk yet. -/
def freshVolume : Volume where
  sfs := { sfsImage 1100 0 0 (fun b =>
      inodeBytes ⟨0, if b = imageIno then .file else .dir, 0, fun _ => 0, 0⟩ 1) with
    superDirty := true }
  inodeList := [imageIno]
  nlinks := fun _ => 1
  info := fun _ => 0

theorem freshVolume_good : freshVolume.Good := by
  have hinv : Inv False freshVolume.sfs :=
    (Settled.of_disk fun _ _ _ _ _ => rfl).volume.inv
      (sfsImage_inv (by decide) (by decide) (by decide) : Inv False (sfsImage 1100 0 0 _))
  refine ⟨⟨hinv, ?_, by decide, by decide, ?_, ?_, Or.inl rfl⟩, fun _ _ => Nat.one_ne_zero⟩
  · intro ino hino
    refine ⟨hino, hinv, ?_, fun k _ _ => ?_⟩
    · have hsize : (freshVolume.sfs.din ino).size = 0 := by
        change ((if ino = imageIno then _ else _ : SfsInode).din).size = 0
        split
        · rfl
        · rfl
      rw [hsize]
      exact Nat.zero_le _
    · have hdirect : ((sfsImage 1100 0 0 freshVolume.sfs.disk).din ino).direct k = _ :=
        sfsImage_direct
      rw [if_neg fun hbad => Nat.not_lt_zero k hbad.2] at hdirect
      exact hdirect
  · intro j hj
    exact ⟨List.mem_cons_of_mem _ hj, nlinksOf_inodeBytes (by decide)⟩
  · intro j hj
    have hwords : DiskInode.Words ⟨0, if j = imageIno then .file else .dir, 0, fun _ => 0, 0⟩ :=
      ⟨Nat.two_pow_pos 32, Nat.two_pow_pos 32, fun _ _ => Nat.two_pow_pos 32, Nat.two_pow_pos 32⟩
    refine Or.inl ((diskInode_inodeBytes hwords).trans ?_)
    unfold Sfs.din
    change DiskInode.Same _ (if j = imageIno then _ else _ : SfsInode).din
    split
    · exact ⟨rfl, rfl, rfl, fun _ _ => rfl, rfl⟩
    · exact ⟨rfl, rfl, rfl, fun _ _ => rfl, rfl⟩

/-- The file gets two blocks, the volume is written, and the machine is switched off. -/
theorem volume_survives_reboot_fresh : letI := workingDevice
    ∃ v, runOps Volume.step freshVolume [.file imageIno (.truncate 5000), .sync] = some v ∧
      ∃ w, v.step .reboot = some w ∧ w.Good ∧ SameVolume v.sfs w.sfs ∧
        ∀ ino ∈ v.sfs.inos, ∀ i, w.sfs.content ino i = v.sfs.content ino i := by
  let := workingDevice
  have hrun : (runOps Volume.step freshVolume
      [.file imageIno (.truncate 5000), .sync]).isSome = true := by decide +kernel
  obtain ⟨v, hv⟩ := Option.isSome_iff_exists.mp hrun
  refine ⟨v, hv, volume_survives_reboot not_faulty_working freshVolume freshVolume_good
    [.file imageIno (.truncate 5000), .sync] ⟨?_, fun _ _ => ⟨trivial, fun _ _ => trivial⟩⟩ hv⟩
  intro hstop
  exact absurd (Sfs.StopsUnmarked.full hstop) (by decide)

end Ucore.Fs
