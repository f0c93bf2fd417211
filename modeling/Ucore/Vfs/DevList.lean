import Ucore.Library.Tabulate
import Ucore.Vfs.Inode

/-!
`vdev_list`, the devices and the file systems by name, and its calls in `vfsdev.c`. The list is
searched from its head on, and what stands in it is changed in place; by name it is a finite map.
-/
namespace Ucore.Vfs.DevList

open Library

def eInval : ℤ := 3

def eNoMem : ℤ := 4

def eTooBig : ℤ := 12

def eNoDev : ℤ := 13

def eBusy : ℤ := 15

def eExists : ℤ := 23

def fsMaxDnameLen : ℕ := 31

/-- The list from its head on, whether `vdev_list_sem` is taken, and how many blocks of `kmalloc`
are in use. -/
structure DevTable where
  vdevs : List Vdev
  locked : Bool
  blocks : ℕ

/-- `vfs_devlist_init` -/
def devlistInit : DevTable := ⟨[], false, 0⟩

/-- What the calls find besides the list: which inodes are devices, for `check_inode_type`. -/
structure DevKinds where
  isDevice : ℕ → Bool

/-- The result of a call; `none` is a failed assertion, or a lock that is waited for forever. -/
abbrev DevResult := Option (ℤ × DevTable)

/-- The calls. With each one stands what the allocations, the function for mounting and the
operations of the file systems give to it. -/
inductive DevOp where
  | addFs (devname : List Char) (fs : Option ℕ) (strdup kmalloc : Bool)
  | addDev (devname : List Char) (devnode : Option ℕ) (mountable strdup kmalloc : Bool)
  | mount (devname : List Char) (mountfunc : ℕ → Except ℤ ℕ)
  | unmount (devname : List Char) (sync unmount : ℕ → ℤ)
  | unmountAll (sync unmount : ℕ → ℤ)

/-- `check_devname_conflict` -/
def checkDevnameConflict (devname : List Char) : List Vdev → Bool
  | [] => true
  | vdev :: rest =>
    if vdev.devname = devname then false else checkDevnameConflict devname rest

/-- `find_mount` -/
def findMount (devname : List Char) : List Vdev → Option Vdev
  | [] => none
  | vdev :: rest =>
    if vdev.mountable = true ∧ vdev.devname = devname then some vdev else findMount devname rest

/-- The entry that `find_mount` finds gets this file system. -/
def storeFs (devname : List Char) (fs : Option ℕ) : List Vdev → List Vdev :=
  updateFirst (fun vdev => vdev.mountable && decide (vdev.devname = devname))
    (fun vdev => { vdev with fs := fs })

/-- `vop_info(devnode, device)` -/
def DevKinds.deviceOf (kinds : DevKinds) : Option ℕ → Option ℕ
  | none => none
  | some node => if kinds.isDevice node then some node else none

/-- `fsop_sync` and `fsop_unmount` of a mounted file system: the error, or zero. -/
def detach (sync unmount : ℕ → ℤ) (fs : ℕ) : ℤ := if sync fs ≠ 0 then sync fs else unmount fs

/-- The loop of `vfs_unmount_all` at one entry. -/
def unmountEntry (sync unmount : ℕ → ℤ) (vdev : Vdev) : Vdev :=
  match vdev.fs with
  | none => vdev
  | some fs =>
    if vdev.mountable then
      if detach sync unmount fs ≠ 0 then vdev else { vdev with fs := none }
    else vdev

namespace DevTable

variable (kinds : DevKinds) (t : DevTable)

/-- `lock_vdev_list` -/
def lockVdevList : Option DevTable := if t.locked then none else some { t with locked := true }

/-- `unlock_vdev_list` -/
def unlockVdevList : DevTable := { t with locked := false }

/-- `kmalloc` and `kfree` -/
def takeBlock : DevTable := { t with blocks := t.blocks + 1 }

def kfree : DevTable := { t with blocks := t.blocks - 1 }

/-- `vfs_do_add` with its two blocks in hand. -/
def enter (vdev : Vdev) : DevResult := do
  let t ← t.lockVdevList
  if checkDevnameConflict vdev.devname t.vdevs = false then
    pure (-eExists, t.unlockVdevList.kfree.kfree)
  else pure (0, { t with vdevs := vdev :: t.vdevs }.unlockVdevList)

/-- `vfs_do_add` -/
def vfsDoAdd (vdev : Vdev) (strdup kmalloc : Bool) : DevResult :=
  if ¬ (vdev.devnode = none ∧ vdev.mountable = false) ∧ kinds.deviceOf vdev.devnode = none then none
  else if vdev.devname.length > fsMaxDnameLen then some (-eTooBig, t)
  else if !strdup then some (-eNoMem, t)
  else if !kmalloc then some (-eNoMem, t.takeBlock.kfree)
  else t.takeBlock.takeBlock.enter vdev

/-- `vfs_mount` -/
def vfsMount (devname : List Char) (mountfunc : ℕ → Except ℤ ℕ) : DevResult := do
  let t ← t.lockVdevList
  match findMount devname t.vdevs with
  | none => pure (-eNoDev, t.unlockVdevList)
  | some vdev =>
    if vdev.fs ≠ none then pure (-eBusy, t.unlockVdevList)
    else do
      let dev ← kinds.deviceOf vdev.devnode
      match mountfunc dev with
      | .error ret => pure (ret, t.unlockVdevList)
      | .ok fs => pure (0, { t with vdevs := storeFs devname (some fs) t.vdevs }.unlockVdevList)

/-- `vfs_unmount` -/
def vfsUnmount (devname : List Char) (sync unmount : ℕ → ℤ) : DevResult := do
  let t ← t.lockVdevList
  match findMount devname t.vdevs with
  | none => pure (-eNoDev, t.unlockVdevList)
  | some vdev =>
    match vdev.fs with
    | none => pure (-eInval, t.unlockVdevList)
    | some fs =>
      let ret := detach sync unmount fs
      if ret ≠ 0 then pure (ret, t.unlockVdevList)
      else pure (0, { t with vdevs := storeFs devname none t.vdevs }.unlockVdevList)

/-- `vfs_unmount_all` -/
def vfsUnmountAll (sync unmount : ℕ → ℤ) : DevResult :=
  if t.vdevs = [] then some (0, t)
  else do
    let t ← t.lockVdevList
    pure (0, { t with vdevs := t.vdevs.map (unmountEntry sync unmount) }.unlockVdevList)

/-- The devices with a file system to which `vfs_cleanup` goes, in its order. -/
def vfsCleanup : List ℕ := t.vdevs.filterMap Vdev.fs

/-- `vfs_get_devname` -/
def vfsGetDevname (fs : ℕ) : Option (List Char) :=
  (t.vdevs.find? fun vdev => decide (vdev.fs = some fs)).map Vdev.devname

def exec : DevOp → DevResult
  | .addFs devname fs strdup kmalloc =>
    t.vfsDoAdd kinds ⟨devname, none, fs, false⟩ strdup kmalloc
  | .addDev devname devnode mountable strdup kmalloc =>
    t.vfsDoAdd kinds ⟨devname, devnode, none, mountable⟩ strdup kmalloc
  | .mount devname mountfunc => t.vfsMount kinds devname mountfunc
  | .unmount devname sync unmount => t.vfsUnmount devname sync unmount
  | .unmountAll sync unmount => t.vfsUnmountAll sync unmount

end DevTable

/-! The devices as a map. -/

/-- What stands under a name. -/
abbrev DevMap := List Char → Option Vdev

namespace DevMap

variable (kinds : DevKinds) (d : DevMap)

/-- A new name is entered, if there is memory. -/
def add (vdev : Vdev) (strdup kmalloc : Bool) : Option (ℤ × DevMap) :=
  if ¬ (vdev.devnode = none ∧ vdev.mountable = false) ∧ kinds.deviceOf vdev.devnode = none then none
  else some <|
    if fsMaxDnameLen < vdev.devname.length then (-eTooBig, d)
    else if strdup = false ∨ kmalloc = false then (-eNoMem, d)
    else if (d vdev.devname).isSome then (-eExists, d)
    else (0, Function.update d vdev.devname (some vdev))

/-- A mountable device without a file system gets one. -/
def mount (devname : List Char) (mountfunc : ℕ → Except ℤ ℕ) : ℤ × DevMap :=
  match d devname with
  | some ⟨_, some node, none, true⟩ =>
    match mountfunc node with
    | .error ret => (ret, d)
    | .ok fs => (0, Function.update d devname (some ⟨devname, some node, some fs, true⟩))
  | some ⟨_, _, some _, true⟩ => (-eBusy, d)
  | _ => (-eNoDev, d)

/-- A mountable device loses its file system, if that can be let go. -/
def unmount (devname : List Char) (sync unmount : ℕ → ℤ) : ℤ × DevMap :=
  match d devname with
  | some ⟨_, node, some fs, true⟩ =>
    let ret := detach sync unmount fs
    if ret ≠ 0 then (ret, d)
    else (0, Function.update d devname (some ⟨devname, node, none, true⟩))
  | some ⟨_, _, none, true⟩ => (-eInval, d)
  | _ => (-eNoDev, d)

def unmountAll (sync unmount : ℕ → ℤ) : DevMap :=
  fun devname => (d devname).map (unmountEntry sync unmount)

def exec : DevOp → Option (ℤ × DevMap)
  | .addFs devname fs strdup kmalloc => d.add kinds ⟨devname, none, fs, false⟩ strdup kmalloc
  | .addDev devname devnode mountable strdup kmalloc =>
    d.add kinds ⟨devname, devnode, none, mountable⟩ strdup kmalloc
  | .mount devname mountfunc => some (d.mount devname mountfunc)
  | .unmount devname sync unmount => some (d.unmount devname sync unmount)
  | .unmountAll sync unmount => some (0, d.unmountAll sync unmount)

/-- The root that a name stands for. -/
def getRoot (io : VfsIo) (devname : List Char) : StoreCall ℕ :=
  match d devname with
  | none => Call.fail .noDev
  | some ⟨_, _, some fs, _⟩ => sfsGetRoot io fs
  | some ⟨_, _, none, true⟩ => Call.fail .naDev
  | some ⟨_, node, none, false⟩ => Call.orPanic (takeRoot .naDev node)

end DevMap

/-! The list shows the map. -/

/-- A mountable entry has a device. -/
def Sound (kinds : DevKinds) (vdev : Vdev) : Prop :=
  vdev.mountable = true → ∃ node, vdev.devnode = some node ∧ kinds.isDevice node = true

structure Shows (kinds : DevKinds) (t : DevTable) (d : DevMap) : Prop where
  tab : Tabulates Vdev.devname t.vdevs d
  unlocked : t.locked = false
  blocks : t.blocks = 2 * t.vdevs.length
  short : ∀ vdev ∈ t.vdevs, vdev.devname.length ≤ fsMaxDnameLen
  sound : ∀ vdev ∈ t.vdevs, Sound kinds vdev

variable {kinds : DevKinds} {t t' : DevTable} {d d' : DevMap} {devname : List Char} {l : List Vdev}
  {vdev : Vdev}

theorem checkDevnameConflict_iff :
    checkDevnameConflict devname l = true ↔ ∀ v ∈ l, v.devname ≠ devname := by
  induction l with
  | nil => simp [checkDevnameConflict]
  | cons v l ih =>
    rw [checkDevnameConflict, List.forall_mem_cons]
    by_cases hv : v.devname = devname
    · rw [if_pos hv]
      simp [hv]
    · rw [if_neg hv, ih]
      exact ⟨fun h => ⟨hv, h⟩, fun h => h.2⟩

theorem findMount_some (h : findMount devname l = some vdev) :
    vdev ∈ l ∧ vdev.mountable = true ∧ vdev.devname = devname := by
  induction l with
  | nil => exact absurd h (by simp [findMount])
  | cons v l ih =>
    rw [findMount] at h
    split at h
    · rename_i hv
      obtain rfl := Option.some.inj h
      exact ⟨List.mem_cons_self, hv⟩
    · exact ⟨List.mem_cons_of_mem v (ih h).1, (ih h).2⟩

theorem findMount_none (h : findMount devname l = none) (hv : vdev ∈ l)
    (hm : vdev.mountable = true) : vdev.devname ≠ devname := by
  induction l with
  | nil => exact absurd hv List.not_mem_nil
  | cons v l ih =>
    rw [findMount] at h
    split at h
    · exact absurd h (by simp)
    · rename_i hno
      rcases List.mem_cons.mp hv with rfl | hv
      · exact fun hname => hno ⟨hm, hname⟩
      · exact ih h hv

/-- The entry that is found is that of the map, if it is mountable. -/
theorem findMount_eq (h : Tabulates Vdev.devname l d) :
    findMount devname l = (d devname).filter Vdev.mountable := by
  cases hfind : findMount devname l with
  | some v =>
    obtain ⟨hv, hm, rfl⟩ := findMount_some hfind
    rw [h.mem_iff.mp hv, Option.filter_some, if_pos hm]
  | none =>
    cases hd : d devname with
    | none => rfl
    | some v =>
      obtain rfl := h.key_eq hd
      rw [Option.filter_some, if_neg]
      exact fun hm => findMount_none hfind (h.mem_iff.mpr hd) hm rfl

/-- The results agree, and the list shows the map again. -/
def Agree (kinds : DevKinds) (r : DevResult) (r' : Option (ℤ × DevMap)) : Prop :=
  Option.Rel (fun x y => x.1 = y.1 ∧ Shows kinds x.2 y.2) r r'

theorem Agree.mk (hshows : Shows kinds t d) (ret : ℤ) :
    Agree kinds (some (ret, t)) (some (ret, d)) := Option.Rel.some ⟨rfl, hshows⟩

theorem DevTable.lock_of_unlocked (h : t.locked = false) :
    t.lockVdevList = some { t with locked := true } := by
  unfold lockVdevList
  rw [if_neg (by simp [h])]

theorem DevTable.unlock_lock (h : t.locked = false) :
    DevTable.unlockVdevList { t with locked := true } = t := by
  unfold unlockVdevList
  rw [← h]

namespace Shows

/-- A new entry, of which the assertion of `vfs_do_add` holds. -/
theorem cons (h : Shows kinds t d) (hnew : d vdev.devname = none)
    (hshort : vdev.devname.length ≤ fsMaxDnameLen) (hsound : Sound kinds vdev) :
    Shows kinds ⟨vdev :: t.vdevs, false, t.blocks + 2⟩
      (Function.update d vdev.devname (some vdev)) where
  tab := h.tab.cons hnew
  unlocked := rfl
  blocks := by
    have hblocks := h.blocks
    change t.blocks + 2 = 2 * (t.vdevs.length + 1)
    omega
  short := List.forall_mem_cons.mpr ⟨hshort, h.short⟩
  sound := List.forall_mem_cons.mpr ⟨hsound, h.sound⟩

/-- The entries are changed, each under its name. -/
theorem changed (h : Shows kinds t d) (f : Vdev → Vdev) (hname : ∀ v, (f v).devname = v.devname)
    (hsound : ∀ v, Sound kinds v → Sound kinds (f v)) (ht : t'.vdevs = t.vdevs.map f)
    (hlocked : t'.locked = false) (hblocks : t'.blocks = t.blocks)
    (htab : Tabulates Vdev.devname t'.vdevs d') : Shows kinds t' d' where
  tab := htab
  unlocked := hlocked
  blocks := by
    rw [hblocks, ht, List.length_map]
    exact h.blocks
  short v hv := by
    rw [ht] at hv
    obtain ⟨w, hw, rfl⟩ := List.mem_map.mp hv
    rw [hname]
    exact h.short w hw
  sound v hv := by
    rw [ht] at hv
    obtain ⟨w, hw, rfl⟩ := List.mem_map.mp hv
    exact hsound w (h.sound w hw)

theorem isSome_iff (h : Shows kinds t d) :
    (d devname).isSome = true ↔ checkDevnameConflict devname t.vdevs = false := by
  rw [← Bool.not_eq_true, checkDevnameConflict_iff, ← h.tab.eq_none_iff, Option.isSome_iff_ne_none]

theorem sound_of_assert (hassert : ¬ (¬ (vdev.devnode = none ∧ vdev.mountable = false) ∧
    kinds.deviceOf vdev.devnode = none)) : Sound kinds vdev := by
  intro hm
  cases hnode : vdev.devnode with
  | none =>
    refine absurd ⟨?_, ?_⟩ hassert
    · simp [hm]
    · rw [hnode]
      rfl
  | some node =>
    refine ⟨node, rfl, ?_⟩
    by_contra hdev
    refine hassert ⟨by simp [hm], ?_⟩
    rw [hnode, DevKinds.deviceOf, if_neg hdev]

theorem enter (h : Shows kinds t d) (hshort : vdev.devname.length ≤ fsMaxDnameLen)
    (hsound : Sound kinds vdev) : Agree kinds (t.takeBlock.takeBlock.enter vdev)
      (some (if (d vdev.devname).isSome then (-eExists, d)
        else (0, Function.update d vdev.devname (some vdev)))) := by
  have hlock : t.takeBlock.takeBlock.locked = false := h.unlocked
  unfold DevTable.enter
  rw [DevTable.lock_of_unlocked hlock, Option.bind_eq_bind, Option.bind_some,
    DevTable.unlock_lock hlock]
  by_cases hconflict : checkDevnameConflict vdev.devname t.vdevs = false
  · have hname := h.isSome_iff.mpr hconflict
    rw [if_pos hname]
    refine Eq.mpr (congrArg (Agree kinds · _) (if_pos hconflict)) ?_
    exact Agree.mk h _
  · have hname : ¬ (d vdev.devname).isSome = true := fun hsome =>
      hconflict (h.isSome_iff.mp hsome)
    have hnew : d vdev.devname = none := Option.not_isSome_iff_eq_none.mp hname
    rw [if_neg hname]
    refine Eq.mpr (congrArg (Agree kinds · _) (if_neg hconflict)) ?_
    exact Agree.mk (h.cons hnew hshort hsound) _

theorem vfsDoAdd (h : Shows kinds t d) (vdev : Vdev) (strdup kmalloc : Bool) :
    Agree kinds (t.vfsDoAdd kinds vdev strdup kmalloc) (d.add kinds vdev strdup kmalloc) := by
  unfold DevTable.vfsDoAdd DevMap.add
  by_cases hassert : ¬ (vdev.devnode = none ∧ vdev.mountable = false) ∧
      kinds.deviceOf vdev.devnode = none
  · rw [if_pos hassert, if_pos hassert]
    exact Option.Rel.none
  · rw [if_neg hassert, if_neg hassert]
    by_cases hlong : vdev.devname.length > fsMaxDnameLen
    · rw [if_pos hlong, if_pos hlong]
      exact Agree.mk h _
    · rw [if_neg hlong, if_neg hlong]
      cases strdup with
      | false => exact Agree.mk h _
      | true =>
        cases kmalloc with
        | false => exact Agree.mk h _
        | true => exact h.enter (Nat.le_of_not_lt hlong) (sound_of_assert hassert)

/-- A mountable device with its file system changed. -/
theorem storeFs (h : Shows kinds t d) {node fs : Option ℕ} (fs' : Option ℕ)
    (hd : d devname = some ⟨devname, node, fs, true⟩) :
    Shows kinds { t with vdevs := storeFs devname fs' t.vdevs }
      (Function.update d devname (some ⟨devname, node, fs', true⟩)) := by
  have htest : ∀ v : Vdev, (v.mountable && decide (v.devname = devname)) = true →
      v.devname = devname := by
    intro v hv
    rw [Bool.and_eq_true, decide_eq_true_eq] at hv
    exact hv.2
  have hpass : ((⟨devname, node, fs, true⟩ : Vdev).mountable &&
      decide ((⟨devname, node, fs, true⟩ : Vdev).devname = devname)) = true := by simp
  have hmem := (h.tab.mem_iff (a := ⟨devname, node, fs, true⟩)).mpr hd
  refine h.changed (fun v => if v.devname = devname then { v with fs := fs' } else v) ?_ ?_ ?_
    h.unlocked rfl ?_
  · intro v
    split <;> rfl
  · intro v hv
    split
    · exact hv
    · exact hv
  · exact Tabulates.updateFirst_eq_map h.tab.nodup hmem htest hpass
  · exact h.tab.updateFirst hd (fun _ => rfl) htest hpass

theorem vfsMount (h : Shows kinds t d) (devname : List Char) (mountfunc : ℕ → Except ℤ ℕ) :
    Agree kinds (t.vfsMount kinds devname mountfunc) (some (d.mount devname mountfunc)) := by
  unfold DevTable.vfsMount DevMap.mount
  rw [DevTable.lock_of_unlocked h.unlocked, Option.bind_eq_bind, Option.bind_some,
    findMount_eq h.tab, DevTable.unlock_lock h.unlocked]
  cases hd : d devname with
  | none => exact Agree.mk h _
  | some v =>
    obtain rfl := h.tab.key_eq hd
    have hsound := h.sound v (h.tab.mem_iff.mpr hd)
    obtain ⟨name, node, fs, mountable⟩ := v
    cases mountable with
    | false => cases node <;> cases fs <;> exact Agree.mk h _
    | true =>
      obtain ⟨n, hnode, hdev⟩ := hsound rfl
      obtain rfl : node = some n := hnode
      cases fs with
      | some fs => exact Agree.mk h _
      | none =>
        have hkind : kinds.deviceOf (some n) = some n := if_pos hdev
        simp only [Option.filter_some, if_true, ne_eq, not_true_eq_false, if_false, hkind,
          Option.bind_eq_bind, Option.bind_some]
        cases hmount : mountfunc n with
        | error ret => exact Agree.mk h _
        | ok fs =>
          have hstore := h.storeFs (some fs) hd
          rw [← DevTable.unlock_lock h.unlocked] at hstore
          exact Agree.mk hstore _

theorem vfsUnmount (h : Shows kinds t d) (devname : List Char) (sync unmount : ℕ → ℤ) :
    Agree kinds (t.vfsUnmount devname sync unmount) (some (d.unmount devname sync unmount)) := by
  unfold DevTable.vfsUnmount DevMap.unmount
  rw [DevTable.lock_of_unlocked h.unlocked, Option.bind_eq_bind, Option.bind_some,
    findMount_eq h.tab, DevTable.unlock_lock h.unlocked]
  cases hd : d devname with
  | none => exact Agree.mk h _
  | some v =>
    obtain rfl := h.tab.key_eq hd
    obtain ⟨name, node, fs, mountable⟩ := v
    cases mountable with
    | false => cases fs <;> exact Agree.mk h _
    | true =>
      cases fs with
      | none => exact Agree.mk h _
      | some fs =>
        simp only [Option.filter_some, if_true]
        by_cases hret : detach sync unmount fs = 0
        · rw [if_neg (not_not.mpr hret), if_neg (not_not.mpr hret)]
          have hstore := h.storeFs none hd
          rw [← DevTable.unlock_lock h.unlocked] at hstore
          exact Agree.mk hstore _
        · rw [if_pos hret, if_pos hret]
          exact Agree.mk h _

theorem unmountEntry_cases (sync unmount : ℕ → ℤ) (v : Vdev) :
    unmountEntry sync unmount v = v ∨ unmountEntry sync unmount v = { v with fs := none } := by
  unfold unmountEntry
  cases v.fs with
  | none => exact Or.inl rfl
  | some fs =>
    dsimp only
    split
    · split
      · exact Or.inl rfl
      · exact Or.inr rfl
    · exact Or.inl rfl

theorem vfsUnmountAll (h : Shows kinds t d) (sync unmount : ℕ → ℤ) :
    Agree kinds (t.vfsUnmountAll sync unmount) (some (0, d.unmountAll sync unmount)) := by
  have hname : ∀ v, (unmountEntry sync unmount v).devname = v.devname := by
    intro v
    rcases unmountEntry_cases sync unmount v with heq | heq
    · rw [heq]
    · rw [heq]
  have hsound : ∀ v, Sound kinds v → Sound kinds (unmountEntry sync unmount v) := by
    intro v hv
    rcases unmountEntry_cases sync unmount v with heq | heq
    · rw [heq]
      exact hv
    · rw [heq]
      exact hv
  have hall : Shows kinds ⟨t.vdevs.map (unmountEntry sync unmount), false, t.blocks⟩
      (d.unmountAll sync unmount) :=
    h.changed _ hname hsound rfl rfl rfl (h.tab.map hname)
  unfold DevTable.vfsUnmountAll
  by_cases hempty : t.vdevs = []
  · rw [if_pos hempty]
    rw [hempty] at hall
    have hsame : t = ⟨[], false, t.blocks⟩ := by
      rw [← hempty, ← h.unlocked]
    rw [hsame]
    exact Agree.mk hall 0
  · rw [if_neg hempty, DevTable.lock_of_unlocked h.unlocked]
    exact Agree.mk hall 0

/-- Each call does on the list what it does on the map. -/
theorem exec (h : Shows kinds t d) (op : DevOp) :
    Agree kinds (t.exec kinds op) (d.exec kinds op) := by
  cases op with
  | addFs devname fs strdup kmalloc => exact h.vfsDoAdd _ _ _
  | addDev devname devnode mountable strdup kmalloc => exact h.vfsDoAdd _ _ _
  | mount devname mountfunc => exact h.vfsMount _ _
  | unmount devname sync unmount => exact h.vfsUnmount _ _ _
  | unmountAll sync unmount => exact h.vfsUnmountAll _ _

/-! What is looked up. -/

theorem getRoot (h : Shows kinds t d) (io : VfsIo) {r : Roots} (hr : r.vdevList = t.vdevs)
    (devname : List Char) : vfsGetRoot io r devname = d.getRoot io devname := by
  have hfind : (r.vdevList.find? fun v => v.devname == devname) = d devname := by
    rw [hr, ← h.tab.find]
    exact congrArg (List.find? · t.vdevs) (funext fun v => beq_eq_decide _ _)
  unfold vfsGetRoot DevMap.getRoot
  rw [hfind]
  cases d devname with
  | none => rfl
  | some v =>
    obtain ⟨name, node, fs, mountable⟩ := v
    cases fs with
    | some fs => rfl
    | none =>
      cases mountable with
      | true => rfl
      | false => rfl

theorem getDevname_some (h : Shows kinds t d) {fs : ℕ} (hname : t.vfsGetDevname fs = some devname) :
    ∃ v, d devname = some v ∧ v.fs = some fs := by
  obtain ⟨v, hfind, rfl⟩ := Option.map_eq_some_iff.mp hname
  have hfs := List.find?_some hfind
  exact ⟨v, h.tab.mem_iff.mp (List.mem_of_find?_eq_some hfind), of_decide_eq_true hfs⟩

theorem getDevname_none (h : Shows kinds t d) {fs : ℕ} :
    t.vfsGetDevname fs = none ↔ ∀ devname v, d devname = some v → v.fs ≠ some fs := by
  unfold DevTable.vfsGetDevname
  rw [Option.map_eq_none_iff, List.find?_eq_none]
  constructor
  · intro hno name v hd hfs
    obtain rfl := h.tab.key_eq hd
    exact hno v (h.tab.mem_iff.mpr hd) (decide_eq_true hfs)
  · intro hno v hv hfs
    exact hno v.devname v (h.tab.mem_iff.mp hv) (of_decide_eq_true hfs)

theorem mem_cleanup (h : Shows kinds t d) {fs : ℕ} :
    fs ∈ t.vfsCleanup ↔ ∃ devname v, d devname = some v ∧ v.fs = some fs := by
  unfold DevTable.vfsCleanup
  rw [List.mem_filterMap]
  constructor
  · rintro ⟨v, hv, hfs⟩
    exact ⟨v.devname, v, h.tab.mem_iff.mp hv, hfs⟩
  · rintro ⟨name, v, hd, hfs⟩
    obtain rfl := h.tab.key_eq hd
    exact ⟨v, h.tab.mem_iff.mpr hd, hfs⟩


end Shows

/-! Runs. -/

/-- The results of some calls, one after the other, and the list after them. -/
def DevTable.execAll (kinds : DevKinds) : DevTable → List DevOp → Option (List ℤ × DevTable)
  | t, [] => some ([], t)
  | t, op :: ops => do
    let (ret, t) ← t.exec kinds op
    let (rets, t) ← t.execAll kinds ops
    pure (ret :: rets, t)

def DevMap.execAll (kinds : DevKinds) : DevMap → List DevOp → Option (List ℤ × DevMap)
  | d, [] => some ([], d)
  | d, op :: ops => do
    let (ret, d) ← d.exec kinds op
    let (rets, d) ← d.execAll kinds ops
    pure (ret :: rets, d)

theorem Shows.execAll (h : Shows kinds t d) (ops : List DevOp) :
    Option.Rel (fun x y => x.1 = y.1 ∧ Shows kinds x.2 y.2) (t.execAll kinds ops)
      (d.execAll kinds ops) := by
  induction ops generalizing t d with
  | nil => exact Option.Rel.some ⟨rfl, h⟩
  | cons op ops ih =>
    rw [DevTable.execAll, DevMap.execAll]
    have hstep := h.exec op
    unfold Agree at hstep
    generalize t.exec kinds op = r at hstep ⊢
    generalize d.exec kinds op = r' at hstep ⊢
    cases hstep with
    | none => exact Option.Rel.none
    | @some x y hxy =>
      obtain ⟨ret, t₁⟩ := x
      obtain ⟨ret', d₁⟩ := y
      obtain ⟨rfl, hshows⟩ := hxy
      have hrest := ih hshows
      simp only [Option.bind_eq_bind, Option.bind_some]
      generalize t₁.execAll kinds ops = r at hrest ⊢
      generalize d₁.execAll kinds ops = r' at hrest ⊢
      cases hrest with
      | none => exact Option.Rel.none
      | @some x y hxy =>
        obtain ⟨rets, t₂⟩ := x
        obtain ⟨rets', d₂⟩ := y
        obtain ⟨rfl, hend⟩ := hxy
        exact Option.Rel.some ⟨rfl, hend⟩

theorem shows_init : Shows kinds devlistInit (fun _ => none) :=
  ⟨Tabulates.nil, rfl, rfl, fun _ hv => absurd hv List.not_mem_nil,
    fun _ hv => absurd hv List.not_mem_nil⟩

/-- From the empty list on, any calls give the results of the map, panics among them; and then the
list finds the roots and the file systems of the map, holds each name once, and has two blocks for
each entry and no other. -/
theorem calls_refine (kinds : DevKinds) (ops : List DevOp) :
    ((devlistInit.execAll kinds ops).map Prod.fst =
      (DevMap.execAll kinds (fun _ => none) ops).map Prod.fst) ∧
    ∀ rets t, devlistInit.execAll kinds ops = some (rets, t) →
      ∃ d, DevMap.execAll kinds (fun _ => none) ops = some (rets, d) ∧
        (∀ io r devname, r.vdevList = t.vdevs → vfsGetRoot io r devname = d.getRoot io devname) ∧
        (∀ fs devname, t.vfsGetDevname fs = some devname →
          ∃ v, d devname = some v ∧ v.fs = some fs) ∧
        (∀ fs, t.vfsGetDevname fs = none ↔ fs ∉ t.vfsCleanup) ∧
        (∀ fs, fs ∈ t.vfsCleanup ↔ ∃ devname v, d devname = some v ∧ v.fs = some fs) ∧
        (t.vdevs.map Vdev.devname).Nodup ∧
        (∀ v ∈ t.vdevs, v.devname.length ≤ fsMaxDnameLen ∧ Sound kinds v) ∧
        t.locked = false ∧ t.blocks = 2 * t.vdevs.length := by
  have hall := (@shows_init kinds).execAll ops
  generalize devlistInit.execAll kinds ops = r at hall ⊢
  generalize DevMap.execAll kinds (fun _ => none) ops = r' at hall ⊢
  cases hall with
  | none => exact ⟨rfl, fun rets t hno => absurd hno (by simp)⟩
  | @some x y hxy =>
    obtain ⟨rets, t⟩ := x
    obtain ⟨rets', d⟩ := y
    obtain ⟨rfl, h⟩ := hxy
    refine ⟨rfl, ?_⟩
    intro rets' t' heq
    obtain ⟨rfl, rfl⟩ := Prod.mk.inj (Option.some.inj heq)
    refine ⟨d, rfl, fun io r devname hr => h.getRoot io hr devname, fun fs devname hname =>
      h.getDevname_some hname, ?_, fun fs => h.mem_cleanup, h.tab.nodup,
      fun v hv => ⟨h.short v hv, h.sound v hv⟩, h.unlocked, h.blocks⟩
    intro fs
    rw [h.getDevname_none, h.mem_cleanup]
    simp only [not_exists, not_and, ne_eq]

end Ucore.Vfs.DevList
