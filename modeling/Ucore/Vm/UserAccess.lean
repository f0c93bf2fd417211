import Ucore.Vm.UserMem

/-!
`find_vma` and `user_mem_check` of lab8 on machine words, for areas with any bounds. The
check passes exactly for the ranges whose bytes the process may access, whatever area the
cache holds.
-/
namespace Ucore.Vm

/-- The flag that an access needs. -/
def accessFlag (write : Bool) : ℕ := if write then vmWrite else vmRead

/-- `vma_struct`, as `vma_create` makes it from two addresses and flags. -/
structure Area where
  vmStart : ℕ
  vmEnd : ℕ
  vmFlags : ℕ
  deriving DecidableEq

namespace Area

def Contains (v : Area) (addr : ℕ) : Prop := v.vmStart ≤ addr ∧ addr < v.vmEnd

instance (v : Area) (addr : ℕ) : Decidable (v.Contains addr) :=
  inferInstanceAs (Decidable (_ ∧ _))

end Area

/-- `mm_struct`: disjoint areas in ascending order, and the area last found. -/
structure AreaList where
  mmapList : List Area
  mmapCache : Option Area
  apart : mmapList.Pairwise (fun v w => v.vmEnd ≤ w.vmStart)
  cached : ∀ v ∈ mmapCache, v ∈ mmapList

namespace AreaList

/-- The area found is kept in the cache. -/
def keep (mm : AreaList) (v : Area) (h : v ∈ mm.mmapList) : AreaList :=
  ⟨mm.mmapList, some v, mm.apart, fun _ hw => Option.mem_some_iff.mp hw ▸ h⟩

/-- `find_vma`: the area last found is tried first. -/
def findVma (mm : AreaList) (addr : ℕ) : Option Area × AreaList :=
  match mm.mmapCache.filter (fun v => decide (v.Contains addr)) with
  | some v => (some v, mm)
  | none =>
    match h : mm.mmapList.find? (fun v => decide (v.Contains addr)) with
    | some v => (some v, mm.keep v (List.mem_of_find?_eq_some h))
    | none => (none, mm)

@[simp] theorem findVma_mmapList (mm : AreaList) (addr : ℕ) :
    (mm.findVma addr).2.mmapList = mm.mmapList := by
  unfold findVma
  split
  · rfl
  · split <;> rfl

/-- Only one area contains an address. -/
theorem eq_of_contains (mm : AreaList) {v w : Area} {addr : ℕ} (hv : v ∈ mm.mmapList)
    (hw : w ∈ mm.mmapList) (hva : v.Contains addr) (hwa : w.Contains addr) : v = w := by
  by_contra hne
  let R : Area → Area → Prop := fun v w => ¬ (v.Contains addr ∧ w.Contains addr)
  have hsymm : Std.Symm R := ⟨fun v w hvw hwv => hvw hwv.symm⟩
  have hR : mm.mmapList.Pairwise R := by
    refine mm.apart.imp ?_
    intro v w hle hboth
    have h1 := hboth.1.2
    have h2 := hboth.2.1
    omega
  exact hR.forall hv hw hne ⟨hva, hwa⟩

/-- What is found does not depend on the cache. -/
theorem findVma_eq_find (mm : AreaList) (addr : ℕ) :
    (mm.findVma addr).1 = mm.mmapList.find? (fun v => decide (v.Contains addr)) := by
  unfold findVma
  split
  · rename_i v hcache
    obtain ⟨hv, hc⟩ := Option.filter_eq_some_iff.mp hcache
    have hmem := mm.cached v hv
    cases hfind : mm.mmapList.find? (fun v => decide (v.Contains addr)) with
    | none => exact absurd hc (List.find?_eq_none.mp hfind v hmem)
    | some w =>
      have hw := List.mem_of_find?_eq_some hfind
      have hwc := List.find?_some hfind
      rw [mm.eq_of_contains hmem hw (of_decide_eq_true hc) (of_decide_eq_true hwc)]
  · split
    · rename_i v hfind
      exact hfind.symm
    · rename_i hfind
      exact hfind.symm

theorem findVma_some {mm mm' : AreaList} {addr : ℕ} {v : Area}
    (h : mm.findVma addr = (some v, mm')) :
    v ∈ mm.mmapList ∧ v.Contains addr ∧ mm'.mmapList = mm.mmapList := by
  have hlist := mm.findVma_mmapList addr
  have hfind := mm.findVma_eq_find addr
  rw [h] at hlist hfind
  have hc := List.find?_some hfind.symm
  exact ⟨List.mem_of_find?_eq_some hfind.symm, of_decide_eq_true hc, hlist⟩

theorem findVma_none {mm mm' : AreaList} {addr : ℕ} (h : mm.findVma addr = (none, mm')) :
    (∀ v ∈ mm.mmapList, ¬ v.Contains addr) ∧ mm'.mmapList = mm.mmapList := by
  have hlist := mm.findVma_mmapList addr
  have hfind := mm.findVma_eq_find addr
  rw [h] at hlist hfind
  refine ⟨?_, hlist⟩
  intro v hv hc
  exact List.find?_eq_none.mp hfind.symm v hv (decide_eq_true hc)

/-- The loop of `user_mem_check`; `find_vma` moves the cache. -/
def checkLoop (mm : AreaList) (start stop : ℕ) (write : Bool) : Bool × AreaList :=
  if start < stop then
    match _h : mm.findVma start with
    | (none, mm) => (false, mm)
    | (some vma, mm) =>
      if start < vma.vmStart then (false, mm)
      else if vma.vmFlags &&& accessFlag write = 0 then (false, mm)
      else if write = true ∧ vma.vmFlags &&& vmStack ≠ 0 ∧ start < vma.vmStart + pgSize then
        (false, mm)
      else mm.checkLoop vma.vmEnd stop write
  else (true, mm)
termination_by stop - start
decreasing_by
  have := (findVma_some _h).2.1.2
  omega

/-- The byte lies in an area with the flag that the access needs. -/
def Allows (mm : AreaList) (write : Bool) (addr : ℕ) : Prop :=
  ∃ v ∈ mm.mmapList, v.Contains addr ∧ v.vmFlags &&& accessFlag write ≠ 0

/-- The byte lies in the first page of a stack. -/
def InGuard (mm : AreaList) (addr : ℕ) : Prop :=
  ∃ v ∈ mm.mmapList, v.Contains addr ∧ v.vmFlags &&& vmStack ≠ 0 ∧ addr < v.vmStart + pgSize

/-- What the process may do with the byte. -/
def Accessible (mm : AreaList) (write : Bool) (addr : ℕ) : Prop :=
  mm.Allows write addr ∧ (write = true → ¬ mm.InGuard addr)

theorem accessible_congr {mm mm' : AreaList} (h : mm'.mmapList = mm.mmapList) (write : Bool)
    (addr : ℕ) : mm'.Accessible write addr ↔ mm.Accessible write addr := by
  unfold Accessible Allows InGuard
  rw [h]

/-- The scan goes from area to area and tests each where it enters it. -/
theorem checkLoop_iff (mm : AreaList) (start stop : ℕ) (write : Bool) :
    (mm.checkLoop start stop write).1 = true ↔
      ∀ a, start ≤ a → a < stop → mm.Accessible write a := by
  fun_induction checkLoop mm start stop write with
  | case1 mm start hlt mm₁ hfind =>
    simp only [Bool.false_eq_true, false_iff]
    intro hall
    obtain ⟨v, hv, hc, -⟩ := (hall start le_rfl hlt).1
    exact (findVma_none hfind).1 v hv hc
  | case2 mm start hlt v mm₁ hfind hbelow =>
    have hc := (findVma_some hfind).2.1.1
    omega
  | case3 mm start hlt v mm₁ hfind hbelow hflag =>
    simp only [Bool.false_eq_true, false_iff]
    intro hall
    obtain ⟨w, hw, hwc, hwflag⟩ := (hall start le_rfl hlt).1
    obtain ⟨hv, hvc, -⟩ := findVma_some hfind
    obtain rfl := mm.eq_of_contains hw hv hwc hvc
    exact hwflag hflag
  | case4 mm start hlt v mm₁ hfind hbelow hflag hstack =>
    simp only [Bool.false_eq_true, false_iff]
    intro hall
    obtain ⟨hv, hvc, -⟩ := findVma_some hfind
    exact (hall start le_rfl hlt).2 hstack.1 ⟨v, hv, hvc, hstack.2⟩
  | case5 mm start hlt v mm₁ hfind hbelow hflag hstack ih =>
    obtain ⟨hv, hvc, hlist⟩ := findVma_some hfind
    rw [ih]
    simp only [accessible_congr hlist]
    constructor
    · intro hrest a hle ha
      by_cases hend : v.vmEnd ≤ a
      · exact hrest a hend ha
      · -- the byte lies in the area just tested
        have hac : v.Contains a := ⟨hvc.1.trans hle, Nat.lt_of_not_le hend⟩
        refine ⟨⟨v, hv, hac, hflag⟩, ?_⟩
        intro hwrite hguard
        obtain ⟨w, hw, hwc, hws, hwa⟩ := hguard
        obtain rfl := mm.eq_of_contains hw hv hwc hac
        exact hstack ⟨hwrite, hws, by omega⟩
    · intro hall a hle ha
      exact hall a (hvc.2.le.trans hle) ha
  | case6 mm start hlt =>
    simp only [true_iff]
    intro a hle ha
    omega

theorem checkLoop_mmapList (mm : AreaList) (start stop : ℕ) (write : Bool) :
    (mm.checkLoop start stop write).2.mmapList = mm.mmapList := by
  fun_induction checkLoop mm start stop write with
  | case1 mm start hlt mm₁ hfind => exact (findVma_none hfind).2
  | case2 mm start hlt v mm₁ hfind hbelow => exact (findVma_some hfind).2.2
  | case3 mm start hlt v mm₁ hfind hbelow hflag => exact (findVma_some hfind).2.2
  | case4 mm start hlt v mm₁ hfind hbelow hflag hstack => exact (findVma_some hfind).2.2
  | case5 mm start hlt v mm₁ hfind hbelow hflag hstack ih =>
    exact ih.trans (findVma_some hfind).2.2
  | case6 mm start hlt => rfl

theorem checkLoop_congr {mm mm' : AreaList} (h : mm.mmapList = mm'.mmapList)
    (start stop : ℕ) (write : Bool) :
    (mm.checkLoop start stop write).1 = (mm'.checkLoop start stop write).1 := by
  rw [Bool.eq_iff_iff, checkLoop_iff, checkLoop_iff]
  simp only [accessible_congr h]

theorem checkLoop_of_none {mm : AreaList} {start stop : ℕ} {write : Bool} (hlt : start < stop)
    (h : (mm.findVma start).1 = none) : (mm.checkLoop start stop write).1 = false := by
  rw [checkLoop, if_pos hlt]
  split
  · rfl
  · rename_i hfind
    rw [hfind] at h
    exact absurd h (by simp)

theorem checkLoop_of_some {mm : AreaList} {start stop : ℕ} {write : Bool} {v : Area}
    (hlt : start < stop) (h : (mm.findVma start).1 = some v) :
    (mm.checkLoop start stop write).1 =
      if v.vmFlags &&& accessFlag write = 0 then false
      else if write = true ∧ v.vmFlags &&& vmStack ≠ 0 ∧ start < v.vmStart + pgSize then false
      else (mm.checkLoop v.vmEnd stop write).1 := by
  rw [checkLoop, if_pos hlt]
  split
  · rename_i hfind
    rw [hfind] at h
    exact absurd h (by simp)
  · rename_i w mm₁ hfind
    rw [hfind] at h
    obtain rfl := Option.some.inj h
    obtain ⟨-, hc, hlist⟩ := findVma_some hfind
    rw [if_neg (Nat.not_lt.mpr hc.1)]
    split
    · rfl
    · split
      · rfl
      · exact checkLoop_congr hlist _ _ _

end AreaList

/-- `user_mem_check`; `none` is `NULL`, for a kernel thread. -/
def userMemCheck (mm : Option AreaList) (addr len : UInt64) (write : Bool) :
    Bool × Option AreaList :=
  match mm with
  | some mm =>
    if userAccess addr.toNat (addr + len).toNat then
      let (ok, mm) := mm.checkLoop addr.toNat (addr + len).toNat write
      (ok, some mm)
    else (false, some mm)
  | none => (decide (kernAccess addr.toNat (addr + len).toNat), none)

/-- A sum that wraps around ends below its start. -/
theorem userAccess_add_iff (addr len : UInt64) :
    userAccess addr.toNat (addr + len).toNat ↔
      addr.toNat + len.toNat < 2 ^ 64 ∧ userAccess addr.toNat (addr.toNat + len.toNat) := by
  have haddr := addr.toNat_lt
  have hlen := len.toNat_lt
  rw [UInt64.toNat_add]
  unfold userAccess userBase userTop
  omega

theorem userMemCheck_passes_iff (mm : AreaList) (addr len : UInt64) (write : Bool) :
    (userMemCheck (some mm) addr len write).1 = true ↔
      addr.toNat + len.toNat < 2 ^ 64 ∧ userAccess addr.toNat (addr.toNat + len.toNat) ∧
        ∀ a, addr.toNat ≤ a → a < addr.toNat + len.toNat → mm.Accessible write a := by
  unfold userMemCheck
  by_cases hu : userAccess addr.toNat (addr + len).toNat
  · obtain ⟨hwrap, hrange⟩ := (userAccess_add_iff addr len).mp hu
    have hsum : (addr + len).toNat = addr.toNat + len.toNat := by
      rw [UInt64.toNat_add, Nat.mod_eq_of_lt hwrap]
    simp only [if_pos hu]
    rw [AreaList.checkLoop_iff, hsum]
    exact ⟨fun hall => ⟨hwrap, hrange, hall⟩, fun h => h.2.2⟩
  · simp only [if_neg hu, Bool.false_eq_true, false_iff]
    intro h
    exact hu ((userAccess_add_iff addr len).mpr ⟨h.1, h.2.1⟩)

theorem userMemCheck_keeps (mm : AreaList) (addr len : UInt64) (write : Bool) :
    ∃ mm', (userMemCheck (some mm) addr len write).2 = some mm' ∧
      mm'.mmapList = mm.mmapList := by
  unfold userMemCheck
  by_cases hu : userAccess addr.toNat (addr + len).toNat
  · simp only [if_pos hu]
    exact ⟨_, rfl, mm.checkLoop_mmapList _ _ _⟩
  · simp only [if_neg hu]
    exact ⟨mm, rfl, rfl⟩

/-- `user_mem_check` decides what a process may access, and leaves behind a cache that no
later search depends on. -/
theorem userMemCheck_exact (mm : AreaList) (addr len : UInt64) (write : Bool) :
    ((userMemCheck (some mm) addr len write).1 = true ↔
      addr.toNat + len.toNat < 2 ^ 64 ∧ userAccess addr.toNat (addr.toNat + len.toNat) ∧
        ∀ a, addr.toNat ≤ a → a < addr.toNat + len.toNat →
          mm.Allows write a ∧ (write = true → ¬ mm.InGuard a)) ∧
    ∃ mm', (userMemCheck (some mm) addr len write).2 = some mm' ∧ mm'.mmapList = mm.mmapList ∧
      ∀ mm'' : AreaList, mm''.mmapList = mm.mmapList → ∀ la,
        (mm''.findVma la).1 = (mm'.findVma la).1 := by
  obtain ⟨mm', hmm', hlist⟩ := userMemCheck_keeps mm addr len write
  refine ⟨userMemCheck_passes_iff mm addr len write, mm', hmm', hlist, ?_⟩
  intro mm'' hlist'' la
  rw [AreaList.findVma_eq_find, AreaList.findVma_eq_find, hlist, hlist'']

/-- The access to the byte passes `user_mem_check`; without an `mm` the range of the kernel counts. -/
def MayAccess (mm : Option AreaList) (write : Bool) (a : ℕ) : Prop :=
  match mm with
  | some mm => userBase ≤ a ∧ a < userTop ∧ mm.Accessible write a
  | none => kernBase ≤ a ∧ a < kernTop

theorem MayAccess.lt {mm : Option AreaList} {write : Bool} {a b : ℕ} (h : MayAccess mm write a)
    (hb : MayAccess mm write b) : b < 2 ^ 64 ∧ a + 1 < b + 2 ^ 31 := by
  cases mm with
  | none =>
    unfold MayAccess kernTop kernBase kmemSize at h hb
    omega
  | some mm =>
    have h1 := h.2.1
    have h2 := hb.2.1
    have h3 := hb.1
    unfold userTop at h1 h2
    unfold userBase at h3
    omega

/-- A range that is not empty passes the check where each of its bytes does. -/
theorem userMemCheck_iff_mayAccess (mm : Option AreaList) (addr len : UInt64) (write : Bool)
    (hpos : 0 < len.toNat) : (userMemCheck mm addr len write).1 = true ↔
      ∀ i < len.toNat, MayAccess mm write (addr.toNat + i) := by
  cases mm with
  | some mm =>
    rw [userMemCheck_passes_iff]
    constructor
    · intro h i hi
      obtain ⟨-, hrange, hall⟩ := h
      have h1 := hrange.1
      have h2 := hrange.2.2
      exact ⟨by omega, by omega, hall _ (by omega) (by omega)⟩
    · intro h
      have hfirst := (h 0 hpos).1
      have hlast := (h (len.toNat - 1) (by omega)).2.1
      refine ⟨?_, ⟨hfirst, by omega, by omega⟩, ?_⟩
      · unfold userTop at hlast
        omega
      · intro a hle ha
        have hbyte := (h (a - addr.toNat) (by omega)).2.2
        rwa [Nat.add_sub_cancel' hle] at hbyte
  | none =>
    have haddr := addr.toNat_lt
    have hlen := len.toNat_lt
    have hsum := UInt64.toNat_add addr len
    change decide (kernAccess addr.toNat (addr + len).toNat) = true ↔ _
    rw [decide_eq_true_iff]
    constructor
    · intro h i hi
      obtain ⟨h1, h2, h3⟩ := h
      exact ⟨by omega, by omega⟩
    · intro h
      have hfirst := (h 0 hpos).1
      have hlast := (h (len.toNat - 1) (by omega)).2
      unfold kernTop kernBase kmemSize at hlast
      unfold kernAccess kernTop kmemSize
      unfold kernBase at hfirst ⊢
      omega

/-- The check leaves alone what may be accessed. -/
theorem mayAccess_userMemCheck {mm : Option AreaList} {addr len : UInt64} {write write' : Bool}
    {a : ℕ} : MayAccess (userMemCheck mm addr len write).2 write' a ↔ MayAccess mm write' a := by
  cases mm with
  | none => exact Iff.rfl
  | some mm =>
    obtain ⟨mm', hmm', hlist⟩ := userMemCheck_keeps mm addr len write
    rw [hmm']
    simp only [MayAccess, AreaList.accessible_congr hlist]

/-! The areas of lab5, which are aligned and lie in user space, are a case of these. -/

def Vma.toArea (v : Vma) : Area := ⟨v.vmStart, v.vmEnd, v.vmFlags⟩

namespace Mm

def toAreaList (mm : Mm) (hs : mm.Sorted) : AreaList :=
  ⟨mm.mmapList.map Vma.toArea, mm.mmapCache.map Vma.toArea,
    List.pairwise_map.mpr hs.apart, by
      intro v hv
      obtain ⟨w, hw, rfl⟩ := Option.map_eq_some_iff.mp hv
      exact List.mem_map_of_mem (hs.cached w hw)⟩

theorem Sorted.findVma_eq_find {mm : Mm} (hs : mm.Sorted) (addr : ℕ) :
    (mm.findVma addr).1 = mm.mmapList.find? (fun v => decide (v.Contains addr)) := by
  cases hfind : mm.mmapList.find? (fun v => decide (v.Contains addr)) with
  | some v =>
    have hc := List.find?_some hfind
    exact hs.findVma_eq_some.mpr ⟨List.mem_of_find?_eq_some hfind, of_decide_eq_true hc⟩
  | none =>
    cases hv : (mm.findVma addr).1 with
    | none => rfl
    | some v =>
      obtain ⟨hmem, hc⟩ := hs.findVma_eq_some.mp hv
      exact absurd (decide_eq_true hc) (List.find?_eq_none.mp hfind v hmem)

theorem Sorted.findVma_toAreaList {mm : Mm} (hs : mm.Sorted) (addr : ℕ) :
    ((mm.toAreaList hs).findVma addr).1 = (mm.findVma addr).1.map Vma.toArea := by
  rw [AreaList.findVma_eq_find, hs.findVma_eq_find, toAreaList, List.find?_map]
  rfl

theorem Sorted.checkLoop_toAreaList {mm : Mm} (hs : mm.Sorted) (start stop : ℕ) (write : Bool) :
    ((mm.toAreaList hs).checkLoop start stop write).1 =
      (mm.memCheckLoop start stop write).1 := by
  have hfound : ∀ {mm mm₁ : Mm} (hs : mm.Sorted) {start : ℕ} {v : Vma},
      mm.findVma start = (some v, mm₁) →
        ((mm.toAreaList hs).findVma start).1 = some v.toArea := by
    intro mm mm₁ hs start v hfind
    rw [hs.findVma_toAreaList, hfind]
    rfl
  fun_induction memCheckLoop mm start stop write with
  | case1 mm start hlt mm₁ hfind =>
    refine AreaList.checkLoop_of_none hlt ?_
    rw [hs.findVma_toAreaList, hfind]
    rfl
  | case2 mm start hlt v mm₁ hfind hbelow =>
    have hc := (findVma_contains hfind).1
    omega
  | case3 mm start hlt v mm₁ hfind hbelow hflag =>
    rw [AreaList.checkLoop_of_some hlt (hfound hs hfind)]
    exact if_pos hflag
  | case4 mm start hlt v mm₁ hfind hbelow hflag hstack =>
    rw [AreaList.checkLoop_of_some hlt (hfound hs hfind)]
    exact (if_neg hflag).trans (if_pos hstack)
  | case5 mm start hlt v mm₁ hfind hbelow hflag hstack ih =>
    have hsame : SameAreas mm mm₁ := by
      have hall := mm.findVma_sameAreas start
      rwa [hfind] at hall
    have hlist : (mm.toAreaList hs).mmapList = (mm₁.toAreaList (hsame.sorted hs)).mmapList :=
      congrArg (List.map Vma.toArea) hsame.mmapList.symm
    rw [AreaList.checkLoop_of_some hlt (hfound hs hfind), ← ih (hsame.sorted hs)]
    refine ((if_neg hflag).trans (if_neg hstack)).trans ?_
    exact AreaList.checkLoop_congr hlist _ _ _
  | case6 mm start hlt =>
    rw [AreaList.checkLoop, if_neg hlt]

/-- The check of lab5 is this one. -/
theorem Sorted.userMemCheck_toAreaList {mm : Mm} (hs : mm.Sorted) (addr len : UInt64)
    (write : Bool) :
    (Vm.userMemCheck (some (mm.toAreaList hs)) addr len write).1 =
      (mm.userMemCheck addr.toNat len.toNat write).1 := by
  have hiff := userAccess_add_iff addr len
  unfold Vm.userMemCheck userMemCheck
  by_cases hu : userAccess addr.toNat (addr + len).toNat
  · obtain ⟨hwrap, hrange⟩ := hiff.mp hu
    have hsum : (addr + len).toNat = addr.toNat + len.toNat := by
      rw [UInt64.toNat_add, Nat.mod_eq_of_lt hwrap]
    simp only [if_pos hrange, hsum]
    exact hs.checkLoop_toAreaList _ _ _
  · have hrange : ¬ userAccess addr.toNat (addr.toNat + len.toNat) := by
      intro hrange
      have htop := hrange.2.2
      refine hu (hiff.mpr ⟨?_, hrange⟩)
      unfold userTop at htop
      omega
    simp only [if_neg hu, if_neg hrange]

end Mm
end Ucore.Vm
