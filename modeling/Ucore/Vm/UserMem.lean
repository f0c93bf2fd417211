import Ucore.Vm.Fork

/-!
`mm_map` and `user_mem_check`: a new area of an address space, and the check that a
range given by a process lies in areas with the wanted permission.
-/
namespace Ucore.Vm

def vmRead : ℕ := 0x00000001
def vmExec : ℕ := 0x00000004
def vmStack : ℕ := 0x00000008

def kernBase : ℕ := 0xFFFFFFFFC0200000
def kmemSize : ℕ := 0x7E00000
def kernTop : ℕ := kernBase + kmemSize

/-- `KERN_ACCESS(start, end)` -/
def kernAccess (start stop : ℕ) : Prop :=
  kernBase ≤ start ∧ start < stop ∧ stop ≤ kernTop

instance (start stop : ℕ) : Decidable (kernAccess start stop) :=
  inferInstanceAs (Decidable (_ ∧ _ ∧ _))

theorem roundDown_aligned (a n : ℕ) : roundDown a n % n = 0 := by
  unfold roundDown
  rw [Nat.sub_mod_eq_zero_of_mod_eq]
  exact (Nat.mod_mod a n).symm

theorem roundUp_aligned (a n : ℕ) : roundUp a n % n = 0 := roundDown_aligned _ n

theorem roundDown_le (a n : ℕ) : roundDown a n ≤ a := Nat.sub_le _ _

theorem lt_roundDown_page (a : ℕ) : a < roundDown a pgSize + pgSize := by
  unfold roundDown pgSize
  omega

theorem le_roundUp_page (a : ℕ) : a ≤ roundUp a pgSize := by
  unfold roundUp roundDown pgSize
  omega

namespace Mm

/-- `mm_map`. `vma_create` succeeds here; its failure is that of `kmalloc`. -/
def mmMap (mm : Mm) (addr len vmFlags : ℕ) : Option (ℤ × Mm) :=
  let start := roundDown addr pgSize
  let stop := roundUp (addr + len) pgSize
  if h : userAccess start stop then
    match mm.findVma start with
    | (some vma, mm) =>
      if stop > vma.vmStart then some (-eInval, mm)
      else (mm.insertVmaStruct
        ⟨start, stop, vmFlags, roundDown_aligned _ _, roundUp_aligned _ _, h⟩).map (fun mm => (0, mm))
    | (none, mm) => (mm.insertVmaStruct
        ⟨start, stop, vmFlags, roundDown_aligned _ _, roundUp_aligned _ _, h⟩).map (fun mm => (0, mm))
  else some (-eInval, mm)

/-- The loop of `user_mem_check`; `find_vma` moves the cache. -/
def memCheckLoop (mm : Mm) (start stop : ℕ) (write : Bool) : Bool × Mm :=
  if start < stop then
    match _h : mm.findVma start with
    | (none, mm) => (false, mm)
    | (some vma, mm) =>
      if start < vma.vmStart then (false, mm)
      else if vma.vmFlags &&& (if write then vmWrite else vmRead) = 0 then (false, mm)
      else if write = true ∧ vma.vmFlags &&& vmStack ≠ 0 ∧ start < vma.vmStart + pgSize then
        (false, mm)
      else mm.memCheckLoop vma.vmEnd stop write
  else (true, mm)
termination_by stop - start
decreasing_by
  have := (findVma_contains _h).2
  omega

/-- `user_mem_check` for a process that has an `mm`. A sum `addr + len` that wraps around
fails `USER_ACCESS` as well. -/
def userMemCheck (mm : Mm) (addr len : ℕ) (write : Bool) : Bool × Mm :=
  if userAccess addr (addr + len) then mm.memCheckLoop addr (addr + len) write else (false, mm)

/-- The lists differ at most in the cache. -/
structure SameAreas (mm mm' : Mm) : Prop where
  pgdir : mm'.pgdir = mm.pgdir
  mmapList : mm'.mmapList = mm.mmapList
  sorted : mm.Sorted → mm'.Sorted

theorem SameAreas.refl (mm : Mm) : SameAreas mm mm := ⟨rfl, rfl, fun h => h⟩

theorem SameAreas.trans {mm mm' mm'' : Mm} (h : SameAreas mm mm') (h' : SameAreas mm' mm'') :
    SameAreas mm mm'' :=
  ⟨h'.pgdir.trans h.pgdir, h'.mmapList.trans h.mmapList, fun hs => h'.sorted (h.sorted hs)⟩

theorem findVma_sameAreas (mm : Mm) (la : ℕ) : SameAreas mm (mm.findVma la).2 :=
  ⟨findVma_pgdir mm la, findVma_mmapList mm la, fun h => h.findVma la⟩

theorem SameAreas.areaWritable {mm mm' : Mm} (h : SameAreas mm mm') (la : ℕ) :
    mm'.AreaWritable la ↔ mm.AreaWritable la := by
  unfold AreaWritable
  rw [h.mmapList]

theorem SameAreas.inArea {mm mm' : Mm} (h : SameAreas mm mm') (la : ℕ) :
    mm'.InArea la ↔ mm.InArea la := by
  unfold InArea
  rw [h.mmapList]

theorem memCheckLoop_sameAreas (mm : Mm) (start stop : ℕ) (write : Bool) :
    SameAreas mm (mm.memCheckLoop start stop write).2 := by
  have hfound : ∀ {mm mm₁ : Mm} {start : ℕ} {r : Option Vma},
      mm.findVma start = (r, mm₁) → SameAreas mm mm₁ := by
    intro mm mm₁ start r hfind
    have h := mm.findVma_sameAreas start
    rwa [hfind] at h
  fun_induction memCheckLoop mm start stop write with
  | case1 mm start hlt mm₁ hfind => exact hfound hfind
  | case2 mm start hlt v mm₁ hfind hbelow => exact hfound hfind
  | case3 mm start hlt v mm₁ hfind hbelow hflag => exact hfound hfind
  | case4 mm start hlt v mm₁ hfind hbelow hflag hstack => exact hfound hfind
  | case5 mm start hlt v mm₁ hfind hbelow hflag hstack ih => exact (hfound hfind).trans ih
  | case6 mm start hlt => exact SameAreas.refl mm

theorem userMemCheck_sameAreas (mm : Mm) (addr len : ℕ) (write : Bool) :
    SameAreas mm (mm.userMemCheck addr len write).2 := by
  unfold userMemCheck
  split
  · exact memCheckLoop_sameAreas _ _ _ _
  · exact SameAreas.refl mm

/-- A range that passes the check for writing lies in areas with `VM_WRITE`. -/
theorem Sorted.memCheckLoop_write {mm : Mm} (hs : mm.Sorted) {start stop : ℕ} {write : Bool}
    (hw : write = true) (h : (mm.memCheckLoop start stop write).1 = true) {a : ℕ} (ha : start ≤ a)
    (hlt : a < stop) : mm.AreaWritable a := by
  fun_induction memCheckLoop mm start stop write with
  | case1 mm start hstart mm₁ hfind => exact absurd h (by simp)
  | case2 mm start hstart v mm₁ hfind hbelow => exact absurd h (by simp)
  | case3 mm start hstart v mm₁ hfind hbelow hflag => exact absurd h (by simp)
  | case4 mm start hstart v mm₁ hfind hbelow hflag hstack => exact absurd h (by simp)
  | case5 mm start hstart v mm₁ hfind hbelow hflag hstack ih =>
    have hsame : SameAreas mm mm₁ := by
      have hall := mm.findVma_sameAreas start
      rwa [hfind] at hall
    obtain ⟨hv, hc⟩ := hs.findVma_eq_some.mp (show (mm.findVma start).1 = some v by rw [hfind])
    by_cases hend : a < v.vmEnd
    · refine ⟨v, hv, ⟨?_, hend⟩, ?_⟩
      · exact hc.1.trans ha
      · subst hw
        simpa using hflag
    · rw [← hsame.areaWritable]
      exact ih (hsame.sorted hs) h (by omega)
  | case6 mm start hstart =>
    exact absurd (ha.trans_lt hlt) hstart

theorem Sorted.userMemCheck_write {mm : Mm} (hs : mm.Sorted) {addr len : ℕ}
    (h : (mm.userMemCheck addr len true).1 = true) {a : ℕ} (ha : addr ≤ a) (hlt : a < addr + len) :
    mm.AreaWritable a := by
  unfold userMemCheck at h
  split at h
  · exact hs.memCheckLoop_write rfl h ha hlt
  · exact absurd h (by simp)

theorem AreaWritable.lt_userTop {mm : Mm} {la : ℕ} (h : mm.AreaWritable la) : la < userTop := by
  obtain ⟨v, -, hc, -⟩ := h
  exact hc.lt_userTop

theorem mem_upTo_or_after {mm : Mm} {vma w : Vma} (h : w ∈ mm.mmapList) :
    w ∈ mm.upTo vma ∨ w ∈ mm.after vma := by
  rw [← List.mem_append, upTo, after, List.takeWhile_append_dropWhile]
  exact h

/-- An area that passes the assertions of `insert_vma_struct` overlaps no other, and the
list stays sorted. -/
theorem Sorted.insertVmaStruct {mm mm' : Mm} {vma : Vma} (hs : mm.Sorted)
    (h : mm.insertVmaStruct vma = some mm') :
    mm'.Sorted ∧ mm'.pgdir = mm.pgdir ∧ (∀ w, w ∈ mm'.mmapList ↔ w = vma ∨ w ∈ mm.mmapList) ∧
      ∀ w ∈ mm.mmapList, w.vmEnd ≤ vma.vmStart ∨ vma.vmEnd ≤ w.vmStart := by
  unfold Mm.insertVmaStruct at h
  split at h
  · rename_i hcheck
    obtain ⟨hlt, hprev, hnext⟩ := hcheck
    obtain rfl := Option.some.inj h
    have hsplit : mm.upTo vma ++ mm.after vma = mm.mmapList := List.takeWhile_append_dropWhile
    have hpair := hs.apart
    rw [← hsplit, List.pairwise_append] at hpair
    obtain ⟨hup, haft, hcross⟩ := hpair
    -- the neighbours are apart by the assertions, the others by the order
    have hbefore : ∀ w ∈ mm.upTo vma, w.vmEnd ≤ vma.vmStart := by
      intro w hw
      have hne : mm.upTo vma ≠ [] := List.ne_nil_of_mem hw
      have hlast := hprev _ (List.getLast?_eq_some_getLast hne)
      rcases List.mem_iff_append.mp hw with ⟨s, t, hst⟩
      cases t with
      | nil =>
        have heq : (mm.upTo vma).getLast hne = w := by
          simp [hst]
        rw [heq] at hlast
        exact hlast.2.1
      | cons x t =>
        have hmem : (mm.upTo vma).getLast hne ∈ x :: t := by
          have heq : (mm.upTo vma).getLast hne = (x :: t).getLast (by simp) := by
            simp [hst]
          rw [heq]
          exact List.getLast_mem _
        rw [hst, List.pairwise_append] at hup
        have hwl := (List.pairwise_cons.mp hup.2.1).1 _ hmem
        have h1 := hlast.1
        have h2 := hlast.2.1
        omega
    have hbehind : ∀ w ∈ mm.after vma, vma.vmEnd ≤ w.vmStart := by
      intro w hw
      cases hl : mm.after vma with
      | nil => exact absurd (hl ▸ hw) (by simp)
      | cons x t =>
        have hhead := hnext x (by rw [hl]; rfl)
        rw [hl] at hw haft
        rcases List.mem_cons.mp hw with rfl | hw
        · exact hhead.2.1
        · have hxw := (List.pairwise_cons.mp haft).1 w hw
          have h1 := hhead.2.1
          have h2 := hhead.2.2
          omega
    have hmem : ∀ w, w ∈ mm.upTo vma ++ vma :: mm.after vma ↔ w = vma ∨ w ∈ mm.mmapList := by
      intro w
      rw [← hsplit]
      simp only [List.mem_append, List.mem_cons]
      tauto
    refine ⟨⟨?_, ?_⟩, rfl, hmem, ?_⟩
    · rw [List.pairwise_append]
      refine ⟨hup, List.pairwise_cons.mpr ⟨hbehind, haft⟩, ?_⟩
      intro a ha b hb
      rcases List.mem_cons.mp hb with rfl | hb
      · exact hbefore a ha
      · exact hcross a ha b hb
    · intro v hv
      exact (hmem v).mpr (Or.inr (hs.cached v hv))
    · intro w hw
      rcases mem_upTo_or_after hw with hin | hin
      · exact Or.inl (hbefore w hin)
      · exact Or.inr (hbehind w hin)
  · exact absurd h (by simp)

/-- What a successful `mm_map` does: one more area, apart from the others, over the pages of
the range. -/
structure Mapped (mm mm' : Mm) (vma : Vma) : Prop where
  sorted : mm'.Sorted
  pgdir : mm'.pgdir = mm.pgdir
  areas : ∀ w, w ∈ mm'.mmapList ↔ w = vma ∨ w ∈ mm.mmapList
  apart : ∀ w ∈ mm.mmapList, w.vmEnd ≤ vma.vmStart ∨ vma.vmEnd ≤ w.vmStart

theorem Sorted.mmMap {mm mm' : Mm} (hs : mm.Sorted) {addr len vmFlags : ℕ} {r : ℤ}
    (h : mm.mmMap addr len vmFlags = some (r, mm')) :
    (r ≠ 0 ∧ SameAreas mm mm') ∨
      (r = 0 ∧ ∃ vma : Vma, vma.vmStart = roundDown addr pgSize ∧
        vma.vmEnd = roundUp (addr + len) pgSize ∧ vma.vmFlags = vmFlags ∧ Mapped mm mm' vma) := by
  unfold Mm.mmMap at h
  simp only at h
  split at h
  · rename_i hu
    have hinsert : ∀ {mm₁ : Mm}, SameAreas mm mm₁ →
        (mm₁.insertVmaStruct ⟨roundDown addr pgSize, roundUp (addr + len) pgSize, vmFlags,
          roundDown_aligned _ _, roundUp_aligned _ _, hu⟩).map (fun mm => ((0 : ℤ), mm)) =
            some (r, mm') →
        (r ≠ 0 ∧ SameAreas mm mm') ∨
          (r = 0 ∧ ∃ vma : Vma, vma.vmStart = roundDown addr pgSize ∧
            vma.vmEnd = roundUp (addr + len) pgSize ∧ vma.vmFlags = vmFlags ∧
            Mapped mm mm' vma) := by
      intro mm₁ hsame hins
      obtain ⟨mm₂, hmm₂, heq⟩ := Option.map_eq_some_iff.mp hins
      obtain ⟨rfl, rfl⟩ := Prod.mk.inj heq
      obtain ⟨hsort, hpg, hareas, hapart⟩ := (hsame.sorted hs).insertVmaStruct hmm₂
      rw [hsame.mmapList] at hareas hapart
      refine Or.inr ⟨rfl, ⟨roundDown addr pgSize, roundUp (addr + len) pgSize, vmFlags,
        roundDown_aligned _ _, roundUp_aligned _ _, hu⟩, rfl, rfl, rfl, ?_⟩
      exact ⟨hsort, hpg.trans hsame.pgdir, hareas, hapart⟩
    have hfound := mm.findVma_sameAreas (roundDown addr pgSize)
    split at h
    · rename_i v mm₁ hfind
      rw [hfind] at hfound
      split at h
      · simp only [Option.some.injEq, Prod.mk.injEq] at h
        obtain ⟨rfl, rfl⟩ := h
        exact Or.inl ⟨by decide, hfound⟩
      · exact hinsert hfound h
    · rename_i mm₁ hfind
      rw [hfind] at hfound
      exact hinsert hfound h
  · simp only [Option.some.injEq, Prod.mk.injEq] at h
    obtain ⟨rfl, rfl⟩ := h
    exact Or.inl ⟨by decide, SameAreas.refl mm⟩

end Mm
end Ucore.Vm
