import Ucore.Vm.RangeOps

/-!
Virtual memory areas and the operations of `vmm.c` on whole address spaces:
searching an area, duplicating an address space, and the page fault that makes a
shared page private.
-/
namespace Ucore.Vm

open Library

def vmWrite : ℕ := 0x00000002

/-- `vma_struct`; areas are made by `mm_map`, which aligns them and checks
`USER_ACCESS`, or copied from such an area. -/
structure Vma where
  vmStart : ℕ
  vmEnd : ℕ
  vmFlags : ℕ
  start_aligned : vmStart % pgSize = 0
  end_aligned : vmEnd % pgSize = 0
  user : userAccess vmStart vmEnd
  deriving DecidableEq

namespace Vma

def Contains (v : Vma) (addr : ℕ) : Prop := v.vmStart ≤ addr ∧ addr < v.vmEnd

instance (v : Vma) (addr : ℕ) : Decidable (v.Contains addr) :=
  inferInstanceAs (Decidable (_ ∧ _))

theorem Contains.lt_userTop {v : Vma} {addr : ℕ} (h : v.Contains addr) : addr < userTop :=
  h.2.trans_le v.user.2.2

end Vma

/-- `mm_struct`: the areas sorted by start address, and the page of the directory. -/
structure Mm where
  mmapList : List Vma
  mmapCache : Option Vma
  pgdir : ℕ
  mapCount : ℕ

/-- `mm_create`, with the directory that `setup_pgdir` made. -/
def mmCreate (pgdir : ℕ) : Mm := ⟨[], none, pgdir, 0⟩

namespace Mm

/-- `find_vma`: the area last found is tried first. -/
def findVma (mm : Mm) (addr : ℕ) : Option Vma × Mm :=
  match mm.mmapCache.filter (fun v => decide (v.Contains addr)) with
  | some v => (some v, mm)
  | none =>
    match mm.mmapList.find? (fun v => decide (v.Contains addr)) with
    | some v => (some v, { mm with mmapCache := some v })
    | none => (none, mm)

/-- The assertions of `check_vma_overlap`. -/
def vmaApart (prev next : Vma) : Prop :=
  prev.vmStart < prev.vmEnd ∧ prev.vmEnd ≤ next.vmStart ∧ next.vmStart < next.vmEnd

instance (prev next : Vma) : Decidable (vmaApart prev next) :=
  inferInstanceAs (Decidable (_ ∧ _ ∧ _))

/-- The list nodes up to `le_prev`. -/
def upTo (mm : Mm) (vma : Vma) : List Vma :=
  mm.mmapList.takeWhile (fun v => decide (v.vmStart ≤ vma.vmStart))

/-- The list nodes from `le_next` on. -/
def after (mm : Mm) (vma : Vma) : List Vma :=
  mm.mmapList.dropWhile (fun v => decide (v.vmStart ≤ vma.vmStart))

def insertVmaStruct (mm : Mm) (vma : Vma) : Option Mm :=
  if vma.vmStart < vma.vmEnd ∧ (∀ prev ∈ (mm.upTo vma).getLast?, vmaApart prev vma) ∧
      (∀ next ∈ (mm.after vma).head?, vmaApart vma next) then
    some { mm with
      mmapList := mm.upTo vma ++ vma :: mm.after vma
      mapCount := mm.mapCount + 1 }
  else none

end Mm

namespace Mem

variable {M : PmmManager}

/-- The loop of `dup_mmap` over the remaining areas of the parent. `vma_create`
succeeds here; its failure is that of `kmalloc`. -/
def dupLoop (share : Bool) (m : Mem M) (toMm : Mm) (src : ℕ) :
    List Vma → Option (ℤ × Mem M × Mm)
  | [] => some (0, m, toMm)
  | vma :: rest => do
    let toMm ← toMm.insertVmaStruct vma
    let (r, m) ← m.copyRange share toMm.pgdir src vma.vmStart vma.vmEnd
    if r ≠ 0 then some (-eNoMem, m, toMm) else dupLoop share m toMm src rest

/-- `dup_mmap` walks the areas of the parent backwards. -/
def dupMmap (share : Bool) (m : Mem M) (toMm fromMm : Mm) : Option (ℤ × Mem M × Mm) :=
  m.dupLoop share toMm fromMm.pgdir fromMm.mmapList.reverse

/-- The part of `do_pgfault` that handles a present page that may be written in
principle: copy it if it is shared, otherwise only set the flag. -/
def cowFault (m : Mem M) (pd la : ℕ) : Option (ℤ × Mem M) :=
  let perm := m.entry pd la &&& pteUser
  let old := ptePpn (m.entry pd la)
  if m.ref old > 1 then
    match m.allocPage with
    | none => some (-eNoMem, m)
    | some (newp, m) => do
      let m := m.copyPage newp old
      let (r, m) ← m.pageInsert pd newp la (perm ||| pteW)
      if r ≠ 0 then some (-eNoMem, m.freePage newp) else some (0, m)
  else some (0, m.setEntry pd la (pteCreate old (pteV ||| (perm ||| pteW))))

def doPgfault (m : Mem M) (mm : Mm) (_errorCode addr : ℕ) : Option (ℤ × Mem M × Mm) :=
  let la := roundDown addr pgSize
  match mm.findVma la with
  | (none, mm) => some (-eInval, m, mm)
  | (some vma, mm) =>
    if vma.vmFlags &&& vmWrite = 0 then some (-eInval, m, mm)
    else do
      let (ok, m) ← m.getPte mm.pgdir la false
      if !ok || !hasFlag (m.entry mm.pgdir la) pteV then some (-eInval, m, mm)
      else if hasFlag (m.entry mm.pgdir la) pteW then some (0, m, mm)
      else if !hasFlag (m.entry mm.pgdir la) pteU then some (-eInval, m, mm)
      else do
        let (r, m) ← m.cowFault mm.pgdir la
        some (r, m, mm)

end Mem

namespace Mm

theorem findVma_contains {mm mm' : Mm} {addr : ℕ} {v : Vma}
    (h : mm.findVma addr = (some v, mm')) : v.Contains addr := by
  unfold findVma at h
  split at h
  · rename_i w hw
    obtain ⟨hvw, -⟩ := Prod.mk.inj h
    obtain rfl := Option.some.inj hvw
    obtain ⟨-, hc⟩ := Option.filter_eq_some_iff.mp hw
    exact of_decide_eq_true hc
  · split at h
    · rename_i w hw
      obtain ⟨hvw, -⟩ := Prod.mk.inj h
      obtain rfl := Option.some.inj hvw
      have hc := List.find?_some hw
      exact of_decide_eq_true hc
    · obtain ⟨hvw, -⟩ := Prod.mk.inj h
      exact absurd hvw (by simp)

@[simp] theorem findVma_pgdir (mm : Mm) (addr : ℕ) : (mm.findVma addr).2.pgdir = mm.pgdir := by
  unfold findVma
  split
  · rfl
  · split <;> rfl

@[simp] theorem findVma_mmapList (mm : Mm) (addr : ℕ) :
    (mm.findVma addr).2.mmapList = mm.mmapList := by
  unfold findVma
  split
  · rfl
  · split <;> rfl

end Mm

namespace Mem

variable {M : PmmManager} {K F : Set ℕ} {m m' : Mem M}

/-- The page of an address gets write permission; nothing else changes. -/
def PromotedAt (pd la : ℕ) (m m' : Mem M) : Prop :=
  ∀ pd' la', la' < userTop → m'.view pd' la' =
    if pd' = pd ∧ la' / pgSize = la / pgSize then (m.view pd' la').promote else m.view pd' la'

/-- A write fault on a present page makes the page private. -/
theorem RefInv.cowFault (hi : RefInv K F m) {pd la : ℕ} {r : ℤ} (hla : la < userTop)
    (hv : hasFlag (m.entry pd la) pteV = true) (h : m.cowFault pd la = some (r, m')) :
    RefInv K F m' ∧ (∀ pd, (m'.pgdir pd).isSome = (m.pgdir pd).isSome) ∧
      (r = 0 ∧ PromotedAt pd la m m' ∨
        r = -eNoMem ∧ ∀ pd' la', la' < userTop → m'.view pd' la' = m.view pd' la') := by
  set perm := m.entry pd la &&& pteUser with hperm
  set old := ptePpn (m.entry pd la) with hold
  have hlt : perm ||| pteW < 2 ^ 5 := or_pteW_lt_user (and_pteUser_lt_user _)
  have hbit : (perm ||| pteW).testBit 0 = true :=
    or_pteW_testBit_zero (and_pteUser_testBit_zero hv)
  have hnf : ¬ m.IsFree old := hi.not_free_of_valid hla hv
  have hview : ∀ la', la' / pgSize = la / pgSize →
      m.view pd la' = some (perm, m.data old) := by
    intro la' hpage
    rw [view_eq_of_page hpage]
    unfold view
    rw [if_pos hv]
  have hpromoted : ∀ {m₁ : Mem M} {q : ℕ},
      Changed m m₁ pd la (pteCreate q (pteV ||| (perm ||| pteW))) →
      m₁.data q = m.data old → PromotedAt pd la m m₁ := by
    intro m₁ q hc hdata pd' la' hla'
    by_cases hin : pd' = pd ∧ la' / pgSize = la / pgSize
    · obtain ⟨rfl, hpage⟩ := hin
      rw [if_pos ⟨rfl, hpage⟩, hc.view_self hla' hpage hlt hbit, hdata, hview la' hpage]
      rfl
    · rw [if_neg hin, hi.view_changed hc hla' hin]
  unfold Mem.cowFault at h
  simp only [← hperm, ← hold] at h
  by_cases href : m.ref old > 1
  · rw [if_pos href] at h
    split at h
    · simp only [Option.some.injEq, Prod.mk.injEq] at h
      obtain ⟨rfl, rfl⟩ := h
      exact ⟨hi, fun _ => rfl, Or.inr ⟨rfl, fun _ _ _ => rfl⟩⟩
    · rename_i newp m₁ halloc
      obtain ⟨hi₁, hnotF, hs₁, hdata⟩ := hi.allocCopy old halloc
      rw [Option.bind_eq_bind, Option.bind_eq_some_iff] at h
      obtain ⟨⟨r₂, m₂⟩, h₂, h⟩ := h
      simp only at h
      rcases hi₁.pageInsert hla (lt_pteFlagLimit_of_user hlt)
        (Or.inl (Set.mem_insert newp F)) h₂ with ⟨rfl, hi₂, hs₂⟩ | ⟨rfl, hi₂, hc₂⟩
      · rw [if_pos eNoMem_ne_zero] at h
        simp only [Option.some.injEq, Prod.mk.injEq] at h
        obtain ⟨rfl, rfl⟩ := h
        obtain ⟨hi₃, -⟩ := hi₂.freePage (Set.mem_insert newp F)
        rw [Set.insert_sdiff_self_of_notMem hnotF] at hi₃
        have hs := hs₁.trans hs₂
        exact ⟨hi₃, hs.pgdir, Or.inr ⟨rfl, fun pd' la' hla' => hi.view_congr hla'
          (hs.entry pd' la') hs.data⟩⟩
      · rw [if_neg (by simp)] at h
        simp only [Option.some.injEq, Prod.mk.injEq] at h
        obtain ⟨rfl, rfl⟩ := h
        rw [Set.insert_sdiff_self_of_notMem hnotF] at hi₂
        have hc := hs₁.changed hc₂
        refine ⟨hi₂, hc.pgdir, Or.inl ⟨rfl, hpromoted hc ?_⟩⟩
        rw [hc₂.data newp (hi₁.fresh newp (Set.mem_insert newp F)).1, hdata hnf]
  · rw [if_neg href] at h
    simp only [Option.some.injEq, Prod.mk.injEq] at h
    obtain ⟨rfl, rfl⟩ := h
    have hpos := hi.mapCount_pos_of_valid hla hv
    have hone : m.mapCount old = 1 := by
      have hrefm : m.ref old = m.mapCount old := hi.counted.ref_eq old hpos
      rw [hrefm] at href
      have hpos' : 0 < m.mapCount old := hpos
      omega
    obtain ⟨hi₁, hc⟩ := hi.markEntry (pteV ||| (perm ||| pteW))
      (hasTable_of_valid hv) hla (holds_of_valid hv) (fun _ => hone)
      (or_lt_flagLimit (by decide) (lt_pteFlagLimit_of_user hlt))
    exact ⟨hi₁, hc.pgdir, Or.inl ⟨rfl, hpromoted hc (hc.data old hnf)⟩⟩

/-- When the fault may be repaired: the area allows writing, and the page is present
and either writable already or a user page. -/
def Repairable (m : Mem M) (mm : Mm) (la : ℕ) : Prop :=
  (∃ v, (mm.findVma la).1 = some v ∧ v.vmFlags &&& vmWrite ≠ 0) ∧
    hasFlag (m.entry mm.pgdir la) pteV = true ∧
    (hasFlag (m.entry mm.pgdir la) pteW = true ∨ hasFlag (m.entry mm.pgdir la) pteU = true)

/-- What `do_pgfault` does: nothing on an illegal access, otherwise the page becomes
writable unless memory runs out. -/
structure Faulted (m m' : Mem M) (mm : Mm) (la : ℕ) (r : ℤ) : Prop where
  pgdir : ∀ pd, (m'.pgdir pd).isSome = (m.pgdir pd).isSome
  repaired : r = 0 → Repairable m mm la ∧ PromotedAt mm.pgdir la m m'
  illegal : r = -eInval → ¬ Repairable m mm la
  kept : r ≠ 0 → ∀ pd la, la < userTop → m'.view pd la = m.view pd la
  code : r = 0 ∨ r = -eInval ∨ r = -eNoMem

theorem Faulted.refl_illegal {mm : Mm} {la : ℕ} (h : ¬ Repairable m mm la) :
    Faulted m m mm la (-eInval) :=
  ⟨fun _ => rfl, fun h0 => absurd h0 (by decide), fun _ => h, fun _ _ _ _ => rfl,
    Or.inr (Or.inl rfl)⟩

theorem promotedAt_refl {pd la : ℕ} (hw : hasFlag (m.entry pd la) pteW = true) :
    PromotedAt pd la m m := by
  intro pd' la' _
  by_cases hin : pd' = pd ∧ la' / pgSize = la / pgSize
  · obtain ⟨rfl, hpage⟩ := hin
    rw [if_pos ⟨rfl, hpage⟩, view_eq_of_page hpage]
    unfold view PageView.promote
    split
    · have hor : m.entry pd' la &&& pteUser ||| pteW = m.entry pd' la &&& pteUser := by
        apply Nat.eq_of_testBit_eq
        intro i
        rw [Nat.testBit_or]
        have hbit : (m.entry pd' la &&& pteUser).testBit 2 = true := by
          rw [Nat.testBit_and, ← hasFlag_two_pow, show (2 : ℕ) ^ 2 = pteW from rfl, hw]
          rfl
        rw [show pteW = 2 ^ 2 from rfl, Nat.testBit_two_pow]
        by_cases hi2 : 2 = i
        · subst hi2
          simp [hbit]
        · simp [hi2]
      simp [hor]
    · rfl
  · rw [if_neg hin]

theorem RefInv.doPgfault (hi : RefInv K F m) {mm mm' : Mm} {errorCode addr : ℕ} {r : ℤ}
    (h : m.doPgfault mm errorCode addr = some (r, m', mm')) :
    RefInv K F m' ∧ mm' = (mm.findVma (roundDown addr pgSize)).2 ∧
      Faulted m m' mm (roundDown addr pgSize) r := by
  unfold Mem.doPgfault at h
  simp only at h
  set la := roundDown addr pgSize with hla
  split at h
  · rename_i mm₁ hfind
    simp only [Option.some.injEq, Prod.mk.injEq] at h
    obtain ⟨rfl, rfl, rfl⟩ := h
    refine ⟨hi, by rw [hfind], Faulted.refl_illegal ?_⟩
    rintro ⟨⟨v, hv, -⟩, -⟩
    rw [hfind] at hv
    exact absurd hv (by simp)
  · rename_i vma mm₁ hfind
    have hpg₁ : mm₁.pgdir = mm.pgdir := by
      rw [← Mm.findVma_pgdir mm la, hfind]
    have htop : la < userTop := (Mm.findVma_contains hfind).lt_userTop
    split at h
    · rename_i hflag
      simp only [Option.some.injEq, Prod.mk.injEq] at h
      obtain ⟨rfl, rfl, rfl⟩ := h
      refine ⟨hi, by rw [hfind], Faulted.refl_illegal ?_⟩
      rintro ⟨⟨v, hv, hw⟩, -⟩
      rw [hfind] at hv
      exact hw (Option.some.inj hv ▸ hflag)
    · rename_i hflag
      rw [Option.bind_eq_bind, Option.bind_eq_some_iff] at h
      obtain ⟨⟨ok, m₁⟩, h₁, h⟩ := h
      obtain ⟨hw, htab, hno⟩ := hi.getPte h₁
      obtain rfl := hw.lookup rfl
      simp only [hpg₁] at h hno
      have hwrite : ∃ v, (mm.findVma la).1 = some v ∧ v.vmFlags &&& vmWrite ≠ 0 :=
        ⟨vma, by rw [hfind], hflag⟩
      split at h
      · rename_i hbad
        simp only [Option.some.injEq, Prod.mk.injEq] at h
        obtain ⟨rfl, rfl, rfl⟩ := h
        refine ⟨hi, by rw [hfind], Faulted.refl_illegal ?_⟩
        rintro ⟨-, hv, -⟩
        have hok : ok = true := by
          by_contra hok
          exact hno (by simpa using hok) trivial (hasTable_of_valid hv)
        rw [hok, hv] at hbad
        simp at hbad
      · rename_i hgood
        have hv : hasFlag (m₁.entry mm.pgdir la) pteV = true := by
          by_contra hv
          simp [hv] at hgood
        split at h
        · rename_i hwr
          simp only [Option.some.injEq, Prod.mk.injEq] at h
          obtain ⟨rfl, rfl, rfl⟩ := h
          exact ⟨hi, by rw [hfind], ⟨fun _ => rfl,
            fun _ => ⟨⟨hwrite, hv, Or.inl hwr⟩, promotedAt_refl hwr⟩,
            fun h0 => absurd h0 (by decide), fun h0 => absurd rfl h0, Or.inl rfl⟩⟩
        · rename_i hwr
          split at h
          · rename_i hu
            simp only [Option.some.injEq, Prod.mk.injEq] at h
            obtain ⟨rfl, rfl, rfl⟩ := h
            refine ⟨hi, by rw [hfind], Faulted.refl_illegal ?_⟩
            rintro ⟨-, -, hw' | hu'⟩
            · exact hwr hw'
            · rw [hu'] at hu
              simp at hu
          · rename_i hu
            rw [Option.bind_eq_bind, Option.bind_eq_some_iff] at h
            obtain ⟨⟨r₂, m₂⟩, h₂, h⟩ := h
            simp only [Option.some.injEq, Prod.mk.injEq] at h
            obtain ⟨rfl, rfl, rfl⟩ := h
            obtain ⟨hi₂, hpg₂, hres⟩ := hi.cowFault htop hv h₂
            have hrep : Repairable m₁ mm la := ⟨hwrite, hv, Or.inr (by simpa using hu)⟩
            refine ⟨hi₂, by rw [hfind], ?_⟩
            rcases hres with ⟨rfl, hprom⟩ | ⟨rfl, hkept⟩
            · exact ⟨hpg₂, fun _ => ⟨hrep, hprom⟩, fun h0 => absurd h0 (by decide),
                fun h0 => absurd rfl h0, Or.inl rfl⟩
            · exact ⟨hpg₂, fun h0 => absurd h0 (by decide), fun h0 => absurd h0 (by decide),
                fun _ => hkept, Or.inr (Or.inr rfl)⟩

end Mem
end Ucore.Vm
