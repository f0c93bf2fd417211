import Ucore.Vm.ExitRange
import Ucore.Vm.Vma

/-!
`dup_mmap`, `exit_mmap` and `copy_mm`: an address space is duplicated area by area,
and taken down again. None of them runs into a failed assertion while the areas are
sorted; only the copying fork needs every page allocation to succeed.
-/
namespace Ucore.Vm

open Library

namespace Mm

/-- Sorted, disjoint areas, and a cache that points to one of them. -/
structure Sorted (mm : Mm) : Prop where
  apart : mm.mmapList.Pairwise (fun a b => a.vmEnd ≤ b.vmStart)
  cached : ∀ v ∈ mm.mmapCache, v ∈ mm.mmapList

/-- The address lies in an area. -/
def InArea (mm : Mm) (la : ℕ) : Prop := ∃ v ∈ mm.mmapList, v.Contains la

/-- The address lies in an area with `VM_WRITE`. -/
def AreaWritable (mm : Mm) (la : ℕ) : Prop :=
  ∃ v ∈ mm.mmapList, v.Contains la ∧ v.vmFlags &&& vmWrite ≠ 0

/-- At most one area contains an address. -/
theorem Sorted.unique {mm : Mm} (h : mm.Sorted) {v w : Vma} {la : ℕ} (hv : v ∈ mm.mmapList)
    (hw : w ∈ mm.mmapList) (hvla : v.Contains la) (hwla : w.Contains la) : v = w := by
  by_contra hne
  let R : Vma → Vma → Prop := fun a b => ¬ (a.Contains la ∧ b.Contains la)
  have : Std.Symm R := ⟨fun a b hab hba => hab hba.symm⟩
  have hR : mm.mmapList.Pairwise R := h.apart.imp (fun {a b} hab hc => by
    have h1 := hc.1.2
    have h2 := hc.2.1
    omega)
  exact hR.forall hv hw hne ⟨hvla, hwla⟩

/-- The cache changes nothing about which area is found. -/
theorem Sorted.findVma_eq_some {mm : Mm} (h : mm.Sorted) {v : Vma} {la : ℕ} :
    (mm.findVma la).1 = some v ↔ v ∈ mm.mmapList ∧ v.Contains la := by
  have hfound : ∀ w mm', mm.findVma la = (some w, mm') → w ∈ mm.mmapList := by
    intro w mm' hw
    unfold findVma at hw
    split at hw
    · rename_i x hx
      obtain ⟨hxw, -⟩ := Prod.mk.inj hw
      obtain rfl := Option.some.inj hxw
      exact h.cached _ (Option.filter_eq_some_iff.mp hx).1
    · split at hw
      · rename_i x hx
        obtain ⟨hxw, -⟩ := Prod.mk.inj hw
        obtain rfl := Option.some.inj hxw
        exact List.mem_of_find?_eq_some hx
      · exact absurd (Prod.mk.inj hw).1 (by simp)
  constructor
  · intro hv
    have heq : mm.findVma la = (some v, (mm.findVma la).2) := by rw [← hv]
    exact ⟨hfound v _ heq, findVma_contains heq⟩
  · rintro ⟨hv, hc⟩
    cases hres : (mm.findVma la).1 with
    | some w =>
      have heq : mm.findVma la = (some w, (mm.findVma la).2) := by rw [← hres]
      rw [h.unique (hfound w _ heq) hv (findVma_contains heq) hc]
    | none =>
      unfold findVma at hres
      split at hres
      · exact absurd hres (by simp)
      · split at hres
        · exact absurd hres (by simp)
        · rename_i hnone
          have hno := List.find?_eq_none.mp hnone v hv
          exact absurd (decide_eq_true hc) hno

theorem Sorted.findVma {mm : Mm} (h : mm.Sorted) (la : ℕ) : (mm.findVma la).2.Sorted := by
  refine ⟨by rw [findVma_mmapList]; exact h.apart, ?_⟩
  intro v hv
  rw [findVma_mmapList]
  unfold Mm.findVma at hv
  split at hv
  · exact h.cached v hv
  · split at hv
    · rename_i x hx
      obtain rfl := Option.some.inj hv
      exact List.mem_of_find?_eq_some hx
    · exact h.cached v hv

/-- An area below all others is inserted in front. -/
theorem insertVmaStruct_front {mm : Mm} {v : Vma}
    (h : ∀ w ∈ mm.mmapList, v.vmEnd ≤ w.vmStart) :
    mm.insertVmaStruct v =
      some { mm with mmapList := v :: mm.mmapList, mapCount := mm.mapCount + 1 } := by
  have hlt : v.vmStart < v.vmEnd := v.user.2.1
  have hup : mm.upTo v = [] ∧ mm.after v = mm.mmapList := by
    unfold upTo after
    cases hl : mm.mmapList with
    | nil => exact ⟨rfl, rfl⟩
    | cons w rest =>
      have hw := h w (by rw [hl]; exact List.mem_cons_self)
      have hnot : ¬ w.vmStart ≤ v.vmStart := by omega
      simp [hnot]
  unfold insertVmaStruct
  rw [hup.1, hup.2]
  rw [if_pos]
  · rfl
  · refine ⟨hlt, by simp, ?_⟩
    intro next hnext
    have hmem : next ∈ mm.mmapList := List.mem_of_mem_head? hnext
    exact ⟨hlt, h next hmem, next.user.2.1⟩

end Mm

namespace Mem

variable {M : PmmManager} {K F : Set ℕ} {m m' : Mem M}

/-- The first loop of `exit_mmap`. -/
def unmapAreas (m : Mem M) (pd : ℕ) : List Vma → Option (Mem M)
  | [] => some m
  | v :: vs => (m.unmapRange pd v.vmStart v.vmEnd).bind (fun m' => unmapAreas m' pd vs)

/-- The second loop of `exit_mmap`. -/
def exitAreas (m : Mem M) (pd : ℕ) : List Vma → Option (Mem M)
  | [] => some m
  | v :: vs => (m.exitRange pd v.vmStart v.vmEnd).bind (fun m' => exitAreas m' pd vs)

def exitMmap (m : Mem M) (mm : Mm) : Option (Mem M) :=
  (m.unmapAreas mm.pgdir mm.mmapList).bind (fun m' => m'.exitAreas mm.pgdir mm.mmapList)

/-- `copy_mm` without `CLONE_VM`: a new address space, or an error after cleaning up. -/
def copyMm (share : Bool) (m : Mem M) (oldmm : Mm) : Option (ℤ × Mem M × Option Mm) :=
  match m.setupPgdir with
  | (none, m') => some (-eNoMem, m', none)
  | (some pd, m') => do
    let (r, m₁, mm) ← m'.dupMmap share (mmCreate pd) oldmm
    if r ≠ 0 then
      let m₂ ← m₁.exitMmap mm
      some (r, m₂.putPgdir pd, none)
    else some (0, m₁, some mm)

theorem getPde1_isSome {pd : ℕ} (h : (m.pgdir pd).isSome) (la : ℕ) (create : Bool) :
    (m.getPde1 pd la create).isSome := by
  obtain ⟨d, hd⟩ := Option.isSome_iff_exists.mp h
  unfold getPde1
  rw [hd]
  simp only [Option.bind_eq_bind, Option.bind_some]
  split
  · rfl
  · split
    · rfl
    · split <;> rfl

theorem getPde0_isSome {pd : ℕ} (h : (m.pgdir pd).isSome) (la : ℕ) (create : Bool) :
    (m.getPde0 pd la create).isSome := by
  obtain ⟨d, hd⟩ := Option.isSome_iff_exists.mp h
  unfold getPde0
  rw [hd]
  simp only [Option.bind_eq_bind, Option.bind_some]
  split
  · rfl
  · split
    · rfl
    · split <;> rfl

theorem RefInv.getPte_exists (hi : RefInv K F m) {pd : ℕ} (h : (m.pgdir pd).isSome) (la : ℕ)
    (create : Bool) : ∃ ok m₁, m.getPte pd la create = some (ok, m₁) := by
  obtain ⟨⟨ok, m₁⟩, h₁⟩ := Option.isSome_iff_exists.mp (getPde1_isSome h la create)
  have hs := (hi.getPde1 h₁).1.same.pgdir pd
  unfold Mem.getPte
  rw [h₁]
  simp only [Option.bind_eq_bind, Option.bind_some]
  cases ok with
  | false => exact ⟨false, m₁, rfl⟩
  | true =>
    obtain ⟨⟨ok', m₂⟩, h₂⟩ := Option.isSome_iff_exists.mp
      (getPde0_isSome (m := m₁) (by rw [hs]; exact h) la create)
    exact ⟨ok', m₂, h₂⟩

theorem RefInv.pageInsert_exists (hi : RefInv K F m) {pd : ℕ} (h : (m.pgdir pd).isSome)
    (page la perm : ℕ) : ∃ r m₁, m.pageInsert pd page la perm = some (r, m₁) := by
  obtain ⟨ok, m₁, h₁⟩ := hi.getPte_exists h la true
  unfold Mem.pageInsert
  rw [h₁]
  simp only [Option.bind_eq_bind, Option.bind_some]
  cases ok with
  | false => exact ⟨_, _, rfl⟩
  | true => exact ⟨_, _, rfl⟩

theorem RefInv.unmapStep_exists (hi : RefInv K F m) {pd : ℕ} (h : (m.pgdir pd).isSome)
    (start : ℕ) : ∃ next m₁, m.unmapStep pd start = some (next, m₁) := by
  obtain ⟨ok, m₁, h₁⟩ := hi.getPte_exists h start false
  unfold Mem.unmapStep
  rw [h₁]
  simp only [Option.bind_eq_bind, Option.bind_some]
  cases ok with
  | false => exact ⟨_, _, rfl⟩
  | true => exact ⟨_, _, rfl⟩

theorem RefInv.unmapLoop_exists (hi : RefInv K F m) {pd start stop : ℕ}
    (h : (m.pgdir pd).isSome) (halign : start % pgSize = 0) (hstop : stop % pgSize = 0)
    (hlt : start < stop) (htop : stop ≤ userTop) : ∃ m₁, m.unmapLoop pd start stop = some m₁ := by
  fun_induction Mem.unmapLoop m pd start stop with
  | case1 m start hs =>
    obtain ⟨next, m₁, hex⟩ := hi.unmapStep_exists h start
    rw [hs] at hex
    exact absurd hex (by simp)
  | case2 m start next m₁ hs hcond ih =>
    obtain ⟨hi₁, hpg₁, halign₁, -⟩ := hi.unmapStep halign hstop hlt (by omega) hs
    exact ih hi₁ (by rw [hpg₁]; exact h) halign₁ hcond.2
  | case3 m start next m₁ hs hcond => exact ⟨m₁, rfl⟩

theorem RefInv.unmapRange_exists (hi : RefInv K F m) {pd : ℕ} (h : (m.pgdir pd).isSome)
    (v : Vma) : ∃ m₁, m.unmapRange pd v.vmStart v.vmEnd = some m₁ := by
  unfold Mem.unmapRange
  rw [if_pos ⟨v.start_aligned, v.end_aligned, v.user⟩]
  exact hi.unmapLoop_exists h v.start_aligned v.end_aligned v.user.2.1 v.user.2.2

/-- The sharing fork of a page only fails for lack of a page. -/
theorem RefInv.copyPte_share_exists (hi : RefInv K F m) {dst src start : ℕ}
    (hla : start < userTop) (hv : hasFlag (m.entry src start) pteV = true)
    (h : (m.pgdir dst).isSome) : ∃ r m₁, m.copyPte true dst src start = some (r, m₁) := by
  have hvlim : pteV ||| permNoWrite (m.entry src start &&& pteUser) < pteFlagLimit :=
    or_lt_flagLimit (by decide)
      (lt_pteFlagLimit_of_user (permNoWrite_lt_user (and_pteUser_lt_user _)))
  obtain ⟨hi₁, hc₁⟩ := hi.markEntry
    (pteV ||| permNoWrite (m.entry src start &&& pteUser)) (hasTable_of_valid hv) hla
    (holds_of_valid hv)
    (fun hw => absurd hw (by rw [hasFlag_pteV_or]; simp)) hvlim
  have hdst₁ := (hc₁.pgdir dst).trans h
  obtain ⟨ok, m₂, h₂⟩ := hi₁.getPte_exists hdst₁ start true
  have hw₂ := (hi₁.getPte h₂).1
  unfold Mem.copyPte
  simp only [if_true, h₂, Option.bind_eq_bind, Option.bind_some]
  cases ok with
  | false => exact ⟨_, _, rfl⟩
  | true =>
    obtain ⟨r, m₃, h₃⟩ := hw₂.inv.pageInsert_exists ((hw₂.same.pgdir dst).trans hdst₁)
      (ptePpn (m.entry src start)) start (permNoWrite (m.entry src start &&& pteUser))
    simp only [Bool.not_true, Bool.false_eq_true, if_false, h₃, Option.bind_some]
    split
    · exact ⟨_, _, rfl⟩
    · exact ⟨_, _, rfl⟩

theorem RefInv.copyStep_share_exists (hi : RefInv K F m) {dst src start : ℕ}
    (hla : start < userTop) (hdst : (m.pgdir dst).isSome) (hsrc : (m.pgdir src).isSome) :
    ∃ r next m₁, m.copyStep true dst src start = some (r, next, m₁) := by
  obtain ⟨ok, m₁, h₁⟩ := hi.getPte_exists hsrc start false
  obtain rfl := (hi.getPte h₁).1.lookup rfl
  unfold Mem.copyStep
  rw [h₁]
  simp only [Option.bind_eq_bind, Option.bind_some]
  cases ok with
  | false => exact ⟨_, _, _, rfl⟩
  | true =>
    simp only [Bool.not_true, Bool.false_eq_true, if_false]
    split
    · rename_i hv
      obtain ⟨r, m₂, h₂⟩ := hi.copyPte_share_exists hla hv hdst
      rw [h₂]
      exact ⟨_, _, _, rfl⟩
    · exact ⟨_, _, _, rfl⟩

theorem RefInv.copyLoop_share_exists (hi : RefInv K F m) {dst src start stop : ℕ}
    (hne : dst ≠ src) (hdst : (m.pgdir dst).isSome) (hsrc : (m.pgdir src).isSome)
    (halign : start % pgSize = 0) (hstop : stop % pgSize = 0) (hlt : start < stop)
    (htop : stop ≤ userTop) : ∃ r m₁, m.copyLoop true dst src start stop = some (r, m₁) := by
  generalize hshare : true = share
  fun_induction Mem.copyLoop share m dst src start stop with
  | case1 m start hs =>
    subst hshare
    obtain ⟨r, next, m₁, hex⟩ := hi.copyStep_share_exists (hlt.trans_le htop) hdst hsrc
    rw [hs] at hex
    exact absurd hex (by simp)
  | case2 m start r₁ next m₁ hs hr => exact ⟨_, _, rfl⟩
  | case3 m start r₁ next m₁ hs hr hcond ih =>
    obtain ⟨hi₁, hpg₁, -, halign₁, -⟩ := hi.copyStep hne halign hstop hlt (by omega) hs
    exact ih hi₁ (by rw [hpg₁]; exact hdst) (by rw [hpg₁]; exact hsrc) halign₁ hcond.2
  | case4 m start r₁ next m₁ hs hr hcond => exact ⟨_, _, rfl⟩

theorem RefInv.copyRange_share_exists (hi : RefInv K F m) {dst src : ℕ} (hne : dst ≠ src)
    (hdst : (m.pgdir dst).isSome) (hsrc : (m.pgdir src).isSome) (v : Vma) :
    ∃ r m₁, m.copyRange true dst src v.vmStart v.vmEnd = some (r, m₁) := by
  unfold Mem.copyRange
  rw [if_pos ⟨v.start_aligned, v.end_aligned, v.user⟩]
  exact hi.copyLoop_share_exists hne hdst hsrc v.start_aligned v.end_aligned v.user.2.1
    v.user.2.2

/-- `dup_mmap` on the areas not yet copied, `rest`, after those in `toMm`. Where the
parent's areas are sorted, the child ends up with the same areas. -/
theorem RefInv.dupLoop (hi : RefInv K F m) {share : Bool} {src : ℕ} {toMm toMm' : Mm}
    {rest : List Vma} {r : ℤ} (hne : toMm.pgdir ≠ src)
    (hsorted : (rest.reverse ++ toMm.mmapList).Pairwise (fun a b => a.vmEnd ≤ b.vmStart))
    (h : m.dupLoop share toMm src rest = some (r, m', toMm')) :
    RefInv K F m' ∧ (∀ pd, (m'.pgdir pd).isSome = (m.pgdir pd).isSome) ∧
      toMm'.pgdir = toMm.pgdir ∧ toMm'.mmapCache = toMm.mmapCache ∧ (r = 0 ∨ r = -eNoMem) ∧
      (r = 0 → toMm'.mmapList = rest.reverse ++ toMm.mmapList ∧
        ForkedOn share toMm.pgdir src (fun la => ∃ v ∈ rest, v.Contains la) m m') := by
  induction rest generalizing m toMm with
  | nil =>
    unfold Mem.dupLoop at h
    simp only [Option.some.injEq, Prod.mk.injEq] at h
    obtain ⟨rfl, rfl, rfl⟩ := h
    refine ⟨hi, fun _ => rfl, rfl, rfl, Or.inl rfl, fun _ => ⟨by simp, ?_⟩⟩
    intro pd la _
    simp
  | cons v rest ih =>
    have hlist : (v :: rest).reverse ++ toMm.mmapList =
        rest.reverse ++ (v :: toMm.mmapList) := by simp
    rw [hlist] at hsorted
    obtain ⟨-, htail, hcross⟩ := List.pairwise_append.mp hsorted
    have hfront := Mm.insertVmaStruct_front (List.pairwise_cons.mp htail).1
    unfold Mem.dupLoop at h
    rw [hfront, Option.bind_eq_bind, Option.bind_some, Option.bind_eq_bind,
      Option.bind_eq_some_iff] at h
    obtain ⟨⟨r₁, m₁⟩, h₁, h⟩ := h
    obtain ⟨hi₁, hpg₁, hcode₁, hf₁⟩ := hi.copyRange hne h₁
    simp only at h
    split at h
    · simp only [Option.some.injEq, Prod.mk.injEq] at h
      obtain ⟨rfl, rfl, rfl⟩ := h
      exact ⟨hi₁, hpg₁, rfl, rfl, Or.inr rfl, fun h0 => absurd h0 (by decide)⟩
    · rename_i hr
      have hr₁ : r₁ = 0 := not_not.mp hr
      have hne' : (Mm.mk (v :: toMm.mmapList) toMm.mmapCache toMm.pgdir
        (toMm.mapCount + 1)).pgdir ≠ src := hne
      obtain ⟨hi', hpg', hpd', hcache', hcode', hf'⟩ := ih hi₁ hne' hsorted h
      refine ⟨hi', fun pd => (hpg' pd).trans (hpg₁ pd), hpd', hcache', hcode', fun h0 => ?_⟩
      obtain ⟨hl, hforked⟩ := hf' h0
      refine ⟨by rw [hl, hlist], ?_⟩
      have hdisj : ∀ la, v.vmStart ≤ la ∧ la < v.vmEnd → ¬ ∃ w ∈ rest, w.Contains la := by
        rintro la ⟨hle, -⟩ ⟨w, hw, hwla⟩
        have hwv := hcross w (List.mem_reverse.mpr hw) v List.mem_cons_self
        have hwlt := hwla.2
        omega
      apply ((hf₁ hr₁).append hforked hdisj).congr
      intro la _
      simp [Vma.Contains]

/-- With sorted areas the sharing loop always returns. -/
theorem RefInv.dupLoop_share_exists (hi : RefInv K F m) {src : ℕ} {toMm : Mm}
    {rest : List Vma} (hne : toMm.pgdir ≠ src) (hdst : (m.pgdir toMm.pgdir).isSome)
    (hsrc : (m.pgdir src).isSome)
    (hsorted : (rest.reverse ++ toMm.mmapList).Pairwise (fun a b => a.vmEnd ≤ b.vmStart)) :
    ∃ r m₁ mm₁, m.dupLoop true toMm src rest = some (r, m₁, mm₁) := by
  induction rest generalizing m toMm with
  | nil => exact ⟨_, _, _, rfl⟩
  | cons v rest ih =>
    have hlist : (v :: rest).reverse ++ toMm.mmapList =
        rest.reverse ++ (v :: toMm.mmapList) := by simp
    rw [hlist] at hsorted
    have hfront := Mm.insertVmaStruct_front
      (List.pairwise_cons.mp (List.pairwise_append.mp hsorted).2.1).1
    obtain ⟨r₁, m₁, h₁⟩ := hi.copyRange_share_exists hne hdst hsrc v
    obtain ⟨hi₁, hpg₁, -, -⟩ := hi.copyRange hne h₁
    unfold Mem.dupLoop
    simp only [hfront, h₁, Option.bind_eq_bind, Option.bind_some]
    split
    · exact ⟨_, _, _, rfl⟩
    · have hne' : (Mm.mk (v :: toMm.mmapList) toMm.mmapCache toMm.pgdir
        (toMm.mapCount + 1)).pgdir ≠ src := hne
      exact ih hi₁ hne' (by rw [hpg₁]; exact hdst) (by rw [hpg₁]; exact hsrc) hsorted

theorem RefInv.unmapAreas (hi : RefInv K F m) {pd : ℕ} {vs : List Vma}
    (h : m.unmapAreas pd vs = some m') :
    RefInv K F m' ∧ (∀ pd, (m'.pgdir pd).isSome = (m.pgdir pd).isSome) ∧
      UnmappedOn pd (fun la => ∃ v ∈ vs, v.Contains la) m m' := by
  induction vs generalizing m with
  | nil =>
    obtain rfl := Option.some.inj h
    refine ⟨hi, fun _ => rfl, fun pd' la _ => ⟨?_, fun _ => rfl⟩⟩
    rintro ⟨-, v, hv, -⟩
    exact absurd hv (List.not_mem_nil)
  | cons v vs ih =>
    rw [Mem.unmapAreas, Option.bind_eq_some_iff] at h
    obtain ⟨m₁, h₁, h⟩ := h
    obtain ⟨hi₁, hpg₁, hun₁⟩ := hi.unmapRange h₁
    obtain ⟨hi', hpg', hun'⟩ := ih hi₁ h
    refine ⟨hi', fun pd => (hpg' pd).trans (hpg₁ pd), (hun₁.append hun').congr ?_⟩
    intro la _
    simp [Vma.Contains]

theorem RefInv.unmapAreas_exists (hi : RefInv K F m) {pd : ℕ} (h : (m.pgdir pd).isSome)
    (vs : List Vma) : ∃ m₁, m.unmapAreas pd vs = some m₁ := by
  induction vs generalizing m with
  | nil => exact ⟨m, rfl⟩
  | cons v vs ih =>
    obtain ⟨m₁, h₁⟩ := hi.unmapRange_exists h v
    obtain ⟨hi₁, hpg₁, -⟩ := hi.unmapRange h₁
    rw [Mem.unmapAreas, h₁, Option.bind_some]
    exact ih hi₁ (by rw [hpg₁]; exact h)

theorem RefInv.exitAreas (hi : RefInv ∅ F m) {pd : ℕ} {vs : List Vma} (hb : m.Blank pd)
    (h : m.exitAreas pd vs = some m') : TablesFreed F m m' pd := by
  induction vs generalizing m with
  | nil =>
    obtain rfl := Option.some.inj h
    exact TablesFreed.refl hi hb
  | cons v vs ih =>
    rw [Mem.exitAreas, Option.bind_eq_some_iff] at h
    obtain ⟨m₁, h₁, h⟩ := h
    have hf₁ := hi.exitRange hb h₁
    exact hf₁.trans (ih hf₁.inv hf₁.blank h)

/-- `exit_range` returns whatever the directory contains. -/
theorem exitPde0_exists {pd : ℕ} (h : (m.pgdir pd).isSome) (la : ℕ) :
    ∃ valid m₁, m.exitPde0 pd la = some (valid, m₁) ∧ (m₁.pgdir pd).isSome := by
  obtain ⟨d, hd⟩ := Option.isSome_iff_exists.mp h
  unfold exitPde0
  rw [hd]
  simp only [Option.bind_eq_bind, Option.bind_some]
  split
  · exact ⟨_, _, rfl, h⟩
  · split
    · exact ⟨_, _, rfl, by simp [setPgdir]⟩
    · exact ⟨_, _, rfl, h⟩

theorem exitPde0Loop_exists {pd : ℕ} (h : (m.pgdir pd).isSome) (d1start d0start stop : ℕ)
    (freePd0 : Bool) : ∃ free m₁,
      m.exitPde0Loop pd d1start d0start stop freePd0 = some (free, m₁) ∧ (m₁.pgdir pd).isSome := by
  fun_induction Mem.exitPde0Loop m pd d1start d0start stop freePd0 with
  | case1 m d0start freePd0 hs =>
    obtain ⟨valid, m₁, hex, -⟩ := exitPde0_exists h d0start
    rw [hs] at hex
    exact absurd hex (by simp)
  | case2 m d0start freePd0 valid m₁ hs next hcond ih =>
    obtain ⟨valid', m₂, hex, hsome⟩ := exitPde0_exists h d0start
    rw [hs] at hex
    obtain ⟨rfl, rfl⟩ := Prod.mk.inj (Option.some.inj hex)
    exact ih hsome
  | case3 m d0start freePd0 valid m₁ hs next hcond =>
    obtain ⟨valid', m₂, hex, hsome⟩ := exitPde0_exists h d0start
    rw [hs] at hex
    obtain ⟨rfl, rfl⟩ := Prod.mk.inj (Option.some.inj hex)
    exact ⟨_, _, rfl, hsome⟩

theorem exitPde1_exists {pd : ℕ} (h : (m.pgdir pd).isSome) (d1start d0start stop : ℕ) :
    ∃ m₁, m.exitPde1 pd d1start d0start stop = some m₁ ∧ (m₁.pgdir pd).isSome := by
  obtain ⟨d, hd⟩ := Option.isSome_iff_exists.mp h
  unfold exitPde1
  rw [hd]
  simp only [Option.bind_eq_bind, Option.bind_some]
  split
  · exact ⟨_, rfl, h⟩
  · obtain ⟨free, m₁, h₁, hsome⟩ := exitPde0Loop_exists h d1start d0start stop true
    obtain ⟨d₁, hd₁⟩ := Option.isSome_iff_exists.mp hsome
    rw [h₁]
    simp only [Option.bind_some]
    split
    · rw [hd₁]
      exact ⟨_, rfl, by simp [setPgdir]⟩
    · exact ⟨_, rfl, hsome⟩

theorem exitLoop_exists {pd : ℕ} (h : (m.pgdir pd).isSome) (d1start d0start stop : ℕ) :
    ∃ m₁, m.exitLoop pd d1start d0start stop = some m₁ ∧ (m₁.pgdir pd).isSome := by
  fun_induction Mem.exitLoop m pd d1start d0start stop with
  | case1 m d1start d0start hs =>
    obtain ⟨m₁, hex, -⟩ := exitPde1_exists h d1start d0start stop
    rw [hs] at hex
    exact absurd hex (by simp)
  | case2 m d1start d0start m₁ hs next hcond ih =>
    obtain ⟨m₂, hex, hsome⟩ := exitPde1_exists h d1start d0start stop
    rw [hs] at hex
    obtain rfl := Option.some.inj hex
    exact ih hsome
  | case3 m d1start d0start m₁ hs next hcond =>
    obtain ⟨m₂, hex, hsome⟩ := exitPde1_exists h d1start d0start stop
    rw [hs] at hex
    obtain rfl := Option.some.inj hex
    exact ⟨_, rfl, hsome⟩

theorem exitAreas_exists {pd : ℕ} (h : (m.pgdir pd).isSome) (vs : List Vma) :
    ∃ m₁, m.exitAreas pd vs = some m₁ ∧ (m₁.pgdir pd).isSome := by
  induction vs generalizing m with
  | nil => exact ⟨m, rfl, h⟩
  | cons v vs ih =>
    obtain ⟨m₁, h₁, hsome⟩ := exitLoop_exists h (roundDown v.vmStart pdSize)
      (roundDown v.vmStart ptSize) v.vmEnd
    have hr : m.exitRange pd v.vmStart v.vmEnd = some m₁ := by
      unfold exitRange
      rw [if_pos ⟨v.start_aligned, v.end_aligned, v.user⟩, h₁]
    rw [Mem.exitAreas, hr, Option.bind_some]
    exact ih hsome

theorem RefInv.exitMmap_exists (hi : RefInv K F m) {mm : Mm} (h : (m.pgdir mm.pgdir).isSome) :
    ∃ m₁, m.exitMmap mm = some m₁ ∧ (m₁.pgdir mm.pgdir).isSome := by
  obtain ⟨m₁, h₁⟩ := hi.unmapAreas_exists h mm.mmapList
  obtain ⟨-, hpg₁, -⟩ := hi.unmapAreas h₁
  unfold Mem.exitMmap
  rw [h₁, Option.bind_some]
  exact exitAreas_exists (by rw [hpg₁]; exact h) mm.mmapList

/-- What taking down an address space leaves: all other directories as they were. -/
structure TornDown (F : Set ℕ) (m m' : Mem M) (pd : ℕ) : Prop where
  inv : RefInv ∅ F m'
  gone : m'.pgdir pd = none
  pgdir : ∀ pd', pd' ≠ pd → (m'.pgdir pd').isSome = (m.pgdir pd').isSome
  view : ∀ pd', pd' ≠ pd → ∀ la, la < userTop → m'.view pd' la = m.view pd' la

/-- `exit_mmap` and `put_pgdir`, as in `do_exit`. -/
theorem RefInv.exitMmap (hi : RefInv ∅ F m) {mm : Mm} (hsome : (m.pgdir mm.pgdir).isSome)
    (harea : ∀ la, la < userTop → (m.view mm.pgdir la).isSome → mm.InArea la)
    (h : m.exitMmap mm = some m') : TornDown F m (m'.putPgdir mm.pgdir) mm.pgdir := by
  unfold Mem.exitMmap at h
  rw [Option.bind_eq_some_iff] at h
  obtain ⟨m₁, h₁, h⟩ := h
  obtain ⟨hi₁, hpg₁, hun⟩ := hi.unmapAreas h₁
  have hb : m₁.Blank mm.pgdir := by
    intro la hla
    rw [← isSome_view]
    by_cases hin : mm.InArea la
    · rw [(hun mm.pgdir la hla).1 ⟨rfl, hin⟩]
      rfl
    · rw [(hun mm.pgdir la hla).2 (fun hbad => hin hbad.2)]
      by_contra hv
      exact hin (harea la hla (Bool.not_eq_false _ ▸ hv))
  have hf := hi₁.exitAreas hb h
  have hsome' : (m'.pgdir mm.pgdir).isSome := by
    obtain ⟨m₂, h₂, hs₂⟩ := exitAreas_exists ((hpg₁ mm.pgdir).trans hsome) mm.mmapList
    rw [h] at h₂
    exact Option.some.inj h₂ ▸ hs₂
  have hall := hf.trans (hf.inv.putPgdir hf.blank hsome')
  refine ⟨hall.inv, Function.update_self _ _ _, ?_, ?_⟩
  · intro pd' hne
    rw [hall.other pd' hne, hpg₁]
  · intro pd' hne la hla
    rw [hall.view hne, (hun pd' la hla).2 (fun hbad => hne hbad.1)]

/-- What a successful `copy_mm` does. -/
structure Forked (F : Set ℕ) (share : Bool) (m m' : Mem M) (oldmm mm : Mm) : Prop where
  inv : RefInv ∅ F m'
  new : m.pgdir mm.pgdir = none
  pgdir : ∀ pd, (m'.pgdir pd).isSome = (decide (pd = mm.pgdir) || (m.pgdir pd).isSome)
  areas : mm.mmapList = oldmm.mmapList
  cache : mm.mmapCache = none
  forked : ForkedOn share mm.pgdir oldmm.pgdir oldmm.InArea m m'

theorem RefInv.copyMm (hi : RefInv ∅ F m) {share : Bool} {oldmm : Mm} {r : ℤ} {mm : Option Mm}
    (hsorted : oldmm.Sorted) (hsome : (m.pgdir oldmm.pgdir).isSome)
    (h : m.copyMm share oldmm = some (r, m', mm)) :
    r = -eNoMem ∧ mm = none ∨
      r = 0 ∧ ∃ mm', mm = some mm' ∧ Forked F share m m' oldmm mm' := by
  obtain ⟨hi₀, hview₀, hnew⟩ := hi.setupPgdir
  unfold Mem.copyMm at h
  split at h
  · simp only [Option.some.injEq, Prod.mk.injEq] at h
    exact Or.inl ⟨h.1.symm, h.2.2.symm⟩
  · rename_i pd m₀ hsetup
    rw [hsetup] at hi₀ hview₀ hnew
    simp only at hi₀ hview₀ hnew
    obtain ⟨hnone, hpg₀⟩ := hnew pd rfl
    have hne : (mmCreate pd).pgdir ≠ oldmm.pgdir := by
      rintro heq
      have heq' : pd = oldmm.pgdir := heq
      rw [← heq', hnone] at hsome
      exact absurd hsome (by simp)
    rw [Option.bind_eq_bind, Option.bind_eq_some_iff] at h
    obtain ⟨⟨r₁, m₁, mm₁⟩, h₁, h⟩ := h
    have hs : (oldmm.mmapList.reverse.reverse ++ (mmCreate pd).mmapList).Pairwise
        (fun a b => a.vmEnd ≤ b.vmStart) := by
      simpa [mmCreate] using hsorted.apart
    obtain ⟨hi₁, hpg₁, hpd₁, hcache₁, hcode₁, hf₁⟩ := hi₀.dupLoop hne hs h₁
    simp only at h
    split at h
    · rename_i hr
      rw [Option.bind_eq_bind, Option.bind_eq_some_iff] at h
      obtain ⟨m₂, -, h⟩ := h
      simp only [Option.some.injEq, Prod.mk.injEq] at h
      exact Or.inl ⟨h.1 ▸ hcode₁.resolve_left hr, h.2.2.symm⟩
    · rename_i hr
      simp only [Option.some.injEq, Prod.mk.injEq] at h
      obtain ⟨rfl, rfl, rfl⟩ := h
      obtain ⟨hl, hforked⟩ := hf₁ (not_not.mp hr)
      have hpd : mm₁.pgdir = pd := hpd₁
      refine Or.inr ⟨rfl, mm₁, rfl, hi₁, by rw [hpd]; exact hnone, ?_, ?_, hcache₁, ?_⟩
      · intro pd'
        rw [hpg₁, hpg₀, hpd]
        by_cases heq : pd' = pd
        · simp [heq]
        · simp [heq]
      · rw [hl]
        simp [mmCreate]
      · intro pd' la hla
        have hiff : (∃ v ∈ oldmm.mmapList.reverse, v.Contains la) ↔ oldmm.InArea la := by
          simp [Mm.InArea]
        have hcongr : forkedView share (mmCreate pd).pgdir oldmm.pgdir m₀.view pd' la =
            forkedView share mm₁.pgdir oldmm.pgdir m.view pd' la := by
          rw [hpd]
          exact forkedView_congr (fun pd => hview₀ pd la hla)
        obtain ⟨hin, hout⟩ := hforked pd' la hla
        exact ⟨fun ha => (hin (hiff.mpr ha)).trans hcongr,
          fun ha => (hout (fun hbad => ha (hiff.mp hbad))).trans (hview₀ pd' la hla)⟩

theorem RefInv.copyMm_share_exists (hi : RefInv ∅ F m) {oldmm : Mm} (hsorted : oldmm.Sorted)
    (hsome : (m.pgdir oldmm.pgdir).isSome) :
    ∃ r m₁ mm, m.copyMm true oldmm = some (r, m₁, mm) := by
  obtain ⟨hi₀, hview₀, hnew⟩ := hi.setupPgdir
  unfold Mem.copyMm
  split
  · exact ⟨_, _, _, rfl⟩
  · rename_i pd m₀ hsetup
    rw [hsetup] at hi₀ hview₀ hnew
    simp only at hi₀ hview₀ hnew
    obtain ⟨hnone, hpg₀⟩ := hnew pd rfl
    have hne' : pd ≠ oldmm.pgdir := by
      rintro rfl
      rw [hnone] at hsome
      exact absurd hsome (by simp)
    have hs : (oldmm.mmapList.reverse.reverse ++ (mmCreate pd).mmapList).Pairwise
        (fun a b => a.vmEnd ≤ b.vmStart) := by
      simpa [mmCreate] using hsorted.apart
    have hdst : (m₀.pgdir (mmCreate pd).pgdir).isSome := by
      rw [hpg₀]
      simp [mmCreate]
    have hsrc : (m₀.pgdir oldmm.pgdir).isSome := by
      rw [hpg₀, Function.update_of_ne hne'.symm]
      exact hsome
    have hne : (mmCreate pd).pgdir ≠ oldmm.pgdir := hne'
    obtain ⟨r₁, m₁, mm₁, h₁⟩ := hi₀.dupLoop_share_exists hne hdst hsrc hs
    obtain ⟨hi₁, hpg₁, hpd₁, -⟩ := hi₀.dupLoop hne hs h₁
    unfold Mem.dupMmap
    rw [h₁]
    simp only [Option.bind_eq_bind, Option.bind_some]
    split
    · obtain ⟨m₂, h₂, -⟩ := hi₁.exitMmap_exists
        (show (m₁.pgdir mm₁.pgdir).isSome from by rw [hpg₁, hpd₁]; exact hdst)
      rw [h₂]
      exact ⟨_, _, _, rfl⟩
    · exact ⟨_, _, _, rfl⟩

end Mem
end Ucore.Vm
