import Ucore.Vm.Fork

/-!
What a fork that runs out of memory leaves behind: the pages before the failure are
forked, and one more page of the parent may have lost write permission.
-/
namespace Ucore.Vm

open Library

namespace Mem

variable {M : PmmManager} {K F : Set ℕ} {m m' : Mem M} {dst src : ℕ}

/-- Pages of one address space at addresses in `P` may have lost write permission. -/
def StrippedOn (src : ℕ) (P : ℕ → Prop) (m m' : Mem M) : Prop :=
  ∀ pd la, la < userTop →
    (m'.view pd la = m.view pd la ∨
      pd = src ∧ P la ∧ m'.view pd la = (m.view pd la).strip)

theorem StrippedOn.refl (P : ℕ → Prop) (m : Mem M) : StrippedOn src P m m :=
  fun _ _ _ => Or.inl rfl

/-- Addresses in `P` were forked, then an address of `Q` failed. -/
def ForkFailed (share : Bool) (dst src : ℕ) (P : ℕ → Prop) (m m' : Mem M) : Prop :=
  ∃ (D : ℕ → Prop) (m₁ : Mem M), (∀ la, D la → P la) ∧ ForkedOn share dst src D m m₁ ∧
    StrippedOn src P m₁ m'

/-- A page that cannot be entered in the child's directory. -/
theorem RefInv.copyPte_failed (hi : RefInv K F m) {share : Bool} {start : ℕ} {r : ℤ}
    (hla : start < userTop) (hv : hasFlag (m.entry src start) pteV = true)
    (h : m.copyPte share dst src start = some (r, m')) (hr : r ≠ 0) :
    StrippedOn src (fun la => la / pgSize = start / pgSize) m m' := by
  set perm := m.entry src start &&& pteUser with hperm
  set page := ptePpn (m.entry src start) with hpage
  unfold Mem.copyPte at h
  simp only [← hperm, ← hpage] at h
  cases share with
  | true =>
    have hlt : permNoWrite perm < 2 ^ 5 := permNoWrite_lt_user (and_pteUser_lt_user _)
    have hbit : (permNoWrite perm).testBit 0 = true :=
      permNoWrite_testBit_zero (and_pteUser_testBit_zero hv)
    have hlim := lt_pteFlagLimit_of_user hlt
    have hvlim : pteV ||| permNoWrite perm < pteFlagLimit := or_lt_flagLimit (by decide) hlim
    obtain ⟨hi₁, hc₁⟩ := hi.markEntry (pteV ||| permNoWrite perm) (hasTable_of_valid hv) hla
      (holds_of_valid hv) (fun hw => absurd hw (by rw [hasFlag_pteV_or]; simp)) hvlim
    have hnf : ¬ m.IsFree page := hi.not_free_of_valid hla hv
    have hstrip : StrippedOn src (fun la => la / pgSize = start / pgSize) m
        (m.setEntry src start (pteCreate page (pteV ||| permNoWrite perm))) := by
      intro pd la hla'
      by_cases hin : pd = src ∧ la / pgSize = start / pgSize
      · right
        obtain ⟨rfl, hin⟩ := hin
        refine ⟨rfl, hin, ?_⟩
        rw [hc₁.view_self hla' hin hlt hbit, hc₁.data page hnf, view_eq_of_page hin]
        unfold view
        rw [if_pos hv]
        rfl
      · left
        exact hi.view_changed hc₁ hla' hin
    simp only [if_true] at h
    rw [Option.bind_eq_bind, Option.bind_eq_some_iff] at h
    obtain ⟨⟨ok, m₂⟩, h₂, h⟩ := h
    obtain ⟨hw₂, -, -⟩ := hi₁.getPte h₂
    have hsame : ∀ {m₃ : Mem M}, SameMap (m.setEntry src start
        (pteCreate page (pteV ||| permNoWrite perm))) m₃ →
        StrippedOn src (fun la => la / pgSize = start / pgSize) m m₃ := by
      intro m₃ hs pd la hla'
      rw [hi₁.view_same hs hla']
      exact hstrip pd la hla'
    cases ok with
    | false =>
      simp only [Bool.not_false, if_true, Option.some.injEq, Prod.mk.injEq] at h
      obtain ⟨-, rfl⟩ := h
      exact hsame hw₂.same
    | true =>
      simp only [Bool.not_true, Bool.false_eq_true, if_false] at h
      rw [Option.bind_eq_bind, Option.bind_eq_some_iff] at h
      obtain ⟨⟨r₃, m₃⟩, h₃, h⟩ := h
      simp only at h
      split at h
      · rename_i hr₃
        simp only [Option.some.injEq, Prod.mk.injEq] at h
        obtain ⟨-, rfl⟩ := h
        unfold Mem.pageInsert at h₃
        rw [Option.bind_eq_bind, Option.bind_eq_some_iff] at h₃
        obtain ⟨⟨ok', m₄⟩, h₄, h₃⟩ := h₃
        obtain ⟨hw₄, -, -⟩ := hw₂.inv.getPte h₄
        cases ok' with
        | false =>
          simp only [Bool.not_false, if_true, Option.some.injEq, Prod.mk.injEq] at h₃
          obtain ⟨-, rfl⟩ := h₃
          exact hsame (hw₂.same.trans hw₄.same)
        | true =>
          simp only [Bool.not_true, Bool.false_eq_true, if_false, Option.some.injEq,
            Prod.mk.injEq] at h₃
          exact absurd h₃.1.symm hr₃
      · simp only [Option.some.injEq, Prod.mk.injEq] at h
        exact absurd h.1.symm hr
  | false =>
    simp only [Bool.false_eq_true, if_false] at h
    rw [Option.bind_eq_bind, Option.bind_eq_some_iff] at h
    obtain ⟨⟨ok, m₁⟩, h₁, h⟩ := h
    obtain ⟨hw₁, -, -⟩ := hi.getPte h₁
    cases ok with
    | false =>
      simp only [Bool.not_false, if_true, Option.some.injEq, Prod.mk.injEq] at h
      obtain ⟨-, rfl⟩ := h
      exact fun pd la hla' => Or.inl (hi.view_same hw₁.same hla')
    | true =>
      simp only [Bool.not_true, Bool.false_eq_true, if_false] at h
      cases halloc : m₁.allocPage with
      | none =>
        rw [halloc] at h
        exact absurd h (by simp)
      | some a =>
        obtain ⟨npage, m₂⟩ := a
        rw [halloc] at h
        obtain ⟨hi₃, hnotF, hs₃, -⟩ := hw₁.inv.allocCopy page halloc
        simp only at h
        rw [Option.bind_eq_bind, Option.bind_eq_some_iff] at h
        obtain ⟨⟨r₄, m₄⟩, h₄, h⟩ := h
        rcases hi₃.pageInsert hla (lt_pteFlagLimit_of_user (and_pteUser_lt_user _))
          (Or.inl (Set.mem_insert npage F)) h₄ with ⟨rfl, hi₄, hs₄⟩ | ⟨rfl, hi₄, hc₄⟩
        · rw [if_pos eNoMem_ne_zero] at h
          simp only [Option.some.injEq, Prod.mk.injEq] at h
          obtain ⟨-, rfl⟩ := h
          have hs := (hw₁.same.trans hs₃).trans hs₄
          exact fun pd la hla' => Or.inl (hi.view_congr hla' (hs.entry pd la) hs.data)
        · rw [if_neg (by simp)] at h
          simp only [Option.some.injEq, Prod.mk.injEq] at h
          exact absurd h.1.symm hr

theorem RefInv.copyStep_failed (hi : RefInv K F m) {share : Bool} {start next : ℕ} {r : ℤ}
    (hla : start < userTop) (h : m.copyStep share dst src start = some (r, next, m'))
    (hr : r ≠ 0) : StrippedOn src (fun la => la / pgSize = start / pgSize) m m' := by
  unfold Mem.copyStep at h
  rw [Option.bind_eq_bind, Option.bind_eq_some_iff] at h
  obtain ⟨⟨ok, m₁⟩, h₁, h⟩ := h
  obtain ⟨hw, -, -⟩ := hi.getPte h₁
  obtain rfl := hw.lookup rfl
  cases ok with
  | false =>
    simp only [Bool.not_false, if_true, Option.some.injEq, Prod.mk.injEq] at h
    exact absurd h.1.symm hr
  | true =>
    simp only [Bool.not_true, Bool.false_eq_true, if_false] at h
    by_cases hv : hasFlag (m₁.entry src start) pteV
    · rw [if_pos hv, Option.bind_eq_bind, Option.bind_eq_some_iff] at h
      obtain ⟨⟨r₁, m₂⟩, h₂, h⟩ := h
      simp only [Option.some.injEq, Prod.mk.injEq] at h
      obtain ⟨rfl, -, rfl⟩ := h
      exact hi.copyPte_failed hla hv h₂ hr
    · rw [if_neg hv] at h
      simp only [Option.some.injEq, Prod.mk.injEq] at h
      exact absurd h.1.symm hr

theorem ForkFailed.append {share : Bool} {P Q : ℕ → Prop} {m₁ : Mem M}
    (h : ForkedOn share dst src P m m₁) (h' : ForkFailed share dst src Q m₁ m')
    (hdisj : ∀ la, P la → ¬ Q la) :
    ForkFailed share dst src (fun la => P la ∨ Q la) m m' := by
  obtain ⟨D, m₂, hD, hf, hs⟩ := h'
  refine ⟨fun la => P la ∨ D la, m₂, ?_, h.append hf (fun la hP hD' => hdisj la hP (hD la hD')), ?_⟩
  · intro la hla
    exact hla.imp_right (hD la)
  · intro pd la hla
    rcases hs pd la hla with heq | ⟨hpd, hQ, heq⟩
    · exact Or.inl heq
    · exact Or.inr ⟨hpd, Or.inr hQ, heq⟩

theorem ForkFailed.mono {share : Bool} {P Q : ℕ → Prop} (h : ForkFailed share dst src P m m')
    (hPQ : ∀ la, P la → Q la) : ForkFailed share dst src Q m m' := by
  obtain ⟨D, m₁, hD, hf, hs⟩ := h
  refine ⟨D, m₁, fun la hla => hPQ la (hD la hla), hf, fun pd la hla => ?_⟩
  rcases hs pd la hla with heq | ⟨hpd, hP, heq⟩
  · exact Or.inl heq
  · exact Or.inr ⟨hpd, hPQ la hP, heq⟩

/-- Nothing was forked before the failure. -/
theorem StrippedOn.forkFailed {share : Bool} {P : ℕ → Prop} (h : StrippedOn src P m m') :
    ForkFailed share dst src P m m' :=
  ⟨fun _ => False, m, fun _ hf => hf.elim, fun _ _ _ => ⟨fun hf => hf.elim, fun _ => rfl⟩, h⟩

theorem RefInv.copyLoop_failed (hi : RefInv K F m) {share : Bool} {start stop : ℕ} {r : ℤ}
    (hne : dst ≠ src) (halign : start % pgSize = 0) (hstop : stop % pgSize = 0)
    (hlt : start < stop) (htop : stop ≤ userTop)
    (h : m.copyLoop share dst src start stop = some (r, m')) (hr : r ≠ 0) :
    ForkFailed share dst src (fun la => start ≤ la ∧ la < stop) m m' := by
  fun_induction Mem.copyLoop share m dst src start stop with
  | case1 m start hs => exact absurd h (by simp)
  | case2 m start r₁ next m₁ hs hr₁ =>
    simp only [Option.some.injEq, Prod.mk.injEq] at h
    obtain ⟨rfl, rfl⟩ := h
    refine (hi.copyStep_failed (by omega) hs hr).forkFailed.mono ?_
    intro la hpage
    unfold pgSize at *
    omega
  | case3 m start r₁ next m₁ hs hr₁ hcond ih =>
    obtain ⟨hi₁, -, -, halign₁, hf₁⟩ := hi.copyStep hne halign hstop hlt (by omega) hs
    have hadv := copyStep_lt hs
    have hfail := ih hi₁ halign₁ hcond.2 h
    refine (ForkFailed.append (hf₁ (not_not.mp hr₁)) hfail ?_).mono ?_
    · rintro la ⟨-, hlt', -⟩ ⟨hle, -⟩
      omega
    · intro la hla
      omega
  | case4 m start r₁ next m₁ hs hr₁ hcond =>
    simp only [Option.some.injEq, Prod.mk.injEq] at h
    exact absurd h.1.symm hr

theorem RefInv.copyRange_failed (hi : RefInv K F m) {share : Bool} {start stop : ℕ} {r : ℤ}
    (hne : dst ≠ src) (h : m.copyRange share dst src start stop = some (r, m')) (hr : r ≠ 0) :
    ForkFailed share dst src (fun la => start ≤ la ∧ la < stop) m m' := by
  unfold Mem.copyRange at h
  split at h
  · rename_i hc
    obtain ⟨hs, ht, -, hlt, htop⟩ := hc
    exact hi.copyLoop_failed hne hs ht hlt htop h hr
  · exact absurd h (by simp)

/-- A fork maps new pages in the child's directory only. -/
theorem isSome_forkedView {share : Bool} {pd la : ℕ} {view : ℕ → ℕ → PageView}
    (hpd : pd ≠ dst) (hv : (forkedView share dst src view pd la).isSome) :
    (view pd la).isSome := by
  unfold forkedView at hv
  rw [if_neg hpd] at hv
  split at hv
  · split at hv
    · rename_i hps
      rw [hps.1]
      simpa [PageView.strip] using hv
    · exact hv
  · exact hv

/-- A page that is mapped after a failed fork was mapped before, or lies in the range. -/
theorem ForkFailed.isSome {share : Bool} {P : ℕ → Prop} (h : ForkFailed share dst src P m m')
    {pd la : ℕ} (hla : la < userTop) (hv : (m'.view pd la).isSome) :
    (m.view pd la).isSome ∨ pd = dst ∧ P la := by
  obtain ⟨D, m₁, hD, hf, hs⟩ := h
  have hv₁ : (m₁.view pd la).isSome := by
    rcases hs pd la hla with heq | ⟨-, -, heq⟩
    · rwa [heq] at hv
    · rw [heq] at hv
      simpa [PageView.strip] using hv
  by_cases hin : D la
  · by_cases hpd : pd = dst
    · exact Or.inr ⟨hpd, hD la hin⟩
    · left
      rw [(hf pd la hla).1 hin] at hv₁
      exact isSome_forkedView hpd hv₁
  · left
    rwa [(hf pd la hla).2 hin] at hv₁

/-- What a failed fork changed outside the child's directory: at most write permission of
the source. -/
theorem ForkFailed.stripped {share : Bool} {P : ℕ → Prop} (h : ForkFailed share dst src P m m')
    {pd la : ℕ} (hla : la < userTop) (hpd : pd ≠ dst) :
    m'.view pd la = m.view pd la ∨
      pd = src ∧ P la ∧ m'.view pd la = (m.view pd la).strip := by
  obtain ⟨D, m₁, hD, hf, hs⟩ := h
  have hfirst : m₁.view pd la = m.view pd la ∨
      pd = src ∧ P la ∧ m₁.view pd la = (m.view pd la).strip := by
    by_cases hin : D la
    · rw [(hf pd la hla).1 hin]
      unfold forkedView
      rw [if_neg hpd]
      split
      · split
        · rename_i hps
          rw [hps.1]
          exact Or.inr ⟨rfl, hD la hin, rfl⟩
        · exact Or.inl rfl
      · exact Or.inl rfl
    · exact Or.inl ((hf pd la hla).2 hin)
  rcases hs pd la hla with heq | ⟨hps, hP, heq⟩
  · rw [heq]
    exact hfirst
  · right
    refine ⟨hps, hP, ?_⟩
    rcases hfirst with h₁ | ⟨-, -, h₁⟩
    · rw [heq, h₁]
    · rw [heq, h₁, PageView.strip_strip]

/-- `dup_mmap` that runs out of memory: the areas up to the failing one were inserted, and
nothing outside them was forked. -/
theorem RefInv.dupLoop_failed (hi : RefInv K F m) {share : Bool} {toMm toMm' : Mm}
    {rest : List Vma} {r : ℤ} (hne : toMm.pgdir ≠ src)
    (hsorted : (rest.reverse ++ toMm.mmapList).Pairwise (fun a b => a.vmEnd ≤ b.vmStart))
    (h : m.dupLoop share toMm src rest = some (r, m', toMm')) (hr : r ≠ 0) :
    ∃ vs, (∀ v, v ∈ toMm'.mmapList ↔ v ∈ vs ∨ v ∈ toMm.mmapList) ∧ vs ⊆ rest ∧
      ForkFailed share toMm.pgdir src (fun la => ∃ v ∈ vs, v.Contains la) m m' := by
  induction rest generalizing m toMm with
  | nil =>
    unfold Mem.dupLoop at h
    simp only [Option.some.injEq, Prod.mk.injEq] at h
    exact absurd h.1.symm hr
  | cons v rest ih =>
    have hlist : (v :: rest).reverse ++ toMm.mmapList =
        rest.reverse ++ (v :: toMm.mmapList) := by simp
    rw [hlist] at hsorted
    obtain ⟨-, htail, hcross⟩ := List.pairwise_append.mp hsorted
    have hfront := Mm.insertVmaStruct_front (List.pairwise_cons.mp htail).1
    unfold Mem.dupLoop at h
    rw [hfront, Option.bind_eq_bind, Option.bind_some, Option.bind_eq_bind,
      Option.bind_eq_some_iff] at h
    obtain ⟨⟨r₁, m₁⟩, h₁, h⟩ := h
    simp only at h
    split at h
    · rename_i hr₁
      simp only [Option.some.injEq, Prod.mk.injEq] at h
      obtain ⟨rfl, rfl, rfl⟩ := h
      refine ⟨[v], fun w => by simp, by simp, ?_⟩
      refine (hi.copyRange_failed hne h₁ hr₁).mono ?_
      exact fun la hla => ⟨v, List.mem_singleton_self v, hla⟩
    · rename_i hr₁
      obtain ⟨hi₁, -, -, hf₁⟩ := hi.copyRange hne h₁
      have hne' : (Mm.mk (v :: toMm.mmapList) toMm.mmapCache toMm.pgdir
        (toMm.mapCount + 1)).pgdir ≠ src := hne
      obtain ⟨vs, hareas, hsub, hfail⟩ := ih hi₁ hne' hsorted h
      refine ⟨v :: vs, ?_, List.cons_subset_cons v hsub, ?_⟩
      · intro w
        rw [hareas w]
        simp only [List.mem_cons]
        tauto
      · have hdisj : ∀ la, v.vmStart ≤ la ∧ la < v.vmEnd → ¬ ∃ w ∈ vs, w.Contains la := by
          intro la hla hbad
          obtain ⟨w, hw, hwla⟩ := hbad
          have hwv := hcross w (List.mem_reverse.mpr (hsub hw)) v List.mem_cons_self
          have hwlt := hwla.2
          have hle := hla.1
          omega
        refine (ForkFailed.append (hf₁ (not_not.mp hr₁)) hfail hdisj).mono ?_
        intro la hla
        rcases hla with hla | ⟨w, hw, hwla⟩
        · exact ⟨v, List.mem_cons_self, hla⟩
        · exact ⟨w, List.mem_cons_of_mem v hw, hwla⟩

/-- All address spaces are as they were, except that pages of one may have lost write
permission. -/
structure Stripped (F : Set ℕ) (src : ℕ) (m m' : Mem M) : Prop where
  ref : RefInv ∅ F m'
  pgdir : ∀ pd, (m'.pgdir pd).isSome = (m.pgdir pd).isSome
  view : ∀ pd la, la < userTop → m'.view pd la = m.view pd la ∨
    pd = src ∧ m'.view pd la = (m.view pd la).strip

/-- A fork that fails takes the child's address space down again. -/
theorem RefInv.copyMm_failed (hi : RefInv ∅ F m) {share : Bool} {oldmm : Mm} {r : ℤ}
    (hsorted : oldmm.Sorted) (hsome : (m.pgdir oldmm.pgdir).isSome)
    (h : m.copyMm share oldmm = some (r, m', none)) : Stripped F oldmm.pgdir m m' := by
  obtain ⟨hi₀, hview₀, hnew⟩ := hi.setupPgdir
  unfold Mem.copyMm at h
  split at h
  · rename_i m₀ hsetup
    simp only [Option.some.injEq, Prod.mk.injEq] at h
    obtain ⟨-, rfl, -⟩ := h
    have heq : m₀ = m := by
      unfold Mem.setupPgdir at hsetup
      split at hsetup
      · exact (Prod.mk.inj hsetup).2.symm
      · exact absurd (Prod.mk.inj hsetup).1 (by simp)
    subst heq
    exact ⟨hi, fun _ => rfl, fun _ _ _ => Or.inl rfl⟩
  · rename_i pd m₀ hsetup
    rw [hsetup] at hi₀ hview₀ hnew
    simp only at hi₀ hview₀ hnew
    obtain ⟨hnone, hpg₀⟩ := hnew pd rfl
    have hne : (mmCreate pd).pgdir ≠ oldmm.pgdir := by
      intro heq
      rw [← heq] at hsome
      have hnone' : m.pgdir (mmCreate pd).pgdir = none := hnone
      rw [hnone'] at hsome
      exact absurd hsome (by simp)
    rw [Option.bind_eq_bind, Option.bind_eq_some_iff] at h
    obtain ⟨⟨r₁, m₁, mm₁⟩, h₁, h⟩ := h
    have hs : (oldmm.mmapList.reverse.reverse ++ (mmCreate pd).mmapList).Pairwise
        (fun a b => a.vmEnd ≤ b.vmStart) := by
      simpa [mmCreate] using hsorted.apart
    obtain ⟨hi₁, hpg₁, hpd₁, -⟩ := hi₀.dupLoop hne hs h₁
    simp only at h
    split at h
    · rename_i hr
      obtain ⟨vs, hareas, -, hfail⟩ := hi₀.dupLoop_failed hne hs h₁ hr
      rw [Option.bind_eq_bind, Option.bind_eq_some_iff] at h
      obtain ⟨m₂, h₂, h⟩ := h
      simp only [Option.some.injEq, Prod.mk.injEq] at h
      obtain ⟨-, rfl, -⟩ := h
      have hpd : mm₁.pgdir = pd := hpd₁
      have hsome₁ : (m₁.pgdir mm₁.pgdir).isSome := by
        rw [hpg₁, hpd, hpg₀]
        simp
      have harea : ∀ la, la < userTop → (m₁.view mm₁.pgdir la).isSome → mm₁.InArea la := by
        intro la hla hv
        rw [hpd] at hv
        rcases hfail.isSome hla hv with hv | ⟨-, v, hv, hc⟩
        · rw [hview₀ pd la hla, view_of_no_pgdir hnone] at hv
          exact absurd hv (by simp)
        · exact ⟨v, (hareas v).mpr (Or.inl hv), hc⟩
      have htorn := hi₁.exitMmap hsome₁ harea h₂
      rw [hpd] at htorn
      refine ⟨htorn.inv, ?_, ?_⟩
      · intro pd'
        by_cases hpd' : pd' = pd
        · rw [hpd', htorn.gone, hnone]
        · rw [htorn.pgdir pd' hpd', hpg₁, hpg₀, Function.update_of_ne hpd']
      · intro pd' la hla
        by_cases hpd' : pd' = pd
        · left
          rw [hpd', view_of_no_pgdir htorn.gone, view_of_no_pgdir hnone]
        · rw [htorn.view pd' hpd' la hla, ← hview₀ pd' la hla]
          rcases hfail.stripped hla hpd' with heq | ⟨hps, -, heq⟩
          · exact Or.inl heq
          · exact Or.inr ⟨hps, heq⟩
    · simp only [Option.some.injEq, Prod.mk.injEq] at h
      exact absurd h.2.2 (by simp)

end Mem
end Ucore.Vm
