import Ucore.Vm.PageView

/-!
The operations of `pmm.c` on ranges of addresses: what `copy_range` and
`unmap_range` do to the reference counts and to the views of all address spaces.
-/
namespace Ucore.Vm

open Library

/-- The view of an address after its page was forked from `src` to `dst`. -/
def forkedView (share : Bool) (dst src : ℕ) (view : ℕ → ℕ → PageView) (pd la : ℕ) : PageView :=
  if (view src la).isSome then
    if pd = dst then (if share then (view src la).strip else view src la)
    else if pd = src ∧ share then (view src la).strip
    else view pd la
  else view pd la

theorem forkedView_of_none {share : Bool} {dst src pd la : ℕ} {view : ℕ → ℕ → PageView}
    (h : view src la = none) : forkedView share dst src view pd la = view pd la := by
  simp [forkedView, h]

theorem forkedView_congr {share : Bool} {dst src pd la : ℕ} {view view' : ℕ → ℕ → PageView}
    (h : ∀ pd, view' pd la = view pd la) :
    forkedView share dst src view' pd la = forkedView share dst src view pd la := by
  unfold forkedView
  rw [h, h]

namespace Mem

variable {M : PmmManager} {K F : Set ℕ} {m m' : Mem M}

/-- The addresses in `P` were forked from `src` to `dst`; nothing else changed. -/
def ForkedOn (share : Bool) (dst src : ℕ) (P : ℕ → Prop) (m m' : Mem M) : Prop :=
  ∀ pd la, la < userTop →
    (P la → m'.view pd la = forkedView share dst src m.view pd la) ∧
    (¬ P la → m'.view pd la = m.view pd la)

/-- The addresses in `P` of one address space were unmapped; nothing else changed. -/
def UnmappedOn (pd : ℕ) (P : ℕ → Prop) (m m' : Mem M) : Prop :=
  ∀ pd' la, la < userTop →
    (pd' = pd ∧ P la → m'.view pd' la = none) ∧
    (¬ (pd' = pd ∧ P la) → m'.view pd' la = m.view pd' la)

theorem ForkedOn.append {share : Bool} {dst src : ℕ} {P Q : ℕ → Prop} {m'' : Mem M}
    (h : ForkedOn share dst src P m m') (h' : ForkedOn share dst src Q m' m'')
    (hdisj : ∀ la, P la → ¬ Q la) : ForkedOn share dst src (fun la => P la ∨ Q la) m m'' := by
  intro pd la hla
  constructor
  · rintro (hP | hQ)
    · rw [(h' pd la hla).2 (hdisj la hP), (h pd la hla).1 hP]
    · have hsame : ∀ pd, m'.view pd la = m.view pd la :=
        fun pd => (h pd la hla).2 (fun hP => hdisj la hP hQ)
      rw [(h' pd la hla).1 hQ, forkedView_congr hsame]
  · intro hno
    rw [(h' pd la hla).2 (fun hQ => hno (Or.inr hQ)), (h pd la hla).2 (fun hP => hno (Or.inl hP))]

theorem ForkedOn.congr {share : Bool} {dst src : ℕ} {P Q : ℕ → Prop}
    (h : ForkedOn share dst src P m m') (hPQ : ∀ la, la < userTop → (P la ↔ Q la)) :
    ForkedOn share dst src Q m m' := by
  intro pd la hla
  rw [← hPQ la hla]
  exact h pd la hla

theorem UnmappedOn.append {pd : ℕ} {P Q : ℕ → Prop} {m'' : Mem M}
    (h : UnmappedOn pd P m m') (h' : UnmappedOn pd Q m' m'') :
    UnmappedOn pd (fun la => P la ∨ Q la) m m'' := by
  intro pd' la hla
  by_cases hQ : pd' = pd ∧ Q la
  · exact ⟨fun _ => (h' pd' la hla).1 hQ, fun hno => absurd ⟨hQ.1, Or.inr hQ.2⟩ hno⟩
  · rw [(h' pd' la hla).2 hQ]
    constructor
    · rintro ⟨hpd, hP | hQ'⟩
      · exact (h pd' la hla).1 ⟨hpd, hP⟩
      · exact absurd ⟨hpd, hQ'⟩ hQ
    · intro hno
      exact (h pd' la hla).2 (fun hP => hno ⟨hP.1, Or.inl hP.2⟩)

theorem UnmappedOn.congr {pd : ℕ} {P Q : ℕ → Prop} (h : UnmappedOn pd P m m')
    (hPQ : ∀ la, la < userTop → (P la ↔ Q la)) : UnmappedOn pd Q m m' := by
  intro pd' la hla
  rw [← hPQ la hla]
  exact h pd' la hla

/-- Addresses of one last-level table that is missing are unmapped. -/
theorem view_of_no_table {pd la la' : ℕ} (h : ¬ m.HasTable pd la)
    (hle : la ≤ la') (hlt : la' < roundDown (la + ptSize) ptSize) : m.view pd la' = none := by
  have hidx : pdx1 la' = pdx1 la ∧ pdx0 la' = pdx0 la := by
    rw [pdx1_eq, pdx1_eq, pdx0_eq, pdx0_eq]
    have hpt : ptSize = 2097152 := rfl
    unfold roundDown at hlt
    rw [hpt] at hlt
    omega
  have hno : ¬ m.HasTable pd la' := by
    rintro ⟨d, hd, t, ht⟩
    refine h ⟨d, hd, t, ?_⟩
    unfold Pgdir.table at *
    rwa [hidx.1, hidx.2] at ht
  unfold view
  rw [RefInv.entry_of_no_table hno]
  simp

theorem roundDown_add_mod (a : ℕ) : roundDown (a + ptSize) ptSize % pgSize = 0 := by
  have hpt : ptSize = 2097152 := rfl
  unfold roundDown pgSize
  rw [hpt]
  omega

/-- One turn of the loop of `unmap_range`; a missing table may reach beyond the range. -/
theorem RefInv.unmapStep (hi : RefInv K F m) {pd start next stop : ℕ}
    (halign : start % pgSize = 0) (hstop : stop % pgSize = 0) (hlt : start < stop)
    (hla : start < userTop) (h : m.unmapStep pd start = some (next, m')) :
    RefInv K F m' ∧ (∀ pd, (m'.pgdir pd).isSome = (m.pgdir pd).isSome) ∧ next % pgSize = 0 ∧
      UnmappedOn pd (fun la => start ≤ la ∧ la < next ∧ la < stop) m m' := by
  unfold Mem.unmapStep at h
  rw [Option.bind_eq_bind, Option.bind_eq_some_iff] at h
  obtain ⟨⟨ok, m₁⟩, h₁, h⟩ := h
  obtain ⟨hw, htab, hno⟩ := hi.getPte h₁
  obtain rfl := hw.lookup rfl
  cases ok with
  | false =>
    simp only [Bool.not_false, if_true, Option.some.injEq, Prod.mk.injEq] at h
    obtain ⟨rfl, rfl⟩ := h
    refine ⟨hi, fun _ => rfl, roundDown_add_mod start, fun pd' la hla' => ⟨?_, fun _ => rfl⟩⟩
    rintro ⟨rfl, hle, hnext, -⟩
    exact view_of_no_table (hno rfl rfl) hle hnext
  | true =>
    simp only [Bool.not_true, Bool.false_eq_true, if_false, Option.some.injEq,
      Prod.mk.injEq] at h
    obtain ⟨rfl, h⟩ := h
    have ht := htab rfl
    have hnext : (start + pgSize) % pgSize = 0 := by
      unfold pgSize at *
      omega
    have hpage : ∀ la, la / pgSize = start / pgSize ↔
        start ≤ la ∧ la < start + pgSize ∧ la < stop := by
      intro la
      unfold pgSize at *
      omega
    by_cases hv : hasFlag (m₁.entry pd start) pteV
    · have hne : m₁.entry pd start ≠ 0 := by
        intro hz
        rw [hz] at hv
        simp at hv
      rw [if_pos hne] at h
      obtain ⟨hi', hrem⟩ := hi.pageRemovePte ht hla (holds_of_valid hv)
      rw [h] at hi' hrem
      refine ⟨hi', hrem.changed.pgdir, hnext, fun pd' la hla' => ⟨?_, fun hno' => ?_⟩⟩
      · rintro ⟨rfl, hin⟩
        exact hrem.changed.view_zero hla' ((hpage la).mpr hin)
      · apply hi.view_changed hrem.changed hla'
        rw [hpage]
        exact hno'
    · have hkeep : m' = m₁ := by
        rw [← h]
        split
        · unfold Mem.pageRemovePte
          rw [if_neg hv]
        · rfl
      subst hkeep
      refine ⟨hi, fun _ => rfl, hnext, fun pd' la hla' => ⟨?_, fun _ => rfl⟩⟩
      rintro ⟨rfl, hin⟩
      rw [view_eq_of_page ((hpage la).mpr hin)]
      unfold view
      rw [if_neg hv]

theorem RefInv.unmapLoop (hi : RefInv K F m) {pd start stop : ℕ} (halign : start % pgSize = 0)
    (hstop : stop % pgSize = 0) (hlt : start < stop) (htop : stop ≤ userTop)
    (h : m.unmapLoop pd start stop = some m') :
    RefInv K F m' ∧ (∀ pd, (m'.pgdir pd).isSome = (m.pgdir pd).isSome) ∧
      UnmappedOn pd (fun la => start ≤ la ∧ la < stop) m m' := by
  fun_induction Mem.unmapLoop m pd start stop with
  | case1 m start hs => exact absurd h (by simp)
  | case2 m start next m₁ hs hcond ih =>
    obtain ⟨hi₁, hpg₁, halign₁, hun₁⟩ := hi.unmapStep halign hstop hlt (by omega) hs
    obtain ⟨hi', hpg', hun'⟩ := ih hi₁ halign₁ hcond.2 h
    have hadv := unmapStep_lt hs
    refine ⟨hi', fun pd => (hpg' pd).trans (hpg₁ pd), (hun₁.append hun').congr ?_⟩
    intro la _
    omega
  | case3 m start next m₁ hs hcond =>
    obtain ⟨hi₁, hpg₁, -, hun₁⟩ := hi.unmapStep halign hstop hlt (by omega) hs
    obtain rfl := Option.some.inj h
    have hadv := unmapStep_lt hs
    refine ⟨hi₁, hpg₁, hun₁.congr ?_⟩
    intro la _
    omega

/-- `unmap_range` unmaps exactly its range. -/
theorem RefInv.unmapRange (hi : RefInv K F m) {pd start stop : ℕ}
    (h : m.unmapRange pd start stop = some m') :
    RefInv K F m' ∧ (∀ pd, (m'.pgdir pd).isSome = (m.pgdir pd).isSome) ∧
      UnmappedOn pd (fun la => start ≤ la ∧ la < stop) m m' := by
  unfold Mem.unmapRange at h
  split at h
  · rename_i hc
    obtain ⟨hs, ht, -, hlt, htop⟩ := hc
    exact hi.unmapLoop hs ht hlt htop h
  · exact absurd h (by simp)

/-- `alloc_page` followed by the copy of another page's bytes. -/
theorem RefInv.allocCopy (hi : RefInv K F m) (page : ℕ) {npage : ℕ}
    (h : m.allocPage = some (npage, m')) :
    RefInv K (insert npage F) (m'.copyPage npage page) ∧ npage ∉ F ∧
      SameMap m (m'.copyPage npage page) ∧
      (¬ m.IsFree page → (m'.copyPage npage page).data npage = m.data page) := by
  obtain ⟨hi', hfree, hnotF, hsame, hpg, -, hd⟩ := hi.allocPage h
  refine ⟨hi'.of_data _, hnotF, ⟨hsame.entry, hsame.ref, ?_, hsame.free, hsame.pgdir⟩, ?_⟩
  · intro p hp
    have hne : p ≠ npage := by
      rintro rfl
      exact hp hfree
    exact (Function.update_of_ne hne _ _).trans (hsame.data p hp)
  · intro _
    exact (Function.update_self _ _ _).trans (by rw [hd])

theorem eNoMem_ne_zero : -eNoMem ≠ 0 := by decide

/-- What `copy_range` does for one page, also when it runs out of memory. -/
structure PageForked (K F : Set ℕ) (share : Bool) (m m' : Mem M) (dst src la : ℕ) (r : ℤ) :
    Prop where
  inv : RefInv K F m'
  pgdir : ∀ pd, (m'.pgdir pd).isSome = (m.pgdir pd).isSome
  code : r = 0 ∨ r = -eNoMem
  forked : r = 0 → ForkedOn share dst src (fun la' => la' / pgSize = la / pgSize) m m'

/-- The share path: both entries point to the page and neither may write. -/
theorem RefInv.copyPte_share (hi : RefInv K F m) {dst src start : ℕ} {r : ℤ} (hne : dst ≠ src)
    (hla : start < userTop) (hv : hasFlag (m.entry src start) pteV = true)
    (h : m.copyPte true dst src start = some (r, m')) :
    PageForked K F true m m' dst src start r := by
  set perm := m.entry src start &&& pteUser with hperm
  set page := ptePpn (m.entry src start) with hpage
  have hlt : permNoWrite perm < 2 ^ 5 := permNoWrite_lt_user (and_pteUser_lt_user _)
  have hbit : (permNoWrite perm).testBit 0 = true :=
    permNoWrite_testBit_zero (and_pteUser_testBit_zero hv)
  have hlim := lt_pteFlagLimit_of_user hlt
  have ht := hasTable_of_valid hv
  have hold : m.holds (src, start / pgSize) = some page := holds_of_valid hv
  have hslot := hi.mem_slots_of_valid hla hv
  have hsrc : m.view src start = some (perm, m.data page) := by
    unfold view
    rw [if_pos hv]
  have hsrc' : ∀ la, la / pgSize = start / pgSize → m.view src la = some (perm, m.data page) :=
    fun la hla' => (view_eq_of_page hla').trans hsrc
  unfold Mem.copyPte at h
  simp only [← hperm, ← hpage, if_true] at h
  -- the parent loses write permission
  have hvlim : pteV ||| permNoWrite perm < pteFlagLimit := or_lt_flagLimit (by decide) hlim
  obtain ⟨hi₁, hc₁⟩ := hi.markEntry (pteV ||| permNoWrite perm) ht hla hold
    (fun hw => absurd hw (by rw [hasFlag_pteV_or]; simp)) hvlim
  set m₁ := m.setEntry src start (pteCreate page (pteV ||| permNoWrite perm)) with hm₁
  have hins₁ : Insertable F m₁ page (permNoWrite perm) := by
    refine Or.inr ⟨?_, hasFlag_permNoWrite_write perm, ?_⟩
    · refine holders_pos_iff.mpr ⟨_, hslot, ?_⟩
      rw [hc₁.entry.holds_create hvlim _ hslot, Function.update_self]
    · intro k hk hkp hw
      have hw' := hc₁.entry.writable_create k hk hw
      rw [hc₁.entry.holds_create hvlim k hk] at hkp
      by_cases hkk : k = (src, start / pgSize)
      · rw [hkk, Function.update_self, hasFlag_pteV_or] at hw'
        simp at hw'
      · rw [Function.update_of_ne hkk] at hw' hkp
        have hone := hi.counted.alone k hk hw' page hkp
        exact hkk (eq_of_holders_eq_one hone hk hslot hkp hold)
  rw [Option.bind_eq_bind, Option.bind_eq_some_iff] at h
  obtain ⟨⟨ok, m₂⟩, h₂, h⟩ := h
  obtain ⟨hw₂, -, -⟩ := hi₁.getPte h₂
  have hpg₂ : ∀ pd, (m₂.pgdir pd).isSome = (m.pgdir pd).isSome :=
    fun pd => (hw₂.same.pgdir pd).trans (hc₁.pgdir pd)
  cases ok with
  | false =>
    simp only [Bool.not_false, if_true, Option.some.injEq, Prod.mk.injEq] at h
    obtain ⟨rfl, rfl⟩ := h
    exact ⟨hw₂.inv, hpg₂, Or.inr rfl, fun h0 => absurd h0 (by decide)⟩
  | true =>
    simp only [Bool.not_true, Bool.false_eq_true, if_false] at h
    rw [Option.bind_eq_bind, Option.bind_eq_some_iff] at h
    obtain ⟨⟨r₃, m₃⟩, h₃, h⟩ := h
    rcases hw₂.inv.pageInsert hla hlim (hw₂.same.insertable hins₁) h₃ with
      ⟨rfl, hi₃, hs₃⟩ | ⟨rfl, hi₃, hc₃⟩
    · rw [if_pos eNoMem_ne_zero] at h
      simp only [Option.some.injEq, Prod.mk.injEq] at h
      obtain ⟨rfl, rfl⟩ := h
      exact ⟨hi₃, fun pd => (hs₃.pgdir pd).trans (hpg₂ pd), Or.inr rfl,
        fun h0 => absurd h0 (by decide)⟩
    · rw [if_neg (by simp)] at h
      simp only [Option.some.injEq, Prod.mk.injEq] at h
      obtain ⟨rfl, rfl⟩ := h
      have hnotF : page ∉ F :=
        (hi.busy_of_mapped (holders_pos_iff.mpr ⟨_, hslot, hold⟩)).1
      rw [Set.sdiff_singleton_eq_self hnotF] at hi₃
      have hnf : ¬ m.IsFree page := hi.not_free_of_valid hla hv
      have hfree₁ : ∀ p, m₁.IsFree p ↔ m.IsFree p := setEntry_isFree m src start _
      have hdata₁ : m₁.data page = m.data page := hc₁.data page hnf
      have hc := hw₂.same.changed hc₃
      have hdata₃ : m₃.data page = m.data page := by
        rw [hc.data page (fun hf => hnf ((hfree₁ page).mp hf)), hdata₁]
      refine ⟨hi₃, fun pd => (hc₃.pgdir pd).trans (hpg₂ pd), Or.inl rfl, fun _ => ?_⟩
      intro pd la hla'
      constructor
      · intro hin
        have hviewsrc := hsrc' la hin
        have hself₁ := hc₁.view_self hla' hin hlt hbit
        unfold forkedView
        rw [hviewsrc]
        simp only [Option.isSome_some, if_true]
        by_cases hpd : pd = dst
        · subst hpd
          rw [if_pos rfl, hc.view_self hla' hin hlt hbit, hdata₃]
          rfl
        · rw [if_neg hpd, hi₁.view_changed hc hla' (fun hbad => hpd hbad.1)]
          by_cases hps : pd = src
          · subst hps
            rw [hself₁, hdata₁]
            simp [PageView.strip]
          · rw [hi.view_changed hc₁ hla' (fun hbad => hps hbad.1)]
            simp [hps]
      · intro hout
        rw [hi₁.view_changed hc hla' (fun hbad => hout hbad.2),
          hi.view_changed hc₁ hla' (fun hbad => hout hbad.2)]

/-- The copy path: the child gets a page of its own with the parent's bytes. -/
theorem RefInv.copyPte_dup (hi : RefInv K F m) {dst src start : ℕ} {r : ℤ}
    (hla : start < userTop) (hv : hasFlag (m.entry src start) pteV = true)
    (h : m.copyPte false dst src start = some (r, m')) :
    PageForked K F false m m' dst src start r := by
  set perm := m.entry src start &&& pteUser with hperm
  set page := ptePpn (m.entry src start) with hpage
  have hlt : perm < 2 ^ 5 := and_pteUser_lt_user _
  have hbit : perm.testBit 0 = true := and_pteUser_testBit_zero hv
  have hnf : ¬ m.IsFree page := hi.not_free_of_valid hla hv
  have hsrc : m.view src start = some (perm, m.data page) := by
    unfold view
    rw [if_pos hv]
  unfold Mem.copyPte at h
  simp only [← hperm, ← hpage, Bool.false_eq_true, if_false] at h
  rw [Option.bind_eq_bind, Option.bind_eq_some_iff] at h
  obtain ⟨⟨ok, m₁⟩, h₁, h⟩ := h
  obtain ⟨hw₁, -, -⟩ := hi.getPte h₁
  cases ok with
  | false =>
    simp only [Bool.not_false, if_true, Option.some.injEq, Prod.mk.injEq] at h
    obtain ⟨rfl, rfl⟩ := h
    exact ⟨hw₁.inv, hw₁.same.pgdir, Or.inr rfl, fun h0 => absurd h0 (by decide)⟩
  | true =>
    simp only [Bool.not_true, Bool.false_eq_true, if_false] at h
    cases halloc : m₁.allocPage with
    | none =>
      rw [halloc] at h
      exact absurd h (by simp)
    | some a =>
      obtain ⟨npage, m₂⟩ := a
      rw [halloc] at h
      obtain ⟨hi₃, hnotF, hs₃, hdata⟩ := hw₁.inv.allocCopy page halloc
      have hs := hw₁.same.trans hs₃
      simp only at h
      rw [Option.bind_eq_bind, Option.bind_eq_some_iff] at h
      obtain ⟨⟨r₄, m₄⟩, h₄, h⟩ := h
      rcases hi₃.pageInsert hla (lt_pteFlagLimit_of_user hlt)
        (Or.inl (Set.mem_insert npage F)) h₄ with ⟨rfl, hi₄, hs₄⟩ | ⟨rfl, hi₄, hc₄⟩
      · rw [if_pos eNoMem_ne_zero] at h
        simp only [Option.some.injEq, Prod.mk.injEq] at h
        obtain ⟨rfl, rfl⟩ := h
        obtain ⟨hi₅, -⟩ := hi₄.freePage (Set.mem_insert npage F)
        rw [Set.insert_sdiff_self_of_notMem hnotF] at hi₅
        exact ⟨hi₅, fun pd => (hs₄.pgdir pd).trans (hs.pgdir pd), Or.inr rfl,
          fun h0 => absurd h0 (by decide)⟩
      · rw [if_neg (by simp)] at h
        simp only [Option.some.injEq, Prod.mk.injEq] at h
        obtain ⟨rfl, rfl⟩ := h
        rw [Set.insert_sdiff_self_of_notMem hnotF] at hi₄
        have hc := hs.changed hc₄
        refine ⟨hi₄, hc.pgdir, Or.inl rfl, fun _ => ?_⟩
        have hbytes : m₄.data npage = m.data page := by
          rw [hc₄.data npage (hi₃.fresh npage (Set.mem_insert npage F)).1,
            hdata (fun hf => hnf (hw₁.same.free page hf)), hw₁.same.data page hnf]
        intro pd la hla'
        constructor
        · intro hin
          have hviewsrc : m.view src la = some (perm, m.data page) :=
            (view_eq_of_page hin).trans hsrc
          unfold forkedView
          rw [hviewsrc]
          simp only [Option.isSome_some, if_true, Bool.false_eq_true, if_false, and_false]
          by_cases hpd : pd = dst
          · subst hpd
            rw [if_pos rfl, hc.view_self hla' hin hlt hbit, hbytes]
          · rw [if_neg hpd, hi.view_changed hc hla' (fun hbad => hpd hbad.1)]
        · intro hout
          rw [hi.view_changed hc hla' (fun hbad => hout hbad.2)]

theorem RefInv.copyPte (hi : RefInv K F m) {share : Bool} {dst src start : ℕ} {r : ℤ}
    (hne : dst ≠ src) (hla : start < userTop) (hv : hasFlag (m.entry src start) pteV = true)
    (h : m.copyPte share dst src start = some (r, m')) :
    PageForked K F share m m' dst src start r := by
  cases share with
  | true => exact hi.copyPte_share hne hla hv h
  | false => exact hi.copyPte_dup hla hv h

/-- One turn of the loop of `copy_range`. -/
theorem RefInv.copyStep (hi : RefInv K F m) {share : Bool} {dst src start next stop : ℕ} {r : ℤ}
    (hne : dst ≠ src) (halign : start % pgSize = 0) (hstop : stop % pgSize = 0)
    (hlt : start < stop) (hla : start < userTop)
    (h : m.copyStep share dst src start = some (r, next, m')) :
    RefInv K F m' ∧ (∀ pd, (m'.pgdir pd).isSome = (m.pgdir pd).isSome) ∧
      (r = 0 ∨ r = -eNoMem) ∧ next % pgSize = 0 ∧
      (r = 0 → ForkedOn share dst src (fun la => start ≤ la ∧ la < next ∧ la < stop) m m') := by
  -- where the source maps nothing, forking does nothing
  have hkeep : ∀ P : ℕ → Prop, (∀ la, P la → m.view src la = none) →
      ForkedOn share dst src P m m := by
    intro P hP pd la _
    exact ⟨fun hin => (forkedView_of_none (hP la hin)).symm, fun _ => rfl⟩
  unfold Mem.copyStep at h
  rw [Option.bind_eq_bind, Option.bind_eq_some_iff] at h
  obtain ⟨⟨ok, m₁⟩, h₁, h⟩ := h
  obtain ⟨hw, htab, hno⟩ := hi.getPte h₁
  obtain rfl := hw.lookup rfl
  cases ok with
  | false =>
    simp only [Bool.not_false, if_true, Option.some.injEq, Prod.mk.injEq] at h
    obtain ⟨rfl, rfl, rfl⟩ := h
    refine ⟨hi, fun _ => rfl, Or.inl rfl, roundDown_add_mod start, fun _ => hkeep _ ?_⟩
    rintro la ⟨hle, hnext, -⟩
    exact view_of_no_table (hno rfl rfl) hle hnext
  | true =>
    simp only [Bool.not_true, Bool.false_eq_true, if_false] at h
    have hnext : (start + pgSize) % pgSize = 0 := by
      unfold pgSize at *
      omega
    have hpage : ∀ la, la / pgSize = start / pgSize ↔
        start ≤ la ∧ la < start + pgSize ∧ la < stop := by
      intro la
      unfold pgSize at *
      omega
    by_cases hv : hasFlag (m₁.entry src start) pteV
    · rw [if_pos hv, Option.bind_eq_bind, Option.bind_eq_some_iff] at h
      obtain ⟨⟨r₁, m₂⟩, h₂, h⟩ := h
      simp only [Option.some.injEq, Prod.mk.injEq] at h
      obtain ⟨rfl, rfl, rfl⟩ := h
      have hf := hi.copyPte hne hla hv h₂
      exact ⟨hf.inv, hf.pgdir, hf.code, hnext, fun h0 => (hf.forked h0).congr
        (fun la _ => hpage la)⟩
    · rw [if_neg hv] at h
      simp only [Option.some.injEq, Prod.mk.injEq] at h
      obtain ⟨rfl, rfl, rfl⟩ := h
      refine ⟨hi, fun _ => rfl, Or.inl rfl, hnext, fun _ => hkeep _ ?_⟩
      intro la hin
      rw [view_eq_of_page ((hpage la).mpr hin)]
      unfold view
      rw [if_neg hv]

theorem RefInv.copyLoop (hi : RefInv K F m) {share : Bool} {dst src start stop : ℕ} {r : ℤ}
    (hne : dst ≠ src) (halign : start % pgSize = 0) (hstop : stop % pgSize = 0)
    (hlt : start < stop) (htop : stop ≤ userTop)
    (h : m.copyLoop share dst src start stop = some (r, m')) :
    RefInv K F m' ∧ (∀ pd, (m'.pgdir pd).isSome = (m.pgdir pd).isSome) ∧
      (r = 0 ∨ r = -eNoMem) ∧
      (r = 0 → ForkedOn share dst src (fun la => start ≤ la ∧ la < stop) m m') := by
  fun_induction Mem.copyLoop share m dst src start stop with
  | case1 m start hs => exact absurd h (by simp)
  | case2 m start r₁ next m₁ hs hr =>
    obtain ⟨hi₁, hpg₁, hcode, -, -⟩ := hi.copyStep hne halign hstop hlt (by omega) hs
    simp only [Option.some.injEq, Prod.mk.injEq] at h
    obtain ⟨rfl, rfl⟩ := h
    exact ⟨hi₁, hpg₁, hcode, fun h0 => absurd h0 hr⟩
  | case3 m start r₁ next m₁ hs hr hcond ih =>
    obtain ⟨hi₁, hpg₁, -, halign₁, hf₁⟩ := hi.copyStep hne halign hstop hlt (by omega) hs
    obtain ⟨hi', hpg', hcode, hf'⟩ := ih hi₁ halign₁ hcond.2 h
    have hadv := copyStep_lt hs
    refine ⟨hi', fun pd => (hpg' pd).trans (hpg₁ pd), hcode, fun h0 => ?_⟩
    have happ := (hf₁ (not_not.mp hr)).append (hf' h0) (by
      rintro la ⟨-, hlt', -⟩ ⟨hle, -⟩
      omega)
    apply happ.congr
    intro la _
    omega
  | case4 m start r₁ next m₁ hs hr hcond =>
    obtain ⟨hi₁, hpg₁, -, -, hf₁⟩ := hi.copyStep hne halign hstop hlt (by omega) hs
    simp only [Option.some.injEq, Prod.mk.injEq] at h
    obtain ⟨rfl, rfl⟩ := h
    have hadv := copyStep_lt hs
    refine ⟨hi₁, hpg₁, Or.inl rfl, fun _ => (hf₁ (not_not.mp hr)).congr ?_⟩
    intro la _
    omega

/-- `copy_range` forks exactly its range, or runs out of memory. -/
theorem RefInv.copyRange (hi : RefInv K F m) {share : Bool} {dst src start stop : ℕ} {r : ℤ}
    (hne : dst ≠ src) (h : m.copyRange share dst src start stop = some (r, m')) :
    RefInv K F m' ∧ (∀ pd, (m'.pgdir pd).isSome = (m.pgdir pd).isSome) ∧
      (r = 0 ∨ r = -eNoMem) ∧
      (r = 0 → ForkedOn share dst src (fun la => start ≤ la ∧ la < stop) m m') := by
  unfold Mem.copyRange at h
  split at h
  · rename_i hc
    obtain ⟨hs, ht, -, hlt, htop⟩ := hc
    exact hi.copyLoop hne hs ht hlt htop h
  · exact absurd h (by simp)

theorem RefInv.pageRemove (hi : RefInv K F m) {pd la : ℕ} (hla : la < userTop)
    (h : m.pageRemove pd la = some m') : RefInv K F m' := by
  unfold Mem.pageRemove at h
  rw [Option.bind_eq_bind, Option.bind_eq_some_iff] at h
  obtain ⟨⟨ok, m₁⟩, h₁, h⟩ := h
  obtain ⟨hw, htab, -⟩ := hi.getPte h₁
  obtain rfl := hw.lookup rfl
  cases ok with
  | false =>
    simp only [Bool.false_eq_true, if_false, Option.some.injEq] at h
    exact h ▸ hi
  | true =>
    simp only [if_true, Option.some.injEq] at h
    subst h
    by_cases hv : hasFlag (m₁.entry pd la) pteV
    · exact (hi.pageRemovePte (htab rfl) hla (holds_of_valid hv)).1
    · unfold Mem.pageRemovePte
      rw [if_neg hv]
      exact hi

/-- `pgdir_alloc_page` returns `NULL` and changes no mapping, or maps a page that was free. -/
theorem RefInv.pgdirAllocPage_cases (hi : RefInv K F m) {pd la perm : ℕ} {r : Option ℕ}
    (hla : la < userTop) (hperm : perm < pteFlagLimit)
    (h : m.pgdirAllocPage pd la perm = some (r, m')) :
    RefInv K F m' ∧ ((r = none ∧ SameMap m m') ∨
      ∃ page, r = some page ∧ m.IsFree page ∧
        Changed m m' pd la (pteCreate page (pteV ||| perm))) := by
  unfold Mem.pgdirAllocPage at h
  split at h
  · simp only [Option.some.injEq, Prod.mk.injEq] at h
    obtain ⟨rfl, rfl⟩ := h
    exact ⟨hi, Or.inl ⟨rfl, SameMap.refl m⟩⟩
  · rename_i page m₁ halloc
    obtain ⟨hi₁, hfree, hnotF, hs₁, -⟩ := hi.allocPage halloc
    rw [Option.bind_eq_bind, Option.bind_eq_some_iff] at h
    obtain ⟨⟨r₂, m₂⟩, h₂, h⟩ := h
    simp only at h
    rcases hi₁.pageInsert hla hperm (Or.inl (Set.mem_insert page F)) h₂ with
      ⟨rfl, hi₂, hs₂⟩ | ⟨rfl, hi₂, hc₂⟩
    · rw [if_pos eNoMem_ne_zero] at h
      simp only [Option.some.injEq, Prod.mk.injEq] at h
      obtain ⟨rfl, rfl⟩ := h
      obtain ⟨hi₃, hback⟩ := hi₂.freePage (Set.mem_insert page F)
      rw [Set.insert_sdiff_self_of_notMem hnotF] at hi₃
      have hs := hs₁.trans hs₂
      refine ⟨hi₃, Or.inl ⟨rfl, hs.entry, ?_, hs.data, ?_, hs.pgdir⟩⟩
      · intro p hp
        have hne : p ≠ page := by
          rintro rfl
          exact hp hfree
        exact (Function.update_of_ne hne _ _).trans (hs.ref p hp)
      · intro p hp
        rcases (hback p).mp hp with hp | rfl
        · exact hs.free p hp
        · exact hfree
    · rw [if_neg (by simp)] at h
      rw [Set.insert_sdiff_self_of_notMem hnotF] at hi₂
      split at h
      · simp only [Option.some.injEq, Prod.mk.injEq] at h
        obtain ⟨rfl, rfl⟩ := h
        exact ⟨hi₂, Or.inr ⟨page, rfl, hfree, hs₁.changed hc₂⟩⟩
      · exact absurd h (by simp)

theorem RefInv.pgdirAllocPage (hi : RefInv K F m) {pd la perm : ℕ} {r : Option ℕ}
    (hla : la < userTop) (hperm : perm < pteFlagLimit)
    (h : m.pgdirAllocPage pd la perm = some (r, m')) :
    RefInv K F m' ∧
      ∀ page, r = some page → Changed m m' pd la (pteCreate page (pteV ||| perm)) := by
  obtain ⟨hi', ⟨rfl, -⟩ | ⟨page, rfl, -, hc⟩⟩ := hi.pgdirAllocPage_cases hla hperm h
  · exact ⟨hi', by simp⟩
  · exact ⟨hi', fun q hq => Option.some.inj hq ▸ hc⟩

/-- `setup_pgdir` adds a directory that maps nothing. -/
theorem RefInv.setupPgdir (hi : RefInv K F m) :
    RefInv K F m.setupPgdir.2 ∧
      (∀ pd la, la < userTop → m.setupPgdir.2.view pd la = m.view pd la) ∧
      (∀ pd, m.setupPgdir.1 = some pd → m.pgdir pd = none ∧
        m.setupPgdir.2.pgdir = Function.update m.pgdir pd (some Pgdir.empty)) := by
  unfold Mem.setupPgdir
  split
  · exact ⟨hi, fun _ _ _ => rfl, by simp⟩
  · rename_i page m₁ halloc
    obtain ⟨hi₁, hfree, hnotF, hsame, hpg, -, -⟩ := hi.allocPage halloc
    have hnone : m.pgdir page = none := by
      by_contra hsome
      obtain ⟨d, hd⟩ := Option.ne_none_iff_exists'.mp hsome
      exact (hi.table page ⟨.root page, by simp [tableAt, hd]⟩).1 hfree
    have hentry : ∀ pd la, (m₁.setPgdir page Pgdir.empty).entry pd la = m₁.entry pd la := by
      intro pd la
      rw [entry_setPgdir]
      by_cases hpd : pd = page
      · rw [if_pos hpd, hpd]
        simp [entry, hpg, hnone, Pgdir.entry, Pgdir.table, Pgdir.empty]
      · rw [if_neg hpd]
    have htab : ∀ t, (m₁.setPgdir page Pgdir.empty).tableAt t =
        if t = .root page then some page else m₁.tableAt t := by
      intro t
      cases t with
      | root pd =>
        by_cases hpd : pd = page
        · simp [tableAt, setPgdir, hpd]
        · simp [tableAt, setPgdir, hpd]
      | middle pd i =>
        by_cases hpd : pd = page
        · simp [tableAt, setPgdir, hpd, hpg, hnone, Pgdir.middlePage, Pgdir.empty]
        · simp [tableAt, setPgdir, hpd]
      | last pd i j =>
        by_cases hpd : pd = page
        · simp [tableAt, setPgdir, hpd, hpg, hnone, Pgdir.lastPage, Pgdir.empty]
        · simp [tableAt, setPgdir, hpd]
    refine ⟨hi₁.addTable hnotF rfl hentry (fun _ _ => rfl) ?_ htab, ?_, ?_⟩
    · simp [tableAt, hpg, hnone]
    · intro pd la hla
      exact hi.view_congr hla ((hentry pd la).trans (hsame.entry pd la)) hsame.data
    · intro pd hpd
      obtain rfl := Option.some.inj hpd
      exact ⟨hnone, by simp only [setPgdir, hpg]⟩

end Mem
end Ucore.Vm
