import Ucore.Vm.KernelStore

/-!
What is in the pages of a new program. `load_icode` is run on two memories whose free pages
differ in every byte: the runs go the same way, and the pages of the stack, which nobody
clears, still differ afterwards.
-/
namespace Ucore.Vm

open Library

namespace Mem

variable {M : PmmManager} {K F S : Set ℕ} {m m₁ : Mem M} {data : ℕ → ℕ → UInt8} {mm mm' : Mm}

def withData (m : Mem M) (data : ℕ → ℕ → UInt8) : Mem M := { m with data := data }

/-- With the contents `data`, every byte of the free pages, and of the pages `S` that were
handed out and not yet written to, is another one. -/
structure Differs (m : Mem M) (S : Set ℕ) (data : ℕ → ℕ → UInt8) : Prop where
  taken : ∀ p ∈ S, ¬ m.IsFree p
  byte : ∀ p, m.IsFree p ∨ p ∈ S → ∀ i, data p i ≠ m.data p i

theorem Differs.congr (h : m.Differs S data) (hpmm : m₁.pmm = m.pmm) (hdata : m₁.data = m.data) :
    m₁.Differs S data := by
  have hfree : ∀ p, m₁.IsFree p ↔ m.IsFree p := by
    intro p
    unfold IsFree
    rw [hpmm]
  refine ⟨?_, ?_⟩
  · intro p hp hf
    exact h.taken p hp ((hfree p).mp hf)
  · intro p hp i
    rw [hdata]
    rw [hfree p] at hp
    exact h.byte p hp i

theorem Differs.forget (h : m.Differs S data) : m.Differs ∅ data := by
  refine ⟨fun p hp => absurd hp (Set.notMem_empty p), ?_⟩
  intro p hp
  rcases hp with hf | hp
  · exact h.byte p (Or.inl hf)
  · exact absurd hp (Set.notMem_empty p)

/-- Writing the same bytes to a page in use. -/
theorem Differs.write (h : m.Differs S data) {page : ℕ} (hp : ¬ m.IsFree page)
    (hS : page ∉ S) (b b' : ℕ → UInt8) :
    ({ m with data := Function.update m.data page b } : Mem M).Differs S
      (Function.update data page b') := by
  refine ⟨h.taken, ?_⟩
  intro p hp' i
  have hne : p ≠ page := by
    intro heq
    rw [heq] at hp'
    rcases hp' with hf | hin
    · exact hp hf
    · exact hS hin
  simp only [Function.update_of_ne hne]
  exact h.byte p hp' i

theorem Differs.allocPage (h : m.Differs S data) {p : ℕ} (ha : m.allocPage = some (p, m₁)) :
    (m.withData data).allocPage = some (p, m₁.withData data) ∧
      m₁.Differs (insert p S) data ∧ m.IsFree p ∧ ¬ m₁.IsFree p := by
  obtain ⟨s, hs, rfl⟩ := allocPage_eq ha
  have hiff : ∀ q, M.IsFree s q ↔ m.IsFree q ∧ q ≠ p := M.alloc_iff _ _ _ hs
  have hfree : m.IsFree p := M.alloc_isFree _ _ _ hs
  have hnot : ¬ M.IsFree s p := fun hf => ((hiff p).mp hf).2 rfl
  refine ⟨?_, ⟨?_, ?_⟩, hfree, hnot⟩
  · change (M.allocPage m.pmm).map _ = _
    rw [hs]
    rfl
  · intro q hq
    rcases Set.mem_insert_iff.mp hq with rfl | hq
    · exact hnot
    · exact fun hf => h.taken q hq ((hiff q).mp hf).1
  · intro q hq
    rcases hq with hf | hq
    · exact h.byte q (Or.inl ((hiff q).mp hf).1)
    · rcases Set.mem_insert_iff.mp hq with rfl | hq
      · exact h.byte q (Or.inl hfree)
      · exact h.byte q (Or.inr hq)

theorem Differs.allocTablePage (h : m.Differs S data) {p : ℕ}
    (ha : m.allocTablePage = some (p, m₁)) :
    ∃ data₁, (m.withData data).allocTablePage = some (p, m₁.withData data₁) ∧
      m₁.Differs S data₁ := by
  unfold Mem.allocTablePage at ha ⊢
  obtain ⟨⟨q, m₀⟩, halloc, heq⟩ := Option.map_eq_some_iff.mp ha
  obtain ⟨rfl, rfl⟩ := Prod.mk.inj heq
  obtain ⟨hsame, hd, hfree, hnot⟩ := h.allocPage halloc
  refine ⟨Function.update data q (fun _ => 0), ?_, ?_⟩
  · rw [hsame]
    rfl
  · have hS : q ∉ S := fun hq => h.taken q hq hfree
    have hd' : m₀.Differs S data := by
      refine ⟨fun p hp => hd.taken p (Set.mem_insert_of_mem q hp), ?_⟩
      intro p hp
      exact hd.byte p (hp.imp_right (Set.mem_insert_of_mem q))
    exact (hd'.write hnot hS _ _).congr rfl rfl

/-- Both halves of `get_pte`: the table is there, or a new one is entered. -/
theorem Differs.findTable (h : m.Differs S data) {b : Bool} {pd : ℕ} {d : ℕ → Pgdir}
    (hg : (if b then some (true, m) else match m.allocTablePage with
      | none => some (false, m)
      | some (page, m') => some (true, m'.setPgdir pd (d page))) = some (true, m₁)) :
    ∃ data₁, (if b then some (true, m.withData data)
        else match (m.withData data).allocTablePage with
        | none => some (false, m.withData data)
        | some (page, m') => some (true, m'.setPgdir pd (d page))) =
          some (true, m₁.withData data₁) ∧ m₁.Differs S data₁ := by
  cases b with
  | true =>
    simp only [if_true, Option.some.injEq, Prod.mk.injEq, true_and] at hg
    subst hg
    exact ⟨data, rfl, h⟩
  | false =>
    simp only [Bool.false_eq_true, if_false] at hg ⊢
    split at hg
    · exact absurd (Option.some.inj hg) (by simp)
    · rename_i page m₀ halloc
      simp only [Option.some.injEq, Prod.mk.injEq, true_and] at hg
      subst hg
      obtain ⟨data₁, hsame, hd₁⟩ := h.allocTablePage halloc
      rw [hsame]
      exact ⟨data₁, rfl, hd₁.congr rfl rfl⟩

theorem Differs.getPde1 (h : m.Differs S data) {pd la : ℕ}
    (hg : m.getPde1 pd la true = some (true, m₁)) :
    ∃ data₁, (m.withData data).getPde1 pd la true = some (true, m₁.withData data₁) ∧
      m₁.Differs S data₁ := by
  unfold Mem.getPde1 at hg ⊢
  obtain ⟨d, hd, hg⟩ := Option.bind_eq_some_iff.mp hg
  change ∃ data₁, (m.pgdir pd).bind _ = _ ∧ _
  rw [hd]
  exact h.findTable hg

theorem Differs.getPde0 (h : m.Differs S data) {pd la : ℕ}
    (hg : m.getPde0 pd la true = some (true, m₁)) :
    ∃ data₁, (m.withData data).getPde0 pd la true = some (true, m₁.withData data₁) ∧
      m₁.Differs S data₁ := by
  unfold Mem.getPde0 at hg ⊢
  obtain ⟨d, hd, hg⟩ := Option.bind_eq_some_iff.mp hg
  change ∃ data₁, (m.pgdir pd).bind _ = _ ∧ _
  rw [hd]
  exact h.findTable hg

theorem Differs.getPte (h : m.Differs S data) {pd la : ℕ}
    (hg : m.getPte pd la true = some (true, m₁)) :
    ∃ data₁, (m.withData data).getPte pd la true = some (true, m₁.withData data₁) ∧
      m₁.Differs S data₁ := by
  unfold Mem.getPte at hg ⊢
  obtain ⟨⟨ok, m₀⟩, h₁, hg⟩ := Option.bind_eq_some_iff.mp hg
  cases ok with
  | false => exact absurd (Option.some.inj hg) (by simp)
  | true =>
    obtain ⟨data₀, hsame₀, hd₀⟩ := h.getPde1 h₁
    obtain ⟨data₁, hsame₁, hd₁⟩ := hd₀.getPde0 hg
    refine ⟨data₁, ?_, hd₁⟩
    rw [hsame₀]
    exact hsame₁

theorem setEntry_withData (m : Mem M) (pd la v : ℕ) (data : ℕ → ℕ → UInt8) :
    (m.withData data).setEntry pd la v = (m.setEntry pd la v).withData data := by
  have hpg : (m.withData data).pgdir pd = m.pgdir pd := rfl
  unfold setEntry
  rw [hpg]
  cases m.pgdir pd with
  | none => rfl
  | some d => rfl

/-- A page is mapped where there was none. -/
theorem Differs.pageInsert (h : m.Differs S data) (hi : m.RefInv K F) {pd page la perm : ℕ}
    (hempty : hasFlag (m.entry pd la) pteV = false)
    (hp : m.pageInsert pd page la perm = some (0, m₁)) :
    ∃ data₁, (m.withData data).pageInsert pd page la perm = some (0, m₁.withData data₁) ∧
      m₁.Differs S data₁ := by
  unfold Mem.pageInsert at hp ⊢
  obtain ⟨⟨ok, m₀⟩, hg, hp⟩ := Option.bind_eq_some_iff.mp hp
  cases ok with
  | false =>
    simp only [Bool.not_false, if_true, Option.some.injEq, Prod.mk.injEq] at hp
    exact absurd hp.1 (by decide)
  | true =>
    obtain ⟨data₁, hsame, hd⟩ := h.getPte hg
    have hentry : hasFlag ((m₀.pageRefInc page).entry pd la) pteV = false := by
      have heq : (m₀.pageRefInc page).entry pd la = m.entry pd la :=
        (hi.getPte hg).1.same.entry pd la
      rw [heq]
      exact hempty
    have hentry' : hasFlag (((m₀.withData data₁).pageRefInc page).entry pd la) pteV = false :=
      hentry
    simp only [Bool.not_true, Bool.false_eq_true, if_false, hentry, Option.some.injEq,
      Prod.mk.injEq, true_and] at hp
    subst hp
    refine ⟨data₁, ?_, ?_⟩
    · rw [hsame]
      simp only [Option.bind_eq_bind, Option.bind_some, Bool.not_true, Bool.false_eq_true,
        if_false, hentry']
      exact congrArg (fun m => some ((0 : ℤ), m))
        (setEntry_withData (m₀.pageRefInc page) pd la _ data₁)
    · exact hd.congr (setEntry_pmm _ _ _ _) (setEntry_data _ _ _ _)

/-- `pgdir_alloc_page` maps a page as it was when it was free. -/
theorem Differs.pgdirAllocPage (h : m.Differs ∅ data) (hi : m.RefInv K F) {pd page la perm : ℕ}
    (hempty : hasFlag (m.entry pd la) pteV = false)
    (hp : m.pgdirAllocPage pd la perm = some (some page, m₁)) :
    ∃ data₁, (m.withData data).pgdirAllocPage pd la perm =
        some (some page, m₁.withData data₁) ∧ m₁.Differs {page} data₁ := by
  unfold Mem.pgdirAllocPage at hp ⊢
  split at hp
  · exact absurd (Option.some.inj hp) (by simp)
  · rename_i q m₀ halloc
    obtain ⟨hsame, hd, -, -⟩ := h.allocPage halloc
    obtain ⟨⟨r, m₂⟩, hins, hp⟩ := Option.bind_eq_some_iff.mp hp
    simp only at hp
    split at hp
    · exact absurd (Option.some.inj hp) (by simp)
    · rename_i hr
      obtain rfl : r = 0 := not_not.mp hr
      split at hp
      · rename_i href
        obtain ⟨hi₀, -, -, hs₀, -⟩ := hi.allocPage halloc
        have hempty₀ : hasFlag (m₀.entry pd la) pteV = false := by
          rw [hs₀.entry]
          exact hempty
        obtain ⟨data₁, hsame₁, hd₁⟩ := hd.pageInsert hi₀ hempty₀ hins
        simp only [Option.some.injEq, Prod.mk.injEq] at hp
        obtain ⟨rfl, rfl⟩ := hp
        have href' : (m₂.withData data₁).ref q = 1 := href
        refine ⟨data₁, ?_, ?_⟩
        · rw [hsame]
          simp only [Option.bind_eq_bind, hsame₁, Option.bind_some, ne_eq, not_true_eq_false,
            if_false]
          rw [if_pos href']
        · rw [insert_empty_eq] at hd₁
          exact hd₁
      · exact absurd hp (by simp)

theorem Differs.writePage (h : m.Differs S data) {page : ℕ} (hp : ¬ m.IsFree page)
    (off size : ℕ) (src : ℕ → UInt8) (pos : ℕ) :
    ∃ data₁, (m.withData data).writePage page off size src pos =
        (m.writePage page off size src pos).withData data₁ ∧
      (m.writePage page off size src pos).Differs ∅ data₁ :=
  ⟨_, rfl, h.forget.write hp (Set.notMem_empty page) _ _⟩

/-- No page is mapped from `la` up to `stop`. -/
def Vacant (m : Mem M) (pd la stop : ℕ) : Prop :=
  ∀ x, la ≤ x → x < stop → hasFlag (m.entry pd x) pteV = false

/-- Another page was mapped. -/
theorem Vacant.changed {pd la la' stop v : ℕ} (h : m.Vacant pd la' stop)
    (hc : m.Changed m₁ pd la v) (htop : stop ≤ userTop)
    (hne : ∀ x, la' ≤ x → x < stop → x / pgSize ≠ la / pgSize) : m₁.Vacant pd la' stop := by
  intro x hx hlt
  rw [hc.entry pd x (by omega), if_neg (fun hbad => hne x hx hlt hbad.2)]
  exact h x hx hlt

/-- What the loops of `load_icode` keep while they fill the area `v`: the memories differ in
the free pages, the page last allocated is in use, and the rest of the area is not mapped. -/
structure Filling (m : Mem M) (mm : Mm) (v : Vma) (la : ℕ) (page : Option ℕ)
    (data : ℕ → ℕ → UInt8) : Prop where
  differs : m.Differs ∅ data
  page : ∀ p ∈ page, ¬ m.IsFree p
  vacant : m.Vacant mm.pgdir la v.vmEnd
  aligned : pgSize ∣ la

/-- The next page of the area is mapped. -/
theorem Filling.pgdirAllocPage {v : Vma} {page : Option ℕ} {la perm p : ℕ}
    (h : m.Filling mm v la page data) (hi : m.RefInv K F) (hla : la < v.vmEnd)
    (hperm : perm < pteFlagLimit)
    (ha : m.pgdirAllocPage mm.pgdir la perm = some (some p, m₁)) :
    ∃ data₁, (m.withData data).pgdirAllocPage mm.pgdir la perm =
        some (some p, m₁.withData data₁) ∧ m₁.Filling mm v (la + pgSize) (some p) data₁ := by
  have htop : v.vmEnd ≤ userTop := v.user.2.2
  obtain ⟨data₁, hsame, hd⟩ := h.differs.pgdirAllocPage hi (h.vacant la le_rfl hla) ha
  obtain ⟨-, hc⟩ := hi.pgdirAllocPage (by omega) hperm ha
  refine ⟨data₁, hsame, hd.forget, ?_, ?_, ?_⟩
  · intro q hq
    obtain rfl := Option.mem_some_iff.mp hq
    exact hd.taken p rfl
  · have hrest : m.Vacant mm.pgdir (la + pgSize) v.vmEnd := fun x hx hlt =>
      h.vacant x (by omega) hlt
    refine hrest.changed (hc p rfl) htop ?_
    intro x hx _ heq
    unfold pgSize at *
    omega
  · exact Nat.dvd_add h.aligned (dvd_refl pgSize)

theorem Filling.writePage {v : Vma} {page : Option ℕ} {la p : ℕ}
    (h : m.Filling mm v la page data) (hp : ¬ m.IsFree p) (off size : ℕ) (src : ℕ → UInt8)
    (pos : ℕ) :
    ∃ data₁, (m.withData data).writePage p off size src pos =
        (m.writePage p off size src pos).withData data₁ ∧
      (m.writePage p off size src pos).Filling mm v la page data₁ := by
  obtain ⟨data₁, hsame, hd⟩ := h.differs.writePage hp off size src pos
  exact ⟨data₁, hsame, hd, h.page, h.vacant, h.aligned⟩

/-- A loop of `load_icode` that comes to its end does so with the other contents. -/
theorem Filling.fillLoop {v : Vma} {page : Option ℕ} {perm pos start la stop : ℕ}
    {src : ℕ → UInt8} {hle : start < stop → la ≤ start} {f : Filled} {m₀ : Mem M}
    (h : m.Filling mm v la page data) (hl : Loading m₀ m mm) (hv : v ∈ mm.mmapList)
    (hbelow : v.vmStart ≤ la) (hstop : stop ≤ v.vmEnd) (hperm : LoadState.Suits perm v)
    (hpriv : ∀ p ∈ page, Private m mm.pgdir p)
    (hf : m.fillLoop mm.pgdir perm src pos start la stop page hle = some (some f, m₁)) :
    ∃ data₁, (m.withData data).fillLoop mm.pgdir perm src pos start la stop page hle =
        some (some f, m₁.withData data₁) ∧ m₁.Filling mm v f.la f.page data₁ := by
  fun_induction Mem.fillLoop m mm.pgdir perm src pos start la stop page hle
    generalizing data with
  | case1 m pos start la page hle hlt ha => exact absurd hf (by simp)
  | case2 m pos start la page hle hlt m₂ ha => exact absurd (Option.some.inj hf) (by simp)
  | case3 m pos start la page hle hlt p m₂ ha off size =>
    rename_i ih
    have hla : la < v.vmEnd := ((hle hlt).trans_lt hlt).trans_le hstop
    obtain ⟨data₂, hsame₂, h₂⟩ := h.pgdirAllocPage hl.ref hla
      (lt_pteFlagLimit_of_user hperm.lt) ha
    obtain ⟨hl₂, hpriv₂⟩ := hl.pgdirAllocPage hv ⟨hbelow, hla⟩ hperm.lt hperm.valid hperm.user
      hperm.read ha
    obtain ⟨data₃, hsame₃, h₃⟩ := h₂.writePage (h₂.page p rfl) off size src pos
    have hl₃ := hl₂.writePage (hpriv₂ p rfl) off size src pos
    have hpriv₃ : ∀ q ∈ some p, Private (m₂.writePage p off size src pos) mm.pgdir q := by
      intro q hq
      obtain rfl := Option.mem_some_iff.mp hq
      exact hpriv₂ p rfl
    obtain ⟨data₁, hsame₁, h₁⟩ := ih h₃ hl₃ (by omega) hpriv₃ hf
    refine ⟨data₁, ?_, h₁⟩
    rw [Mem.fillLoop, dif_pos hlt, hsame₂]
    simp only
    rw [← hsame₁]
    congr 1
  | case4 m pos start la page hle hlt =>
    simp only [Option.some.injEq, Prod.mk.injEq] at hf
    obtain ⟨rfl, rfl⟩ := hf
    refine ⟨data, ?_, h⟩
    rw [Mem.fillLoop, dif_neg hlt]

/-- Nothing is mapped in an area that was just added. -/
theorem Loading.vacant {m₀ : Mem M} {v : Vma} (hl : Loading m₀ m mm) (hm : mm.Mapped mm' v) :
    m.Vacant mm'.pgdir v.vmStart v.vmEnd := by
  intro x hx hlt
  have htop : v.vmEnd ≤ userTop := v.user.2.2
  rw [hm.pgdir]
  by_contra hne
  have hv : (m.view mm.pgdir x).isSome := by
    rw [isSome_view]
    exact Bool.eq_true_of_not_eq_false hne
  obtain ⟨w, hw, hc⟩ := hl.pages.area x (by omega) hv
  have h1 := hc.1
  have h2 := hc.2
  rcases hm.apart w hw with h3 | h3
  · omega
  · omega

end Mem

namespace LoadState

variable {M : PmmManager} {m₀ : Mem M} {s s' : LoadState M} {v : Vma}
  {data : ℕ → ℕ → UInt8}

def withData (s : LoadState M) (data : ℕ → ℕ → UInt8) : LoadState M :=
  { s with mem := s.mem.withData data }

/-- Between two segments: the memories differ in the free pages. -/
structure Twin (s : LoadState M) (data : ℕ → ℕ → UInt8) : Prop where
  differs : s.mem.Differs ∅ data
  page : ∀ p ∈ s.page, ¬ s.mem.IsFree p

theorem Ready.loadZeros_twin (h : s.Ready m₀) {perm start la stop : ℕ}
    {hla : start < stop → la ≤ start} (hf : s.mem.Filling s.mm v la s.page data)
    (hv : v ∈ s.mm.mmapList) (hbelow : v.vmStart ≤ la) (hstop : stop ≤ v.vmEnd)
    (hperm : Suits perm v) (hs : s.loadZeros perm start la stop hla = some (0, s')) :
    ∃ data₁, (s.withData data).loadZeros perm start la stop hla =
      some (0, s'.withData data₁) ∧ s'.Twin data₁ := by
  unfold LoadState.loadZeros at hs ⊢
  obtain ⟨⟨f, m₁⟩, hfill, hs⟩ := Option.bind_eq_some_iff.mp hs
  cases f with
  | none =>
    simp only [Option.some.injEq, Prod.mk.injEq] at hs
    exact absurd hs.1 (by decide)
  | some f =>
    simp only [Option.some.injEq, Prod.mk.injEq, true_and] at hs
    subst hs
    obtain ⟨data₁, hsame, h₁⟩ := hf.fillLoop h.loading hv hbelow hstop hperm h.page hfill
    refine ⟨data₁, ?_, h₁.differs, h₁.page⟩
    unfold withData
    simp only [hsame, Option.bind_eq_bind, Option.bind_some]

theorem Ready.loadBss_twin (h : s.Ready m₀) {perm stop : ℕ} {f : Mem.Filled}
    (hpage : s.page = f.page) (hf : s.mem.Filling s.mm v f.la f.page data)
    (hv : v ∈ s.mm.mmapList) (hbelow : v.vmStart ≤ f.la) (hstop : stop ≤ v.vmEnd)
    (hperm : Suits perm v) (hs : s.loadBss perm f stop = some (0, s')) :
    ∃ data₁, (s.withData data).loadBss perm f stop = some (0, s'.withData data₁) ∧
      s'.Twin data₁ := by
  unfold LoadState.loadBss at hs ⊢
  split at hs
  · rename_i hlt
    rw [dif_pos hlt]
    split at hs
    · rename_i heq
      simp only [Option.some.injEq, Prod.mk.injEq, true_and] at hs
      subst hs
      rw [if_pos heq]
      exact ⟨data, rfl, hf.differs, hpage ▸ hf.page⟩
    · rename_i hne
      rw [if_neg hne]
      cases hp : f.page with
      | none =>
        rw [hp] at hs
        exact absurd hs (by simp)
      | some page =>
        rw [hp] at hs
        simp only at hs ⊢
        split at hs
        · rename_i hstart
          have hmem : page ∈ f.page := hp
          obtain ⟨data₁, hsame, h₁⟩ := hf.writePage (hf.page page hmem) (f.start + pgSize - f.la)
            (Mem.tailSize f stop) (fun _ => 0) 0
          have hpriv := h.page page (by rw [hpage]; exact hmem)
          have hready := h.loading.writePage hpriv (f.start + pgSize - f.la)
            (Mem.tailSize f stop) (fun _ => 0) 0
          rw [← hpage] at h₁
          rw [dif_pos hstart]
          obtain ⟨data₂, hsame₂, ht₂⟩ := Ready.loadZeros_twin (s := ⟨_, s.mm, s.page⟩)
            ⟨hready, h.page⟩ h₁ hv hbelow hstop hperm hs
          refine ⟨data₂, ?_, ht₂⟩
          unfold withData at hsame₂ ⊢
          simp only [hsame]
          exact hsame₂
        · exact absurd hs (by simp)
  · rename_i hge
    rw [dif_neg hge]
    rw [← hpage] at hf
    exact h.loadZeros_twin hf hv hbelow hstop hperm hs

theorem Ready.loadSegment_twin (h : s.Ready m₀) (ht : s.Twin data) {bytes : ℕ → UInt8}
    {ph : ProgHdr} (hs : s.loadSegment bytes ph = some (0, s')) :
    ∃ data₁, (s.withData data).loadSegment bytes ph = some (0, s'.withData data₁) ∧
      s'.Twin data₁ := by
  unfold LoadState.loadSegment at hs ⊢
  split at hs
  · rename_i hload
    simp only [Option.some.injEq, Prod.mk.injEq, true_and] at hs
    subst hs
    exact ⟨data, by rw [if_pos hload], ht⟩
  · rename_i hload
    rw [if_neg hload]
    split at hs
    · simp only [Option.some.injEq, Prod.mk.injEq] at hs
      exact absurd hs.1 (by decide)
    · rename_i hsize
      rw [if_neg hsize]
      obtain ⟨⟨r₁, mm⟩, hmap, hs⟩ := Option.bind_eq_some_iff.mp hs
      rcases h.loading.sorted.mmMap hmap with ⟨hr, -⟩ | ⟨rfl, v, hstart, hend, hflags, hm⟩
      · simp only [if_pos hr, Option.some.injEq, Prod.mk.injEq] at hs
        exact absurd hs.1 hr
      · simp only [ne_eq, not_true_eq_false, if_false] at hs
        obtain ⟨⟨f, m₁⟩, hf, hs⟩ := Option.bind_eq_some_iff.mp hs
        have hl := h.loading.mapped hm
        have hv : v ∈ mm.mmapList := (hm.areas v).mpr (Or.inl rfl)
        have hperm := suits_segment ph hflags
        have hup := le_roundUp_page (ph.pVa + ph.pMemsz)
        have hpriv : ∀ p ∈ s.page, Mem.Private s.mem mm.pgdir p := by
          rw [hm.pgdir]
          exact h.page
        have hfilling : s.mem.Filling mm v (roundDown ph.pVa pgSize) s.page data := by
          refine ⟨ht.differs, ht.page, ?_, Nat.dvd_of_mod_eq_zero (roundDown_aligned _ _)⟩
          rw [← hstart]
          exact h.loading.vacant hm
        cases f with
        | none =>
          simp only [Option.some.injEq, Prod.mk.injEq] at hs
          exact absurd hs.1 (by decide)
        | some f =>
          obtain ⟨data₁, hsame, h₁⟩ := hfilling.fillLoop hl hv hstart.le (by omega) hperm hpriv hf
          obtain ⟨hl₁, hfilled⟩ := hl.fillLoop hv hstart.le (by omega) hperm.lt hperm.valid
            hperm.user hperm.read hpriv hf
          obtain ⟨hpages, hbelow⟩ := hfilled f rfl
          obtain ⟨data₂, hsame₂, h₂⟩ := Ready.loadBss_twin (s := ⟨m₁, mm, f.page⟩) ⟨hl₁, hpages⟩
            rfl h₁ hv hbelow (by omega) hperm hs
          refine ⟨data₂, ?_, h₂⟩
          unfold withData at hsame₂ ⊢
          simp only [hmap, hsame, Option.bind_eq_bind, Option.bind_some, ne_eq, not_true_eq_false,
            if_false]
          exact hsame₂

theorem Ready.loadSegments_twin (h : s.Ready m₀) (ht : s.Twin data) {bytes : ℕ → UInt8}
    {phs : List ProgHdr} (hs : s.loadSegments bytes phs = some (0, s')) :
    ∃ data₁, (s.withData data).loadSegments bytes phs = some (0, s'.withData data₁) ∧
      s'.Twin data₁ := by
  induction phs generalizing s data with
  | nil =>
    simp only [LoadState.loadSegments, Option.some.injEq, Prod.mk.injEq, true_and] at hs
    subst hs
    exact ⟨data, rfl, ht⟩
  | cons ph phs ih =>
    rw [LoadState.loadSegments] at hs
    obtain ⟨⟨r₁, s₁⟩, h₁, hs⟩ := Option.bind_eq_some_iff.mp hs
    simp only at hs
    split at hs
    · rename_i hr
      simp only [Option.some.injEq, Prod.mk.injEq] at hs
      exact absurd hs.1 hr
    · rename_i hr
      obtain rfl : r₁ = 0 := not_not.mp hr
      obtain ⟨data₁, hsame₁, ht₁⟩ := h.loadSegment_twin ht h₁
      obtain ⟨data₂, hsame₂, ht₂⟩ := ih (h.loadSegment h₁) ht₁ hs
      refine ⟨data₂, ?_, ht₂⟩
      rw [LoadState.loadSegments]
      simp only [hsame₁, Option.bind_eq_bind, Option.bind_some, ne_eq, not_true_eq_false, if_false]
      exact hsame₂

/-- A page of the stack: it is mapped as it was when it was free. -/
theorem stackPage_twin (hl : Mem.Loading m₀ s.mem s.mm) (hd : s.mem.Differs ∅ data) {i : ℕ}
    (hi : i < 4)
    (hvac : s.mem.Vacant s.mm.pgdir (uStackTop - uStackSize) (uStackTop - i * pgSize))
    (hs : s.stackPage (i + 1) = some s') :
    ∃ data₁ page, (s.withData data).stackPage (i + 1) = some (s'.withData data₁) ∧
      s'.mem.Differs {page} data₁ ∧ s'.mm = s.mm ∧
      s'.mem.Vacant s.mm.pgdir (uStackTop - uStackSize) (uStackTop - (i + 1) * pgSize) ∧
      s'.mem.entry s.mm.pgdir (uStackTop - (i + 1) * pgSize) =
        pteCreate page (pteV ||| pteUser) := by
  have hlow : uStackTop - uStackSize ≤ uStackTop - (i + 1) * pgSize := by
    unfold uStackTop uStackSize uStackPage userTop pgSize
    omega
  have hhigh : uStackTop - (i + 1) * pgSize < uStackTop - i * pgSize := by
    unfold uStackTop userTop pgSize
    omega
  have htop : uStackTop - i * pgSize ≤ userTop := Nat.sub_le _ _
  unfold LoadState.stackPage at hs ⊢
  split at hs
  · rename_i page m₁ ha
    obtain rfl := Option.some.inj hs
    obtain ⟨data₁, hsame, hd₁⟩ := hd.pgdirAllocPage hl.ref (hvac _ hlow hhigh) ha
    obtain ⟨-, hc⟩ := hl.ref.pgdirAllocPage (by omega)
      (lt_pteFlagLimit_of_user (by decide)) ha
    refine ⟨data₁, page, ?_, hd₁, rfl, ?_, ?_⟩
    · unfold withData
      simp only [hsame]
    · have hrest : s.mem.Vacant s.mm.pgdir (uStackTop - uStackSize)
          (uStackTop - (i + 1) * pgSize) := fun x hx hlt => hvac x hx (by omega)
      refine hrest.changed (hc page rfl) (by omega) ?_
      intro x _ hlt heq
      unfold uStackTop userTop pgSize at hlt heq
      omega
    · rw [(hc page rfl).entry _ _ (by omega), if_pos ⟨rfl, rfl⟩]
  · exact absurd hs (by simp)

/-- The lowest of the mapped stack pages. -/
def lowestStackPage : ℕ := uStackTop - 4 * pgSize

theorem Ready.loadStack_twin (h : s.Ready m₀) (ht : s.Twin data)
    (hs : s.loadStack = some (0, s')) :
    ∃ data₁ page, (s.withData data).loadStack = some (0, s'.withData data₁) ∧
      s'.mem.Differs {page} data₁ ∧
      s'.mem.entry s'.mm.pgdir lowestStackPage = pteCreate page (pteV ||| pteUser) := by
  unfold LoadState.loadStack at hs ⊢
  obtain ⟨⟨r₁, mm⟩, hmap, hs⟩ := Option.bind_eq_some_iff.mp hs
  rcases h.loading.sorted.mmMap hmap with ⟨hr, -⟩ | ⟨rfl, v, hstart, hend, -, hm⟩
  · simp only [if_pos hr, Option.some.injEq, Prod.mk.injEq] at hs
    exact absurd hs.1 hr
  · simp only [ne_eq, not_true_eq_false, if_false] at hs
    have hv : v ∈ mm.mmapList := (hm.areas v).mpr (Or.inl rfl)
    have hbot : v.vmStart = uStackTop - uStackSize := hstart.trans (by decide)
    have htop : v.vmEnd = uStackTop := hend.trans (by decide)
    have hl := h.loading.mapped hm
    have hvac := h.loading.vacant hm
    rw [hbot, htop] at hvac
    obtain ⟨s₁, h₁, hs⟩ := Option.bind_eq_some_iff.mp hs
    obtain ⟨s₂, h₂, hs⟩ := Option.bind_eq_some_iff.mp hs
    obtain ⟨s₃, h₃, hs⟩ := Option.bind_eq_some_iff.mp hs
    obtain ⟨s₄, h₄, hs⟩ := Option.bind_eq_some_iff.mp hs
    simp only [Option.some.injEq, Prod.mk.injEq, true_and] at hs
    subst hs
    obtain ⟨hl₁, hmm₁⟩ := stackPage_loading (s := ⟨s.mem, mm, s.page⟩) hl hv hbot htop
      (by omega) (by omega) h₁
    have hv₁ : v ∈ s₁.mm.mmapList := by
      rw [hmm₁]
      exact hv
    obtain ⟨hl₂, hmm₂⟩ := stackPage_loading hl₁ hv₁ hbot htop (by omega) (by omega) h₂
    have hv₂ : v ∈ s₂.mm.mmapList := by
      rw [hmm₂]
      exact hv₁
    obtain ⟨hl₃, hmm₃⟩ := stackPage_loading hl₂ hv₂ hbot htop (by omega) (by omega) h₃
    obtain ⟨d₁, p₁, hs₁, hd₁, -, hvac₁, -⟩ := stackPage_twin (s := ⟨s.mem, mm, s.page⟩) (i := 0)
      hl ht.differs (by omega) hvac h₁
    rw [← congrArg Mm.pgdir hmm₁] at hvac₁
    obtain ⟨d₂, p₂, hs₂, hd₂, -, hvac₂, -⟩ := stackPage_twin (i := 1) hl₁ hd₁.forget (by omega)
      hvac₁ h₂
    rw [← congrArg Mm.pgdir hmm₂] at hvac₂
    obtain ⟨d₃, p₃, hs₃, hd₃, -, hvac₃, -⟩ := stackPage_twin (i := 2) hl₂ hd₂.forget (by omega)
      hvac₂ h₃
    rw [← congrArg Mm.pgdir hmm₃] at hvac₃
    obtain ⟨d₄, p₄, hs₄, hd₄, hmm₄, -, hentry⟩ := stackPage_twin (i := 3) hl₃ hd₃.forget
      (by omega) hvac₃ h₄
    refine ⟨d₄, p₄, ?_, hd₄, ?_⟩
    · have hs₁' : LoadState.stackPage ⟨s.mem.withData data, mm, s.page⟩ 1 =
        some (s₁.withData d₁) := hs₁
      unfold withData at hs₁' hs₂ hs₃ hs₄ ⊢
      simp only [hmap, Option.bind_eq_bind, Option.bind_some, ne_eq, not_true_eq_false, if_false,
        hs₁', hs₂, hs₃, hs₄]
    · rw [congrArg Mm.pgdir hmm₄]
      exact hentry

theorem Ready.loadAll_twin (h : s.Ready m₀) (ht : s.Twin data) {elf : Elf}
    (hs : s.loadAll elf = some (0, s')) :
    ∃ data₁ page, (s.withData data).loadAll elf = some (0, s'.withData data₁) ∧
      s'.mem.Differs {page} data₁ ∧
      s'.mem.entry s'.mm.pgdir lowestStackPage = pteCreate page (pteV ||| pteUser) := by
  unfold LoadState.loadAll at hs ⊢
  obtain ⟨⟨r₁, s₁⟩, h₁, hs⟩ := Option.bind_eq_some_iff.mp hs
  simp only at hs
  split at hs
  · rename_i hr
    simp only [Option.some.injEq, Prod.mk.injEq] at hs
    exact absurd hs.1 hr
  · rename_i hr
    obtain rfl : r₁ = 0 := not_not.mp hr
    obtain ⟨data₁, hsame₁, ht₁⟩ := h.loadSegments_twin ht h₁
    obtain ⟨data₂, page, hsame₂, hd, hentry⟩ := (h.loadSegments h₁).loadStack_twin ht₁ hs
    refine ⟨data₂, page, ?_, hd, hentry⟩
    simp only [hsame₁, Option.bind_eq_bind, Option.bind_some, ne_eq, not_true_eq_false, if_false]
    exact hsame₂

end LoadState

namespace Mem

variable {M : PmmManager} {m m₁ : Mem M} {data : ℕ → ℕ → UInt8} {mm : Mm}

theorem Differs.setupPgdir (h : m.Differs ∅ data) {pd : ℕ} (hs : m.setupPgdir = (some pd, m₁)) :
    (m.withData data).setupPgdir = (some pd, m₁.withData data) ∧ m₁.Differs ∅ data := by
  unfold Mem.setupPgdir at hs ⊢
  split at hs
  · exact absurd (Prod.mk.inj hs).1 (by simp)
  · rename_i page m₀ halloc
    obtain ⟨hpage, rfl⟩ := Prod.mk.inj hs
    obtain rfl := Option.some.inj hpage
    obtain ⟨hsame, hd, -, -⟩ := h.allocPage halloc
    rw [hsame]
    exact ⟨rfl, hd.forget.congr rfl rfl⟩

/-- A program that is accepted is accepted with other contents of the free pages, and every
byte of its lowest stack page is then another one. -/
theorem Differs.loadIcode (h : m.Differs ∅ data) (hi : m.RefInv ∅ ∅) {elf : Elf}
    (hload : m.loadIcode elf = some (0, m₁, some mm)) :
    ∃ data₁ page, (m.withData data).loadIcode elf = some (0, m₁.withData data₁, some mm) ∧
      m₁.Differs {page} data₁ ∧
      m₁.entry mm.pgdir LoadState.lowestStackPage = pteCreate page (pteV ||| pteUser) := by
  unfold Mem.loadIcode at hload ⊢
  split at hload
  · exact absurd (Option.some.inj hload) (by simp)
  · rename_i pd m₀ hset
    obtain ⟨hsame, hd⟩ := h.setupPgdir hset
    split at hload
    · exact absurd (Option.some.inj hload) (by simp)
    · rename_i hmagic
      obtain ⟨⟨r, s⟩, hall, hload⟩ := Option.bind_eq_some_iff.mp hload
      simp only at hload
      split at hload
      · rename_i hr
        obtain ⟨m₂, -, hload⟩ := Option.bind_eq_some_iff.mp hload
        exact absurd (Option.some.inj hload) (by simp)
      · rename_i hr
        obtain rfl : r = 0 := not_not.mp hr
        simp only [Option.some.injEq, Prod.mk.injEq, true_and] at hload
        obtain ⟨rfl, rfl⟩ := hload
        have hready : LoadState.Ready m ⟨m₀, mmCreate pd, none⟩ :=
          ⟨(hi.setupLoading hset).1, by simp⟩
        obtain ⟨data₁, page, hsame₁, hd₁, hentry⟩ := hready.loadAll_twin ⟨hd, by simp⟩ hall
        refine ⟨data₁, page, ?_, hd₁, hentry⟩
        have hall' : LoadState.loadAll ⟨m₀.withData data, mmCreate pd, none⟩ elf =
            some (0, s.withData data₁) := hsame₁
        rw [hsame]
        simp only [if_neg hmagic, hall', Option.bind_eq_bind, Option.bind_some, ne_eq,
          not_true_eq_false, if_false]
        rfl

/-- The bytes a user can read at the start are the same for all contents of free pages. -/
def ProgramOnly (m : Mem M) (elf : Elf) : Prop :=
  ∀ data, (∀ p, ¬ m.IsFree p → data p = m.data p) → ∀ m₁ m₂ mm mm',
    m.loadIcode elf = some (0, m₁, some mm) →
    (m.withData data).loadIcode elf = some (0, m₂, some mm') →
    ∀ la, m₁.loadByte mm.pgdir la = m₂.loadByte mm'.pgdir la

open Classical in
/-- Other contents of the free pages: every byte of them is changed. -/
noncomputable def changeFree (m : Mem M) (p i : ℕ) : UInt8 :=
  if m.IsFree p then (if m.data p i = 0 then 1 else 0) else m.data p i

theorem differs_changeFree (m : Mem M) : m.Differs ∅ m.changeFree := by
  refine ⟨fun p hp => absurd hp (Set.notMem_empty p), ?_⟩
  intro p hp i
  rcases hp with hf | hp
  · unfold changeFree
    rw [if_pos hf]
    split
    · rename_i hz
      rw [hz]
      decide
    · rename_i hz
      exact fun heq => hz heq.symm
  · exact absurd hp (Set.notMem_empty p)

theorem loadByte_user {pd la page : ℕ} (hla : la < userTop)
    (h : m.entry pd la = pteCreate page (pteV ||| pteUser)) :
    m.loadByte pd la = some (m.data page (la % pgSize)) := by
  have hlt : pteV ||| pteUser < pteFlagLimit := by decide
  have hr : hasFlag (pteV ||| pteUser) pteR = true := by decide
  have hu : hasFlag (pteV ||| pteUser) pteU = true := by decide
  have hcan : m.canLoad pd la = true := by
    unfold canLoad
    rw [h, hasFlag_create_valid, hasFlag_create_read, hasFlag_create_user, hr, hu]
    simp [hla]
  unfold loadByte
  rw [if_pos hcan, h, ptePpn_create hlt]

end Mem

namespace Procs

variable {M : PmmManager} {s₀ s : Procs M}

/-- Every byte of the twenty pages is `0xFF`. -/
def fullPages (p _i : ℕ) : UInt8 := if p < 20 then 0xFF else 0

end Procs
end Ucore.Vm
