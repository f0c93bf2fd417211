import Ucore.Vm.RefCount

/-!
What the operations of `pmm.c` on one address do to user memory: walking to an
entry, clearing it, and inserting a page.
-/
namespace Ucore.Vm

open Library

namespace Mem

variable {M : PmmManager} {K F : Set ℕ} {m m' : Mem M}

/-- A new table page at a position that had none changes no mapping. -/
theorem RefInv.allocTable (hi : RefInv K F m) (t₀ : TablePos) (m₂ : Mem M) {p : ℕ} {m₁ : Mem M}
    (h : m.allocTablePage = some (p, m₁)) (hpmm : m₂.pmm = m₁.pmm) (href : m₂.ref = m₁.ref)
    (hdata : m₂.data = m₁.data) (hentry : ∀ pd la, m₂.entry pd la = m.entry pd la)
    (hpgdir : ∀ pd, (m₂.pgdir pd).isSome = (m.pgdir pd).isSome) (hnone : m.tableAt t₀ = none)
    (htab : ∀ t, m₂.tableAt t = if t = t₀ then some p else m.tableAt t) :
    RefInv K F m₂ ∧ SameMap m m₂ := by
  unfold allocTablePage at h
  rw [Option.map_eq_some_iff] at h
  obtain ⟨⟨q, m₀⟩, halloc, heq⟩ := h
  obtain ⟨rfl, rfl⟩ := Prod.mk.inj heq
  obtain ⟨hi₀, hfree, hnotF, hsame, hpg, hr, hd⟩ := hi.allocPage halloc
  have hne : ∀ x, ¬ m.IsFree x → x ≠ q := by
    rintro x hx rfl
    exact hx hfree
  constructor
  · have htab₀ : ∀ t, m₀.tableAt t = m.tableAt t := by
      intro t
      cases t <;> simp only [tableAt, hpg]
    have hnone₀ : m₀.tableAt t₀ = none := (htab₀ t₀).trans hnone
    refine hi₀.addTable hnotF hpmm ?_ ?_ hnone₀ ?_
    · intro pd la
      rw [hentry, hsame.entry]
    · intro x hx
      rw [href]
      exact Function.update_of_ne hx _ _
    · intro t
      rw [htab, htab₀]
  · refine ⟨hentry, ?_, ?_, ?_, hpgdir⟩
    · intro x hx
      rw [href]
      exact (Function.update_of_ne (hne x hx) _ _).trans (hsame.ref x hx)
    · intro x hx
      rw [hdata]
      exact (Function.update_of_ne (hne x hx) _ _).trans (hsame.data x hx)
    · intro x hx
      unfold IsFree at hx
      rw [hpmm] at hx
      exact hsame.free x hx

/-- What walking to a table leaves behind. -/
structure Walked (K F : Set ℕ) (m m' : Mem M) (create : Bool) : Prop where
  inv : RefInv K F m'
  same : SameMap m m'
  lookup : create = false → m' = m

theorem Walked.refl (hi : RefInv K F m) (create : Bool) : Walked K F m m create :=
  ⟨hi, SameMap.refl m, fun _ => rfl⟩

theorem Walked.trans {m'' : Mem M} {create : Bool} (h : Walked K F m m' create)
    (h' : Walked K F m' m'' create) : Walked K F m m'' create :=
  ⟨h'.inv, h.same.trans h'.same, fun hc => (h'.lookup hc).trans (h.lookup hc)⟩

theorem RefInv.getPde1 (hi : RefInv K F m) {pd la : ℕ} {create ok : Bool}
    (h : m.getPde1 pd la create = some (ok, m')) :
    Walked K F m m' create ∧
      (ok = true → ∃ d dir, m'.pgdir pd = some d ∧ d.pde1 (pdx1 la) = some dir) ∧
      (ok = false → create = false → ∃ d, m.pgdir pd = some d ∧ d.pde1 (pdx1 la) = none) := by
  unfold Mem.getPde1 at h
  rw [Option.bind_eq_bind, Option.bind_eq_some_iff] at h
  obtain ⟨d, hd, h⟩ := h
  cases hdir : d.pde1 (pdx1 la) with
  | some dir =>
    simp only [hdir, Option.isSome_some, if_true, Option.some.injEq, Prod.mk.injEq] at h
    obtain ⟨rfl, rfl⟩ := h
    exact ⟨Walked.refl hi create, fun _ => ⟨d, dir, hd, hdir⟩, by simp⟩
  | none =>
    simp only [hdir, Option.isSome_none, Bool.false_eq_true, if_false] at h
    cases create with
    | false =>
      simp only [Bool.not_false, if_true, Option.some.injEq, Prod.mk.injEq] at h
      obtain ⟨rfl, rfl⟩ := h
      exact ⟨Walked.refl hi false, by simp, fun _ _ => ⟨d, hd, hdir⟩⟩
    | true =>
      simp only [Bool.not_true, Bool.false_eq_true, if_false] at h
      split at h
      · simp only [Option.some.injEq, Prod.mk.injEq] at h
        obtain ⟨rfl, rfl⟩ := h
        exact ⟨Walked.refl hi true, by simp, by simp⟩
      · rename_i page m₁ halloc
        simp only [Option.some.injEq, Prod.mk.injEq] at h
        obtain ⟨rfl, rfl⟩ := h
        have hpg : m₁.pgdir = m.pgdir := allocTablePage_pgdir halloc
        have hd₁ : m₁.pgdir pd = some d := by rw [hpg, hd]
        obtain ⟨hi', hs⟩ := hi.allocTable (.middle pd (pdx1 la))
          (m₁.setPgdir pd (d.setPde1 la ⟨page, fun _ => none⟩)) halloc rfl rfl rfl
          (fun pd' la' => by
            rw [entry_setPgdir, Pgdir.entry_setPde1_new hdir]
            by_cases hpd : pd' = pd
            · rw [if_pos hpd, hpd, entry_of_pgdir hd]
            · simp only [hpd, if_false, entry, hpg])
          (fun pd' => by
            by_cases hpd : pd' = pd
            · simp [setPgdir, hpd, hd]
            · simp [setPgdir, hpd, hpg])
          (by simp [tableAt, hd, Pgdir.middlePage, hdir])
          (fun t => by
            rw [tableAt_setPde1_new hd₁ hdir, tableAt_congr hpg])
        refine ⟨⟨hi', hs, by simp⟩, fun _ => ?_, by simp⟩
        exact ⟨_, ⟨page, fun _ => none⟩, Function.update_self _ _ _, Function.update_self _ _ _⟩

theorem RefInv.getPde0 (hi : RefInv K F m) {pd la : ℕ} {create ok : Bool}
    (hdir : ∃ d dir, m.pgdir pd = some d ∧ d.pde1 (pdx1 la) = some dir)
    (h : m.getPde0 pd la create = some (ok, m')) :
    Walked K F m m' create ∧ (ok = true → m'.HasTable pd la) ∧
      (ok = false → create = false → ¬ m.HasTable pd la) := by
  obtain ⟨d, dir, hd, hdir⟩ := hdir
  unfold Mem.getPde0 at h
  rw [hd, Option.bind_eq_bind, Option.bind_some] at h
  cases htab : d.table la with
  | some t =>
    simp only [htab, Option.isSome_some, if_true, Option.some.injEq, Prod.mk.injEq] at h
    obtain ⟨rfl, rfl⟩ := h
    exact ⟨Walked.refl hi create, fun _ => ⟨d, hd, t, htab⟩, by simp⟩
  | none =>
    simp only [htab, Option.isSome_none, Bool.false_eq_true, if_false] at h
    cases create with
    | false =>
      simp only [Bool.not_false, if_true, Option.some.injEq, Prod.mk.injEq] at h
      obtain ⟨rfl, rfl⟩ := h
      refine ⟨Walked.refl hi false, by simp, fun _ _ => ?_⟩
      rintro ⟨d', hd', t, ht⟩
      rw [hd] at hd'
      obtain rfl := Option.some.inj hd'
      rw [htab] at ht
      exact absurd ht (by simp)
    | true =>
      simp only [Bool.not_true, Bool.false_eq_true, if_false] at h
      split at h
      · simp only [Option.some.injEq, Prod.mk.injEq] at h
        obtain ⟨rfl, rfl⟩ := h
        exact ⟨Walked.refl hi true, by simp, by simp⟩
      · rename_i page m₁ halloc
        simp only [Option.some.injEq, Prod.mk.injEq] at h
        obtain ⟨rfl, rfl⟩ := h
        have hpg : m₁.pgdir = m.pgdir := allocTablePage_pgdir halloc
        have hd₁ : m₁.pgdir pd = some d := by rw [hpg, hd]
        have hnone : dir.pde0 (pdx0 la) = none := by
          unfold Pgdir.table at htab
          rwa [hdir, Option.bind_some] at htab
        obtain ⟨hi', hs⟩ := hi.allocTable (.last pd (pdx1 la) (pdx0 la))
          (m₁.setPgdir pd (d.setPde0 la ⟨page, fun _ => 0⟩)) halloc rfl rfl rfl
          (fun pd' la' => by
            rw [entry_setPgdir, Pgdir.entry_setPde0_new htab]
            by_cases hpd : pd' = pd
            · rw [if_pos hpd, hpd, entry_of_pgdir hd]
            · simp only [hpd, if_false, entry, hpg])
          (fun pd' => by
            by_cases hpd : pd' = pd
            · simp [setPgdir, hpd, hd]
            · simp [setPgdir, hpd, hpg])
          (by simp [tableAt, hd, Pgdir.lastPage, hdir, hnone])
          (fun t => by
            rw [tableAt_setPde0_new hd₁ hdir, tableAt_congr hpg])
        refine ⟨⟨hi', hs, by simp⟩, fun _ => ?_, by simp⟩
        refine ⟨_, Function.update_self _ _ _, ⟨page, fun _ => 0⟩, ?_⟩
        simp [Pgdir.setPde0, hdir, Pgdir.setPde1, Pgdir.table]

/-- `get_pte` changes no mapping; with `create` it only fails for lack of a page. -/
theorem RefInv.getPte (hi : RefInv K F m) {pd la : ℕ} {create ok : Bool}
    (h : m.getPte pd la create = some (ok, m')) :
    Walked K F m m' create ∧ (ok = true → m'.HasTable pd la) ∧
      (ok = false → create = false → ¬ m.HasTable pd la) := by
  unfold Mem.getPte at h
  rw [Option.bind_eq_bind, Option.bind_eq_some_iff] at h
  obtain ⟨⟨ok₁, m₁⟩, h₁, h⟩ := h
  obtain ⟨hw₁, hdir, hnone⟩ := hi.getPde1 h₁
  cases ok₁ with
  | false =>
    simp only [Bool.false_eq_true, if_false, Option.some.injEq, Prod.mk.injEq] at h
    obtain ⟨rfl, rfl⟩ := h
    refine ⟨hw₁, by simp, fun _ hc => ?_⟩
    obtain ⟨d, hd, hd1⟩ := hnone rfl hc
    rintro ⟨d', hd', t, ht⟩
    rw [hd] at hd'
    obtain rfl := Option.some.inj hd'
    simp [Pgdir.table, hd1] at ht
  | true =>
    simp only [if_true] at h
    obtain ⟨hw, htab, hno⟩ := hw₁.inv.getPde0 (hdir rfl) h
    refine ⟨hw₁.trans hw, htab, fun hok hc => ?_⟩
    rw [← hw₁.lookup hc]
    exact hno hok hc

theorem RefInv.entry_of_no_table {pd la : ℕ} (h : ¬ m.HasTable pd la) : m.entry pd la = 0 := by
  unfold entry
  cases hd : m.pgdir pd with
  | none => rfl
  | some d =>
    cases ht : d.table la with
    | none => simp [Pgdir.entry, ht]
    | some t => exact absurd ⟨d, hd, t, ht⟩ h

/-- The change of one entry: every other entry and every page in use stay. -/
structure Changed (m m' : Mem M) (pd la v : ℕ) : Prop where
  entry : EntrySet m m' pd la v
  data : ∀ p, ¬ m.IsFree p → m'.data p = m.data p
  pgdir : ∀ pd, (m'.pgdir pd).isSome = (m.pgdir pd).isSome

theorem SameMap.changed {m'' : Mem M} {pd la v : ℕ} (h : SameMap m m')
    (h' : Changed m' m'' pd la v) : Changed m m'' pd la v where
  entry := h'.entry.of_entry_eq h.entry
  data p hp := (h'.data p (fun hf => hp (h.free p hf))).trans (h.data p hp)
  pgdir pd := (h'.pgdir pd).trans (h.pgdir pd)

theorem mapCount_fill {pd la page : ℕ} (hpd : pd < M.npage) (hla : la < userTop)
    (hnone : m.holds (pd, la / pgSize) = none)
    (hset : ∀ k ∈ slots M, m'.holds k = Function.update m.holds (pd, la / pgSize) (some page) k)
    (p : ℕ) : m'.mapCount p = m.mapCount p + (if page = p then 1 else 0) := by
  have h := holders_update (mem_slots hpd hla) m.holds (some page) p
  rw [← holders_congr hset] at h
  rw [hnone] at h
  unfold mapCount
  simpa using h

theorem mapCount_clear {pd la page : ℕ} (hpd : pd < M.npage) (hla : la < userTop)
    (hsome : m.holds (pd, la / pgSize) = some page)
    (hset : ∀ k ∈ slots M, m'.holds k = Function.update m.holds (pd, la / pgSize) none k)
    (p : ℕ) : m'.mapCount p + (if page = p then 1 else 0) = m.mapCount p := by
  have h := holders_update (mem_slots hpd hla) m.holds none p
  rw [← holders_congr hset] at h
  rw [hsome] at h
  unfold mapCount
  simpa using h

theorem holds_eq_some_iff {pd la p : ℕ} : m.holds (pd, la / pgSize) = some p ↔
    hasFlag (m.entry pd (la / pgSize * pgSize)) pteV ∧
      ptePpn (m.entry pd (la / pgSize * pgSize)) = p := by
  unfold holds slotEntry
  simp only [Option.ite_none_right_eq_some, Option.some.injEq]

/-- The entry of an address is the entry of its page. -/
theorem entry_page (m : Mem M) (pd la : ℕ) :
    m.entry pd (la / pgSize * pgSize) = m.entry pd la := by
  obtain ⟨h1, h0, ht⟩ := index_of_page_eq (page_mul_div (la / pgSize))
  unfold entry Pgdir.entry Pgdir.table
  rw [h1, h0, ht]

theorem RefInv.pgdir_lt (hi : RefInv K F m) {pd la : ℕ} (ht : m.HasTable pd la) :
    pd < M.npage := by
  obtain ⟨d, hd, -⟩ := ht
  exact (hi.table pd ⟨.root pd, by simp [tableAt, hd]⟩).2.1

/-- An entry is emptied; its page becomes free with its last entry. -/
theorem RefInv.cleared (hi : RefInv K F m) {pd la p : ℕ} (hpd : pd < M.npage) (hla : la < userTop)
    (hp : m.holds (pd, la / pgSize) = some p) (hset : EntrySet m m' pd la 0)
    (htab : ∀ t, m'.tableAt t = m.tableAt t) (hrefp : m'.ref p = m.ref p - 1)
    (href : ∀ q, q ≠ p → m'.ref q = m.ref q)
    (hfree : ∀ q, m'.IsFree q ↔ m.IsFree q ∨ q = p ∧ m.mapCount p = 1) : RefInv K F m' := by
  have hk := mem_slots hpd hla
  have hpos : 0 < m.mapCount p := holders_pos_iff.mpr ⟨_, hk, hp⟩
  have hrefm : m.ref p = m.mapCount p := hi.counted.ref_eq p hpos
  obtain ⟨hpF, hpt, hpfree⟩ := hi.busy_of_mapped hpos
  have hmap := mapCount_clear hpd hla hp hset.holds_zero
  have hmapq : ∀ q, q ≠ p → m'.mapCount q = m.mapCount q := by
    intro q hq
    have h := hmap q
    rw [if_neg hq.symm] at h
    exact h
  have hfreeq : ∀ q, q ≠ p → (m'.IsFree q ↔ m.IsFree q) := by
    intro q hq
    rw [hfree]
    exact ⟨fun h => h.resolve_right (fun h => hq h.1), Or.inl⟩
  have htable : ∀ q, m'.IsTable q ↔ m.IsTable q := by
    intro q
    unfold IsTable
    simp only [htab]
  refine ⟨?_, ?_, ?_, ?_, ?_, ?_⟩
  · have hc := hi.counted.clear hk hp hrefp href
      (fun hf => by
        rcases (hfree p).mp hf with hf | ⟨-, hone⟩
        · exact absurd hf hpfree
        · rw [hrefm, hone]
          rfl) hfreeq
    exact hc.congr hset.holds_zero hset.writable_zero (fun _ _ => rfl) (fun _ h => ⟨h, rfl⟩)
  · intro k hks q hq
    rw [hset.holds_zero k hks] at hq
    by_cases hkk : k = (pd, la / pgSize)
    · rw [hkk, Function.update_self] at hq
      exact absurd hq (by simp)
    · rw [Function.update_of_ne hkk] at hq
      exact hi.held_lt k hks q hq
  · intro q hq
    obtain ⟨hnf, hlt, hc, hr, ht⟩ := hi.fresh q hq
    have hqp : q ≠ p := fun heq => hpF (heq ▸ hq)
    rw [hfreeq q hqp, hmapq q hqp, href q hqp, htable]
    exact ⟨hnf, hlt, hc, hr, ht⟩
  · intro q hq
    rw [htable] at hq
    have hqp : q ≠ p := fun heq => hpt (heq ▸ hq)
    rw [hfreeq q hqp, hmapq q hqp]
    exact hi.table q hq
  · intro a b q ha hb
    rw [htab] at ha hb
    exact hi.table_inj a b q ha hb
  · intro q hq
    rw [htable]
    rcases hi.kept q hq with hf | hm | ht | hF
    · exact Or.inl ((hfree q).mpr (Or.inl hf))
    · by_cases hqp : q = p
      · subst hqp
        by_cases hone : m.mapCount q = 1
        · exact Or.inl ((hfree q).mpr (Or.inr ⟨rfl, hone⟩))
        · have h := hmap q
          rw [if_pos rfl] at h
          exact Or.inr (Or.inl (by omega))
      · exact Or.inr (Or.inl (by rw [hmapq q hqp]; exact hm))
    · exact Or.inr (Or.inr (Or.inl ht))
    · exact Or.inr (Or.inr (Or.inr hF))

/-- What `page_remove_pte` does to a valid entry. -/
structure Removed (m m' : Mem M) (pd la p : ℕ) : Prop where
  changed : Changed m m' pd la 0
  hasTable : m'.HasTable pd la
  table : ∀ t, m'.tableAt t = m.tableAt t
  ref : ∀ q, q ≠ p → m'.ref q = m.ref q
  free : ∀ q, m'.IsFree q ↔ m.IsFree q ∨ q = p ∧ m.mapCount p = 1

/-- `page_remove_pte` frees the page with its last entry and no other page. -/
theorem RefInv.pageRemovePte (hi : RefInv K F m) {pd la p : ℕ} (ht : m.HasTable pd la)
    (hla : la < userTop) (hp : m.holds (pd, la / pgSize) = some p) :
    RefInv K F (m.pageRemovePte pd la) ∧ Removed m (m.pageRemovePte pd la) pd la p := by
  have hpd := hi.pgdir_lt ht
  have hk := mem_slots hpd hla
  obtain ⟨hv, hppn⟩ := holds_eq_some_iff.mp hp
  rw [entry_page] at hv hppn
  have hpos : 0 < m.mapCount p := holders_pos_iff.mpr ⟨_, hk, hp⟩
  have href : m.ref p = m.mapCount p := hi.counted.ref_eq p hpos
  have hlt := hi.held_lt _ hk p hp
  obtain ⟨-, -, hpfree⟩ := hi.busy_of_mapped hpos
  have hdec : (m.pageRefDec p).ref p = m.ref p - 1 := Function.update_self _ _ _
  -- the page is freed exactly when this was its last entry
  obtain ⟨m₁, hm₁, hpg, hdata, hrefp, hrefq, hfree⟩ : ∃ m₁ : Mem M,
      m.pageRemovePte pd la = m₁.setEntry pd la 0 ∧ m₁.pgdir = m.pgdir ∧ m₁.data = m.data ∧
      m₁.ref p = m.ref p - 1 ∧ (∀ q, q ≠ p → m₁.ref q = m.ref q) ∧
      (∀ q, m₁.IsFree q ↔ m.IsFree q ∨ q = p ∧ m.mapCount p = 1) := by
    refine ⟨if (m.pageRefDec p).ref p = 0 then (m.pageRefDec p).freePage p else m.pageRefDec p,
      ?_, ?_⟩
    · simp only [Mem.pageRemovePte, hv, hppn, if_true]
    · by_cases hzero : (m.pageRefDec p).ref p = 0
      · rw [if_pos hzero]
        have hone : m.mapCount p = 1 := by omega
        refine ⟨rfl, rfl, ?_, ?_, ?_⟩
        · rw [← hdec, hzero]
          exact Function.update_self _ _ _
        · intro q hq
          exact (Function.update_of_ne hq _ _).trans (Function.update_of_ne hq _ _)
        · intro q
          have h := M.free_iff _ _ hpfree hlt q
          simp only [hone, and_true]
          exact h
      · rw [if_neg hzero]
        have hone : m.mapCount p ≠ 1 := by omega
        refine ⟨rfl, rfl, hdec, fun q hq => Function.update_of_ne hq _ _, ?_⟩
        intro q
        simp only [hone, and_false, or_false]
        exact Iff.rfl
  have hent : ∀ a b, m₁.entry a b = m.entry a b := fun a b => by simp only [entry, hpg]
  have ht₁ : m₁.HasTable pd la := by
    unfold HasTable
    rw [hpg]
    exact ht
  have hset : EntrySet m (m₁.setEntry pd la 0) pd la 0 :=
    (entrySet_setEntry ht₁ hla 0).of_entry_eq hent
  have htab : ∀ t, (m₁.setEntry pd la 0).tableAt t = m.tableAt t := fun t => by
    rw [tableAt_setEntry, tableAt_congr hpg]
  rw [hm₁]
  have hrem : Removed m (m₁.setEntry pd la 0) pd la p := by
    refine ⟨⟨hset, ?_, ?_⟩, hasTable_setEntry ht₁ 0, htab, ?_, ?_⟩
    · intro q _
      rw [setEntry_data, hdata]
    · intro pd'
      rw [setEntry_pgdir_isSome, hpg]
    · intro q hq
      rw [setEntry_ref, hrefq q hq]
    · intro q
      rw [setEntry_isFree, hfree]
  exact ⟨hi.cleared hpd hla hp hset htab (by rw [setEntry_ref, hrefp]) hrem.ref hrem.free, hrem⟩

/-- A page that may enter a slot with permissions `perm`: it is in use for no table,
its count is right, and writable permission needs a page nobody maps. -/
structure Mappable (m : Mem M) (page perm : ℕ) : Prop where
  notFree : ¬ m.IsFree page
  lt_npage : page < M.npage
  notTable : ¬ m.IsTable page
  ref_eq : m.ref page = m.mapCount page
  write : hasFlag perm pteW = true → m.mapCount page = 0
  shared : hasFlag perm pteW = false → ∀ k ∈ slots M, m.holds k = some page → ¬ m.Writable k

theorem RefInv.mappable_fresh (hi : RefInv K F m) {page : ℕ} (hp : page ∈ F) (perm : ℕ) :
    Mappable m page perm := by
  obtain ⟨hnf, hlt, hc, hr, ht⟩ := hi.fresh page hp
  refine ⟨hnf, hlt, ht, by rw [hr, hc]; rfl, fun _ => hc, fun _ k hk hkp => ?_⟩
  have hpos : 0 < m.mapCount page := holders_pos_iff.mpr ⟨k, hk, hkp⟩
  omega

theorem RefInv.mappable_shared (hi : RefInv K F m) {page perm : ℕ}
    (hp : 0 < m.mapCount page) (hperm : hasFlag perm pteW = false)
    (hshared : ∀ k ∈ slots M, m.holds k = some page → ¬ m.Writable k) :
    Mappable m page perm := by
  obtain ⟨k, hk, hkp⟩ := holders_pos_iff.mp hp
  obtain ⟨-, hnt, hnf⟩ := hi.busy_of_mapped hp
  exact ⟨hnf, hi.held_lt k hk page hkp, hnt, hi.counted.ref_eq page hp,
    fun h => absurd h (by simp [hperm]), fun _ => hshared⟩

/-- The pages in hand and the pages not to be lost, after `page` was mapped. -/
theorem RefInv.filled (hi : RefInv K F m) {pd la page perm : ℕ} (hpd : pd < M.npage)
    (hla : la < userTop) (hnone : m.holds (pd, la / pgSize) = none)
    (hmap : Mappable m page perm) (hperm : perm < pteFlagLimit)
    (hset : EntrySet m m' pd la (pteCreate page perm)) (htab : ∀ t, m'.tableAt t = m.tableAt t)
    (hrefp : m'.ref page = m.ref page + 1) (href : ∀ q, q ≠ page → m'.ref q = m.ref q)
    (hfree : ∀ q, m'.IsFree q ↔ m.IsFree q) : RefInv K (F \ {page}) m' := by
  have hk := mem_slots hpd hla
  have hcount := mapCount_fill hpd hla hnone (hset.holds_create hperm)
  have hcountq : ∀ q, q ≠ page → m'.mapCount q = m.mapCount q := by
    intro q hq
    rw [hcount, if_neg hq.symm, Nat.add_zero]
  have htable : ∀ q, m'.IsTable q ↔ m.IsTable q := by
    intro q
    unfold IsTable
    simp only [htab]
  refine ⟨?_, ?_, ?_, ?_, ?_, ?_⟩
  · have hc := hi.counted.fill (e := hasFlag perm pteW = true) hk hnone hmap.notFree hmap.ref_eq
      hmap.write (fun he => hmap.shared (by simpa using he)) hrefp href
    exact hc.congr (hset.holds_create hperm) hset.writable_create (fun _ _ => rfl)
      (fun q hq => ⟨(hfree q).mp hq, rfl⟩)
  · intro k hks q hq
    rw [hset.holds_create hperm k hks] at hq
    by_cases hkk : k = (pd, la / pgSize)
    · rw [hkk, Function.update_self] at hq
      exact Option.some.inj hq ▸ hmap.lt_npage
    · rw [Function.update_of_ne hkk] at hq
      exact hi.held_lt k hks q hq
  · rintro q ⟨hq, hqp⟩
    obtain ⟨hnf, hlt, hc, hr, ht⟩ := hi.fresh q hq
    rw [hfree, hcountq q hqp, href q hqp, htable]
    exact ⟨hnf, hlt, hc, hr, ht⟩
  · intro q hq
    rw [htable] at hq
    have hqp : q ≠ page := fun heq => hmap.notTable (heq ▸ hq)
    rw [hfree, hcountq q hqp]
    exact hi.table q hq
  · intro a b q ha hb
    rw [htab] at ha hb
    exact hi.table_inj a b q ha hb
  · intro q hq
    rw [hfree, htable, hcount]
    rcases hi.kept q hq with hf | hm | ht | hF
    · exact Or.inl hf
    · exact Or.inr (Or.inl (by omega))
    · exact Or.inr (Or.inr (Or.inl ht))
    · by_cases hqp : q = page
      · exact Or.inr (Or.inl (by rw [if_pos hqp.symm]; omega))
      · exact Or.inr (Or.inr (Or.inr ⟨hF, hqp⟩))

/-- The permissions of a valid entry change; its page stays. -/
theorem RefInv.marked (hi : RefInv K F m) {pd la page perm : ℕ} (hpd : pd < M.npage)
    (hla : la < userTop) (hold : m.holds (pd, la / pgSize) = some page)
    (hwrite : hasFlag perm pteW = true → m.mapCount page = 1) (hperm : perm < pteFlagLimit)
    (hset : EntrySet m m' pd la (pteCreate page perm)) (htab : ∀ t, m'.tableAt t = m.tableAt t)
    (href : m'.ref = m.ref) (hfree : ∀ q, m'.IsFree q ↔ m.IsFree q) : RefInv K F m' := by
  have hk := mem_slots hpd hla
  have hholds : ∀ k ∈ slots M, m'.holds k = m.holds k := by
    intro k hks
    rw [hset.holds_create hperm k hks]
    by_cases hkk : k = (pd, la / pgSize)
    · rw [hkk, Function.update_self, hold]
    · rw [Function.update_of_ne hkk]
  have hcount : ∀ q, m'.mapCount q = m.mapCount q := holders_congr hholds
  have htable : ∀ q, m'.IsTable q ↔ m.IsTable q := by
    intro q
    unfold IsTable
    simp only [htab]
  refine ⟨?_, ?_, ?_, ?_, ?_, ?_⟩
  · have hc := hi.counted.mark (e := hasFlag perm pteW = true) hold hwrite
    exact hc.congr hholds hset.writable_create (fun q _ => by rw [href])
      (fun q hq => ⟨(hfree q).mp hq, by rw [href]⟩)
  · intro k hks q hq
    exact hi.held_lt k hks q (hholds k hks ▸ hq)
  · intro q hq
    rw [hfree, hcount, href, htable]
    exact hi.fresh q hq
  · intro q hq
    rw [htable] at hq
    rw [hfree, hcount]
    exact hi.table q hq
  · intro a b q ha hb
    rw [htab] at ha hb
    exact hi.table_inj a b q ha hb
  · intro q hq
    rw [hfree, htable, hcount]
    exact hi.kept q hq

/-- A page that may be inserted: one in hand, or a mapped page to be shared without
write permission. -/
def Insertable (F : Set ℕ) (m : Mem M) (page perm : ℕ) : Prop :=
  page ∈ F ∨ 0 < m.mapCount page ∧ hasFlag perm pteW = false ∧
    ∀ k ∈ slots M, m.holds k = some page → ¬ m.Writable k

theorem RefInv.mappable (hi : RefInv K F m) {page perm : ℕ} (h : Insertable F m page perm) :
    Mappable m page perm := by
  rcases h with hF | ⟨hpos, hperm, hshared⟩
  · exact hi.mappable_fresh hF perm
  · exact hi.mappable_shared hpos hperm hshared

theorem SameMap.writable (h : SameMap m m') {k : ℕ × ℕ} : m'.Writable k ↔ m.Writable k := by
  unfold Writable slotEntry
  rw [h.entry]

theorem SameMap.holds (h : SameMap m m') (k : ℕ × ℕ) : m'.holds k = m.holds k :=
  holds_congr (h.entry _ _)

theorem SameMap.insertable (h : SameMap m m') {page perm : ℕ} (hp : Insertable F m page perm) :
    Insertable F m' page perm := by
  rcases hp with hF | ⟨hpos, hperm, hshared⟩
  · exact Or.inl hF
  · refine Or.inr ⟨by rw [h.mapCount]; exact hpos, hperm, fun k hk hkp => ?_⟩
    rw [h.writable]
    exact hshared k hk (h.holds k ▸ hkp)

/-- Removing another page's entry does not matter. -/
theorem Removed.insertable {pd la q page perm : ℕ} (h : Removed m m' pd la q) (hpd : pd < M.npage)
    (hla : la < userTop) (hq : m.holds (pd, la / pgSize) = some q) (hne : page ≠ q)
    (hp : Insertable F m page perm) : Insertable F m' page perm := by
  rcases hp with hF | ⟨hpos, hperm, hshared⟩
  · exact Or.inl hF
  · have hcount := mapCount_clear hpd hla hq h.changed.entry.holds_zero page
    rw [if_neg hne.symm] at hcount
    refine Or.inr ⟨by omega, hperm, fun k hk hkp hw => ?_⟩
    have hw' := h.changed.entry.writable_zero k hk hw
    rw [h.changed.entry.holds_zero k hk] at hkp
    by_cases hkk : k = (pd, la / pgSize)
    · rw [hkk, Function.update_self] at hw'
      exact hw'
    · rw [Function.update_of_ne hkk] at hkp hw'
      exact hshared k hk hkp hw'

theorem pageRefDec_pageRefInc (m : Mem M) (p : ℕ) : (m.pageRefInc p).pageRefDec p = m := by
  unfold pageRefDec pageRefInc setPageRef
  simp

/-- Raising one count and removing the entry of another page commute. -/
theorem pageRemovePte_pageRefInc {pd la page : ℕ} (hne : ptePpn (m.entry pd la) ≠ page) :
    (m.pageRefInc page).pageRemovePte pd la = (m.pageRemovePte pd la).pageRefInc page := by
  have hset : ∀ (x : Mem M) (r : ℤ), (x.setPageRef page r).setEntry pd la 0 =
      (x.setEntry pd la 0).setPageRef page r := by
    intro x r
    unfold setEntry setPageRef
    cases x.pgdir pd <;> rfl
  have hentry : (m.pageRefInc page).entry pd la = m.entry pd la := rfl
  unfold Mem.pageRemovePte
  rw [hentry]
  by_cases hv : hasFlag (m.entry pd la) pteV
  · simp only [hv, if_true]
    have hcomm : (m.pageRefInc page).pageRefDec (ptePpn (m.entry pd la)) =
        (m.pageRefDec (ptePpn (m.entry pd la))).pageRefInc page := by
      unfold pageRefDec pageRefInc setPageRef
      simp only [Function.update_of_ne hne, Function.update_of_ne hne.symm,
        Function.update_comm hne]
    have hkeep : ((m.pageRefDec (ptePpn (m.entry pd la))).pageRefInc page).ref
        (ptePpn (m.entry pd la)) = (m.pageRefDec (ptePpn (m.entry pd la))).ref
        (ptePpn (m.entry pd la)) := Function.update_of_ne hne _ _
    rw [hcomm, hkeep]
    by_cases hz : (m.pageRefDec (ptePpn (m.entry pd la))).ref (ptePpn (m.entry pd la)) = 0
    · rw [if_pos hz, if_pos hz]
      have hfree : ∀ x : Mem M, (x.pageRefInc page).freePage (ptePpn (m.entry pd la)) =
          (x.freePage (ptePpn (m.entry pd la))).pageRefInc page := by
        intro x
        unfold Mem.freePage pageRefInc setPageRef
        simp only [Function.update_of_ne hne.symm, Function.update_comm hne]
      rw [hfree, pageRefInc, hset]
      simp only [pageRefInc, setEntry_ref]
    · rw [if_neg hz, if_neg hz, pageRefInc, hset]
      simp only [pageRefInc, setEntry_ref]
  · simp only [hv, Bool.false_eq_true, if_false]

/-- The end of `page_insert`: the count is raised and an empty entry is written. -/
theorem RefInv.fillEntry (hi : RefInv K F m) {pd la page perm : ℕ} (ht : m.HasTable pd la)
    (hla : la < userTop) (hnone : m.holds (pd, la / pgSize) = none)
    (hmap : Mappable m page perm) (hperm : perm < pteFlagLimit) :
    RefInv K (F \ {page}) ((m.pageRefInc page).setEntry pd la (pteCreate page perm)) ∧
      Changed m ((m.pageRefInc page).setEntry pd la (pteCreate page perm)) pd la
        (pteCreate page perm) := by
  have hset : EntrySet m ((m.pageRefInc page).setEntry pd la (pteCreate page perm)) pd la
      (pteCreate page perm) :=
    entrySet_setEntry (m := m.pageRefInc page) ht hla _
  refine ⟨hi.filled (hi.pgdir_lt ht) hla hnone hmap hperm hset ?_ ?_ ?_ ?_, hset, ?_, ?_⟩
  · intro t
    rw [tableAt_setEntry]
    cases t <;> rfl
  · rw [setEntry_ref]
    exact Function.update_self _ _ _
  · intro q hq
    rw [setEntry_ref]
    exact Function.update_of_ne hq _ _
  · intro q
    rw [setEntry_isFree]
    exact Iff.rfl
  · intro q _
    rw [setEntry_data]
    rfl
  · intro pd'
    rw [setEntry_pgdir_isSome]
    rfl

/-- Rewriting a valid entry with the same page. -/
theorem RefInv.markEntry (hi : RefInv K F m) (perm : ℕ) {pd la page : ℕ} (ht : m.HasTable pd la)
    (hla : la < userTop) (hold : m.holds (pd, la / pgSize) = some page)
    (hwrite : hasFlag perm pteW = true → m.mapCount page = 1) (hperm : perm < pteFlagLimit) :
    RefInv K F (m.setEntry pd la (pteCreate page perm)) ∧
      Changed m (m.setEntry pd la (pteCreate page perm)) pd la (pteCreate page perm) := by
  have hset := entrySet_setEntry ht hla (pteCreate page perm)
  refine ⟨hi.marked (hi.pgdir_lt ht) hla hold hwrite hperm hset (tableAt_setEntry m pd la _)
    (setEntry_ref m pd la _) (setEntry_isFree m pd la _), hset, ?_, setEntry_pgdir_isSome m pd la _⟩
  intro q _
  rw [setEntry_data]

theorem hasFlag_pteV_or (perm : ℕ) : hasFlag (pteV ||| perm) pteW = hasFlag perm pteW := by
  rw [show pteW = 2 ^ 2 from rfl, hasFlag_or, show hasFlag pteV (2 ^ 2) = false from by decide,
    Bool.false_or]

theorem Insertable.or_valid {page perm : ℕ} (h : Insertable F m page perm) :
    Insertable F m page (pteV ||| perm) := by
  unfold Insertable at *
  rw [hasFlag_pteV_or]
  exact h

/-- `page_insert`: fails only for lack of a table page and then changes no mapping;
otherwise the entry points to the page, whatever it pointed to before. -/
theorem RefInv.pageInsert (hi : RefInv K F m) {pd page la perm : ℕ} {r : ℤ} (hla : la < userTop)
    (hperm : perm < pteFlagLimit) (hpage : Insertable F m page perm)
    (h : m.pageInsert pd page la perm = some (r, m')) :
    (r = -eNoMem ∧ RefInv K F m' ∧ SameMap m m') ∨
      (r = 0 ∧ RefInv K (F \ {page}) m' ∧
        Changed m m' pd la (pteCreate page (pteV ||| perm))) := by
  unfold Mem.pageInsert at h
  rw [Option.bind_eq_bind, Option.bind_eq_some_iff] at h
  obtain ⟨⟨ok, m₁⟩, h₁, h⟩ := h
  obtain ⟨hw, htab, -⟩ := hi.getPte h₁
  cases ok with
  | false =>
    simp only [Bool.not_false, if_true, Option.some.injEq, Prod.mk.injEq] at h
    obtain ⟨rfl, rfl⟩ := h
    exact Or.inl ⟨rfl, hw.inv, hw.same⟩
  | true =>
    simp only [Bool.not_true, Bool.false_eq_true, if_false, Option.some.injEq,
      Prod.mk.injEq] at h
    obtain ⟨rfl, h⟩ := h
    have ht := htab rfl
    have hi₁ := hw.inv
    have hpage₁ := (hw.same.insertable hpage).or_valid
    have hperm' : pteV ||| perm < pteFlagLimit := or_lt_flagLimit (by decide) hperm
    refine Or.inr ⟨rfl, ?_⟩
    have hentry : (m₁.pageRefInc page).entry pd la = m₁.entry pd la := rfl
    rw [hentry] at h
    by_cases hv : hasFlag (m₁.entry pd la) pteV
    · rw [if_pos hv] at h
      have hholds : m₁.holds (pd, la / pgSize) = some (ptePpn (m₁.entry pd la)) := by
        rw [holds_eq_some_iff, entry_page]
        exact ⟨hv, rfl⟩
      by_cases hsame : ptePpn (m₁.entry pd la) = page
      · -- the entry already pointed to the page
        rw [if_pos hsame, pageRefDec_pageRefInc] at h
        rw [hsame] at hholds
        have hmap := hi₁.mappable hpage₁
        have hpos : 0 < m₁.mapCount page :=
          holders_pos_iff.mpr ⟨_, mem_slots (hi₁.pgdir_lt ht) hla, hholds⟩
        have hnotF := (hi₁.busy_of_mapped hpos).1
        obtain ⟨hi₂, hc⟩ := hi₁.markEntry _ ht hla hholds
          (fun hwp => absurd (hmap.write hwp) hpos.ne') hperm'
        rw [h] at hi₂ hc
        rw [Set.sdiff_singleton_eq_self hnotF]
        exact ⟨hi₂, hw.same.changed hc⟩
      · rw [if_neg hsame, pageRemovePte_pageRefInc hsame] at h
        obtain ⟨hi₂, hrem⟩ := hi₁.pageRemovePte ht hla hholds
        have hpage₂ := hrem.insertable (hi₁.pgdir_lt ht) hla hholds (Ne.symm hsame) hpage₁
        have hnone : (m₁.pageRemovePte pd la).holds (pd, la / pgSize) = none := by
          rw [hrem.changed.entry.holds_zero _ (mem_slots (hi₁.pgdir_lt ht) hla),
            Function.update_self]
        obtain ⟨hi₃, hc⟩ := hi₂.fillEntry hrem.hasTable hla hnone (hi₂.mappable hpage₂) hperm'
        rw [h] at hi₃ hc
        refine ⟨hi₃, hw.same.changed ⟨?_, ?_, ?_⟩⟩
        · exact hrem.changed.entry.trans hc.entry
        · intro q hq
          rw [← h, setEntry_data]
          exact hrem.changed.data q hq
        · intro pd'
          exact (hc.pgdir pd').trans (hrem.changed.pgdir pd')
    · rw [if_neg hv] at h
      have hnone : m₁.holds (pd, la / pgSize) = none := by
        unfold holds slotEntry
        rw [entry_page]
        simp [hv]
      obtain ⟨hi₂, hc⟩ := hi₁.fillEntry ht hla hnone (hi₁.mappable hpage₁) hperm'
      rw [h] at hi₂ hc
      exact ⟨hi₂, hw.same.changed hc⟩

end Mem
end Ucore.Vm
