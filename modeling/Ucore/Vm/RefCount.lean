import Ucore.Vm.PageSlots

/-!
The reference-count invariant of user memory: the count of a page is `page_ref`,
a writable entry is the only one that points to its page, and a free page is
neither mapped nor a table. The elementary operations of `pmm.c` keep it.
-/
namespace Ucore.Vm

open Library

namespace Mem

variable {M : PmmManager}

/-- The invariant, with pages `F` that are allocated but not yet mapped, and pages
`K` that must not be lost. -/
structure RefInv (K : Set ℕ) (F : Set ℕ) (m : Mem M) : Prop where
  counted : Counted (slots M) m.holds m.Writable m.ref m.IsFree
  held_lt : ∀ k ∈ slots M, ∀ p, m.holds k = some p → p < M.npage
  fresh : ∀ p ∈ F, ¬ m.IsFree p ∧ p < M.npage ∧ m.mapCount p = 0 ∧ m.ref p = 0 ∧ ¬ m.IsTable p
  table : ∀ p, m.IsTable p → ¬ m.IsFree p ∧ p < M.npage ∧ m.mapCount p = 0
  table_inj : ∀ a b p, m.tableAt a = some p → m.tableAt b = some p → a = b
  kept : ∀ p ∈ K, m.IsFree p ∨ 0 < m.mapCount p ∨ m.IsTable p ∨ p ∈ F

/-- Nothing but free pages changed: what `get_pte` leaves alone. -/
structure SameMap (m m' : Mem M) : Prop where
  entry : ∀ pd la, m'.entry pd la = m.entry pd la
  ref : ∀ p, ¬ m.IsFree p → m'.ref p = m.ref p
  data : ∀ p, ¬ m.IsFree p → m'.data p = m.data p
  free : ∀ p, m'.IsFree p → m.IsFree p
  pgdir : ∀ pd, (m'.pgdir pd).isSome = (m.pgdir pd).isSome

theorem SameMap.refl (m : Mem M) : SameMap m m :=
  ⟨fun _ _ => rfl, fun _ _ => rfl, fun _ _ => rfl, fun _ h => h, fun _ => rfl⟩

theorem SameMap.trans {m m' m'' : Mem M} (h : SameMap m m') (h' : SameMap m' m'') :
    SameMap m m'' where
  entry pd la := (h'.entry pd la).trans (h.entry pd la)
  ref p hp := (h'.ref p (fun hf => hp (h.free p hf))).trans (h.ref p hp)
  data p hp := (h'.data p (fun hf => hp (h.free p hf))).trans (h.data p hp)
  free p hp := h.free p (h'.free p hp)
  pgdir pd := (h'.pgdir pd).trans (h.pgdir pd)

theorem holds_congr {m m' : Mem M} {k : ℕ × ℕ} (h : m'.slotEntry k = m.slotEntry k) :
    m'.holds k = m.holds k := by
  unfold holds
  rw [h]

theorem SameMap.mapCount {m m' : Mem M} (h : SameMap m m') (p : ℕ) :
    m'.mapCount p = m.mapCount p :=
  holders_congr (fun _ _ => holds_congr (h.entry _ _)) p

variable {K F : Set ℕ} {m m' : Mem M}

/-- A page that is mapped is neither in hand nor a table. -/
theorem RefInv.busy_of_mapped (hi : RefInv K F m) {p : ℕ} (hp : 0 < m.mapCount p) :
    p ∉ F ∧ ¬ m.IsTable p ∧ ¬ m.IsFree p := by
  refine ⟨?_, ?_, ?_⟩
  · intro hf
    have h := (hi.fresh p hf).2.2.1
    omega
  · intro ht
    have h := (hi.table p ht).2.2
    omega
  · intro hf
    have h := (hi.counted.unused p hf).1
    unfold mapCount at hp
    omega

theorem allocPage_eq {p : ℕ} (h : m.allocPage = some (p, m')) :
    ∃ s, M.allocPage m.pmm = some (p, s) ∧ m' = { m with pmm := s } := by
  unfold allocPage at h
  rw [Option.map_eq_some_iff] at h
  obtain ⟨⟨q, s⟩, hs, heq⟩ := h
  obtain ⟨rfl, rfl⟩ := Prod.mk.inj heq
  exact ⟨s, hs, rfl⟩

theorem allocTablePage_pgdir {p : ℕ} (h : m.allocTablePage = some (p, m')) :
    m'.pgdir = m.pgdir := by
  unfold allocTablePage at h
  rw [Option.map_eq_some_iff] at h
  obtain ⟨⟨q, m₀⟩, halloc, heq⟩ := h
  obtain ⟨rfl, rfl⟩ := Prod.mk.inj heq
  obtain ⟨s, -, rfl⟩ := allocPage_eq halloc
  rfl

/-- `alloc_page` hands out a page that was free and now is in hand. -/
theorem RefInv.allocPage (hi : RefInv K F m) {p : ℕ} (h : m.allocPage = some (p, m')) :
    RefInv K (insert p F) m' ∧ m.IsFree p ∧ p ∉ F ∧ SameMap m m' ∧
      m'.pgdir = m.pgdir ∧ m'.ref = m.ref ∧ m'.data = m.data := by
  obtain ⟨s, hs, rfl⟩ := allocPage_eq h
  have hfree : m.IsFree p := M.alloc_isFree _ _ _ hs
  have hiff : ∀ q, M.IsFree s q ↔ m.IsFree q ∧ q ≠ p := M.alloc_iff _ _ _ hs
  have hpF : p ∉ F := fun hp => (hi.fresh p hp).1 hfree
  obtain ⟨hcount, href⟩ := hi.counted.unused p hfree
  refine ⟨⟨?_, hi.held_lt, ?_, ?_, hi.table_inj, ?_⟩, hfree, hpF,
    ⟨fun _ _ => rfl, fun _ _ => rfl, fun _ _ => rfl, fun q hq => ((hiff q).mp hq).1,
      fun _ => rfl⟩, rfl, rfl, rfl⟩
  · exact hi.counted.congr (fun _ _ => rfl) (fun _ _ h => h) (fun _ _ => rfl)
      (fun q hq => ⟨((hiff q).mp hq).1, rfl⟩)
  · intro q hq
    rcases Set.mem_insert_iff.mp hq with rfl | hq
    · exact ⟨fun hf => ((hiff q).mp hf).2 rfl, M.lt_npage _ _ hfree, hcount, href,
        fun ht => (hi.table q ht).1 hfree⟩
    · obtain ⟨hnf, hrest⟩ := hi.fresh q hq
      exact ⟨fun hf => hnf ((hiff q).mp hf).1, hrest⟩
  · intro q hq
    obtain ⟨hnf, hrest⟩ := hi.table q hq
    exact ⟨fun hf => hnf ((hiff q).mp hf).1, hrest⟩
  · intro q hq
    rcases hi.kept q hq with hf | hm | ht | hF
    · by_cases hqp : q = p
      · exact Or.inr (Or.inr (Or.inr (Set.mem_insert_iff.mpr (Or.inl hqp))))
      · exact Or.inl ((hiff q).mpr ⟨hf, hqp⟩)
    · exact Or.inr (Or.inl hm)
    · exact Or.inr (Or.inr (Or.inl ht))
    · exact Or.inr (Or.inr (Or.inr (Set.mem_insert_of_mem p hF)))

/-- A page in hand goes back to the allocator. -/
theorem RefInv.freePage {p : ℕ} (hi : RefInv K F m) (hp : p ∈ F) :
    RefInv K (F \ {p}) (m.freePage p) ∧
      (∀ q, (m.freePage p).IsFree q ↔ m.IsFree q ∨ q = p) := by
  obtain ⟨hnf, hlt, hcount, href, htab⟩ := hi.fresh p hp
  have hiff : ∀ q, (m.freePage p).IsFree q ↔ m.IsFree q ∨ q = p := M.free_iff _ _ hnf hlt
  have hrq : ∀ q, q ≠ p → (m.freePage p).ref q = m.ref q :=
    fun q hq => Function.update_of_ne hq _ _
  refine ⟨⟨⟨?_, hi.counted.alone, ?_⟩, hi.held_lt, ?_, ?_, hi.table_inj, ?_⟩, hiff⟩
  · intro q hq
    have hqp : q ≠ p := by
      rintro rfl
      exact absurd hcount hq.ne'
    rw [hrq q hqp]
    exact hi.counted.ref_eq q hq
  · intro q hq
    by_cases hqp : q = p
    · subst hqp
      exact ⟨hcount, Function.update_self _ _ _⟩
    · rw [hrq q hqp]
      exact hi.counted.unused q (((hiff q).mp hq).resolve_right hqp)
  · rintro q ⟨hq, hqp⟩
    obtain ⟨hnfq, hltq, hcq, hrefq, htq⟩ := hi.fresh q hq
    refine ⟨fun hf => ?_, hltq, hcq, by rw [hrq q hqp]; exact hrefq, htq⟩
    exact ((hiff q).mp hf).elim hnfq hqp
  · intro q hq
    obtain ⟨hnfq, hrest⟩ := hi.table q hq
    refine ⟨fun hf => ?_, hrest⟩
    rcases (hiff q).mp hf with hf | rfl
    · exact hnfq hf
    · exact htab hq
  · intro q hq
    rcases hi.kept q hq with hf | hm | ht | hF
    · exact Or.inl ((hiff q).mpr (Or.inl hf))
    · exact Or.inr (Or.inl hm)
    · exact Or.inr (Or.inr (Or.inl ht))
    · by_cases hqp : q = p
      · exact Or.inl ((hiff q).mpr (Or.inr hqp))
      · exact Or.inr (Or.inr (Or.inr ⟨hF, hqp⟩))

/-- A page in hand becomes the table at a position that had none. -/
theorem RefInv.addTable {p : ℕ} {t₀ : TablePos} (hi : RefInv K (insert p F) m) (hp : p ∉ F)
    (hpmm : m'.pmm = m.pmm) (hentry : ∀ pd la, m'.entry pd la = m.entry pd la)
    (href : ∀ q, q ≠ p → m'.ref q = m.ref q) (hnone : m.tableAt t₀ = none)
    (htab : ∀ t, m'.tableAt t = if t = t₀ then some p else m.tableAt t) :
    RefInv K F m' := by
  obtain ⟨hnf, hlt, hcount, hrefp, hnt⟩ := hi.fresh p (Set.mem_insert p F)
  have hfree : ∀ q, m'.IsFree q ↔ m.IsFree q := fun q => by unfold IsFree; rw [hpmm]
  have hholds : ∀ k, m'.holds k = m.holds k := fun k => holds_congr (hentry _ _)
  have hmap : ∀ q, m'.mapCount q = m.mapCount q := holders_congr (fun k _ => hholds k)
  have hwrite : ∀ k, m'.Writable k → m.Writable k := by
    intro k hw
    unfold Writable slotEntry at *
    rwa [hentry] at hw
  have hne : ∀ q, m.IsTable q → q ≠ p := by
    rintro q hq rfl
    exact hnt hq
  have hold : ∀ t q, m.tableAt t = some q → m'.tableAt t = some q := by
    intro t q hq
    have htt : t ≠ t₀ := by
      rintro rfl
      rw [hnone] at hq
      exact absurd hq (by simp)
    rw [htab, if_neg htt]
    exact hq
  refine ⟨?_, fun k hk q hq => hi.held_lt k hk q (hholds k ▸ hq), ?_, ?_, ?_, ?_⟩
  · apply hi.counted.congr (fun k _ => hholds k) (fun k _ => hwrite k)
    · intro q hq
      apply href
      rintro rfl
      exact absurd hcount hq.ne'
    · intro q hq
      have hqp : q ≠ p := by
        rintro rfl
        exact hnf ((hfree q).mp hq)
      exact ⟨(hfree q).mp hq, href q hqp⟩
  · intro q hq
    have hqp : q ≠ p := fun heq => hp (heq ▸ hq)
    obtain ⟨hnfq, hltq, hcq, hrefq, htq⟩ := hi.fresh q (Set.mem_insert_of_mem p hq)
    refine ⟨fun hf => hnfq ((hfree q).mp hf), hltq, by rw [hmap]; exact hcq,
      by rw [href q hqp]; exact hrefq, ?_⟩
    rintro ⟨t, ht⟩
    rw [htab] at ht
    split at ht
    · exact hqp (Option.some.inj ht).symm
    · exact htq ⟨t, ht⟩
  · rintro q ⟨t, ht⟩
    rw [htab] at ht
    split at ht
    · obtain rfl := Option.some.inj ht
      exact ⟨fun hf => hnf ((hfree _).mp hf), hlt, by rw [hmap]; exact hcount⟩
    · obtain ⟨hnfq, hltq, hcq⟩ := hi.table q ⟨t, ht⟩
      exact ⟨fun hf => hnfq ((hfree q).mp hf), hltq, by rw [hmap]; exact hcq⟩
  · intro a b q ha hb
    rw [htab] at ha hb
    split at ha <;> split at hb
    · rename_i ha' hb'
      rw [ha', hb']
    · obtain rfl := Option.some.inj ha
      exact absurd ⟨b, hb⟩ hnt
    · obtain rfl := Option.some.inj hb
      exact absurd ⟨a, ha⟩ hnt
    · exact hi.table_inj a b q ha hb
  · intro q hq
    rcases hi.kept q hq with hf | hm | ⟨t, ht⟩ | hF
    · exact Or.inl ((hfree q).mpr hf)
    · exact Or.inr (Or.inl (by rw [hmap]; exact hm))
    · exact Or.inr (Or.inr (Or.inl ⟨t, hold t q ht⟩))
    · rcases Set.mem_insert_iff.mp hF with rfl | hF
      · exact Or.inr (Or.inr (Or.inl ⟨t₀, by rw [htab, if_pos rfl]⟩))
      · exact Or.inr (Or.inr (Or.inr hF))

end Mem
end Ucore.Vm
