import Ucore.Dou.BuddyRequests

/-!
What `init` and `init_memmap` leave: the pages cut into blocks, the largest ones first.
-/
namespace Ucore.Dou

open Library Libs BuddyPmm BuddyNode BuddyUsers

/-- The pages under the manager's control. -/
def Managed (base n : ℕ) (p : ℕ) : Prop := base ≤ p ∧ p < base + n

namespace BuddyPmm

variable {s : BuddyPmm}

/-- After `init` all lists are empty. -/
theorem initLists_spec (s : BuddyPmm) (k : ℕ) :
    (s.initLists k).pages = s.pages ∧ (s.initLists k).npage = s.npage ∧
      RingFamily (s.initLists k).links freeList pageLink k (fun _ => []) ∧
      ∀ o < k, (s.initLists k).nrFree o = 0 := by
  induction k with
  | zero =>
    refine ⟨rfl, rfl, ⟨?_, ?_⟩, ?_⟩
    · exact fun o ho => absurd ho (Nat.not_lt_zero o)
    · exact fun o ho => absurd ho (Nat.not_lt_zero o)
    · exact fun o ho => absurd ho (Nat.not_lt_zero o)
  | succ k ih =>
    obtain ⟨hpages, hnpage, hlists, hzero⟩ := ih
    refine ⟨hpages, hnpage, hlists.init_step distinctNodes (fun _ _ => rfl) rfl, ?_⟩
    intro o ho
    simp only [initLists]
    by_cases heq : o = k
    · rw [heq, Function.update_self]
    · rw [Function.update_of_ne heq]
      exact hzero o (by omega)

/-- The first loop of `init_memmap` clears the flags. -/
theorem initPages_spec {d : Pmm.PageDescs} {p n : ℕ}
    (h : ∀ q, Managed p n q → d.pageReserved q = true) :
    ∃ d', initPages d p n = some d' ∧ (∀ q, Managed p n q → d'.pageProperty q = false) ∧
      ∀ q, ¬ Managed p n q → d'.pageProperty q = d.pageProperty q := by
  induction n generalizing d p with
  | zero =>
    refine ⟨d, rfl, ?_, fun _ _ => rfl⟩
    intro q hq
    unfold Managed at hq
    omega
  | succ n ih =>
    have hp : d.pageReserved p = true := h p ⟨Nat.le_refl p, by omega⟩
    obtain ⟨d', hd', hin, hout⟩ := ih
      (d := ((d.clearFlags p).setPageRef p 0).clearPageProperty p) (p := p + 1) (by
        intro q hq
        unfold Managed at h hq
        have hne : q ≠ p := by omega
        simp only [Pmm.PageDescs.clearFlags, Pmm.PageDescs.setPageRef,
          Pmm.PageDescs.clearPageProperty, Function.update_of_ne hne]
        exact h q (by omega))
    refine ⟨d', ?_, ?_, ?_⟩
    · rw [initPages, if_pos hp]
      exact hd'
    · intro q hq
      by_cases heq : q = p
      · rw [heq, hout p (by unfold Managed; omega)]
        simp only [Pmm.PageDescs.clearPageProperty, Function.update_self]
      · exact hin q (by unfold Managed at hq ⊢; omega)
    · intro q hq
      have hne : q ≠ p := by
        unfold Managed at hq
        omega
      rw [hout q (by unfold Managed at hq ⊢; omega)]
      simp only [Pmm.PageDescs.clearFlags, Pmm.PageDescs.setPageRef,
        Pmm.PageDescs.clearPageProperty, Function.update_of_ne hne]

theorem fitOrder_spec {n : ℕ} (hn : 0 < n) (k : ℕ) :
    fitOrder n k ≤ k ∧ 2 ^ fitOrder n k ≤ n ∧ (fitOrder n k = k ∨ n < 2 ^ (fitOrder n k + 1)) := by
  induction k with
  | zero =>
    refine ⟨Nat.le_refl 0, ?_, Or.inl rfl⟩
    simp only [fitOrder, Nat.pow_zero]
    omega
  | succ k ih =>
    rw [fitOrder]
    by_cases hgt : 2 ^ (k + 1) > n
    · rw [if_pos hgt]
      obtain ⟨h1, h2, h3⟩ := ih
      refine ⟨by omega, h2, Or.inr ?_⟩
      rcases h3 with h3 | h3
      · rw [h3]
        exact hgt
      · exact h3
    · rw [if_neg hgt]
      exact ⟨Nat.le_refl _, by omega, Or.inl rfl⟩

/-- The blocks that `init_memmap` lays out: each begins at a multiple of its size from
`base`, and one below the last order is the first half of a block that does not fit. -/
def Laid (base total : ℕ) (free : ℕ → List ℕ) : Prop :=
  ∀ o < maxOrder, ∀ p ∈ free o, base ≤ p ∧ (p - base) % 2 ^ o = 0 ∧
    (o < maxOrder - 1 → (p - base) % 2 ^ (o + 1) = 0 ∧ base + total < p + 2 ^ (o + 1))

/-- Where the second loop of `init_memmap` stands: what is left fits below the last size. -/
def AtPhase (off n : ℕ) : Prop :=
  ∃ k ≤ maxOrder - 1, off % 2 ^ k = 0 ∧ (n < 2 ^ k ∨ k = maxOrder - 1)

/-- One turn of the second loop. -/
theorem AtPhase.next {off n : ℕ} (h : AtPhase off n) (hn : 0 < n) :
    AtPhase (off + 2 ^ fitOrder n (maxOrder - 1)) (n - 2 ^ fitOrder n (maxOrder - 1)) ∧
      off % 2 ^ fitOrder n (maxOrder - 1) = 0 ∧
      (fitOrder n (maxOrder - 1) < maxOrder - 1 →
        off % 2 ^ (fitOrder n (maxOrder - 1) + 1) = 0 ∧
        n < 2 ^ (fitOrder n (maxOrder - 1) + 1)) := by
  obtain ⟨h1, h2, h3⟩ := fitOrder_spec hn (maxOrder - 1)
  obtain ⟨o, ho⟩ : ∃ o, o = fitOrder n (maxOrder - 1) := ⟨_, rfl⟩
  rw [← ho] at h1 h2 h3 ⊢
  obtain ⟨k, hk, hoff, hfit⟩ := h
  have hok : o ≤ k ∧ (o < maxOrder - 1 → o + 1 ≤ k) := by
    rcases hfit with hfit | hlast
    · have hlt : o < k := (Nat.pow_lt_pow_iff_right Nat.one_lt_two).mp (by omega)
      exact ⟨by omega, fun _ => hlt⟩
    · exact ⟨by omega, fun hlt => by omega⟩
  have hmod : ∀ j ≤ k, off % 2 ^ j = 0 := fun j hj =>
    Nat.mod_eq_zero_of_dvd ((Nat.pow_dvd_pow 2 hj).trans (Nat.dvd_of_mod_eq_zero hoff))
  refine ⟨⟨o, h1, ?_, ?_⟩, hmod o hok.1, ?_⟩
  · rw [Nat.add_mod_right]
    exact hmod o hok.1
  · rcases h3 with h3 | h3
    · exact Or.inr h3
    · refine Or.inl ?_
      rw [Nat.pow_succ] at h3
      omega
  · intro hlt
    refine ⟨hmod (o + 1) (hok.2 hlt), h3.resolve_left (by omega)⟩

/-- The second loop of `init_memmap`. -/
theorem layout_spec {base total page n left : ℕ} {free : ℕ → List ℕ}
    (h : Shape s (fun q => base ≤ q ∧ q < page) [] free NoPage) (hbase : base ≤ page)
    (hend : page + n = base + total) (hleft : n ≤ left)
    (hflags : ∀ q, page ≤ q → q < base + total → s.pages.pageProperty q = false)
    (hphase : AtPhase (page - base) n) (hlaid : Laid base total free) :
    ∃ s' free', layout left s page n = some s' ∧
      Shape s' (Managed base total) [] free' NoPage ∧ Laid base total free' ∧
      s'.npage = s.npage := by
  induction left generalizing s page n free with
  | zero =>
    obtain rfl : n = 0 := by omega
    refine ⟨s, free, rfl, ?_, hlaid, rfl⟩
    have hpage : page = base + total := by omega
    rw [hpage] at h
    exact h
  | succ left ih =>
    rw [layout]
    by_cases hzero : n = 0
    · subst hzero
      rw [if_pos rfl]
      refine ⟨s, free, rfl, ?_, hlaid, rfl⟩
      have hpage : page = base + total := by omega
      rw [hpage] at h
      exact h
    · rw [if_neg hzero]
      obtain ⟨hnext, hoff, hlast⟩ := hphase.next (by omega)
      obtain ⟨h1, h2, -⟩ := fitOrder_spec (show 0 < n by omega) (maxOrder - 1)
      obtain ⟨o, ho⟩ : ∃ o, o = fitOrder n (maxOrder - 1) := ⟨_, rfl⟩
      rw [← ho] at hnext hoff hlast h1 h2 ⊢
      have hmax : o < maxOrder := by
        unfold maxOrder at h1 ⊢
        omega
      have hextended : Shape s (fun q => base ≤ q ∧ q < page + 2 ^ o) [(page, o)] free NoPage := by
        refine h.extend ?_ ?_
        · intro q hq
          simp only [asBlock, Block.mem_def] at hq
          exact ⟨by omega, hflags q hq.1 (by omega)⟩
        · intro q
          simp only [asBlock, Block.mem_def]
          have hpos := Nat.two_pow_pos o
          omega
      have hadded := (hextended.add hmax).weaken (y := NoPage) (fun q hq => hq.1)
      have hpos := Nat.two_pow_pos o
      refine ih (n := n - 2 ^ o) hadded (by omega) (by omega) (by omega) ?_ ?_ ?_
      · intro q hq1 hq2
        have hne : q ≠ page := by omega
        simp only [addBlock, Pmm.PageDescs.setPageProperty, Pmm.PageDescs.setProperty,
          Function.update_of_ne hne]
        exact hflags q (by omega) hq2
      · rw [show page + 2 ^ o - base = page - base + 2 ^ o by omega]
        exact hnext
      · intro k hk p hp
        rcases mem_update_push.mp hp with ⟨rfl, rfl⟩ | hp
        · refine ⟨hbase, hoff, fun hlt => ?_⟩
          obtain ⟨h3, h4⟩ := hlast hlt
          exact ⟨h3, by omega⟩
        · exact hlaid k hk p hp

/-- What `init_memmap` leaves. -/
theorem buddyInitMemmap_spec (s : BuddyPmm) {base n : ℕ} (hn : 0 < n)
    (hres : ∀ q, Managed base n q → s.pages.pageReserved q = true) :
    ∃ s' free, s.buddyInit.buddyInitMemmap base n = some s' ∧
      Shape s' (Managed base n) [] free NoPage ∧ Laid base n free ∧ s'.npage = s.npage := by
  obtain ⟨hpages, hnpage, hlists, hzero⟩ := initLists_spec s maxOrder
  obtain ⟨d, hd, hclear, -⟩ := initPages_spec (d := s.buddyInit.pages) (p := base) (n := n) (by
    intro q hq
    rw [buddyInit, hpages]
    exact hres q hq)
  have hempty : Shape { s.buddyInit with pages := d } (fun q => base ≤ q ∧ q < base) []
      (fun _ => []) NoPage := by
    refine ⟨hlists, ?_, ?_, ?_, ?_⟩
    · have hnil : onLists (fun _ => []) = [] := by
        simp [onLists, pooled]
      rw [hnil]
      exact Tiling.nil (fun q hq => by omega)
    · exact fun o _ p hp => absurd hp List.not_mem_nil
    · exact fun q hq => by omega
    · intro o ho
      simp only [buddyInit, hzero o ho, List.length_nil]
      rfl
  obtain ⟨s', free, hrun, hshape, hlaid, hsame⟩ := layout_spec hempty
    (Nat.le_refl base) (show base + n = base + n from rfl) (Nat.le_refl n) (fun q h1 h2 => hclear q ⟨h1, h2⟩)
    ⟨maxOrder - 1, Nat.le_refl _, by simp, Or.inr rfl⟩
    (fun o _ p hp => absurd hp List.not_mem_nil)
  refine ⟨s', free, ?_, hshape, hlaid, hsame.trans hnpage⟩
  rw [buddyInitMemmap, if_neg (Nat.pos_iff_ne_zero.mp hn)]
  simp only [hd, Option.bind_eq_bind, Option.bind_some]
  exact hrun

end BuddyPmm
end Ucore.Dou
