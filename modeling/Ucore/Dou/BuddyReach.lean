import Ucore.Dou.BuddyRuns

/-!
Which pages `free_pages` looks up. The buddy of a block lies above the last page just when the
block has grown to the end of memory and the next bit of its page number is clear; `pa2page`
panics then. Nothing else can go wrong as long as the descriptors of the pages that were never
handed over have no `PG_property`.
-/
namespace Ucore.Dou

open Library Libs BuddyPmm BuddyNode BuddyUsers

/-- The number of the page of `pages[0]`, `DRAM_BASE / PGSIZE`. -/
def nbase : ℕ := 0x80000

/-- The first page of a block of order `k` after it was joined `i` times. -/
def grown (p k : ℕ) : ℕ → ℕ
  | 0 => p
  | i + 1 => min (grown p k i) (grown p k i ^^^ 2 ^ (k + i))

/-- The page that the block looks up then. -/
def buddyAt (p k i : ℕ) : ℕ := grown p k i ^^^ 2 ^ (k + i)

theorem grown_succ (p k i : ℕ) : grown p k (i + 1) = grown (min p (p ^^^ 2 ^ k)) (k + 1) i := by
  induction i with
  | zero => rfl
  | succ i ih =>
    rw [grown, ih, grown]
    rw [show k + (i + 1) = k + 1 + i by omega]

theorem buddyAt_succ (p k i : ℕ) :
    buddyAt p k (i + 1) = buddyAt (min p (p ^^^ 2 ^ k)) (k + 1) i := by
  unfold buddyAt
  rw [grown_succ, show k + (i + 1) = k + 1 + i by omega]

/-- Flipping one of the lower bits keeps the quotient. -/
theorem xor_two_pow_div_of_lt {p o b : ℕ} (h : o < b) : (p ^^^ 2 ^ o) / 2 ^ b = p / 2 ^ b := by
  rw [← Nat.shiftRight_eq_div_pow, ← Nat.shiftRight_eq_div_pow, Nat.shiftRight_xor_distrib,
    Nat.shiftRight_eq_div_pow (2 ^ o), Nat.div_eq_of_lt (Nat.pow_lt_pow_right Nat.one_lt_two h),
    Nat.xor_zero]

theorem grown_div {p k i b : ℕ} (h : k + i ≤ b) : grown p k i / 2 ^ b = p / 2 ^ b := by
  induction i with
  | zero => rfl
  | succ i ih =>
    have hflip : (grown p k i ^^^ 2 ^ (k + i)) / 2 ^ b = grown p k i / 2 ^ b :=
      xor_two_pow_div_of_lt (by omega)
    rw [grown]
    rcases Nat.le_total (grown p k i) (grown p k i ^^^ 2 ^ (k + i)) with hle | hle
    · rw [Nat.min_eq_left hle]
      exact ih (by omega)
    · rw [Nat.min_eq_right hle, hflip]
      exact ih (by omega)

theorem buddyAt_div {p k i b : ℕ} (h : k + i < b) : buddyAt p k i / 2 ^ b = p / 2 ^ b := by
  unfold buddyAt
  rw [xor_two_pow_div_of_lt h, grown_div (Nat.le_of_lt h)]

/-- A page of the array is looked up, if the page behind the last one is a multiple of the
largest block. -/
theorem buddyAt_lt {p k i b npage : ℕ} (h : k + i < b) (hp : p < npage) (hb : 2 ^ b ∣ npage) :
    buddyAt p k i < npage := by
  have hdiv := buddyAt_div (p := p) h
  obtain ⟨c, rfl⟩ := hb
  have hlt : p / 2 ^ b < c := (Nat.div_lt_iff_lt_mul (Nat.two_pow_pos b)).mpr (by
    rw [Nat.mul_comm]
    exact hp)
  rw [← hdiv] at hlt
  have := (Nat.div_lt_iff_lt_mul (Nat.two_pow_pos b)).mp hlt
  rwa [Nat.mul_comm] at this

namespace BuddyPmm

/-- A flag is set inside `P` only. -/
def Clean (P : ℕ → Prop) (s : BuddyPmm) : Prop := ∀ q, ¬ P q → s.pages.pageProperty q = false

variable {s : BuddyPmm} {P : ℕ → Prop} {own : List (ℕ × ℕ)} {free : ℕ → List ℕ} {p o left : ℕ}

theorem Clean.addBlock (h : Clean P s) (hp : P p) : Clean P (s.addBlock p o) := by
  intro q hq
  have hne : q ≠ p := fun heq => hq (heq ▸ hp)
  simp only [BuddyPmm.addBlock, Pmm.PageDescs.setPageProperty, Pmm.PageDescs.setProperty,
    Function.update_of_ne hne]
  exact h q hq

theorem Clean.delBlock (h : Clean P s) : Clean P (s.delBlock p o) := h

/-- The buddies up to the order `o + i` are all on their lists. -/
def JoinsUpTo (free : ℕ → List ℕ) (p o i : ℕ) : Prop := ∀ j < i, buddyAt p o j ∈ free (o + j)

/-- Wherever the block gets to, its buddy is a page of the machine. -/
def Reaches (free : ℕ → List ℕ) (npage p o left : ℕ) : Prop :=
  ∀ i < left, JoinsUpTo free p o i → buddyAt p o i < npage

/-- The first lookup and the ones behind it. -/
theorem reaches_succ {xs ys : List ℕ} {npage : ℕ} (hfree : free o = xs ++ (p ^^^ 2 ^ o) :: ys) :
    Reaches free npage p o (left + 1) ↔ p ^^^ 2 ^ o < npage ∧
      Reaches (Function.update free o (xs ++ ys)) npage (min p (p ^^^ 2 ^ o)) (o + 1) left := by
  have hfirst : buddyAt p o 0 = p ^^^ 2 ^ o := rfl
  have hother : ∀ j, Function.update free o (xs ++ ys) (o + 1 + j) = free (o + 1 + j) :=
    fun j => Function.update_of_ne (by omega) _ _
  constructor
  · intro h
    refine ⟨h 0 (Nat.succ_pos left) (fun j hj => absurd hj (Nat.not_lt_zero j)), ?_⟩
    intro i hi hjoins
    rw [← buddyAt_succ]
    refine h (i + 1) (by omega) ?_
    intro j hj
    cases j with
    | zero =>
      rw [hfirst, Nat.add_zero, hfree]
      exact List.mem_append_right xs List.mem_cons_self
    | succ j =>
      have hmem := hjoins j (by omega)
      rw [hother, ← buddyAt_succ] at hmem
      rwa [show o + (j + 1) = o + 1 + j by omega]
  · intro h i hi hjoins
    cases i with
    | zero => exact h.1
    | succ i =>
      rw [buddyAt_succ]
      refine h.2 i (by omega) ?_
      intro j hj
      have hmem := hjoins (j + 1) (by omega)
      rw [hother, ← buddyAt_succ]
      rwa [show o + 1 + j = o + (j + 1) by omega]

/-- The loop stops where the buddy is not on its list. -/
theorem reaches_stop {npage : ℕ} (hq : p ^^^ 2 ^ o ∉ free o) :
    Reaches free npage p o (left + 1) ↔ p ^^^ 2 ^ o < npage := by
  constructor
  · intro h
    exact h 0 (Nat.succ_pos left) (fun j hj => absurd hj (Nat.not_lt_zero j))
  · intro h i _ hjoins
    cases i with
    | zero => exact h
    | succ i => exact absurd (hjoins 0 (Nat.succ_pos i)) hq

/-- What looks like a free buddy is on its list, since no other page is flagged. -/
theorem Shape.buddy_mem (h : Shape s P ((p, o) :: own) free NoPage) (hclean : Clean P s)
    (ho : o < maxOrder) :
    p ^^^ 2 ^ o ∈ free o ↔
      s.pages.pageProperty (p ^^^ 2 ^ o) = true ∧ s.pages.property (p ^^^ 2 ^ o) = o := by
  constructor
  · intro hq
    obtain ⟨hprop, hflag⟩ := h.heads o ho _ hq
    exact ⟨hflag, hprop⟩
  · intro hq
    refine h.buddy_listed ?_ hq.1 hq.2
    by_contra hout
    have hno := hclean _ hout
    rw [hq.1] at hno
    cases hno

/-- Some list has a block with all pages of this one. -/
def OnList (free : ℕ → List ℕ) (e : ℕ × ℕ) : Prop :=
  ∃ o < maxOrder, ∃ q ∈ free o, ∀ x ∈ asBlock e, x ∈ asBlock (q, o)

theorem asBlock_join {x : ℕ} (h : x ∈ asBlock (p, o)) :
    x ∈ asBlock (min p (p ^^^ 2 ^ o), o + 1) := by
  have hdouble := Shape.two_pow_succ' o
  simp only [asBlock, Block.mem_def] at h ⊢
  rcases xor_two_pow_cases p o with hx | hx <;> omega

/-- The joining loop returns just when all buddies that it gets to are pages of the machine.
The block is on a list then, alone or as a part of a larger one. -/
theorem mergeLoop_iff (h : Shape s P ((p, o) :: own) free NoPage) (hclean : Clean P s)
    (hleft : o + left = maxOrder - 1) :
    ((∃ s', mergeLoop left s p o = some s') ↔ Reaches free s.npage p o left) ∧
      ∀ s', mergeLoop left s p o = some s' → ∃ free', Shape s' P own free' NoPage ∧
        Clean P s' ∧ OnList free' (p, o) ∧ s'.npage = s.npage ∧
        ∀ b ∈ lookups left s p o, b.1 < s.npage := by
  induction left generalizing s own free p o with
  | zero =>
    have ho : o < maxOrder := by
      unfold maxOrder at hleft ⊢
      omega
    have hp : P p := h.page_of List.mem_cons_self (Block.base_mem (Nat.two_pow_pos o))
    refine ⟨⟨fun _ i hi => absurd hi (Nat.not_lt_zero i), fun _ => ⟨_, rfl⟩⟩, ?_⟩
    intro s' hs'
    rw [mergeLoop, Option.some.injEq] at hs'
    subst hs'
    refine ⟨_, (h.add ho).weaken (fun q hq => hq.1), hclean.addBlock hp, ⟨o, ho, p, ?_, ?_⟩, rfl, ?_⟩
    · exact mem_update_push.mpr (Or.inl ⟨rfl, rfl⟩)
    · exact fun _ hx => hx
    · exact fun b hb => absurd hb List.not_mem_nil
  | succ left ih =>
    have ho : o < maxOrder := by
      unfold maxOrder at hleft ⊢
      omega
    have hp : P p := h.page_of List.mem_cons_self (Block.base_mem (Nat.two_pow_pos o))
    have hlisted := h.buddy_mem hclean ho
    rw [mergeLoop, lookups]
    simp only [buddyOf_eq]
    by_cases hrange : p ^^^ 2 ^ o ≥ s.npage
    · rw [if_pos hrange]
      refine ⟨⟨fun hex => ?_, fun hreach => ?_⟩, fun s' hs' => absurd hs' (by simp)⟩
      · obtain ⟨s', hs'⟩ := hex
        cases hs'
      · have hlt : p ^^^ 2 ^ o < s.npage :=
          hreach 0 (Nat.succ_pos left) (fun j hj => absurd hj (Nat.not_lt_zero j))
        omega
    · rw [if_neg hrange]
      by_cases hstop : (!s.pages.pageProperty (p ^^^ 2 ^ o)) = true ∨
          s.pages.property (p ^^^ 2 ^ o) ≠ o
      · rw [if_pos hstop, if_pos hstop]
        have hq : p ^^^ 2 ^ o ∉ free o := by
          intro hbad
          obtain ⟨hflag, hprop⟩ := hlisted.mp hbad
          rcases hstop with hno | hne
          · rw [hflag] at hno
            cases hno
          · exact hne hprop
        refine ⟨⟨fun _ => (reaches_stop hq).mpr (by omega), fun _ => ⟨_, rfl⟩⟩, ?_⟩
        intro s' hs'
        rw [Option.some.injEq] at hs'
        subst hs'
        refine ⟨_, (h.add ho).weaken (fun q hq => hq.1), hclean.addBlock hp,
          ⟨o, ho, p, ?_, fun _ hx => hx⟩, rfl, ?_⟩
        · exact mem_update_push.mpr (Or.inl ⟨rfl, rfl⟩)
        · intro b hb
          rw [List.mem_singleton] at hb
          subst hb
          exact Nat.not_le.mp hrange
      · rw [if_neg hstop, if_neg hstop]
        rw [not_or, not_not] at hstop
        have hflag : s.pages.pageProperty (p ^^^ 2 ^ o) = true := by
          simpa using hstop.1
        obtain ⟨xs, ys, hfree⟩ := List.append_of_mem (hlisted.mpr ⟨hflag, hstop.2⟩)
        have hmin : (if p ^^^ 2 ^ o < p then p ^^^ 2 ^ o else p) = min p (p ^^^ 2 ^ o) := by
          split <;> omega
        have hjoined := (h.take ho hfree).join hstop.2
        rw [hmin]
        obtain ⟨hiff, hrun⟩ := ih hjoined hclean.delBlock (by omega)
        refine ⟨?_, ?_⟩
        · rw [hiff, reaches_succ hfree]
          exact ⟨fun hr => ⟨by omega, hr⟩, fun hr => hr.2⟩
        · intro s' hs'
          obtain ⟨free', hshape, hclean', ⟨k, hk, q, hqk, hsub⟩, hsame, hlook⟩ := hrun s' hs'
          refine ⟨free', hshape, hclean', ⟨k, hk, q, hqk, ?_⟩, hsame, ?_⟩
          · exact fun x hx => hsub x (asBlock_join hx)
          · intro b hb
            rcases List.mem_cons.mp hb with rfl | hb
            · exact Nat.not_le.mp hrange
            · exact hlook b hb

/-- The lookups lie in the same stretch of the largest blocks as the page. -/
theorem lookups_div {b : ℕ × ℕ} (hleft : o + left ≤ 9) (hb : b ∈ lookups left s p o) :
    b.1 / 2 ^ 9 = p / 2 ^ 9 := by
  induction left generalizing s p o with
  | zero => exact absurd hb List.not_mem_nil
  | succ left ih =>
    have hflip : (p ^^^ 2 ^ o) / 2 ^ 9 = p / 2 ^ 9 := xor_two_pow_div_of_lt (by omega)
    rw [lookups] at hb
    simp only [buddyOf_eq] at hb
    split at hb
    · rw [List.mem_singleton] at hb
      subst hb
      exact hflip
    · rcases List.mem_cons.mp hb with rfl | hb
      · exact hflip
      · rw [ih (by omega) hb]
        split
        · exact hflip
        · rfl

/-- No page below the first one is looked up. -/
theorem lookups_ge {b : ℕ × ℕ} (hleft : o + left ≤ 9) (hp : nbase ≤ p)
    (hb : b ∈ lookups left s p o) : nbase ≤ b.1 := by
  have hdiv := lookups_div hleft hb
  unfold nbase at hp ⊢
  omega

/-- The first pages of the second halves are pages of the block that is cut. -/
theorem Clean.splitLoop {order cur : ℕ} (hclean : Clean P s)
    (hP : ∀ q ∈ asBlock (p, cur), P q) : Clean P (splitLoop p order cur s) := by
  induction cur generalizing s with
  | zero => exact hclean
  | succ cur ih =>
    have hdouble := Shape.two_pow_succ' cur
    have hpos := Nat.two_pow_pos cur
    rw [BuddyPmm.splitLoop]
    by_cases hgt : cur + 1 > order
    · rw [if_pos hgt]
      refine ih (hclean.addBlock (hP _ ?_)) ?_
      · simp only [asBlock, Block.mem_def]
        omega
      · intro q hq
        refine hP q ?_
        simp only [asBlock, Block.mem_def] at hq ⊢
        omega
    · rw [if_neg hgt]
      exact hclean

theorem buddyAllocPages_clean (h : Shape s P own free NoPage) (hclean : Clean P s) {n : ℕ}
    {r : Option ℕ × BuddyPmm} (hr : s.buddyAllocPages n = some r) : Clean P r.2 := by
  unfold buddyAllocPages at hr
  by_cases hn : n = 0
  · rw [if_pos hn, Option.some.injEq] at hr
    subst hr
    exact hclean
  · rw [if_neg hn] at hr
    by_cases hbig : orderLoop n maxOrder 0 ≥ maxOrder
    · rw [if_pos hbig, Option.some.injEq] at hr
      subst hr
      exact hclean
    · rw [if_neg hbig] at hr
      obtain ⟨-, -, h3⟩ := findList_spec h.lists (maxOrder - orderLoop n maxOrder 0)
        (orderLoop n maxOrder 0) (by omega)
      generalize s.findList (maxOrder - orderLoop n maxOrder 0) (orderLoop n maxOrder 0) = cur
        at h3 hr
      rcases h3 with hend | ⟨hlt, hne⟩
      · rw [if_pos hend, Option.some.injEq] at hr
        subst hr
        exact hclean
      · rw [if_neg (by omega)] at hr
        obtain ⟨page, ys, hfree⟩ := List.exists_cons_of_ne_nil hne
        have hnext : s.links.next (freeList cur) = pageLink page := by
          have hhead := (h.lists.ring cur hlt).next_head
          rw [hfree] at hhead
          exact hhead
        have hmem : (page, cur) ∈ own ++ onLists free :=
          List.mem_append_right _ (mem_onLists.mpr ⟨hlt, hfree ▸ List.mem_cons_self⟩)
        simp only [hnext, Option.some.injEq] at hr
        subst hr
        intro q hq
        have hcut : Clean P (BuddyPmm.splitLoop page (orderLoop n maxOrder 0) cur
            (s.delBlock page cur)) :=
          hclean.delBlock.splitLoop (fun q hq => h.page_of hmem hq)
        have hflag := hcut q hq
        by_cases heq : q = page
        · simp only [Pmm.PageDescs.clearPageProperty, heq, Function.update_self]
        · simp only [Pmm.PageDescs.clearPageProperty, Function.update_of_ne heq]
          exact hflag

/-- The second loop of `init_memmap` flags pages of the range only. -/
theorem layout_clean {base total page n : ℕ} {s' : BuddyPmm}
    (hclean : Clean (Managed base total) s) (hbase : base ≤ page)
    (hend : page + n = base + total) (hs' : layout left s page n = some s') :
    Clean (Managed base total) s' := by
  induction left generalizing s page n with
  | zero =>
    rw [layout] at hs'
    split at hs'
    · rw [Option.some.injEq] at hs'
      exact hs' ▸ hclean
    · cases hs'
  | succ left ih =>
    rw [layout] at hs'
    by_cases hzero : n = 0
    · rw [if_pos hzero, Option.some.injEq] at hs'
      exact hs' ▸ hclean
    · rw [if_neg hzero] at hs'
      obtain ⟨-, hfit, -⟩ := fitOrder_spec (show 0 < n by omega) (maxOrder - 1)
      have hpage : Managed base total page := by
        unfold Managed
        omega
      have hpos := Nat.two_pow_pos (fitOrder n (maxOrder - 1))
      exact ih (hclean.addBlock hpage) (by omega) (by omega) hs'

theorem buddyInitMemmap_clean {base n : ℕ} {s' : BuddyPmm}
    (hclean : Clean (Managed base n) s)
    (hres : ∀ q, Managed base n q → s.pages.pageReserved q = true)
    (hs' : s.buddyInit.buddyInitMemmap base n = some s') : Clean (Managed base n) s' := by
  obtain ⟨hpages, -⟩ := initLists_spec s maxOrder
  unfold buddyInitMemmap at hs'
  by_cases hn : n = 0
  · rw [if_pos hn] at hs'
    cases hs'
  · rw [if_neg hn] at hs'
    obtain ⟨d, hd, -, hout⟩ := initPages_spec (d := s.buddyInit.pages) (p := base) (n := n) (by
      intro q hq
      rw [buddyInit, hpages]
      exact hres q hq)
    simp only [hd, Option.bind_eq_bind, Option.bind_some] at hs'
    refine layout_clean ?_ (Nat.le_refl base) rfl hs'
    intro q hq
    have hsame := hout q hq
    rw [buddyInit, hpages] at hsame
    exact hsame.trans (hclean q hq)

end BuddyPmm

namespace BuddyUsers

variable {base n : ℕ} {h : BuddyUsers} {free : ℕ → List ℕ}

/-- Every page that the release of `page` looks up is one of `pages`, the request returns, and
some list has a block with all pages of the one given back. -/
structure FreesInside (h : BuddyUsers) (n page m : ℕ) : Prop where
  inside : ∀ b ∈ h.lookedUp (.freePages page m), nbase ≤ b.1 ∧ b.1 < h.pmm.npage
  listed : ∃ h', h.step (.freePages page m) = some h' ∧
    OnList (fun o => h'.listed n o) (page, requestOrder m)

/-- While the lower buddies are listed the block grows, and its next buddy lies below the end
of memory. -/
def EndsInside (h : BuddyUsers) (n page m : ℕ) : Prop :=
  ∀ i, requestOrder m + i < maxOrder - 1 →
    (∀ j < i, buddyAt page (requestOrder m) j ∈ h.listed n (requestOrder m + j)) →
    buddyAt page (requestOrder m) i < h.pmm.npage

/-- Blocks come back as they were got, and no buddy lies above the end of memory. -/
def Returns (n : ℕ) (h : BuddyUsers) : BuddyOp → Prop
  | .allocPages _ => True
  | .freePages page m => (page, m) ∈ h.live ∧ h.EndsInside n page m

/-- The state between requests, where only managed pages have flags. -/
structure Settled (base n : ℕ) (h : BuddyUsers) (free : ℕ → List ℕ) : Prop where
  sound : Sound base n h free
  clean : Clean (Managed base n) h.pmm
  above : nbase ≤ base

theorem Settled.endsInside_iff (hs : Settled base n h free) (page m : ℕ) :
    h.EndsInside n page m ↔
      Reaches free h.pmm.npage page (requestOrder m) (maxOrder - 1 - requestOrder m) := by
  have hlisted : ∀ i, requestOrder m + i < maxOrder - 1 →
      ((∀ j < i, buddyAt page (requestOrder m) j ∈ h.listed n (requestOrder m + j)) ↔
        JoinsUpTo free page (requestOrder m) i) := by
    intro i hi
    refine forall₂_congr ?_
    intro j hj
    rw [hs.sound.listed_eq (show requestOrder m + j < maxOrder by omega)]
  constructor
  · intro hends i hi hjoins
    exact hends i (by omega) ((hlisted i (by omega)).mpr hjoins)
  · intro hreach i hi hjoins
    exact hreach i (by omega) ((hlisted i hi).mp hjoins)

/-- A live block is given back: whether this stays inside memory can be read off the lists
before. -/
theorem Settled.freePages (hs : Settled base n h free) {page m : ℕ} (hlive : (page, m) ∈ h.live) :
    (h.FreesInside n page m ↔ h.EndsInside n page m) ∧
      ∀ h', h.step (.freePages page m) = some h' → ∃ free', Settled base n h' free' := by
  obtain ⟨hm, ho⟩ := hs.sound.orders _ hlive
  simp only at hm ho
  have hperm : h.own.Perm ((page, requestOrder m) :: own ⟨h.pmm, h.live.erase (page, m)⟩) :=
    (List.perm_cons_erase hlive).map _
  have hpage : nbase ≤ page := by
    have hin := hs.sound.shape.page_of (e := (page, requestOrder m))
      (List.mem_append_left _ (List.mem_map_of_mem hlive)) (Block.base_mem (Nat.two_pow_pos _))
    have habove := hs.above
    exact Nat.le_trans habove hin.1
  obtain ⟨hiff, hrun⟩ := mergeLoop_iff (hs.sound.shape.perm hperm) hs.clean
    (show requestOrder m + (maxOrder - 1 - requestOrder m) = maxOrder - 1 by omega)
  have hstep : h.step (.freePages page m) =
      (mergeLoop (maxOrder - 1 - requestOrder m) h.pmm page (requestOrder m)).map
        (fun s => ⟨s, h.live.erase (page, m)⟩) := by
    simp only [step, buddyFreePages, if_neg hm, freeOrder_spec ho, Option.bind_eq_bind,
      Option.bind_some]
  have hsettled : ∀ s', mergeLoop (maxOrder - 1 - requestOrder m) h.pmm page (requestOrder m) =
      some s' → ∃ free', Settled base n ⟨s', h.live.erase (page, m)⟩ free' ∧
        OnList free' (page, requestOrder m) ∧
        ∀ b ∈ h.lookedUp (.freePages page m), b.1 < h.pmm.npage := by
    intro s' hs'
    obtain ⟨free', hshape, hclean, hlist, hsame, hlook⟩ := hrun s' hs'
    refine ⟨free', ⟨⟨hshape, ?_, ?_⟩, hclean, hs.above⟩, hlist, hlook⟩
    · exact fun e he => hs.sound.orders e (List.mem_of_mem_erase he)
    · rw [hsame]
      exact hs.sound.machine
  rw [hs.endsInside_iff, ← hiff]
  refine ⟨⟨?_, ?_⟩, ?_⟩
  · intro hfrees
    obtain ⟨h', hs', -⟩ := hfrees.listed
    rw [hstep, Option.map_eq_some_iff] at hs'
    obtain ⟨s', hs', -⟩ := hs'
    exact ⟨s', hs'⟩
  · intro hex
    obtain ⟨s', hs'⟩ := hex
    obtain ⟨free', hset, ⟨o, hlt, q, hq, hsub⟩, hlook⟩ := hsettled s' hs'
    have hleft : requestOrder m + (maxOrder - 1 - requestOrder m) ≤ 9 := by
      unfold maxOrder at ho ⊢
      omega
    refine ⟨fun b hb => ⟨lookups_ge hleft hpage hb, hlook b hb⟩,
      ⟨s', h.live.erase (page, m)⟩, ?_, o, hlt, q, ?_, hsub⟩
    · rw [hstep, hs']
      rfl
    · change q ∈ BuddyUsers.listed ⟨s', h.live.erase (page, m)⟩ n o
      rw [hset.sound.listed_eq hlt]
      exact hq
  · intro h' hs'
    rw [hstep, Option.map_eq_some_iff] at hs'
    obtain ⟨s', hs', rfl⟩ := hs'
    obtain ⟨free', hset, -⟩ := hsettled s' hs'
    exact ⟨free', hset⟩

/-- One request that stays inside memory. -/
theorem Settled.step_spec (hs : Settled base n h free) {op : BuddyOp} (hop : h.Returns n op) :
    ∃ h', h.step op = some h' ∧ ∃ free', Settled base n h' free' := by
  cases op with
  | allocPages m =>
    obtain ⟨h', free', hstep, hsound, -⟩ := @Sound.step_spec base n h free hs.sound (.allocPages m)
      ⟨fun b hb => absurd hb List.not_mem_nil, trivial⟩
    refine ⟨h', hstep, free', hsound, ?_, hs.above⟩
    rw [step, Option.map_eq_some_iff] at hstep
    obtain ⟨r, hr, rfl⟩ := hstep
    have hclean := buddyAllocPages_clean hs.sound.shape hs.clean hr
    cases hpage : r.1 with
    | none => exact hclean
    | some page => exact hclean
  | freePages page m =>
    obtain ⟨hlive, hends⟩ := hop
    obtain ⟨hiff, hkept⟩ := hs.freePages hlive
    obtain ⟨h', hstep, -⟩ := (hiff.mpr hends).listed
    exact ⟨h', hstep, hkept h' hstep⟩

/-- Where the end of memory is a multiple of the largest block, no buddy lies above it. -/
theorem Settled.endsInside (hs : Settled base n h free) (hend : 2 ^ 9 ∣ h.pmm.npage) {page m : ℕ}
    (hlive : (page, m) ∈ h.live) : h.EndsInside n page m := by
  intro i hi _
  have hin := hs.sound.shape.page_of (e := (page, requestOrder m))
    (List.mem_append_left _ (List.mem_map_of_mem hlive)) (Block.base_mem (Nat.two_pow_pos _))
  have hpage : page < h.pmm.npage := Nat.lt_of_lt_of_le hin.2 hs.sound.machine
  refine buddyAt_lt ?_ hpage hend
  unfold maxOrder at hi
  omega

/-- For every range of pages behind the first one of the array: in a run whose releases stay
below the end of memory every request returns, and from then on a live block is given back
inside memory just when its buddies lie below the end. -/
theorem frees_inside_iff (s : BuddyPmm) (base n : ℕ) (hn : 0 < n) (habove : nbase ≤ base)
    (hin : base + n ≤ s.npage) (hres : ∀ p, Managed base n p → s.pages.pageReserved p = true)
    (hclean : ∀ p, ¬ Managed base n p → s.pages.pageProperty p = false) :
    ∃ s', s.buddyInit.buddyInitMemmap base n = some s' ∧
      ∀ ops, RunMeets step (Returns n) ⟨s', []⟩ ops →
        ∃ t, runOps step ⟨s', []⟩ ops = some t ∧
          ∀ page m, (page, m) ∈ t.live → (t.FreesInside n page m ↔ t.EndsInside n page m) := by
  obtain ⟨s', free, hinit, hshape, -, hsame⟩ := buddyInitMemmap_spec s hn hres
  refine ⟨s', hinit, ?_⟩
  intro ops hops
  have hset : Settled base n ⟨s', []⟩ free :=
    ⟨sound_init hshape hsame hin, buddyInitMemmap_clean hclean hres hinit, habove⟩
  obtain ⟨t, hrun, free', ht⟩ := runOps_total
    (fun h op (hinv : ∃ free, Settled base n h free) hop => by
      obtain ⟨free, hs⟩ := hinv
      exact hs.step_spec hop) ⟨free, hset⟩ hops
  refine ⟨t, hrun, ?_⟩
  intro page m hlive
  exact (ht.freePages hlive).1

/-- Seven pages at an odd page number, one of them in use. -/
theorem frees_inside_seven :
    ∃ s', (machine 0x88000).buddyInit.buddyInitMemmap 0x80001 7 = some s' ∧
      ∃ t, runOps step ⟨s', []⟩ [.allocPages 1] = some t ∧
        ∀ page m, (page, m) ∈ t.live → (t.FreesInside 7 page m ↔ t.EndsInside 7 page m) := by
  obtain ⟨s', hinit, hruns⟩ := frees_inside_iff (machine 0x88000) 0x80001 7 (by omega)
    (by unfold nbase; omega) (by simp [machine]) (fun _ _ => rfl) (fun _ _ => rfl)
  exact ⟨s', hinit, hruns [.allocPages 1] ⟨trivial, fun _ _ => trivial⟩⟩

/-- The last page of a machine, with an even number, is given back: its buddy would be the page
behind it. -/
theorem last_page_panics :
    ∃ s', (machine 0x80303).buddyInit.buddyInitMemmap 0x80302 1 = some s' ∧
      ∃ t, runOps step ⟨s', []⟩ [.allocPages 1] = some t ∧ (0x80302, 1) ∈ t.live ∧
        t.step (.freePages 0x80302 1) = none ∧ ¬ t.FreesInside 1 0x80302 1 := by
  refine ⟨_, rfl, _, rfl, List.mem_cons_self, by decide +kernel, ?_⟩
  intro hfrees
  have hin := (hfrees.inside (0x80303, 0) (by decide +kernel)).2
  revert hin
  decide +kernel

end BuddyUsers
end Ucore.Dou
