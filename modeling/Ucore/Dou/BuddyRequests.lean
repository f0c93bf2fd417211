import Ucore.Dou.BuddyShape

/-!
What the requests do to the lists and the blocks. The cutting of a block and the joining of
blocks are described by what happens to the lists alone.
-/
namespace Ucore.Dou.BuddyPmm

open Library Libs BuddyNode BuddyUsers

/-- Joining from the block in hand on: the orders at which a buddy is looked up, and the
lists at the end. -/
inductive Merged : (ℕ → List ℕ) → ℕ × ℕ → List ℕ → (ℕ → List ℕ) → Prop
  | last (free : ℕ → List ℕ) (p : ℕ) :
    Merged free (p, maxOrder - 1) []
      (Function.update free (maxOrder - 1) (p :: free (maxOrder - 1)))
  | stop {free : ℕ → List ℕ} {p o : ℕ} (ho : o < maxOrder - 1) (hq : p ^^^ 2 ^ o ∉ free o) :
    Merged free (p, o) [o] (Function.update free o (p :: free o))
  | join {free free' : ℕ → List ℕ} {p o : ℕ} {xs ys os : List ℕ} (ho : o < maxOrder - 1)
    (hfree : free o = xs ++ (p ^^^ 2 ^ o) :: ys)
    (hrest : Merged (Function.update free o (xs ++ ys)) (min p (p ^^^ 2 ^ o), o + 1) os free') :
    Merged free (p, o) (o :: os) free'

/-- Cutting the block at `p` down to an order: the second halves go to their lists. -/
inductive Cut (p order : ℕ) : ℕ → (ℕ → List ℕ) → (ℕ → List ℕ) → Prop
  | done (free : ℕ → List ℕ) : Cut p order order free free
  | half {free free' : ℕ → List ℕ} {c : ℕ} (hc : order ≤ c)
    (hrest : Cut p order c (Function.update free c ((p + 2 ^ c) :: free c)) free') :
    Cut p order (c + 1) free free'

section merge

variable {s : BuddyPmm} {P : ℕ → Prop} {own : List (ℕ × ℕ)} {free : ℕ → List ℕ} {p o left : ℕ}

/-- The joining loop ends with the block on a list. -/
theorem mergeLoop_spec (h : Shape s P ((p, o) :: own) free NoPage)
    (hleft : o + left = maxOrder - 1)
    (hlook : ∀ b ∈ lookups left s p o, P b.1 ∧ b.1 < s.npage) :
    ∃ s' free', mergeLoop left s p o = some s' ∧ Shape s' P own free' NoPage ∧
      Merged free (p, o) ((lookups left s p o).map Prod.snd) free' ∧ s'.npage = s.npage := by
  induction left generalizing s own free p o with
  | zero =>
    have ho : o = maxOrder - 1 := hleft
    subst ho
    refine ⟨_, _, rfl, (h.add (by unfold maxOrder; omega)).weaken ?_, Merged.last free p, rfl⟩
    exact fun q hq => hq.1
  | succ left ih =>
    have ho : o < maxOrder - 1 := by omega
    have ho' : o < maxOrder := by
      unfold maxOrder at ho ⊢
      omega
    rw [mergeLoop]
    rw [lookups] at hlook ⊢
    simp only [buddyOf_eq] at hlook ⊢
    by_cases hstop : (!s.pages.pageProperty (p ^^^ 2 ^ o)) = true ∨
        s.pages.property (p ^^^ 2 ^ o) ≠ o
    · rw [if_pos hstop] at hlook ⊢
      have hin := hlook _ (List.mem_singleton_self _)
      rw [if_neg (Nat.not_le.mpr hin.2), if_pos hstop]
      refine ⟨_, _, rfl, (h.add ho').weaken (fun q hq => hq.1), Merged.stop ho ?_, rfl⟩
      intro hbad
      obtain ⟨hprop, hflag⟩ := h.heads o ho' _ hbad
      rcases hstop with hno | hne
      · rw [hflag] at hno
        exact absurd hno (by simp)
      · exact hne hprop
    · rw [if_neg hstop] at hlook ⊢
      obtain ⟨hin, hnpage⟩ := hlook _ List.mem_cons_self
      rw [if_neg (Nat.not_le.mpr hnpage), if_neg hstop]
      rw [not_or, not_not] at hstop
      have hflag : s.pages.pageProperty (p ^^^ 2 ^ o) = true := by
        simpa using hstop.1
      obtain ⟨xs, ys, hfree⟩ := List.append_of_mem (h.buddy_listed hin hflag hstop.2)
      have hmin : (if p ^^^ 2 ^ o < p then p ^^^ 2 ^ o else p) = min p (p ^^^ 2 ^ o) := by
        split <;> omega
      have hjoined := (h.take ho' hfree).join hstop.2
      rw [hmin] at hlook ⊢
      obtain ⟨s', free', hrun, hshape, hmerged, hsame⟩ := ih hjoined (by omega)
        (fun b hb => hlook b (List.mem_cons_of_mem _ hb))
      exact ⟨s', free', hrun, hshape, Merged.join ho hfree hmerged, hsame⟩

end merge

section alloc

variable {s : BuddyPmm} {P : ℕ → Prop} {own : List (ℕ × ℕ)} {free : ℕ → List ℕ} {p order cur : ℕ}

theorem splitLoop_spec (h : Shape s P ((p, cur) :: own) free (fun q => q = p))
    (hcur : cur ≤ maxOrder) (hle : order ≤ cur) :
    ∃ free', Shape (splitLoop p order cur s) P ((p, order) :: own) free' (fun q => q = p) ∧
      Cut p order cur free free' ∧ (splitLoop p order cur s).npage = s.npage := by
  induction cur generalizing s free with
  | zero =>
    obtain rfl : order = 0 := by omega
    exact ⟨free, h, Cut.done free, rfl⟩
  | succ cur ih =>
    rw [splitLoop]
    by_cases hgt : cur + 1 > order
    · rw [if_pos hgt]
      obtain ⟨free', hshape, hcut, hsame⟩ := ih (h.splitOff hcur) (by omega) (by omega)
      exact ⟨free', hshape, Cut.half (by omega) hcut, hsame⟩
    · rw [if_neg hgt]
      obtain rfl : order = cur + 1 := by omega
      exact ⟨free, h, Cut.done free, rfl⟩

/-- The search stops at the first list that is not empty. -/
theorem findList_spec (hlists : RingFamily s.links freeList pageLink maxOrder free)
    (left cur : ℕ) (hleft : cur + left = maxOrder) :
    cur ≤ s.findList left cur ∧ (∀ k, cur ≤ k → k < s.findList left cur → free k = []) ∧
      (s.findList left cur = maxOrder ∨
        s.findList left cur < maxOrder ∧ free (s.findList left cur) ≠ []) := by
  induction left generalizing cur with
  | zero =>
    rw [findList]
    exact ⟨Nat.le_refl cur, fun k h1 h2 => by omega, Or.inl hleft⟩
  | succ left ih =>
    rw [findList]
    have hring := hlists.ring cur (by omega)
    by_cases hempty : listEmpty s.links (freeList cur) = true
    · rw [if_pos hempty]
      have hnil := List.map_eq_nil_iff.mp ((listEmpty_iff hring).mp hempty)
      obtain ⟨h1, h2, h3⟩ := ih (cur + 1) (by omega)
      refine ⟨by omega, ?_, h3⟩
      intro k hk hlt
      rcases Nat.eq_or_lt_of_le hk with rfl | hgt
      · exact hnil
      · exact h2 k hgt hlt
    · rw [if_neg hempty]
      refine ⟨Nat.le_refl cur, fun k h1 h2 => by omega, Or.inr ⟨by omega, ?_⟩⟩
      intro hnil
      refine hempty ((listEmpty_iff hring).mpr ?_)
      rw [hnil, List.map_nil]

theorem orderLoop_spec (n left order : ℕ) :
    order ≤ orderLoop n left order ∧ orderLoop n left order ≤ order + left ∧
      (n ≤ 2 ^ orderLoop n left order ∨ orderLoop n left order = order + left) := by
  induction left generalizing order with
  | zero => exact ⟨Nat.le_refl _, Nat.le_refl _, Or.inr rfl⟩
  | succ left ih =>
    rw [orderLoop]
    by_cases hlt : 2 ^ order < n
    · rw [if_pos hlt]
      obtain ⟨h1, h2, h3⟩ := ih (order + 1)
      refine ⟨by omega, by omega, ?_⟩
      rcases h3 with h3 | h3
      · exact Or.inl h3
      · exact Or.inr (by omega)
    · rw [if_neg hlt]
      exact ⟨Nat.le_refl _, by omega, Or.inl (by omega)⟩

/-- No block is large enough for the request. -/
def NoneFits (free : ℕ → List ℕ) (n : ℕ) : Prop :=
  n = 0 ∨ ∀ o < maxOrder, requestOrder n ≤ o → free o = []

/-- What `alloc_pages` returns: `NULL`, or the first page of a block that was cut out of the
first block of the first list with large enough ones. -/
inductive Allocated (s : BuddyPmm) (P : ℕ → Prop) (own : List (ℕ × ℕ)) (free : ℕ → List ℕ)
    (n : ℕ) : Option ℕ × BuddyPmm → Prop
  | null (hnone : NoneFits free n) : Allocated s P own free n (none, s)
  | block {p cur : ℕ} {ys : List ℕ} {s' : BuddyPmm} {free' : ℕ → List ℕ} (hn : n ≠ 0)
    (hle : requestOrder n ≤ cur) (hcur : cur < maxOrder) (hfree : free cur = p :: ys)
    (hcut : Cut p (requestOrder n) cur (Function.update free cur ys) free')
    (hshape : Shape s' P ((p, requestOrder n) :: own) free' NoPage) (hsame : s'.npage = s.npage) :
    Allocated s P own free n (some p, s')

theorem buddyAllocPages_spec (h : Shape s P own free NoPage) (n : ℕ) :
    ∃ r, s.buddyAllocPages n = some r ∧ Allocated s P own free n r := by
  unfold buddyAllocPages
  by_cases hn : n = 0
  · rw [if_pos hn]
    exact ⟨_, rfl, Allocated.null (Or.inl hn)⟩
  · rw [if_neg hn]
    have horder : orderLoop n maxOrder 0 = requestOrder n := rfl
    simp only [horder]
    by_cases hbig : requestOrder n ≥ maxOrder
    · rw [if_pos hbig]
      exact ⟨_, rfl, Allocated.null (Or.inr (fun o ho hle => by omega))⟩
    · rw [if_neg hbig]
      obtain ⟨cur, hcur⟩ : ∃ cur, cur = s.findList (maxOrder - requestOrder n) (requestOrder n) := ⟨_, rfl⟩
      obtain ⟨h1, h2, h3⟩ := findList_spec h.lists (maxOrder - requestOrder n)
        (requestOrder n) (by omega)
      rw [← hcur] at h1 h2 h3 ⊢
      rcases h3 with hend | ⟨hlt, hne⟩
      · rw [if_pos hend]
        refine ⟨_, rfl, Allocated.null (Or.inr (fun o ho hle => h2 o hle (by omega)))⟩
      · rw [if_neg (by omega)]
        obtain ⟨p, ys, hfree⟩ := List.exists_cons_of_ne_nil hne
        have hnext : s.links.next (freeList cur) = pageLink p := by
          have hhead := (h.lists.ring cur hlt).next_head
          rw [hfree] at hhead
          exact hhead
        have hfree' : free cur = [] ++ p :: ys := hfree
        have htaken := (h.take hlt hfree').weaken (y := fun q => q = p)
          (fun q hq => hq.resolve_left (fun hno => hno))
        obtain ⟨free', hshape, hcut, hsame⟩ := splitLoop_spec htaken (by omega) h1
        simp only [hnext]
        exact ⟨_, rfl, Allocated.block hn h1 hlt hfree hcut
          (hshape.clear hshape.hand_unlisted) hsame⟩

end alloc

/-- More turns change nothing once the loop has stopped. -/
theorem orderLoop_more {n left left' order : ℕ} (hlt : orderLoop n left order < order + left)
    (hle : left ≤ left') : orderLoop n left' order = orderLoop n left order := by
  induction left generalizing left' order with
  | zero =>
    rw [orderLoop] at hlt
    omega
  | succ left ih =>
    obtain ⟨left'', rfl⟩ : ∃ l, left' = l + 1 := ⟨left' - 1, by omega⟩
    rw [orderLoop] at hlt ⊢
    rw [orderLoop]
    by_cases hcond : 2 ^ order < n
    · rw [if_pos hcond] at hlt ⊢
      rw [if_pos hcond]
      exact ih (by omega) (by omega)
    · rw [if_neg hcond, if_neg hcond]

/-- `free_pages` finds the order that `alloc_pages` took. -/
theorem freeOrder_spec {n : ℕ} (h : requestOrder n < maxOrder) : freeOrder n = some (requestOrder n) := by
  unfold requestOrder at h
  have hle : n ≤ 2 ^ orderLoop n maxOrder 0 := by
    rcases (orderLoop_spec n maxOrder 0).2.2 with h' | h'
    · exact h'
    · omega
  have hbound : (2 : ℕ) ^ orderLoop n maxOrder 0 ≤ 2 ^ 9 := by
    refine Nat.pow_le_pow_right (by omega) ?_
    unfold maxOrder at h ⊢
    omega
  have hloop : orderLoop n 31 0 = orderLoop n maxOrder 0 :=
    orderLoop_more (by omega) (by unfold maxOrder; omega)
  rw [freeOrder, if_pos (by omega), hloop, requestOrder]

end Ucore.Dou.BuddyPmm
