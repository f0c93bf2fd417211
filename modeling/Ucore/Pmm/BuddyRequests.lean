import Ucore.Pmm.BuddyShape

/-!
What the functions of the buddy manager do to the shape of its state: splitting keeps it,
and joining keeps it as long as only upper buddies are joined.
-/
namespace Ucore.Pmm.BuddyPmm

open Library Libs BuddyNode

variable {P : ℕ → Prop} {live : List Block} {free : ℕ → List ℕ}

theorem orderOfPages_pos (o : ℕ) : 0 < orderOfPages o := Nat.two_pow_pos o

theorem orderOfPages_succ (o : ℕ) : orderOfPages (o + 1) = orderOfPages o + orderOfPages o := by
  unfold orderOfPages
  rw [Nat.pow_succ]
  omega

/-- The offset between index and frame number is a multiple of every block size. -/
theorem orderOfPages_dvd_nbase {o : ℕ} (ho : o ≤ buddyMaxOrder + 1) : orderOfPages o ∣ nbase := by
  have hdvd : orderOfPages o ∣ 2 ^ (buddyMaxOrder + 1) := Nat.pow_dvd_pow 2 ho
  exact Nat.dvd_trans hdvd (by decide)

theorem dvd_turnPageToPfn {p o : ℕ} (ho : o ≤ buddyMaxOrder) :
    orderOfPages o ∣ turnPageToPfn p ↔ orderOfPages o ∣ p :=
  Nat.dvd_add_left (orderOfPages_dvd_nbase (Nat.le_succ_of_le ho))

/-- The buddy is found by flipping a bit of the index. -/
theorem buddyOf_eq {p o : ℕ} (ho : o ≤ buddyMaxOrder) (hp : orderOfPages o ∣ p) :
    buddyOf p o = (p ^^^ orderOfPages o : ℕ) := by
  have hflip : turnPageToPfn p ^^^ orderOfPages o = (p ^^^ orderOfPages o) + nbase :=
    add_xor_two_pow hp (orderOfPages_dvd_nbase (Nat.succ_le_succ ho))
  unfold buddyOf
  rw [hflip, turnPageToPfn]
  omega

/-- A buddy below its block begins the block of the next order. -/
theorem buddy_lower {p o : ℕ} (hp : orderOfPages o ∣ p) (hodd : ¬ orderOfPages (o + 1) ∣ p) :
    (p ^^^ orderOfPages o) + orderOfPages o = p := xor_two_pow_of_not_dvd hp hodd

theorem buddy_upper {p o : ℕ} (hp : orderOfPages (o + 1) ∣ p) :
    p ^^^ orderOfPages o = p + orderOfPages o := xor_two_pow_of_dvd hp

/-- The order that the greedy loop finds fits, and keeps to the alignment. -/
theorem fitOrder_spec {pfn n left k : ℕ} (hk : orderOfPages k ≤ n) (hdvd : orderOfPages k ∣ pfn) :
    fitOrder pfn n left k ≤ left + k ∧ orderOfPages (fitOrder pfn n left k) ≤ n ∧
      orderOfPages (fitOrder pfn n left k) ∣ pfn := by
  induction left generalizing k with
  | zero => exact ⟨by rw [fitOrder]; omega, hk, hdvd⟩
  | succ left ih =>
    by_cases hmore : orderOfPages (k + 1) ≤ n ∧ pfn &&& (orderOfPages (k + 1) - 1) = 0
    · rw [fitOrder, if_pos hmore]
      have hdvd' : orderOfPages (k + 1) ∣ pfn := by
        have hand := hmore.2
        unfold orderOfPages at hand ⊢
        rw [Nat.and_two_pow_sub_one_eq_mod] at hand
        exact Nat.dvd_of_mod_eq_zero hand
      obtain ⟨h1, h2, h3⟩ := ih hmore.1 hdvd'
      exact ⟨by omega, h2, h3⟩
    · rw [fitOrder, if_neg hmore]
      exact ⟨by omega, hk, hdvd⟩

/-- A piece of a block that begins at `base`. -/
theorem fitOrder_piece (base : ℕ) {n : ℕ} (hn : 0 < n) :
    fitOrder (turnPageToPfn base) n buddyMaxOrder 0 ≤ buddyMaxOrder ∧
      orderOfPages (fitOrder (turnPageToPfn base) n buddyMaxOrder 0) ≤ n ∧
      orderOfPages (fitOrder (turnPageToPfn base) n buddyMaxOrder 0) ∣ base := by
  obtain ⟨h1, h2, h3⟩ := @fitOrder_spec (turnPageToPfn base) n buddyMaxOrder 0 hn (one_dvd _)
  exact ⟨h1, h2, (dvd_turnPageToPfn h1).mp h3⟩

theorem pushBlock_spec {s : BuddyPmm} {p o : ℕ}
    (h : Shape s P (⟨p, orderOfPages o⟩ :: live) [] free) (ho : o ≤ buddyMaxOrder)
    (hp : orderOfPages o ∣ p) :
    ∃ s', s.pushBlock p o = some s' ∧
      Shape s' P live [] (Function.update free o (p :: free o)) ∧ Within P s s' := by
  refine ⟨_, if_pos ho, h.mark.link ho hp, ?_⟩
  have hw := h.mark_within
  exact ⟨hw.npage, hw.nrFree, hw.flag, hw.property⟩

/-- From the front of a block of order `o` the first `n` pages are kept, the rest goes to
the lists. -/
theorem splitBlock_spec {o : ℕ} {s : BuddyPmm} {head n : ℕ}
    (h : Shape s P (⟨head, orderOfPages o⟩ :: live) [] free) (ho : o ≤ buddyMaxOrder)
    (hhead : orderOfPages o ∣ head) (hn : 0 < n) (hle : n ≤ orderOfPages o) :
    ∃ s' free', splitBlock o s head n = some (head, s') ∧
      Shape s' P (⟨head, n⟩ :: live) [] free' ∧ Within P s s' := by
  induction o generalizing s head n live free with
  | zero =>
    have hone : n = orderOfPages 0 := by
      have hzero : orderOfPages 0 = 1 := rfl
      omega
    subst hone
    exact ⟨s, free, if_pos rfl, h, Within.refl P s⟩
  | succ o ih =>
    by_cases hall : n = orderOfPages (o + 1)
    · subst hall
      exact ⟨s, free, if_pos rfl, h, Within.refl P s⟩
    · have hsucc := orderOfPages_succ o
      have hpos := orderOfPages_pos o
      have hleft : orderOfPages o ∣ head :=
        Nat.dvd_trans (Nat.pow_dvd_pow 2 (Nat.le_succ o)) hhead
      have hright : orderOfPages o ∣ head + orderOfPages o := Nat.dvd_add hleft (dvd_refl _)
      have ht := h.tiling
      rw [hsucc] at ht
      have hcut : Shape s P (⟨head, orderOfPages o⟩ ::
          ⟨head + orderOfPages o, orderOfPages o⟩ :: live) [] free :=
        h.relive (ht.split hpos hpos)
      have hswap := hcut.live_perm (List.Perm.swap _ _ _)
      by_cases hhalf : n ≤ orderOfPages o
      · obtain ⟨s₁, hs₁, hshape₁, hw₁⟩ := pushBlock_spec hswap (by omega) hright
        obtain ⟨s₂, free₂, hs₂, hshape₂, hw₂⟩ := ih hshape₁ (by omega) hleft hn hhalf
        refine ⟨s₂, free₂, ?_, hshape₂, hw₁.trans hw₂⟩
        simp only [splitBlock, hall, if_false, hhalf, if_true, hs₁, Option.bind_eq_bind,
          Option.bind_some, hs₂]
      · obtain ⟨s₁, free₁, hs₁, hshape₁, hw₁⟩ := ih (n := n - orderOfPages o) hswap (by omega)
          hright (by omega) (by omega)
        have hjoin := (hshape₁.live_perm (List.Perm.swap _ _ _)).tiling.join
        rw [show orderOfPages o + (n - orderOfPages o) = n by omega] at hjoin
        refine ⟨s₁, free₁, ?_, hshape₁.relive hjoin, hw₁⟩
        simp only [splitBlock, hall, if_false, hhalf, hs₁, Option.bind_eq_bind,
          Option.bind_some]

/-- The first page of a list. -/
theorem popBlock_spec {s : BuddyPmm} {o p : ℕ} {ps : List ℕ} (h : Shape s P live [] free)
    (ho : o ≤ buddyMaxOrder) (hfree : free o = p :: ps) :
    ∃ s' free', s.popBlock o = some (some p, s') ∧
      Shape s' P (⟨p, orderOfPages o⟩ :: live) [] free' ∧ Within P s s' := by
  have hring := h.lists.ring o ho
  have hnext : s.links.next (flist o) = pageLink p := by
    rw [hring.next_head, hfree]
    rfl
  have hne : ¬ listEmpty s.links (flist o) = true := by
    rw [listEmpty_iff hring, hfree]
    simp
  have hp : P p := by
    refine (h.tiling.cover p).mpr ⟨⟨p, orderOfPages o⟩, ?_, ?_⟩
    · exact List.mem_append_right _ (Shape.mem_listed ho (hfree ▸ List.mem_cons_self))
    · exact Block.base_mem (b := ⟨p, orderOfPages o⟩) (orderOfPages_pos o)
  have hout : ∀ q, ¬ P q → q ≠ p := fun q hq heq => hq (heq ▸ hp)
  refine ⟨_, _, ?_, h.unlink ho (hfree.trans (List.nil_append _).symm)
    (d := (s.pages.clearPageProperty p).setProperty p 0) rfl rfl ?_, ?_⟩
  · simp only [popBlock, hne, Bool.false_eq_true, if_false, hnext]
  · intro q hq
    exact Function.update_of_ne hq _ _
  · refine ⟨rfl, rfl, ?_, ?_⟩
    · intro q hq
      exact Function.update_of_ne (hout q hq) _ _
    · intro q hq
      exact Function.update_of_ne (hout q hq) _ _

/-- Either every list from `o` on is empty, or one of them gives a block. -/
theorem takeFirst_spec {s : BuddyPmm} {left o : ℕ} (h : Shape s P live [] free)
    (hleft : left + o ≤ buddyMaxOrder + 1) :
    s.takeFirst left o = some (none, s) ∨
      ∃ p o' s' free', s.takeFirst left o = some (some (p, o'), s') ∧ o ≤ o' ∧
        o' ≤ buddyMaxOrder ∧ orderOfPages o' ∣ p ∧
        Shape s' P (⟨p, orderOfPages o'⟩ :: live) [] free' ∧ Within P s s' := by
  induction left generalizing o with
  | zero => exact Or.inl rfl
  | succ left ih =>
    have ho : o ≤ buddyMaxOrder := by omega
    by_cases hempty : listEmpty s.links (flist o) = true
    · have hskip : s.takeFirst (left + 1) o = s.takeFirst left (o + 1) := by
        simp only [takeFirst, hempty, if_true]
      rw [hskip]
      rcases ih (o := o + 1) (by omega) with hnone | hsome
      · exact Or.inl hnone
      · obtain ⟨p, o', s', free', heq, hle, hrest⟩ := hsome
        exact Or.inr ⟨p, o', s', free', heq, by omega, hrest⟩
    · right
      have hne : free o ≠ [] := by
        intro hnil
        apply hempty
        rw [listEmpty_iff (h.lists.ring o ho), hnil]
        rfl
      obtain ⟨p, ps, hfree⟩ := List.exists_cons_of_ne_nil hne
      obtain ⟨s', free', hpop, hshape, hw⟩ := popBlock_spec h ho hfree
      refine ⟨p, o, s', free', ?_, le_refl o, ho, ?_, hshape, hw⟩
      · simp only [takeFirst, hempty, Bool.false_eq_true, if_false, hpop, Option.bind_eq_bind,
          Option.bind_some, Option.map_some]
      · exact h.aligned o ho p (hfree ▸ List.mem_cons_self)

/-! Joining upper buddies. -/

/-- The block in hand takes in its upper buddy, a block that is on no list. -/
theorem Shape.grow {s : BuddyPmm} {p o : ℕ}
    (h : Shape s P (⟨p + orderOfPages o, orderOfPages o⟩ :: live) [⟨p, orderOfPages o⟩] free) :
    Shape { s with pages := (s.pages.setProperty p (orderOfPages (o + 1))).setPageProperty p }
      P live [⟨p, orderOfPages (o + 1)⟩] free := by
  have hjoin := h.hand_front.join
  rw [← orderOfPages_succ] at hjoin
  have hlt := size_lt_pageLimit hjoin h.bound List.mem_cons_self
  refine ⟨h.lists, hjoin.perm List.perm_middle.symm, ?_, h.aligned, h.bound⟩
  exact h.heads.resize (fun c hc => hjoin.base_ne_head c (List.mem_append_right _ hc)) hlt

theorem xor_orderOfPages_ne (p o : ℕ) : p ^^^ orderOfPages o ≠ p := by
  intro heq
  have hzero : orderOfPages o = 0 := by
    rw [← Nat.xor_xor_cancel_left p (orderOfPages o), heq, Nat.xor_self]
  exact Nat.ne_of_gt (orderOfPages_pos o) hzero

/-- A listed block is on the list of its size. -/
theorem Shape.mem_free {s : BuddyPmm} {hand : List Block} {o : ℕ} {b : Block}
    (h : Shape s P live hand free) (hb : b ∈ listed free)
    (hsize : s.pages.property b.base = orderOfPages o) : b.base ∈ free o := by
  have hbsize := h.heads.size b (List.mem_append_right _ hb)
  obtain ⟨o', ho', p, hp, rfl⟩ := mem_levels.mp hb
  have heq : 2 ^ o' = 2 ^ o := hbsize.symm.trans hsize
  exact Nat.pow_right_injective (le_refl 2) heq ▸ hp

theorem mergeLoop_stop {left : ℕ} {s : BuddyPmm} {p o q : ℕ} (hq : buddyOf p o = q)
    (h : (q : ℤ) ≥ s.npage ∨ !s.pages.pageProperty q ∨ s.pages.property q ≠ orderOfPages o) :
    mergeLoop (left + 1) s p o =
      some { s with links := listAdd s.links (flist o) (pageLink p) } := by
  rw [mergeLoop, hq, Int.toNat_natCast]
  rcases h with hrange | hstay
  · exact if_pos (Or.inr hrange)
  · by_cases hrange : (q : ℤ) < 0 ∨ (q : ℤ) ≥ s.npage
    · exact if_pos hrange
    · simp only [hrange, if_false, hstay, if_true]

theorem mergeLoop_join {left : ℕ} {s : BuddyPmm} {p o q : ℕ} (hq : buddyOf p o = q)
    (hrange : (q : ℤ) < s.npage) (hflag : s.pages.pageProperty q = true)
    (hsize : s.pages.property q = orderOfPages o) (hlow : ¬ q < p)
    (hhead : turnPageToPfn p % orderOfPages (o + 1) = 0) :
    mergeLoop (left + 1) s p o = mergeLoop left
      { s with
        links := listDel s.links (pageLink q)
        pages := ((s.pages.clearPageProperty q).setProperty p (orderOfPages (o + 1))
          ).setPageProperty p } p (o + 1) := by
  have hin : ¬ ((q : ℤ) < 0 ∨ (q : ℤ) ≥ s.npage) := by omega
  rw [mergeLoop, hq, Int.toNat_natCast]
  simp only [hin, if_false, hflag, hsize, Bool.not_true, Bool.false_eq_true, ne_eq,
    not_true_eq_false, or_self, hlow, hhead, if_true]

/-- The joining loop, as long as every buddy that it joins lies above. `F` holds of the
pages that are free by now. -/
theorem mergeLoop_spec {left : ℕ} {s₀ s : BuddyPmm} {p o : ℕ} {F : ℕ → Prop}
    (h : Shape s P live [⟨p, orderOfPages o⟩] free) (hw : Within P s₀ s)
    (hp : orderOfPages o ∣ p) (hleft : left + o = buddyMaxOrder)
    (hF : ∀ b ∈ ⟨p, orderOfPages o⟩ :: listed free, ∀ x ∈ b, F x)
    (hup : ∀ o', o ≤ o' → o' < buddyMaxOrder → (∀ x ∈ (⟨p, orderOfPages o'⟩ : Block), F x) →
      ∀ q : ℕ, buddyOf p o' = q →
        (q < p → ∃ x ∈ (⟨q, orderOfPages o'⟩ : Block), ¬ F x) ∧
        (¬ P q → q < s₀.npage →
          ¬ (s₀.pages.pageProperty q = true ∧ s₀.pages.property q = orderOfPages o'))) :
    ∃ s' free', mergeLoop left s p o = some s' ∧ Shape s' P live [] free' ∧ Within P s₀ s' := by
  induction left generalizing s p o free with
  | zero =>
    exact ⟨_, _, rfl, h.link (by omega) hp, ⟨hw.npage, hw.nrFree, hw.flag, hw.property⟩⟩
  | succ left ih =>
    have ho : o < buddyMaxOrder := by omega
    have hq := buddyOf_eq (Nat.le_of_lt ho) hp
    have hupper : ¬ (p ^^^ orderOfPages o) < p → orderOfPages (o + 1) ∣ p := by
      intro hnot
      by_contra hodd
      have := buddy_lower hp hodd
      have := orderOfPages_pos o
      omega
    generalize hbuddy : p ^^^ orderOfPages o = q at hq hupper
    by_cases hstop : (q : ℤ) ≥ s.npage ∨ !s.pages.pageProperty q ∨
        s.pages.property q ≠ orderOfPages o
    · exact ⟨_, _, mergeLoop_stop hq hstop, h.link (by omega) hp,
        ⟨hw.npage, hw.nrFree, hw.flag, hw.property⟩⟩
    · obtain ⟨hrange, hflag, hsize⟩ : (q : ℤ) < s.npage ∧ s.pages.pageProperty q = true ∧
          s.pages.property q = orderOfPages o := by simpa using hstop
      obtain ⟨hlow, hstray⟩ := hup o (le_refl o) ho (hF _ List.mem_cons_self) q hq
      have hPp : P p := (h.hand_front.cover p).mpr ⟨_, List.mem_cons_self,
        Block.base_mem (b := ⟨p, orderOfPages o⟩) (orderOfPages_pos o)⟩
      -- a flagged descriptor of the buddy's size is the head of a listed block
      have hPq : P q := by
        by_contra hnot
        refine hstray hnot ?_ ?_
        · rw [← hw.npage]
          omega
        · rw [← hw.flag q hnot, ← hw.property q hnot]
          exact ⟨hflag, hsize⟩
      have hqfree : q ∈ free o := by
        obtain ⟨b, hb, rfl⟩ := (h.heads.flag q hPq).mp hflag
        rcases List.mem_cons.mp hb with rfl | hb
        · exact absurd hbuddy (xor_orderOfPages_ne p o)
        · exact h.mem_free hb hsize
      have hqlow : ¬ q < p := by
        intro hlt
        obtain ⟨x, hx, hnot⟩ := hlow hlt
        exact hnot (hF _ (List.mem_cons_of_mem _
          (Shape.mem_listed (Nat.le_of_lt ho) hqfree)) x hx)
      have hdvd := hupper hqlow
      rw [buddy_upper hdvd] at hbuddy
      subst hbuddy
      obtain ⟨xs, ys, hfree⟩ := List.append_of_mem hqfree
      have hjoined := (h.unlink (Nat.le_of_lt ho) hfree
        (d := s.pages.clearPageProperty (p + orderOfPages o)) rfl rfl (fun _ _ => rfl)).grow
      rw [mergeLoop_join hq hrange hflag hsize hqlow
        (Nat.mod_eq_zero_of_dvd ((dvd_turnPageToPfn (by omega)).mpr hdvd))]
      refine ih hjoined ?_ hdvd (by omega) ?_ ?_
      · have hne : ∀ r, ¬ P r → r ≠ p ∧ r ≠ p + orderOfPages o := by
          intro r hr
          exact ⟨fun heq => hr (heq ▸ hPp), fun heq => hr (heq ▸ hPq)⟩
        refine hw.trans ⟨rfl, rfl, ?_, ?_⟩
        · intro r hr
          simp only [PageDescs.setPageProperty, PageDescs.setProperty,
            PageDescs.clearPageProperty]
          rw [Function.update_of_ne (hne r hr).1, Function.update_of_ne (hne r hr).2]
        · intro r hr
          exact Function.update_of_ne (hne r hr).1 _ _
      · intro b hb x hx
        rcases List.mem_cons.mp hb with rfl | hb
        · simp only [Block.mem_def, orderOfPages_succ] at hx
          by_cases hlt : x < p + orderOfPages o
          · exact hF _ List.mem_cons_self x (Block.mem_def.mpr ⟨hx.1, hlt⟩)
          · exact hF ⟨p + orderOfPages o, orderOfPages o⟩ (List.mem_cons_of_mem _
              (Shape.mem_listed (Nat.le_of_lt ho) hqfree)) x
              (Block.mem_def.mpr ⟨Nat.le_of_not_lt hlt, by simp only; omega⟩)
        · refine hF b (List.mem_cons_of_mem _ ?_) x hx
          exact (levels_remove (Nat.lt_succ_of_lt ho) hfree).mem_iff.mpr
            (List.mem_cons_of_mem _ hb)
      · intro o' ho'
        exact hup o' (by omega)

end Ucore.Pmm.BuddyPmm
