import Ucore.Pmm.BuddyRequests

/-!
Runs of the buddy manager. A run whose frees join upper buddies only keeps the ownership
of every page; joining a lower buddy leaves a flag on a page inside a block.
-/
namespace Ucore.Pmm.BuddyPmm

open Library Libs BuddyNode

variable {P : ℕ → Prop} {live : List Block} {free : ℕ → List ℕ}

/-! Giving pages to the lists piece by piece. -/

/-- The pages that are still to be given back. -/
def rest (base n : ℕ) : List Block := if n = 0 then [] else [⟨base, n⟩]

theorem rest_of_pos {base n : ℕ} (hn : 0 < n) : rest base n = [⟨base, n⟩] :=
  if_neg (Nat.ne_of_gt hn)

theorem Shape.cut {s : BuddyPmm} {base n m : ℕ} (h : Shape s P (rest base n ++ live) [] free)
    (hm : 0 < m) (hmn : m ≤ n) :
    Shape s P (⟨base, m⟩ :: (rest (base + m) (n - m) ++ live)) [] free := by
  rw [rest_of_pos (by omega)] at h
  rcases Nat.eq_or_lt_of_le hmn with rfl | hlt
  · rw [Nat.sub_self]
    exact h
  · obtain ⟨k, rfl⟩ := Nat.exists_eq_add_of_lt hlt
    have hrest : m + k + 1 - m = k + 1 := by omega
    rw [hrest, rest_of_pos (Nat.succ_pos k)]
    exact h.relive (Tiling.split (m := m) (n := k + 1) h.tiling hm (Nat.succ_pos k))

theorem turnPageToPfn_add (base m : ℕ) :
    turnPageToPfn (base + m) = turnPageToPfn base + m := by
  unfold turnPageToPfn
  omega

theorem initLoop_spec {left : ℕ} {s : BuddyPmm} {base n : ℕ}
    (h : Shape s P (rest base n ++ live) [] free) (hn : n ≤ left) :
    ∃ s' free', initLoop left s base (turnPageToPfn base) n = some s' ∧
      Shape s' P live [] free' ∧ s'.nrFree = s.nrFree + n := by
  induction left generalizing s base n free with
  | zero =>
    obtain rfl : n = 0 := by omega
    exact ⟨s, free, rfl, h, rfl⟩
  | succ left ih =>
    by_cases hzero : n = 0
    · subst hzero
      exact ⟨s, free, rfl, h, rfl⟩
    · obtain ⟨hk, hle, hdvd⟩ := fitOrder_piece base (Nat.pos_of_ne_zero hzero)
      generalize hfit : fitOrder (turnPageToPfn base) n buddyMaxOrder 0 = k at hk hle hdvd
      have hpos := orderOfPages_pos k
      obtain ⟨s₁, hs₁, hshape₁, hw₁⟩ := pushBlock_spec (h.cut hpos hle) hk hdvd
      obtain ⟨s₂, free₂, hs₂, hshape₂, hcount⟩ := ih
        (s := { s₁ with nrFree := s₁.nrFree + orderOfPages k })
        ⟨hshape₁.lists, hshape₁.tiling, hshape₁.heads, hshape₁.aligned, hshape₁.bound⟩
        (by omega)
      refine ⟨s₂, free₂, ?_, hshape₂, ?_⟩
      · rw [turnPageToPfn_add] at hs₂
        rw [initLoop, if_neg hzero, hfit, hs₁]
        exact hs₂
      · rw [hcount]
        simp only [hw₁.nrFree]
        omega

theorem freeOneBlockAndMerge_spec {s₀ s : BuddyPmm} {p k : ℕ} {F : ℕ → Prop}
    (h : Shape s P (⟨p, orderOfPages k⟩ :: live) [] free) (hw : Within P s₀ s)
    (hk : k ≤ buddyMaxOrder) (hp : orderOfPages k ∣ p)
    (hF : ∀ b ∈ ⟨p, orderOfPages k⟩ :: listed free, ∀ x ∈ b, F x)
    (hup : ∀ o, k ≤ o → o < buddyMaxOrder → (∀ x ∈ (⟨p, orderOfPages o⟩ : Block), F x) →
      ∀ q : ℕ, buddyOf p o = q →
        (q < p → ∃ x ∈ (⟨q, orderOfPages o⟩ : Block), ¬ F x) ∧
        (¬ P q → q < s₀.npage →
          ¬ (s₀.pages.pageProperty q = true ∧ s₀.pages.property q = orderOfPages o))) :
    ∃ s' free', freeOneBlockAndMerge s p k = some s' ∧ Shape s' P live [] free' ∧
      Within P s₀ s' := by
  obtain ⟨s', free', hs', hshape, hw'⟩ := mergeLoop_spec h.mark (hw.trans h.mark_within) hp
    (show buddyMaxOrder - k + k = buddyMaxOrder by omega) hF hup
  refine ⟨s', free', ?_, hshape, hw'⟩
  rw [freeOneBlockAndMerge, if_pos (Nat.mod_eq_zero_of_dvd ((dvd_turnPageToPfn hk).mpr hp))]
  exact hs'

/-- The loop of `free_pages`, from `base` on. `G` holds of the pages that were free before
the request, which began at `base₀`. -/
theorem freeLoop_spec {left base₀ : ℕ} {s₀ s : BuddyPmm} {base n : ℕ} {G : ℕ → Prop}
    (h : Shape s P (rest base n ++ live) [] free) (hw : Within P s₀ s) (hn : n ≤ left)
    (hbase : base₀ ≤ base)
    (hF : ∀ b ∈ listed free, ∀ x ∈ b, G x ∨ base₀ ≤ x ∧ x < base)
    (hup : ∀ p k, (p, k) ∈ pieces left base n → ∀ o, k ≤ o → o < buddyMaxOrder →
      (∀ x ∈ (⟨p, orderOfPages o⟩ : Block), G x ∨ base₀ ≤ x ∧ x < p + orderOfPages k) →
      ∀ q : ℕ, buddyOf p o = q →
        (q < p → ∃ x ∈ (⟨q, orderOfPages o⟩ : Block),
          ¬ (G x ∨ base₀ ≤ x ∧ x < p + orderOfPages k)) ∧
        (¬ P q → q < s₀.npage →
          ¬ (s₀.pages.pageProperty q = true ∧ s₀.pages.property q = orderOfPages o))) :
    ∃ s' free', freeLoop left s base (turnPageToPfn base) n = some s' ∧
      Shape s' P live [] free' ∧ Within P s₀ s' := by
  induction left generalizing s base n free with
  | zero =>
    obtain rfl : n = 0 := by omega
    exact ⟨s, free, rfl, h, hw⟩
  | succ left ih =>
    by_cases hzero : n = 0
    · subst hzero
      exact ⟨s, free, rfl, h, hw⟩
    · obtain ⟨hk, hle, hdvd⟩ := fitOrder_piece base (Nat.pos_of_ne_zero hzero)
      have hpieces : pieces (left + 1) base n =
          (base, fitOrder (turnPageToPfn base) n buddyMaxOrder 0) ::
            pieces left (base + orderOfPages (fitOrder (turnPageToPfn base) n buddyMaxOrder 0))
              (n - orderOfPages (fitOrder (turnPageToPfn base) n buddyMaxOrder 0)) := by
        rw [pieces, if_neg hzero]
      rw [hpieces] at hup
      generalize hfit : fitOrder (turnPageToPfn base) n buddyMaxOrder 0 = k at hk hle hdvd hup
      have hpos := orderOfPages_pos k
      have hcut := h.cut hpos hle
      obtain ⟨s₁, free₁, hs₁, hshape₁, hw₁⟩ := freeOneBlockAndMerge_spec
        (F := fun x => G x ∨ base₀ ≤ x ∧ x < base + orderOfPages k) hcut hw hk hdvd (by
          intro b hb x hx
          rcases List.mem_cons.mp hb with rfl | hb
          · simp only [Block.mem_def] at hx
            exact Or.inr ⟨by omega, hx.2⟩
          · rcases hF b hb x hx with hG | hlt
            · exact Or.inl hG
            · exact Or.inr ⟨hlt.1, by omega⟩) (hup base k List.mem_cons_self)
      -- what is listed now was free before the piece, or belongs to it
      have hF₁ : ∀ b ∈ listed free₁, ∀ x ∈ b,
          G x ∨ base₀ ≤ x ∧ x < base + orderOfPages k := by
        intro b hb x hx
        have hPx := (hshape₁.tiling.cover x).mpr ⟨b, List.mem_append_right _ hb, hx⟩
        obtain ⟨c, hc, hxc⟩ := (hcut.tiling.cover x).mp hPx
        have hapart : ∀ c ∈ rest (base + orderOfPages k) (n - orderOfPages k) ++ live, x ∉ c :=
          fun c hc hxc => (List.pairwise_append.mp hshape₁.tiling.apart).2.2 c hc b hb x hxc hx
        rcases List.mem_append.mp hc with hc | hc
        · rcases List.mem_cons.mp hc with rfl | hc
          · simp only [Block.mem_def] at hxc
            exact Or.inr ⟨by omega, hxc.2⟩
          · exact absurd hxc (hapart c hc)
        · rcases hF c hc x hxc with hG | hlt
          · exact Or.inl hG
          · exact Or.inr ⟨hlt.1, by omega⟩
      obtain ⟨s₂, free₂, hs₂, hshape₂, hw₂⟩ := ih hshape₁ hw₁ (by omega) (by omega) hF₁
        (fun p k hpk => hup p k (List.mem_cons_of_mem _ hpk))
      refine ⟨s₂, free₂, ?_, hshape₂, hw₂⟩
      rw [turnPageToPfn_add] at hs₂
      rw [freeLoop, if_neg hzero, hfit, hs₁]
      exact hs₂

/-! Reading the lists. -/

theorem listPages_of_path {l : Links BuddyNode} {a : BuddyNode} {o fuel : ℕ} {ps : List ℕ}
    (hp : l.Path a (ps.map pageLink) (flist o)) (hf : ps.length < fuel) :
    listPages l fuel a = ps := by
  induction ps generalizing a fuel with
  | nil =>
    obtain ⟨k, rfl⟩ : ∃ k, fuel = k + 1 := ⟨fuel - 1, by omega⟩
    simp only [listPages, hp.1]
  | cons p ps ih =>
    obtain ⟨⟨hn, -⟩, hrest⟩ := hp
    obtain ⟨k, rfl⟩ : ∃ k, fuel = k + 1 := ⟨fuel - 1, by omega⟩
    simp only [List.length_cons] at hf
    simp only [listPages, hn]
    rw [ih hrest (by omega)]

theorem Shape.length_lt {s : BuddyPmm} {o : ℕ} (h : Shape s P live [] free)
    (ho : o ≤ buddyMaxOrder) : (free o).length < listFuel := by
  have hsub : ((free o).map (fun p => (⟨p, 2 ^ o⟩ : Block))).Sublist (listed free) := by
    unfold listed levels
    rw [List.flatMap_def]
    apply List.sublist_flatten_of_mem
    exact List.mem_map_of_mem (List.mem_range.mpr (Nat.lt_succ_of_le ho))
  have hle := hsub.length_le
  have hall := h.tiling.length_le (N := pageLimit) (fun p hp => by
    have := h.bound p hp
    omega)
  rw [List.length_map] at hle
  rw [List.length_append, List.length_append] at hall
  unfold listFuel
  omega

theorem Shape.listBlocks_eq {s : BuddyPmm} {o : ℕ} (h : Shape s P live [] free)
    (ho : o ≤ buddyMaxOrder) :
    s.listBlocks o = (free o).map (fun p => ⟨p, orderOfPages o⟩) := by
  unfold listBlocks
  rw [listPages_of_path (h.lists.ring o ho).2 (h.length_lt ho)]
  apply List.map_congr_left
  intro p hp
  rw [h.heads.size ⟨p, orderOfPages o⟩ (Shape.mem_listed ho hp)]

theorem Shape.freeBlocks_eq {s : BuddyPmm} (h : Shape s P live [] free) :
    s.freeBlocks = listed free := by
  unfold freeBlocks
  apply List.flatMap_congr
  intro o ho
  exact h.listBlocks_eq (Nat.le_of_lt_succ (List.mem_range.mp ho))

/-! One request, and runs. -/

/-- The shape between two requests, with the counter. -/
structure Inv (h : Held BuddyPmm) (free : ℕ → List ℕ) : Prop where
  shape : Shape h.pmm h.Managed h.live [] free
  count : h.pmm.nrFree = ((listed free).map Block.size).sum

theorem Inv.owned {h : Held BuddyPmm} (hi : Inv h free) : Owned h := by
  have hfree := hi.shape.freeBlocks_eq
  refine ⟨?_, ?_, ?_, ?_, ?_⟩
  · intro o ho
    rw [hi.shape.listBlocks_eq ho, List.map_map]
    exact hi.shape.lists.ring o ho
  · intro o ho b hb
    rw [hi.shape.listBlocks_eq ho] at hb
    obtain ⟨p, hp, rfl⟩ := List.mem_map.mp hb
    exact ⟨rfl, Nat.mod_eq_zero_of_dvd ((dvd_turnPageToPfn ho).mpr (hi.shape.aligned o ho p hp))⟩
  · rw [hfree]
    exact hi.shape.tiling
  · rw [hfree]
    exact hi.shape.heads.flag
  · rw [hfree]
    exact hi.count

theorem initLists_ring {l : Links BuddyNode} {n o : ℕ} (ho : o < n) :
    (initLists l n).Ring (flist o) [] := by
  induction n with
  | zero => omega
  | succ n ih =>
    by_cases heq : o = n
    · subst heq
      exact Links.ring_isolate _ _
    · refine (ih (by omega)).isolate_frame ?_
      simp only [List.mem_singleton, flist.injEq]
      omega

theorem levels_empty (n : ℕ) : levels n (fun _ => []) = [] := by
  simp [levels]

theorem inv_buddyInit (s : BuddyPmm) : Inv ⟨s.buddyInit, [], []⟩ (fun _ => []) := by
  have hnone : ∀ p, ¬ Held.Managed (⟨s.buddyInit, [], []⟩ : Held BuddyPmm) p := by
    simp [Held.Managed]
  refine ⟨⟨⟨?_, by simp⟩, ?_, ⟨?_, ?_, ?_⟩, by simp, ?_⟩, ?_⟩
  · intro o ho
    exact initLists_ring (Nat.lt_succ_of_le ho)
  · simp only [levels_empty]
    exact Tiling.nil hnone
  · exact fun p hp => absurd hp (hnone p)
  · simp [levels_empty]
  · exact fun p hp => absurd hp (hnone p)
  · exact fun p hp => absurd hp (hnone p)
  · simp only [buddyInit, levels_empty, List.map_nil, List.sum_nil]

theorem Inv.initMemmap {h : Held BuddyPmm} {base n : ℕ} (hi : Inv h free)
    (ha : Allowed h (.initMemmap base n)) :
    ∃ h' free', step h (.initMemmap base n) = some h' ∧ Inv h' free' := by
  obtain ⟨hranges, hn, hlim, hres⟩ := ha
  -- with no range there is no block
  have hempty : h.live ++ ([] ++ listed free) = [] := by
    rw [List.eq_nil_iff_forall_not_mem]
    intro b hb
    obtain ⟨r, hr, -⟩ := (hi.shape.tiling.cover b.base).mpr
      ⟨b, hb, Block.base_mem (hi.shape.tiling.pos b hb)⟩
    rw [hranges] at hr
    exact List.not_mem_nil hr
  obtain ⟨hlive, hlisted⟩ := List.append_eq_nil_iff.mp hempty
  have hfree : listed free = [] := hlisted
  obtain ⟨d, hd, hsw⟩ := PageDescs.initPages_swept hres
  have ht : Tiling (fun p => p ∈ (⟨base, n⟩ : Block)) (rest base n ++ [] ++ ([] ++ listed free)) := by
    rw [hfree, rest_of_pos hn]
    exact (Tiling.nil (P := fun _ => False) (fun _ hp => hp)).cons hn (fun _ _ hp => hp)
      (fun p => (false_or _).symm ▸ Iff.rfl)
  have hstart : Shape { h.pmm with pages := d } (fun p => p ∈ (⟨base, n⟩ : Block))
      (rest base n ++ []) [] free := by
    refine ⟨hi.shape.lists, ht, ⟨?_, ?_, ?_⟩, hi.shape.aligned, ?_⟩
    · intro p hp
      simp [hfree, hsw.head_in p hp]
    · simp [hfree]
    · exact fun p hp => hsw.reserved_in p hp
    · intro p hp
      simp only [Block.mem_def] at hp
      omega
  obtain ⟨s', free', hs', hshape, hcount⟩ := initLoop_spec hstart (le_refl n)
  have hmanaged : Held.Managed (⟨s', ⟨base, n⟩ :: h.ranges, h.live⟩ : Held BuddyPmm) =
      fun p => p ∈ (⟨base, n⟩ : Block) := by
    funext p
    simp [Held.Managed, hranges]
  refine ⟨⟨s', ⟨base, n⟩ :: h.ranges, h.live⟩, free', ?_, ?_, ?_⟩
  · simp only [step, buddyInitMemmap, Nat.ne_of_gt hn, if_false, hd, Option.bind_eq_bind,
      Option.bind_some, hs', Option.map_some]
  · rw [hmanaged, hlive]
    exact hshape
  · have hzero : h.pmm.nrFree = 0 := by
      rw [hi.count, hfree]
      rfl
    have hsum := hshape.tiling.sum_eq ht (N := pageLimit) (fun p hp => by
      simp only [Block.mem_def] at hp
      omega)
    rw [hfree, rest_of_pos hn] at hsum
    simp only [List.nil_append, List.append_nil, List.map_cons, List.map_nil, List.sum_cons,
      List.sum_nil] at hsum
    simp only at hcount ⊢
    omega

/-- Two shapes with the same pages have the same number of live and listed ones. -/
theorem Shape.sum_eq {s s' : BuddyPmm} {live' : List Block} {free' : ℕ → List ℕ}
    (h : Shape s P live [] free) (h' : Shape s' P live' [] free') :
    (live.map Block.size).sum + ((listed free).map Block.size).sum =
      (live'.map Block.size).sum + ((listed free').map Block.size).sum := by
  have hsum := h.tiling.sum_eq h'.tiling (N := pageLimit) (fun p hp => by
    have := h.bound p hp
    omega)
  simpa only [List.nil_append, List.map_append, List.sum_append] using hsum

theorem upperLoop_spec {n left k : ℕ} (hn : n ≤ 2 ^ 63) (hk : k ≤ 63) (hleft : left + k = 64) :
    ∃ m, upperLoop n left (2 ^ k) k = some m ∧ n ≤ orderOfPages m := by
  induction left generalizing k with
  | zero => omega
  | succ left ih =>
    by_cases hlt : 2 ^ k < n
    · have hk' : k < 63 := by
        by_contra hge
        have : 2 ^ 63 ≤ 2 ^ k := Nat.pow_le_pow_right Nat.two_pos (by omega)
        omega
      have hsmall : 2 ^ k * 2 < 2 ^ 64 := by
        rw [← Nat.pow_succ]
        exact Nat.pow_lt_pow_right (by omega) (by omega)
      obtain ⟨m, hm, hle⟩ := ih (k := k + 1) (by omega) (by omega)
      refine ⟨m, ?_, hle⟩
      rw [upperLoop, if_pos hlt, Nat.mod_eq_of_lt hsmall, ← Nat.pow_succ]
      exact hm
    · refine ⟨k, ?_, Nat.le_of_not_lt hlt⟩
      rw [upperLoop, if_neg hlt]

theorem Inv.allocPages {h : Held BuddyPmm} {n : ℕ} (hi : Inv h free) (hn : 0 < n) :
    ∃ h' free', step h (.allocPages n) = some h' ∧ Inv h' free' := by
  by_cases hfew : n > h.pmm.nrFree
  · refine ⟨h, free, ?_, hi⟩
    simp only [step, buddyAllocPages, Nat.ne_of_gt hn, if_false, hfew, if_true, Option.map_some]
  · have hbound : n ≤ 2 ^ 63 := by
      have hsum := hi.shape.tiling.sum_le (N := pageLimit) (fun p hp => by
        have := hi.shape.bound p hp
        omega)
      have hcount := hi.count
      simp only [List.nil_append, List.map_append, List.sum_append] at hsum
      unfold pageLimit at hsum
      omega
    obtain ⟨need, hneed, hle⟩ : ∃ need, findUpperNumber n = some need ∧ n ≤ orderOfPages need :=
      upperLoop_spec (k := 0) hbound (Nat.zero_le _) rfl
    by_cases hbig : need ≤ buddyMaxOrder + 1
    · rcases takeFirst_spec hi.shape
        (show buddyMaxOrder + 1 - need + need ≤ buddyMaxOrder + 1 by omega) with hnone | hsome
      · refine ⟨h, free, ?_, hi⟩
        simp only [step, buddyAllocPages, Nat.ne_of_gt hn, if_false, hfew, hneed, hnone,
          Option.bind_eq_bind, Option.bind_some, Option.map_some]
      · obtain ⟨p, o, s₁, free₁, htake, hno, ho, hdvd, hshape₁, hw₁⟩ := hsome
        have hfit : n ≤ orderOfPages o :=
          Nat.le_trans hle (Nat.pow_le_pow_right Nat.two_pos hno)
        obtain ⟨s₂, free₂, hsplit, hshape₂, hw₂⟩ := splitBlock_spec hshape₁ ho hdvd hn hfit
        refine ⟨⟨{ s₂ with nrFree := s₂.nrFree - n }, h.ranges, ⟨p, n⟩ :: h.live⟩, free₂, ?_,
          ?_, ?_⟩
        · simp only [step, buddyAllocPages, Nat.ne_of_gt hn, if_false, hfew, hneed, htake,
            hsplit, Option.bind_eq_bind, Option.bind_some, Option.map_some]
        · exact ⟨hshape₂.lists, hshape₂.tiling, hshape₂.heads, hshape₂.aligned, hshape₂.bound⟩
        · have hsum := hi.shape.sum_eq hshape₂
          have hcount := hi.count
          simp only [List.map_cons, List.sum_cons] at hsum
          simp only [hw₂.nrFree, hw₁.nrFree]
          omega
    · have hleft : buddyMaxOrder + 1 - need = 0 := by omega
      refine ⟨h, free, ?_, hi⟩
      simp only [step, buddyAllocPages, Nat.ne_of_gt hn, if_false, hfew, hneed, hleft, takeFirst,
        Option.bind_eq_bind, Option.bind_some, Option.map_some]

/-- The first loop of `free_pages` leaves flags and sizes alone. -/
theorem sweepPages_eq {d : PageDescs} {p n : ℕ}
    (h : ∀ q ∈ (⟨p, n⟩ : Block), d.pageReserved q = false ∧ d.pageProperty q = false) :
    ∃ r, sweepPages d p n = some { d with ref := r } := by
  induction n generalizing d p with
  | zero => exact ⟨d.ref, rfl⟩
  | succ n ih =>
    obtain ⟨hr, hh⟩ := h p (by simp only [Block.mem_def]; omega)
    obtain ⟨r, hrest⟩ := ih (d := d.setPageRef p 0) (p := p + 1) (by
      intro q hq
      refine h q ?_
      simp only [Block.mem_def] at hq ⊢
      omega)
    refine ⟨r, ?_⟩
    simp only [sweepPages, hr, hh, Bool.not_false, Bool.and_self, if_true]
    exact hrest

theorem Inv.freePages {h : Held BuddyPmm} {base n : ℕ} (hi : Inv h free)
    (hlive : ⟨base, n⟩ ∈ h.live) (hup : MergesUpwards h base n) :
    ∃ h' free', step h (.freePages base n) = some h' ∧ Inv h' free' := by
  have hmem : ⟨base, n⟩ ∈ h.live ++ ([] ++ listed free) := List.mem_append_left _ hlive
  have hn : 0 < n := hi.shape.tiling.pos ⟨base, n⟩ hmem
  -- a page of an allocation is neither reserved nor a head
  obtain ⟨r, hsweep⟩ := sweepPages_eq (d := h.pmm.pages) (p := base) (n := n) (by
    intro q hq
    have hq' : h.Managed q := (hi.shape.tiling.cover q).mpr ⟨_, hmem, hq⟩
    refine ⟨hi.shape.heads.plain q hq', ?_⟩
    rw [Bool.eq_false_iff]
    intro hhead
    obtain ⟨c, hc, rfl⟩ := (hi.shape.heads.flag q hq').mp hhead
    refine (List.pairwise_append.mp hi.shape.tiling.apart).2.2 _ hlive c hc c.base hq ?_
    exact Block.base_mem (hi.shape.tiling.pos c (List.mem_append_right _ hc)))
  have hstart : Shape { h.pmm with pages := { h.pmm.pages with ref := r } } h.Managed
      (rest base n ++ h.live.erase ⟨base, n⟩) [] free := by
    rw [rest_of_pos hn]
    have hlive' := hi.shape.live_perm (List.perm_cons_erase hlive)
    exact ⟨hlive'.lists, hlive'.tiling, ⟨hlive'.heads.flag, hlive'.heads.size,
      hlive'.heads.plain⟩, hlive'.aligned, hlive'.bound⟩
  obtain ⟨s', free', hs', hshape, hw⟩ := freeLoop_spec
    (G := fun x => ∃ b ∈ h.pmm.freeBlocks, x ∈ b) hstart
    ⟨rfl, rfl, fun _ _ => rfl, fun _ _ => rfl⟩ (le_refl n) (le_refl base) (by
      intro b hb x hx
      left
      rw [hi.shape.freeBlocks_eq]
      exact ⟨b, hb, hx⟩) hup
  refine ⟨⟨{ s' with nrFree := s'.nrFree + n }, h.ranges, h.live.erase ⟨base, n⟩⟩, free', ?_,
    ?_, ?_⟩
  · simp only [step, buddyFreePages, Nat.ne_of_gt hn, if_false, hsweep, hs', Option.bind_eq_bind,
      Option.bind_some, Option.map_some]
  · exact ⟨hshape.lists, hshape.tiling, hshape.heads, hshape.aligned, hshape.bound⟩
  · have hsum := hi.shape.sum_eq hshape
    have herase := ((List.perm_cons_erase hlive).map Block.size).sum_eq
    have hcount := hi.count
    simp only [List.map_cons, List.sum_cons] at herase
    simp only [hw.nrFree]
    omega

theorem step_inv (h : Held BuddyPmm) (op : PmmOp) (hi : ∃ free, Inv h free)
    (hop : Allowed h op ∧ NoLowerMerge h op) :
    ∃ h', step h op = some h' ∧ ∃ free, Inv h' free := by
  obtain ⟨free, hi⟩ := hi
  have hresult : ∃ h' free', step h op = some h' ∧ Inv h' free' := by
    cases op with
    | initMemmap base n => exact hi.initMemmap hop.1
    | allocPages n => exact hi.allocPages hop.1
    | freePages base n => exact hi.freePages hop.1 hop.2
  obtain ⟨h', free', hstep, hi'⟩ := hresult
  exact ⟨h', hstep, free', hi'⟩

/-- A run in which only upper buddies are joined fails no assertion and keeps the ownership
of every page. -/
theorem buddy_ownership (s : BuddyPmm) (ops : List PmmOp)
    (hmeets : RunMeets step (fun h op => Allowed h op ∧ NoLowerMerge h op)
      ⟨s.buddyInit, [], []⟩ ops) :
    ∃ h, runOps step ⟨s.buddyInit, [], []⟩ ops = some h ∧ Owned h := by
  obtain ⟨h, hrun, free, hi⟩ := runOps_total step_inv ⟨_, inv_buddyInit s⟩ hmeets
  exact ⟨h, hrun, hi.owned⟩

/-- Every page reserved and no list, as at boot. -/
def bootBuddy : BuddyPmm :=
  ⟨⟨id, id⟩, ⟨fun _ => true, fun _ => false, fun _ => 0, fun _ => 0⟩, nbase + 4, 0⟩

theorem buddy_ownership_small :
    ∃ h, runOps step ⟨bootBuddy.buddyInit, [], []⟩
      [.initMemmap 0 2, .allocPages 1, .freePages 0 1] = some h ∧ Owned h := by
  refine buddy_ownership bootBuddy _ ?_
  refine RunMeets.cons ⟨⟨rfl, by decide, by decide, fun _ _ => rfl⟩, trivial⟩ rfl ?_
  refine RunMeets.cons ⟨Nat.one_pos, trivial⟩ rfl ?_
  refine RunMeets.cons ⟨List.mem_cons_self, ?_⟩ rfl trivial
  intro p k hpk o hko ho hF q hq
  have hpk' : (p, k) = (0, 0) := List.mem_singleton.mp hpk
  obtain ⟨rfl, rfl⟩ := Prod.mk.inj hpk'
  refine ⟨fun hlt => absurd hlt (Nat.not_lt_zero q), ?_⟩
  intro hout hnp hbad
  have h1 : q ≠ 1 := by
    intro heq
    subst heq
    exact hout ⟨⟨0, 2⟩, List.mem_cons_self, by decide⟩
  have hflag : Function.update (Function.update (Function.update (Function.update
      (Function.update (fun _ => false) 0 false) 1 false) 0 true) 0 false) 1 true q = true := hbad.1
  simp [h1] at hflag
/-- Two pages of a range of four are allocated and given back, the lower one first. -/
def lowerFirst : List PmmOp :=
  [.initMemmap 0 4, .allocPages 1, .allocPages 1, .freePages 0 1, .freePages 1 1]

/-- Joining a lower buddy leaves the flag of the upper block behind. -/
theorem lower_merge_leaves_flag :
    RunMeets step Allowed ⟨bootBuddy.buddyInit, [], []⟩ lowerFirst ∧
      ∃ h, runOps step ⟨bootBuddy.buddyInit, [], []⟩ lowerFirst = some h ∧ ¬ Owned h := by
  refine ⟨?_, _, rfl, ?_⟩
  · refine RunMeets.cons ⟨rfl, by decide, by decide, fun _ _ => rfl⟩ rfl ?_
    refine RunMeets.cons Nat.one_pos rfl ?_
    refine RunMeets.cons Nat.one_pos rfl ?_
    refine RunMeets.cons (List.mem_cons_of_mem _ List.mem_cons_self) rfl ?_
    exact RunMeets.cons List.mem_cons_self rfl trivial
  · intro ho
    have hhead := ho.heads 1 ⟨⟨0, 4⟩, List.mem_cons_self, by decide⟩
    revert hhead
    decide +kernel

end Ucore.Pmm.BuddyPmm
