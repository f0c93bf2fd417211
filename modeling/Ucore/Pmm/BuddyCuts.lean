import Ucore.Pmm.BuddyOwnership

/-!
How the buddy manager cuts memory into blocks. Splitting pushes the rest of a block behind
the pages that were asked for, and `init_memmap` and `free_pages` cut a range from the
front, each time by the largest block that fits.
-/
namespace Ucore.Pmm.BuddyPmm

open Library Libs BuddyNode

/-- The pages of a block that is given by its first page and its order. -/
def cutBlock (c : ℕ × ℕ) : Block := ⟨c.1, orderOfPages c.2⟩

/-! The rest of a block that is split. -/

/-- Each block is pushed to the list of its order. -/
def pushAll (s : BuddyPmm) (cuts : List (ℕ × ℕ)) : Option BuddyPmm :=
  cuts.foldlM (fun s c => s.pushBlock c.1 c.2) s

/-- The halves that are pushed on the way down, in this order. -/
def splitCuts : ℕ → ℕ → ℕ → List (ℕ × ℕ)
  | 0, _, _ => []
  | o + 1, head, n =>
    if n = orderOfPages (o + 1) then []
    else if n ≤ orderOfPages o then (head + orderOfPages o, o) :: splitCuts o head n
    else splitCuts o (head + orderOfPages o) (n - orderOfPages o)

variable {s s' : BuddyPmm} {cuts : List (ℕ × ℕ)} {o head n : ℕ}

theorem orderOfPages_zero : orderOfPages 0 = 1 := rfl

theorem splitCuts_all (o head : ℕ) : splitCuts o head (orderOfPages o) = [] := by
  cases o with
  | zero => rfl
  | succ o => simp only [splitCuts, if_true]

theorem splitBlock_all (o head : ℕ) (s : BuddyPmm) :
    splitBlock o s head (orderOfPages o) = some (head, s) := by
  cases o with
  | zero => simp only [splitBlock, if_true]
  | succ o => simp only [splitBlock, if_true]

/-- Every pushed half has an order below the one of the block, and keeps to its alignment. -/
theorem splitCuts_order {c : ℕ × ℕ} (hhead : orderOfPages o ∣ turnPageToPfn head)
    (hc : c ∈ splitCuts o head n) : c.2 < o ∧ orderOfPages c.2 ∣ turnPageToPfn c.1 := by
  induction o generalizing head n with
  | zero => simp only [splitCuts, List.not_mem_nil] at hc
  | succ o ih =>
    have hleft : orderOfPages o ∣ turnPageToPfn head :=
      Nat.dvd_trans (Nat.pow_dvd_pow 2 (Nat.le_succ o)) hhead
    have hright : orderOfPages o ∣ turnPageToPfn (head + orderOfPages o) := by
      rw [turnPageToPfn_add]
      exact Nat.dvd_add hleft (dvd_refl _)
    by_cases hall : n = orderOfPages (o + 1)
    · simp only [splitCuts, hall, if_true, List.not_mem_nil] at hc
    · by_cases hhalf : n ≤ orderOfPages o
      · simp only [splitCuts, hall, if_false, hhalf, if_true, List.mem_cons] at hc
        rcases hc with rfl | hc
        · exact ⟨Nat.lt_succ_self o, hright⟩
        · obtain ⟨hlt, hdvd⟩ := ih hleft hc
          exact ⟨Nat.lt_succ_of_lt hlt, hdvd⟩
      · simp only [splitCuts, hall, if_false, hhalf] at hc
        obtain ⟨hlt, hdvd⟩ := ih hright hc
        exact ⟨Nat.lt_succ_of_lt hlt, hdvd⟩

/-- The pushed halves are the pages behind the first `n`, each of them once. -/
theorem splitCuts_tiling (hn : 1 ≤ n) (hle : n ≤ orderOfPages o) :
    Tiling (fun p => head + n ≤ p ∧ p < head + orderOfPages o)
      ((splitCuts o head n).map cutBlock) := by
  induction o generalizing head n with
  | zero =>
    apply Tiling.nil
    simp only [orderOfPages_zero] at hle ⊢
    omega
  | succ o ih =>
    have hsucc := orderOfPages_succ o
    by_cases hall : n = orderOfPages (o + 1)
    · simp only [splitCuts, hall, if_true, List.map_nil]
      apply Tiling.nil
      omega
    · by_cases hhalf : n ≤ orderOfPages o
      · simp only [splitCuts, hall, if_false, hhalf, if_true, List.map_cons]
        refine (ih hn hhalf).cons (orderOfPages_pos o) ?_ ?_
        · intro p hp hbad
          simp only [cutBlock, Block.mem_def] at hp
          omega
        · intro p
          simp only [cutBlock, Block.mem_def]
          omega
      · simp only [splitCuts, hall, if_false, hhalf]
        have hrest := @ih (head + orderOfPages o) (n - orderOfPages o) (by omega) (by omega)
        have hsame : (fun p => head + n ≤ p ∧ p < head + orderOfPages (o + 1)) =
            (fun p => head + orderOfPages o + (n - orderOfPages o) ≤ p ∧
              p < head + orderOfPages o + orderOfPages o) := by
          funext p
          rw [eq_iff_iff]
          omega
        rw [hsame]
        exact hrest

/-- Splitting pushes these halves and does nothing else. -/
theorem splitBlock_eq (ho : o ≤ buddyMaxOrder) (hn : 1 ≤ n) (hle : n ≤ orderOfPages o) :
    splitBlock o s head n = (pushAll s (splitCuts o head n)).map (fun s' => (head, s')) := by
  induction o generalizing s head n with
  | zero =>
    obtain rfl : n = orderOfPages 0 := by
      simp only [orderOfPages_zero] at hle ⊢
      omega
    exact splitBlock_all 0 head s
  | succ o ih =>
    have hsucc := orderOfPages_succ o
    by_cases hall : n = orderOfPages (o + 1)
    · subst hall
      rw [splitBlock_all, splitCuts_all]
      rfl
    · by_cases hhalf : n ≤ orderOfPages o
      · simp only [splitBlock, splitCuts, hall, if_false, hhalf, if_true, pushAll,
          List.foldlM_cons]
        cases hpush : s.pushBlock (head + orderOfPages o) o with
        | none => rfl
        | some s₁ => exact ih (by omega) hn hhalf
      · have hrest := @ih s (head + orderOfPages o) (n - orderOfPages o) (by omega) (by omega)
          (by omega)
        simp only [splitBlock, splitCuts, hall, if_false, hhalf, hrest]
        cases pushAll s (splitCuts o (head + orderOfPages o) (n - orderOfPages o)) with
        | none => rfl
        | some s₁ => rfl

/-! What pushing leaves behind. -/

/-- The pages of one order among the blocks, the last one first. -/
def onList (cuts : List (ℕ × ℕ)) (o : ℕ) : List ℕ :=
  ((cuts.filter (fun c => c.2 = o)).map Prod.fst).reverse

/-- The blocks `cuts` have come to the lists of their orders, in front of what was there,
and their first pages are heads with their sizes. No other descriptor has changed. -/
structure Pushed (s s' : BuddyPmm) (cuts : List (ℕ × ℕ)) : Prop where
  head : ∀ c ∈ cuts, s'.pages.pageProperty c.1 = true ∧
    s'.pages.property c.1 = orderOfPages c.2
  other : ∀ p, (∀ c ∈ cuts, c.1 ≠ p) →
    s'.pages.pageProperty p = s.pages.pageProperty p ∧
      s'.pages.property p = s.pages.property p
  lists : ∀ free, Lists s.links free → (∀ c ∈ cuts, ∀ o ≤ buddyMaxOrder, c.1 ∉ free o) →
    Lists s'.links (fun o => onList cuts o ++ free o)
  nrFree : s'.nrFree = s.nrFree

theorem Pushed.nil (s : BuddyPmm) : Pushed s s [] where
  head _ hc := absurd hc List.not_mem_nil
  other _ _ := ⟨rfl, rfl⟩
  lists _ h _ := h
  nrFree := rfl

theorem onList_cons (c : ℕ × ℕ) (cuts : List (ℕ × ℕ)) (free : ℕ → List ℕ) :
    (fun o => onList (c :: cuts) o ++ free o) =
      fun o => onList cuts o ++ Function.update free c.2 (c.1 :: free c.2) o := by
  funext o
  unfold onList
  by_cases heq : c.2 = o
  · subst heq
    rw [Function.update_self, List.filter_cons_of_pos (by simp)]
    simp only [List.map_cons, List.reverse_cons, List.append_assoc, List.cons_append,
      List.nil_append]
  · rw [Function.update_of_ne (Ne.symm heq), List.filter_cons_of_neg (by simpa using heq)]

theorem orderOfPages_lt {o : ℕ} (ho : o ≤ buddyMaxOrder) : orderOfPages o < pageLimit :=
  Nat.pow_lt_pow_right Nat.one_lt_two (by
    unfold buddyMaxOrder at ho
    omega)

/-- One block more, in front of the others. -/
theorem Pushed.cons {s₁ : BuddyPmm} {c : ℕ × ℕ} (h : Pushed s₁ s' cuts)
    (hpush : s.pushBlock c.1 c.2 = some s₁) (hnew : ∀ d ∈ cuts, d.1 ≠ c.1) :
    Pushed s s' (c :: cuts) := by
  have ho : c.2 ≤ buddyMaxOrder := by
    by_contra hgt
    rw [pushBlock, if_neg hgt] at hpush
    cases hpush
  rw [pushBlock, if_pos ho] at hpush
  cases hpush
  refine ⟨?_, ?_, ?_, h.nrFree⟩
  · intro d hd
    rcases List.mem_cons.mp hd with rfl | hd
    · obtain ⟨hflag, hsize⟩ := h.other d.1 hnew
      rw [hflag, hsize]
      simp only [PageDescs.setPageProperty, PageDescs.setProperty, Function.update_self,
        uint32_of_page (orderOfPages_lt ho), and_self]
    · exact h.head d hd
  · intro p hp
    obtain ⟨hflag, hsize⟩ := h.other p (fun d hd => hp d (List.mem_cons_of_mem c hd))
    have hne : p ≠ c.1 := fun heq => hp c List.mem_cons_self heq.symm
    rw [hflag, hsize]
    exact ⟨Function.update_of_ne hne _ _, Function.update_of_ne hne _ _⟩
  · intro free hlists hout
    rw [onList_cons]
    refine h.lists _ (hlists.push ho (hout c List.mem_cons_self)) ?_
    intro d hd o' ho' hbad
    by_cases heq : o' = c.2
    · subst heq
      rw [Function.update_self] at hbad
      rcases List.mem_cons.mp hbad with heq | hbad
      · exact hnew d hd heq
      · exact hout d (List.mem_cons_of_mem c hd) c.2 ho' hbad
    · rw [Function.update_of_ne heq] at hbad
      exact hout d (List.mem_cons_of_mem c hd) o' ho' hbad

/-- Blocks of small orders that begin at different pages are pushed one after another. -/
theorem pushAll_spec (hord : ∀ c ∈ cuts, c.2 ≤ buddyMaxOrder)
    (hne : cuts.Pairwise (fun c d => d.1 ≠ c.1)) :
    ∃ s', pushAll s cuts = some s' ∧ Pushed s s' cuts := by
  induction cuts generalizing s with
  | nil => exact ⟨s, rfl, Pushed.nil s⟩
  | cons c cuts ih =>
    obtain ⟨hnew, hrest⟩ := List.pairwise_cons.mp hne
    have hpush : s.pushBlock c.1 c.2 = some
        { s with
          pages := (s.pages.setProperty c.1 (orderOfPages c.2)).setPageProperty c.1
          links := listAdd s.links (flist c.2) (pageLink c.1) } :=
      if_pos (hord c List.mem_cons_self)
    obtain ⟨s', hs', hpushed⟩ := ih (s :=
        { s with
          pages := (s.pages.setProperty c.1 (orderOfPages c.2)).setPageProperty c.1
          links := listAdd s.links (flist c.2) (pageLink c.1) })
      (fun d hd => hord d (List.mem_cons_of_mem c hd)) hrest
    refine ⟨s', ?_, hpushed.cons hpush hnew⟩
    simp only [pushAll, List.foldlM_cons, hpush]
    exact hs'

/-- Blocks that tile something begin at different pages. -/
theorem bases_ne {P : ℕ → Prop} (h : Tiling P (cuts.map cutBlock)) :
    cuts.Pairwise (fun c d => d.1 ≠ c.1) := by
  have hapart := List.pairwise_map.mp h.apart
  refine hapart.imp ?_
  intro c d hcd heq
  refine hcd c.1 (Block.base_mem (b := cutBlock c) (orderOfPages_pos c.2)) ?_
  rw [← heq]
  exact Block.base_mem (b := cutBlock d) (orderOfPages_pos d.2)

/-- Splitting gives the front of the block, and pushes disjoint aligned blocks of powers of
two to the lists of their orders that make up the rest. -/
theorem splitBlock_exact (s : BuddyPmm) (k head n : ℕ) (hk : k ≤ buddyMaxOrder)
    (hhead : orderOfPages k ∣ turnPageToPfn head) (hn : 1 ≤ n) (hle : n ≤ orderOfPages k) :
    ∃ s' cuts, splitBlock k s head n = some (head, s') ∧ pushAll s cuts = some s' ∧
      Tiling (fun p => head + n ≤ p ∧ p < head + orderOfPages k) (cuts.map cutBlock) ∧
      (∀ c ∈ cuts, c.2 ≤ buddyMaxOrder ∧ orderOfPages c.2 ∣ turnPageToPfn c.1) ∧
      Pushed s s' cuts := by
  have htiling := @splitCuts_tiling k head n hn hle
  have horder : ∀ c ∈ splitCuts k head n, c.2 ≤ buddyMaxOrder ∧
      orderOfPages c.2 ∣ turnPageToPfn c.1 := by
    intro c hc
    obtain ⟨hlt, hdvd⟩ := splitCuts_order hhead hc
    exact ⟨by omega, hdvd⟩
  obtain ⟨s', hs', hpushed⟩ := pushAll_spec (s := s) (fun c hc => (horder c hc).1)
    (bases_ne htiling)
  refine ⟨s', splitCuts k head n, ?_, hs', htiling, horder, hpushed⟩
  rw [splitBlock_eq hk hn hle, hs']
  rfl

/-- Three pages from a block of eight leave a block of four and a single page. -/
theorem splitBlock_exact_three : ∃ s' cuts, splitBlock 3 bootBuddy 8 3 = some (8, s') ∧
    pushAll bootBuddy cuts = some s' ∧
    Tiling (fun p => 8 + 3 ≤ p ∧ p < 8 + orderOfPages 3) (cuts.map cutBlock) := by
  obtain ⟨s', cuts, hs', hpush, htiling, -, -⟩ := splitBlock_exact bootBuddy 3 8 3 (by decide)
    (by decide) (by decide) (by decide)
  exact ⟨s', cuts, hs', hpush, htiling⟩

/-! The greedy loops. -/

/-- What `init_memmap` does with a block. -/
def initPiece (s : BuddyPmm) (c : ℕ × ℕ) : Option BuddyPmm := do
  let s ← s.pushBlock c.1 c.2
  some { s with nrFree := s.nrFree + orderOfPages c.2 }

/-- What `free_pages` does with a block. -/
def freePiece (s : BuddyPmm) (c : ℕ × ℕ) : Option BuddyPmm := s.freeOneBlockAndMerge c.1 c.2

variable {left base : ℕ}

theorem pieces_nil (left base : ℕ) : pieces left base 0 = [] := by
  cases left with
  | zero => rfl
  | succ left => simp only [pieces, if_true]

/-- The loop of `init_memmap` serves these blocks in turn. -/
theorem initLoop_eq (hn : n ≤ left) :
    initLoop left s base (turnPageToPfn base) n = (pieces left base n).foldlM initPiece s := by
  induction left generalizing s base n with
  | zero =>
    obtain rfl : n = 0 := by omega
    rfl
  | succ left ih =>
    by_cases hzero : n = 0
    · subst hzero
      simp only [initLoop, pieces_nil, if_true]
      rfl
    · have hpos := orderOfPages_pos (fitOrder (turnPageToPfn base) n buddyMaxOrder 0)
      simp only [initLoop, pieces, hzero, if_false, List.foldlM_cons, initPiece]
      cases hpush : s.pushBlock base (fitOrder (turnPageToPfn base) n buddyMaxOrder 0) with
      | none => rfl
      | some s₁ =>
        rw [← turnPageToPfn_add]
        exact ih (by omega)

/-- So does the loop of `free_pages`. -/
theorem freeLoop_eq (hn : n ≤ left) :
    freeLoop left s base (turnPageToPfn base) n = (pieces left base n).foldlM freePiece s := by
  induction left generalizing s base n with
  | zero =>
    obtain rfl : n = 0 := by omega
    rfl
  | succ left ih =>
    by_cases hzero : n = 0
    · subst hzero
      simp only [freeLoop, pieces_nil, if_true]
      rfl
    · have hpos := orderOfPages_pos (fitOrder (turnPageToPfn base) n buddyMaxOrder 0)
      simp only [freeLoop, pieces, hzero, if_false, List.foldlM_cons, freePiece]
      cases hfree : s.freeOneBlockAndMerge base
          (fitOrder (turnPageToPfn base) n buddyMaxOrder 0) with
      | none => rfl
      | some s₁ =>
        rw [← turnPageToPfn_add]
        exact ih (by omega)

theorem and_orderOfPages {pfn o : ℕ} : pfn &&& (orderOfPages o - 1) = 0 ↔ orderOfPages o ∣ pfn := by
  unfold orderOfPages
  rw [Nat.and_two_pow_sub_one_eq_mod]
  exact (Nat.dvd_iff_mod_eq_zero).symm

/-- The order stops growing at the limit, or where the next one does not fit or is not
aligned; then no greater order is, since alignment and size only get worse. -/
theorem fitOrder_greatest {pfn left k j : ℕ} (hj : j ≤ left + k) (hdvd : orderOfPages j ∣ pfn)
    (hfit : orderOfPages j ≤ n) : j ≤ fitOrder pfn n left k := by
  induction left generalizing k with
  | zero =>
    simp only [fitOrder]
    omega
  | succ left ih =>
    by_cases hmore : orderOfPages (k + 1) ≤ n ∧ pfn &&& (orderOfPages (k + 1) - 1) = 0
    · rw [fitOrder, if_pos hmore]
      exact ih (by omega)
    · rw [fitOrder, if_neg hmore]
      by_contra hgt
      apply hmore
      have hle : k + 1 ≤ j := by omega
      refine ⟨Nat.le_trans (Nat.pow_le_pow_right Nat.two_pos hle) hfit, ?_⟩
      exact and_orderOfPages.mpr (Nat.dvd_trans (Nat.pow_dvd_pow 2 hle) hdvd)

/-- Of all blocks that begin at `c`, end at `last` or before and keep to their alignment,
this one is the largest. -/
structure Largest (last : ℕ) (c : ℕ × ℕ) : Prop where
  order : c.2 ≤ buddyMaxOrder
  aligned : orderOfPages c.2 ∣ turnPageToPfn c.1
  fits : c.1 + orderOfPages c.2 ≤ last
  greatest : ∀ j ≤ buddyMaxOrder, orderOfPages j ∣ turnPageToPfn c.1 →
    c.1 + orderOfPages j ≤ last → j ≤ c.2

theorem fitOrder_largest (base : ℕ) (hn : 0 < n) :
    Largest (base + n) (base, fitOrder (turnPageToPfn base) n buddyMaxOrder 0) := by
  obtain ⟨hk, hle, hdvd⟩ := fitOrder_piece base hn
  refine ⟨hk, (dvd_turnPageToPfn hk).mpr hdvd, by simp only; omega, ?_⟩
  intro j hj hjdvd hjfit
  simp only at hjdvd hjfit ⊢
  exact fitOrder_greatest hj hjdvd (by omega)

/-- The blocks follow one another, and each is the largest one at its place. -/
theorem pieces_cut (hn : n ≤ left) :
    Consecutive base (base + n) ((pieces left base n).map cutBlock) ∧
      ∀ c ∈ pieces left base n, Largest (base + n) c := by
  induction left generalizing base n with
  | zero =>
    obtain rfl : n = 0 := by omega
    exact ⟨rfl, fun c hc => absurd hc List.not_mem_nil⟩
  | succ left ih =>
    by_cases hzero : n = 0
    · subst hzero
      rw [pieces_nil]
      exact ⟨rfl, fun c hc => absurd hc List.not_mem_nil⟩
    · have hlarge := fitOrder_largest base (Nat.pos_of_ne_zero hzero)
      have hpieces : pieces (left + 1) base n =
          (base, fitOrder (turnPageToPfn base) n buddyMaxOrder 0) ::
            pieces left (base + orderOfPages (fitOrder (turnPageToPfn base) n buddyMaxOrder 0))
              (n - orderOfPages (fitOrder (turnPageToPfn base) n buddyMaxOrder 0)) := by
        rw [pieces, if_neg hzero]
      rw [hpieces]
      generalize fitOrder (turnPageToPfn base) n buddyMaxOrder 0 = k at hlarge
      have hpos := orderOfPages_pos k
      have hfits := hlarge.fits
      simp only at hfits
      obtain ⟨hcons, hall⟩ := @ih (n - orderOfPages k) (base + orderOfPages k) (by omega)
      have hlast : base + orderOfPages k + (n - orderOfPages k) = base + n := by omega
      rw [hlast] at hcons hall
      refine ⟨⟨rfl, hcons⟩, ?_⟩
      intro c hc
      rcases List.mem_cons.mp hc with rfl | hc
      · exact hlarge
      · exact hall c hc

/-! No step of the loops fails. -/

theorem turnPageToPfn_buddyOf {p o q : ℕ} (hq : buddyOf p o = q) :
    turnPageToPfn q = turnPageToPfn p ^^^ orderOfPages o := by
  unfold buddyOf at hq
  unfold turnPageToPfn at hq ⊢
  omega

/-- The lower one of two buddies is aligned to the next order. -/
theorem lower_aligned {p o q : ℕ} (hp : orderOfPages o ∣ turnPageToPfn p) (hq : buddyOf p o = q) :
    orderOfPages (o + 1) ∣ turnPageToPfn (if q < p then q else p) := by
  have hpfn := turnPageToPfn_buddyOf hq
  have hpos := orderOfPages_pos o
  by_cases heven : orderOfPages (o + 1) ∣ turnPageToPfn p
  · have hflip : turnPageToPfn p ^^^ orderOfPages o = turnPageToPfn p + orderOfPages o :=
      xor_two_pow_of_dvd heven
    have hnot : ¬ q < p := by
      unfold turnPageToPfn at hpfn hflip
      omega
    rw [if_neg hnot]
    exact heven
  · have hflip : (turnPageToPfn p ^^^ orderOfPages o) + orderOfPages o = turnPageToPfn p :=
      xor_two_pow_of_not_dvd hp heven
    have hlt : q < p := by
      unfold turnPageToPfn at hpfn hflip
      omega
    rw [if_pos hlt]
    rw [← hpfn] at hflip
    have hq' : orderOfPages o ∣ turnPageToPfn q := by
      refine (Nat.dvd_add_left (dvd_refl (orderOfPages o))).mp ?_
      rw [hflip]
      exact hp
    by_contra hodd
    have hback : (turnPageToPfn q ^^^ orderOfPages o) + orderOfPages o = turnPageToPfn q :=
      xor_two_pow_of_not_dvd hq' hodd
    rw [hpfn, Nat.xor_xor_cancel_right] at hback
    rw [hpfn] at hflip
    omega

theorem mergeLoop_isSome {p : ℕ} (hp : orderOfPages o ∣ turnPageToPfn p) :
    ∃ s', mergeLoop left s p o = some s' := by
  induction left generalizing s p o with
  | zero => exact ⟨_, rfl⟩
  | succ left ih =>
    by_cases hrange : buddyOf p o < 0 ∨ buddyOf p o ≥ s.npage
    · refine ⟨{ s with links := listAdd s.links (flist o) (pageLink p) }, ?_⟩
      rw [mergeLoop]
      exact if_pos hrange
    · obtain ⟨q, hq⟩ : ∃ q : ℕ, buddyOf p o = q := Int.eq_ofNat_of_zero_le (by omega)
      rw [hq] at hrange
      by_cases hstay : !s.pages.pageProperty q ∨ s.pages.property q ≠ orderOfPages o
      · exact ⟨_, mergeLoop_stop hq (Or.inr hstay)⟩
      · have hlow := lower_aligned hp hq
        rw [mergeLoop, hq]
        simp only [hrange, if_false, Int.toNat_natCast, hstay, Nat.mod_eq_zero_of_dvd hlow,
          if_true]
        exact ih hlow

theorem freePiece_isSome {c : ℕ × ℕ} (hc : orderOfPages c.2 ∣ turnPageToPfn c.1) :
    ∃ s', s.freePiece c = some s' := by
  unfold freePiece freeOneBlockAndMerge
  rw [if_pos (Nat.mod_eq_zero_of_dvd hc)]
  exact mergeLoop_isSome hc

theorem initPiece_isSome {c : ℕ × ℕ} (hc : c.2 ≤ buddyMaxOrder) :
    ∃ s', s.initPiece c = some s' := by
  unfold initPiece pushBlock
  rw [if_pos hc]
  exact ⟨_, rfl⟩

theorem foldlM_isSome {f : BuddyPmm → ℕ × ℕ → Option BuddyPmm}
    (hf : ∀ s, ∀ c ∈ cuts, ∃ s', f s c = some s') : ∃ s', cuts.foldlM f s = some s' := by
  induction cuts generalizing s with
  | nil => exact ⟨s, rfl⟩
  | cons c cuts ih =>
    obtain ⟨s₁, hs₁⟩ := hf s c List.mem_cons_self
    obtain ⟨s', hs'⟩ := @ih s₁ (fun s d hd => hf s d (List.mem_cons_of_mem c hd))
    refine ⟨s', ?_⟩
    simp only [List.foldlM_cons, hs₁]
    exact hs'

/-- Both loops end. They serve the same blocks, which follow one another from `base` to the
end of the range and cover each page of it once; each is the largest one that is aligned at
its place and fits in what is left. -/
theorem greedy_cut (s : BuddyPmm) (base n : ℕ) :
    ∃ cuts : List (ℕ × ℕ),
      (∃ s', initLoop n s base (turnPageToPfn base) n = some s' ∧
        cuts.foldlM initPiece s = some s') ∧
      (∃ s', freeLoop n s base (turnPageToPfn base) n = some s' ∧
        cuts.foldlM freePiece s = some s') ∧
      Consecutive base (base + n) (cuts.map cutBlock) ∧
      Tiling (fun p => base ≤ p ∧ p < base + n) (cuts.map cutBlock) ∧
      ∀ c ∈ cuts, Largest (base + n) c := by
  obtain ⟨hcons, hlarge⟩ := @pieces_cut n n base (Nat.le_refl n)
  obtain ⟨s₁, hs₁⟩ := foldlM_isSome (s := s)
    (fun s c hc => initPiece_isSome (s := s) (hlarge c hc).order)
  obtain ⟨s₂, hs₂⟩ := foldlM_isSome (s := s)
    (fun s c hc => freePiece_isSome (s := s) (hlarge c hc).aligned)
  refine ⟨pieces n base n, ⟨s₁, ?_, hs₁⟩, ⟨s₂, ?_, hs₂⟩, hcons, hcons.tiling ?_, hlarge⟩
  · rw [initLoop_eq (Nat.le_refl n)]
    exact hs₁
  · rw [freeLoop_eq (Nat.le_refl n)]
    exact hs₂
  · intro b hb
    obtain ⟨c, -, rfl⟩ := List.mem_map.mp hb
    exact orderOfPages_pos c.2

end Ucore.Pmm.BuddyPmm
