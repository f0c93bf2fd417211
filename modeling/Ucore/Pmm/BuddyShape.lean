import Ucore.Library.Buddies
import Ucore.Pmm.BuddyPmm

/-!
What the free lists, the descriptors and the live allocations look like while requests are
served. A block in hand is flagged and on no list: it is about to be joined or inserted.
-/
namespace Ucore.Pmm.BuddyPmm

open Library Libs BuddyNode

/-- The blocks on the free lists, where `free o` has the first pages on list `o`. -/
abbrev listed (free : ℕ → List ℕ) : List Block := levels (buddyMaxOrder + 1) free

/-- Every free list is a ring, and no page is on two of them. -/
structure Lists (l : Links BuddyNode) (free : ℕ → List ℕ) : Prop where
  ring : ∀ o ≤ buddyMaxOrder, l.Ring (flist o) ((free o).map pageLink)
  disjoint : ∀ o ≤ buddyMaxOrder, ∀ o' ≤ buddyMaxOrder, o ≠ o' → ∀ p ∈ free o, p ∉ free o'

theorem mem_pageLinks {p : ℕ} {ps : List ℕ} : pageLink p ∈ ps.map pageLink ↔ p ∈ ps := by
  simp only [List.mem_map, pageLink.injEq, exists_eq_right]

namespace Lists

variable {l : Links BuddyNode} {free : ℕ → List ℕ} {o : ℕ}

/-- The nodes of one ring are not on another. -/
theorem apart (h : Lists l free) {o' : ℕ} (ho : o ≤ buddyMaxOrder) (ho' : o' ≤ buddyMaxOrder)
    (hne : o ≠ o') {n : BuddyNode} (hn : n ∈ flist o :: (free o).map pageLink) :
    n ∉ flist o' :: (free o').map pageLink := by
  cases n with
  | flist order =>
    simp only [List.mem_cons, flist.injEq, List.mem_map, reduceCtorEq, and_false, exists_false,
      or_false] at hn ⊢
    omega
  | pageLink p =>
    simp only [List.mem_cons, reduceCtorEq, false_or, mem_pageLinks] at hn ⊢
    exact h.disjoint o ho o' ho' hne p hn

/-- A page that is on no list comes to the front of one. -/
theorem push (h : Lists l free) (ho : o ≤ buddyMaxOrder) {p : ℕ}
    (hp : ∀ o' ≤ buddyMaxOrder, p ∉ free o') :
    Lists (listAdd l (flist o) (pageLink p)) (Function.update free o (p :: free o)) := by
  have hout : ∀ o' ≤ buddyMaxOrder, pageLink p ∉ flist o' :: (free o').map pageLink := by
    intro o' ho'
    simp only [List.mem_cons, reduceCtorEq, false_or, mem_pageLinks]
    exact hp o' ho'
  refine ⟨?_, ?_⟩
  · intro o' ho'
    by_cases heq : o' = o
    · subst heq
      rw [Function.update_self]
      exact ring_listAdd_head (h.ring o' ho') (hout o' ho')
    · rw [Function.update_of_ne heq]
      exact (h.ring o' ho').insert_frame (hout o' ho')
        (h.apart ho ho' (Ne.symm heq) List.mem_cons_self)
        (h.apart ho ho' (Ne.symm heq) ((h.ring o ho).next_mem_ring List.mem_cons_self))
  · intro o₁ ho₁ o₂ ho₂ hne q hq
    by_cases h₁ : o₁ = o
    · subst h₁
      rw [Function.update_of_ne (Ne.symm hne)]
      rw [Function.update_self] at hq
      rcases List.mem_cons.mp hq with rfl | hq
      · exact hp o₂ ho₂
      · exact h.disjoint o₁ ho₁ o₂ ho₂ hne q hq
    · rw [Function.update_of_ne h₁] at hq
      by_cases h₂ : o₂ = o
      · subst h₂
        rw [Function.update_self, List.mem_cons, not_or]
        refine ⟨?_, h.disjoint o₁ ho₁ o₂ ho₂ hne q hq⟩
        intro heq
        subst heq
        exact hp o₁ ho₁ hq
      · rw [Function.update_of_ne h₂]
        exact h.disjoint o₁ ho₁ o₂ ho₂ hne q hq

/-- A page leaves its list. -/
theorem remove (h : Lists l free) (ho : o ≤ buddyMaxOrder) {p : ℕ} {xs ys : List ℕ}
    (hfree : free o = xs ++ p :: ys) :
    Lists (listDel l (pageLink p)) (Function.update free o (xs ++ ys)) := by
  have hin : pageLink p ∈ flist o :: (free o).map pageLink := by
    simp [hfree]
  have hsub : ∀ o' q, q ∈ Function.update free o (xs ++ ys) o' → q ∈ free o' := by
    intro o' q hq
    by_cases heq : o' = o
    · subst heq
      rw [Function.update_self] at hq
      rw [hfree]
      simp only [List.mem_append, List.mem_cons] at hq ⊢
      tauto
    · rwa [Function.update_of_ne heq] at hq
  refine ⟨?_, ?_⟩
  · intro o' ho'
    by_cases heq : o' = o
    · subst heq
      have hring := h.ring o' ho'
      rw [hfree, List.map_append, List.map_cons] at hring
      rw [Function.update_self, List.map_append]
      exact ring_listDel hring
    · rw [Function.update_of_ne heq]
      exact (h.ring o' ho').join_frame
        (h.apart ho ho' (Ne.symm heq) ((h.ring o ho).prev_mem_ring hin))
        (h.apart ho ho' (Ne.symm heq) ((h.ring o ho).next_mem_ring hin))
  · intro o₁ ho₁ o₂ ho₂ hne q hq hbad
    exact h.disjoint o₁ ho₁ o₂ ho₂ hne q (hsub o₁ q hq) (hsub o₂ q hbad)

end Lists

/-- The descriptors of the pages `P`: exactly the first pages of the blocks are flagged,
each with the size of its block, and no page is reserved. -/
structure Heads (d : PageDescs) (P : ℕ → Prop) (bs : List Block) : Prop where
  flag : ∀ p, P p → (d.pageProperty p = true ↔ ∃ b ∈ bs, b.base = p)
  size : ∀ b ∈ bs, d.property b.base = b.size
  plain : ∀ p, P p → d.pageReserved p = false

namespace Heads

variable {d : PageDescs} {P : ℕ → Prop} {bs cs : List Block}

theorem perm (h : Heads d P bs) (hp : bs.Perm cs) : Heads d P cs where
  flag p hpP := by
    rw [h.flag p hpP]
    simp only [hp.mem_iff]
  size b hb := h.size b (hp.mem_iff.mpr hb)
  plain := h.plain

/-- A page becomes the head of a block. -/
theorem mark (h : Heads d P bs) {p v : ℕ} (hp : ∀ b ∈ bs, b.base ≠ p) (hv : v < pageLimit) :
    Heads ((d.setProperty p v).setPageProperty p) P (⟨p, v⟩ :: bs) where
  flag q hq := by
    simp only [PageDescs.setPageProperty, PageDescs.setProperty, List.mem_cons,
      exists_eq_or_imp]
    by_cases hqp : q = p
    · subst hqp
      simp
    · rw [Function.update_of_ne hqp, h.flag q hq]
      simp [eq_comm (b := q), hqp]
  size b hb := by
    simp only [PageDescs.setPageProperty, PageDescs.setProperty]
    rcases List.mem_cons.mp hb with rfl | hb
    · rw [Function.update_self, uint32_of_page hv]
    · rw [Function.update_of_ne (hp b hb)]
      exact h.size b hb
  plain := h.plain

/-- A head loses its flag; what its size becomes does not matter. -/
theorem unmark {b : Block} (h : Heads d P (b :: bs)) (hp : ∀ c ∈ bs, c.base ≠ b.base)
    {d' : PageDescs} (hres : d'.pageReserved = d.pageReserved)
    (hflag : d'.pageProperty = Function.update d.pageProperty b.base false)
    (hprop : ∀ q, q ≠ b.base → d'.property q = d.property q) : Heads d' P bs where
  flag q hq := by
    rw [hflag]
    by_cases hqb : q = b.base
    · subst hqb
      simp only [Function.update_self, Bool.false_eq_true, false_iff, not_exists, not_and]
      exact hp
    · rw [Function.update_of_ne hqb, h.flag q hq]
      simp [List.mem_cons, eq_comm (b := q), hqb]
  size c hc := by
    rw [hprop _ (hp c hc)]
    exact h.size c (List.mem_cons_of_mem b hc)
  plain q hq := by
    rw [hres]
    exact h.plain q hq

/-- A head gets another size. -/
theorem resize {p v w : ℕ} (h : Heads d P (⟨p, v⟩ :: bs)) (hp : ∀ c ∈ bs, c.base ≠ p)
    (hw : w < pageLimit) :
    Heads ((d.setProperty p w).setPageProperty p) P (⟨p, w⟩ :: bs) := by
  have hdrop : Heads (d.clearPageProperty p) P bs := h.unmark hp rfl rfl (fun _ _ => rfl)
  have hmark := hdrop.mark hp hw
  simp only [PageDescs.clearPageProperty, PageDescs.setProperty, PageDescs.setPageProperty,
    Function.update_idem] at hmark
  exact hmark

end Heads

/-- The lists hold `free`, the block in hand is flagged, and everything tiles `P`. -/
structure Shape (s : BuddyPmm) (P : ℕ → Prop) (live hand : List Block) (free : ℕ → List ℕ) :
    Prop where
  lists : Lists s.links free
  tiling : Tiling P (live ++ (hand ++ listed free))
  heads : Heads s.pages P (hand ++ listed free)
  aligned : ∀ o ≤ buddyMaxOrder, ∀ p ∈ free o, orderOfPages o ∣ p
  bound : ∀ p, P p → p + 1 < pageLimit

theorem size_lt_pageLimit {P : ℕ → Prop} {bs : List Block} (h : Tiling P bs)
    (hbound : ∀ p, P p → p + 1 < pageLimit) {b : Block} (hb : b ∈ bs) : b.size < pageLimit := by
  have hle := h.le_of_bound (N := pageLimit - 1) (fun p hp => by
    have := hbound p hp
    omega) hb
  have hlim : 0 < pageLimit := by
    unfold pageLimit
    omega
  omega

/-- Only descriptors of `P` and links are written. -/
structure Within (P : ℕ → Prop) (s s' : BuddyPmm) : Prop where
  npage : s'.npage = s.npage
  nrFree : s'.nrFree = s.nrFree
  flag : ∀ q, ¬ P q → s'.pages.pageProperty q = s.pages.pageProperty q
  property : ∀ q, ¬ P q → s'.pages.property q = s.pages.property q

theorem Within.refl (P : ℕ → Prop) (s : BuddyPmm) : Within P s s :=
  ⟨rfl, rfl, fun _ _ => rfl, fun _ _ => rfl⟩

theorem Within.trans {P : ℕ → Prop} {s t u : BuddyPmm} (h : Within P s t) (h' : Within P t u) :
    Within P s u where
  npage := h'.npage.trans h.npage
  nrFree := h'.nrFree.trans h.nrFree
  flag q hq := (h'.flag q hq).trans (h.flag q hq)
  property q hq := (h'.property q hq).trans (h.property q hq)

namespace Shape

variable {s : BuddyPmm} {P : ℕ → Prop} {live hand : List Block} {free : ℕ → List ℕ} {p o : ℕ}

theorem mem_listed (ho : o ≤ buddyMaxOrder) (hp : p ∈ free o) :
    (⟨p, orderOfPages o⟩ : Block) ∈ listed free :=
  mem_levels.mpr ⟨o, Nat.lt_succ_of_le ho, p, hp, rfl⟩

/-- Other blocks are live, with the same pages in all. -/
theorem relive {live' : List Block} (h : Shape s P live hand free)
    (ht : Tiling P (live' ++ (hand ++ listed free))) : Shape s P live' hand free :=
  ⟨h.lists, ht, h.heads, h.aligned, h.bound⟩

theorem live_perm {live' : List Block} (h : Shape s P live hand free) (hp : live.Perm live') :
    Shape s P live' hand free := h.relive (h.tiling.perm (hp.append_right _))

/-- The block in hand comes first. -/
theorem hand_front {b : Block} (h : Shape s P live [b] free) :
    Tiling P (b :: (live ++ listed free)) := h.tiling.perm List.perm_middle

theorem size_lt {b : Block} (h : Shape s P (b :: live) hand free) : b.size < pageLimit :=
  size_lt_pageLimit h.tiling h.bound List.mem_cons_self

/-- A live block is flagged, on the way to a list. -/
theorem mark {b : Block} (h : Shape s P (b :: live) [] free) :
    Shape { s with pages := (s.pages.setProperty b.base b.size).setPageProperty b.base }
      P live [b] free where
  lists := h.lists
  tiling := h.tiling.perm List.perm_middle.symm
  heads := h.heads.mark (fun c hc => h.tiling.base_ne_head c (List.mem_append_right _ hc))
    h.size_lt
  aligned := h.aligned
  bound := h.bound

theorem mark_within {b : Block} (h : Shape s P (b :: live) [] free) :
    Within P s { s with pages := (s.pages.setProperty b.base b.size).setPageProperty b.base } := by
  have hb : P b.base := (h.tiling.cover _).mpr
    ⟨b, List.mem_cons_self, Block.base_mem (h.tiling.pos b List.mem_cons_self)⟩
  have hne : ∀ q, ¬ P q → q ≠ b.base := fun q hq heq => hq (heq ▸ hb)
  refine ⟨rfl, rfl, ?_, ?_⟩
  · intro q hq
    exact Function.update_of_ne (hne q hq) _ _
  · intro q hq
    exact Function.update_of_ne (hne q hq) _ _

/-- The block in hand is put on its list. -/
theorem link (h : Shape s P live [⟨p, orderOfPages o⟩] free) (ho : o ≤ buddyMaxOrder)
    (hp : orderOfPages o ∣ p) :
    Shape { s with links := listAdd s.links (flist o) (pageLink p) } P live []
      (Function.update free o (p :: free o)) where
  lists := by
    refine h.lists.push ho ?_
    intro o' ho' hbad
    exact h.hand_front.base_ne_head ⟨p, orderOfPages o'⟩
      (List.mem_append_right _ (mem_listed ho' hbad)) rfl
  tiling := by
    refine h.tiling.perm (List.Perm.append_left _ ?_)
    exact (levels_push (Nat.lt_succ_of_le ho)).symm
  heads := h.heads.perm (levels_push (Nat.lt_succ_of_le ho)).symm
  aligned := by
    intro o' ho' q hq
    by_cases heq : o' = o
    · subst heq
      rw [Function.update_self] at hq
      rcases List.mem_cons.mp hq with rfl | hq
      · exact hp
      · exact h.aligned o' ho' q hq
    · rw [Function.update_of_ne heq] at hq
      exact h.aligned o' ho' q hq
  bound := h.bound

/-- A listed block is taken off its list, and its flag is cleared. -/
theorem unlink {xs ys : List ℕ} (h : Shape s P live hand free) (ho : o ≤ buddyMaxOrder)
    (hfree : free o = xs ++ p :: ys) {d : PageDescs}
    (hres : d.pageReserved = s.pages.pageReserved)
    (hflag : d.pageProperty = Function.update s.pages.pageProperty p false)
    (hprop : ∀ q, q ≠ p → d.property q = s.pages.property q) :
    Shape { s with links := listDel s.links (pageLink p), pages := d } P
      (⟨p, orderOfPages o⟩ :: live) hand (Function.update free o (xs ++ ys)) := by
  have hperm : (hand ++ listed free).Perm
      (⟨p, orderOfPages o⟩ :: (hand ++ listed (Function.update free o (xs ++ ys)))) :=
    (List.Perm.append_left _ (levels_remove (Nat.lt_succ_of_le ho) hfree)).trans
      List.perm_middle
  have ht : Tiling P (⟨p, orderOfPages o⟩ ::
      (live ++ (hand ++ listed (Function.update free o (xs ++ ys))))) :=
    h.tiling.perm ((List.Perm.append_left _ hperm).trans List.perm_middle)
  refine ⟨h.lists.remove ho hfree, ht, ?_, ?_, h.bound⟩
  · refine (h.heads.perm hperm).unmark ?_ hres hflag hprop
    intro c hc
    exact ht.base_ne_head c (List.mem_append_right _ hc)
  · intro o' ho' q hq
    refine h.aligned o' ho' q ?_
    by_cases heq : o' = o
    · subst heq
      rw [Function.update_self] at hq
      rw [hfree]
      simp only [List.mem_append, List.mem_cons] at hq ⊢
      tauto
    · rwa [Function.update_of_ne heq] at hq

end Shape

end Ucore.Pmm.BuddyPmm
