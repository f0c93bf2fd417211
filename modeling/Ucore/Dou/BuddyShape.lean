import Ucore.Dou.BuddyPmm
import Ucore.Library.Buddies
import Ucore.Library.RingFamily

/-!
What the free lists, the flags and the blocks in use look like while a request is served.
Joining leaves `PG_property` set on pages in the middle of a block. Such a page forms, with
the buddy of the order it was flagged for, a pair that lies inside one block: while the
block is whole the flag is not looked at, and when the block is cut between the two, the
flag is written anew or cleared.
-/
namespace Ucore.Dou.BuddyPmm

open Library Libs BuddyNode

theorem buddyOf_eq (page order : ℕ) : buddyOf page order = page ^^^ 2 ^ order := by
  unfold buddyOf
  rw [← Nat.shiftRight_eq_div_pow, Nat.shiftRight_xor_distrib, Nat.shiftRight_eq_div_pow,
    Nat.shiftRight_eq_div_pow, Nat.mul_div_cancel _ (Nat.two_pow_pos pgShift), Nat.pow_add,
    Nat.mul_div_cancel _ (Nat.two_pow_pos pgShift)]

theorem distinctNodes : DistinctNodes freeList pageLink where
  head_inj h := freeList.inj h
  entry_inj h := pageLink.inj h
  head_ne _ _ h := BuddyNode.noConfusion h

/-- A first page and an order as a block of pages. -/
def asBlock (e : ℕ × ℕ) : Block := ⟨e.1, 2 ^ e.2⟩

/-- The blocks on the lists, where `free o` has the first pages on list `o`. -/
def onLists (free : ℕ → List ℕ) : List (ℕ × ℕ) :=
  pooled maxOrder (fun o => (free o).map (fun p => (p, o)))

section lists

variable {free : ℕ → List ℕ} {o p : ℕ} {xs ys : List ℕ}

theorem mem_onLists {e : ℕ × ℕ} : e ∈ onLists free ↔ e.2 < maxOrder ∧ e.1 ∈ free e.2 := by
  rw [onLists, mem_pooled]
  constructor
  · intro h
    obtain ⟨o, ho, hmem⟩ := h
    obtain ⟨p, hp, rfl⟩ := List.mem_map.mp hmem
    exact ⟨ho, hp⟩
  · intro h
    exact ⟨e.2, h.1, List.mem_map.mpr ⟨e.1, h.2, rfl⟩⟩

theorem map_update (free : ℕ → List ℕ) (o : ℕ) (xs : List ℕ) :
    (fun o' => (Function.update free o xs o').map (fun p => (p, o'))) =
      Function.update (fun o' => (free o').map (fun p => (p, o'))) o
        (xs.map (fun p => (p, o))) := by
  funext o'
  by_cases heq : o' = o
  · subst heq
    simp only [Function.update_self]
  · simp only [Function.update_of_ne heq]

theorem onLists_push (ho : o < maxOrder) :
    (onLists (Function.update free o (p :: free o))).Perm ((p, o) :: onLists free) := by
  unfold onLists
  rw [map_update, List.map_cons]
  exact pooled_push ho

theorem onLists_remove (ho : o < maxOrder) (h : free o = xs ++ p :: ys) :
    (onLists free).Perm ((p, o) :: onLists (Function.update free o (xs ++ ys))) := by
  unfold onLists
  rw [map_update, List.map_append]
  refine pooled_remove ho ?_
  rw [h, List.map_append, List.map_cons]

theorem mem_update_push {o' q : ℕ} :
    q ∈ Function.update free o (p :: free o) o' ↔ (q = p ∧ o' = o) ∨ q ∈ free o' := by
  by_cases heq : o' = o
  · subst heq
    rw [Function.update_self, List.mem_cons]
    tauto
  · rw [Function.update_of_ne heq]
    tauto

theorem mem_of_update_remove {o' q : ℕ} (h : free o = xs ++ p :: ys)
    (hq : q ∈ Function.update free o (xs ++ ys) o') : q ∈ free o' := by
  by_cases heq : o' = o
  · subst heq
    rw [Function.update_self] at hq
    rw [h]
    simp only [List.mem_append, List.mem_cons] at hq ⊢
    tauto
  · rwa [Function.update_of_ne heq] at hq

end lists

/-- The pair of page `q` and its buddy of order `j` is one of the pairs that make up the
block `e`. -/
def Inside (q j : ℕ) (e : ℕ × ℕ) : Prop :=
  j < e.2 ∧ ∃ c, min q (q ^^^ 2 ^ j) = e.1 + c * 2 ^ (j + 1) ∧ (c + 1) * 2 ^ (j + 1) ≤ 2 ^ e.2

section inside

variable {q j p o c : ℕ} {e : ℕ × ℕ}

/-- Both pages of a pair inside a block are pages of the block. -/
theorem Inside.mem (h : Inside q j e) : q ∈ asBlock e ∧ q ^^^ 2 ^ j ∈ asBlock e := by
  obtain ⟨-, c, hmin, hle⟩ := h
  rw [Nat.add_mul, Nat.one_mul] at hle
  have hpos := Nat.two_pow_pos j
  have hdouble : 2 ^ (j + 1) = 2 ^ j + 2 ^ j := by
    rw [Nat.pow_succ]
    omega
  simp only [asBlock, Block.mem_def]
  rcases xor_two_pow_cases q j with hx | hx <;> omega

/-- A block is cut in two: the pair lies in one of the halves, or its pages are the first
pages of the halves. -/
theorem Inside.split (h : Inside q j (p, c + 1)) :
    Inside q j (p, c) ∨ Inside q j (p + 2 ^ c, c) ∨ q = p ∨ q = p + 2 ^ c := by
  obtain ⟨hj, t, hmin, hle⟩ := h
  simp only at hj hmin hle
  rcases Nat.lt_or_eq_of_le (Nat.le_of_lt_succ hj) with hlt | rfl
  · obtain ⟨d, hd⟩ := Nat.pow_dvd_pow 2 (show j + 1 ≤ c from hlt)
    rw [Nat.pow_succ 2 c, hd, Nat.mul_comm, Nat.mul_assoc] at hle
    have hle' := Nat.le_of_mul_le_mul_left hle (Nat.two_pow_pos (j + 1))
    by_cases hfirst : t + 1 ≤ d
    · refine Or.inl ⟨hlt, t, hmin, ?_⟩
      simp only [hd]
      rw [Nat.mul_comm]
      exact Nat.mul_le_mul_left _ hfirst
    · refine Or.inr (Or.inl ⟨hlt, t - d, ?_, ?_⟩)
      · have hsplit : t * 2 ^ (j + 1) = d * 2 ^ (j + 1) + (t - d) * 2 ^ (j + 1) := by
          rw [← Nat.add_mul]
          congr 1
          omega
        simp only [hmin, hd]
        rw [hsplit, Nat.mul_comm d]
        omega
      · simp only [hd]
        rw [Nat.mul_comm]
        exact Nat.mul_le_mul_left _ (by omega)
  · have ht : t = 0 := by
      have hone := Nat.le_of_mul_le_mul_right (hle.trans (Nat.one_mul _).ge)
        (Nat.two_pow_pos (j + 1))
      omega
    subst ht
    rw [Nat.zero_mul, Nat.add_zero] at hmin
    rcases xor_two_pow_cases q j with hx | hx <;> omega

/-- Two halves become a block: what lies inside one half lies inside the block. -/
theorem Inside.join {m : ℕ} (h : Inside q j (p, o)) (hp : p = m ∨ p = m + 2 ^ o) :
    Inside q j (m, o + 1) := by
  obtain ⟨hj, t, hmin, hle⟩ := h
  simp only at hj hmin hle
  obtain ⟨d, hd⟩ := Nat.pow_dvd_pow 2 (show j + 1 ≤ o from hj)
  have hdouble : 2 ^ (o + 1) = 2 ^ o + 2 ^ o := by
    rw [Nat.pow_succ]
    omega
  refine ⟨Nat.lt_succ_of_lt hj, ?_⟩
  rcases hp with rfl | rfl
  · refine ⟨t, hmin, ?_⟩
    simp only [hdouble]
    omega
  · refine ⟨t + d, ?_, ?_⟩
    · simp only [hmin]
      rw [hd, Nat.add_mul, Nat.mul_comm d]
      omega
    · simp only [hdouble]
      rw [show t + d + 1 = (t + 1) + d by omega, Nat.add_mul, Nat.mul_comm d, ← hd]
      omega

/-- A joined block is the pair of the first pages of its halves. -/
theorem inside_self (p o : ℕ) : Inside p o (min p (p ^^^ 2 ^ o), o + 1) := by
  refine ⟨Nat.lt_succ_self o, 0, by simp, by simp⟩

end inside

/-- The lists hold `free`, the blocks `own` are in use or in hand, and together they tile the
pages `P`. Flagged pages of `P` are first pages on lists, or exempt by `x`, or in the middle
of a block. -/
structure Shape (s : BuddyPmm) (P : ℕ → Prop) (own : List (ℕ × ℕ)) (free : ℕ → List ℕ)
    (x : ℕ → Prop) : Prop where
  lists : RingFamily s.links freeList pageLink maxOrder free
  tiling : Tiling P ((own ++ onLists free).map asBlock)
  heads : ∀ o < maxOrder, ∀ p ∈ free o, s.pages.property p = o ∧ s.pages.pageProperty p = true
  stale : ∀ q, P q → s.pages.pageProperty q = true →
    (∃ o < maxOrder, q ∈ free o) ∨ x q ∨
      ∃ e ∈ own ++ onLists free, Inside q (s.pages.property q) e
  count : ∀ o < maxOrder, s.nrFree o = uint32 (free o).length

/-- No page is exempt. -/
def NoPage : ℕ → Prop := fun _ => False

namespace Shape

variable {s : BuddyPmm} {P : ℕ → Prop} {own : List (ℕ × ℕ)} {free : ℕ → List ℕ} {x : ℕ → Prop}
  {p o : ℕ}

/-- More pages may be exempt. -/
theorem weaken (h : Shape s P own free x) {y : ℕ → Prop} (hxy : ∀ q, x q → y q) :
    Shape s P own free y := by
  refine ⟨h.lists, h.tiling, h.heads, ?_, h.count⟩
  intro q hq hflag
  rcases h.stale q hq hflag with hlist | hx | hin
  · exact Or.inl hlist
  · exact Or.inr (Or.inl (hxy q hx))
  · exact Or.inr (Or.inr hin)

/-- The blocks in use in another order. -/
theorem perm {own' : List (ℕ × ℕ)} (h : Shape s P own free x) (hp : own.Perm own') :
    Shape s P own' free x := by
  refine ⟨h.lists, h.tiling.perm ((hp.append_right _).map asBlock), h.heads, ?_, h.count⟩
  intro q hq hflag
  rcases h.stale q hq hflag with hlist | hx | ⟨e, he, hin⟩
  · exact Or.inl hlist
  · exact Or.inr (Or.inl hx)
  · exact Or.inr (Or.inr ⟨e, (hp.append_right _).mem_iff.mp he, hin⟩)

/-- The first page of a block in hand is on no list. -/
theorem hand_unlisted (h : Shape s P ((p, o) :: own) free x) : ∀ k < maxOrder, p ∉ free k := by
  intro k hk hbad
  refine h.tiling.base_ne_head (asBlock (p, k)) ?_ rfl
  exact List.mem_map_of_mem (List.mem_append_right _ (mem_onLists.mpr ⟨hk, hbad⟩))

/-- The pages of a block are pages of `P`. -/
theorem page_of (h : Shape s P own free x) {e : ℕ × ℕ} (he : e ∈ own ++ onLists free) {q : ℕ}
    (hq : q ∈ asBlock e) : P q :=
  (h.tiling.cover q).mpr ⟨asBlock e, List.mem_map_of_mem he, hq⟩

theorem uint32_order (ho : o < maxOrder) : uint32 o = o := by
  unfold maxOrder at ho
  exact uint32_of_lt (by omega)

/-- The block in hand goes to its list. -/
theorem add (h : Shape s P ((p, o) :: own) free x) (ho : o < maxOrder) :
    Shape (s.addBlock p o) P own (Function.update free o (p :: free o))
      (fun q => x q ∧ q ≠ p) := by
  have hperm : (own ++ onLists (Function.update free o (p :: free o))).Perm
      ((p, o) :: own ++ onLists free) :=
    ((onLists_push ho).append_left own).trans List.perm_middle
  refine ⟨h.lists.push distinctNodes ho h.hand_unlisted, h.tiling.perm (hperm.symm.map asBlock),
    ?_, ?_, ?_⟩
  · intro k hk q hq
    simp only [addBlock, Pmm.PageDescs.setPageProperty, Pmm.PageDescs.setProperty]
    rcases mem_update_push.mp hq with ⟨rfl, rfl⟩ | hq
    · rw [Function.update_self, Function.update_self, uint32_order ho]
      exact ⟨rfl, rfl⟩
    · have hne : q ≠ p := fun heq => h.hand_unlisted k hk (heq ▸ hq)
      rw [Function.update_of_ne hne, Function.update_of_ne hne]
      exact h.heads k hk q hq
  · intro q hq hflag
    by_cases heq : q = p
    · exact Or.inl ⟨o, ho, mem_update_push.mpr (Or.inl ⟨heq, rfl⟩)⟩
    · simp only [addBlock, Pmm.PageDescs.setPageProperty, Pmm.PageDescs.setProperty,
        Function.update_of_ne heq] at hflag ⊢
      rcases h.stale q hq hflag with ⟨k, hk, hmem⟩ | hx | ⟨e, he, hin⟩
      · exact Or.inl ⟨k, hk, mem_update_push.mpr (Or.inr hmem)⟩
      · exact Or.inr (Or.inl ⟨hx, heq⟩)
      · exact Or.inr (Or.inr ⟨e, hperm.mem_iff.mpr he, hin⟩)
  · intro k hk
    by_cases heq : k = o
    · subst heq
      simp only [addBlock, Function.update_self, List.length_cons, h.count k hk, uint32]
      omega
    · simp only [addBlock, Function.update_of_ne heq]
      exact h.count k hk

/-- A block comes off its list. -/
theorem take {xs ys : List ℕ} (h : Shape s P own free x) (ho : o < maxOrder)
    (hfree : free o = xs ++ p :: ys) :
    Shape (s.delBlock p o) P ((p, o) :: own) (Function.update free o (xs ++ ys))
      (fun q => x q ∨ q = p) := by
  have hperm : (own ++ onLists free).Perm
      ((p, o) :: own ++ onLists (Function.update free o (xs ++ ys))) :=
    ((onLists_remove ho hfree).append_left own).trans List.perm_middle
  refine ⟨h.lists.remove distinctNodes ho hfree, h.tiling.perm (hperm.map asBlock), ?_, ?_, ?_⟩
  · intro k hk q hq
    exact h.heads k hk q (mem_of_update_remove hfree hq)
  · intro q hq hflag
    rcases h.stale q hq hflag with ⟨k, hk, hmem⟩ | hx | ⟨e, he, hin⟩
    · by_cases heq : k = o
      · subst heq
        rw [hfree, List.mem_append, List.mem_cons] at hmem
        rcases hmem with hmem | heq | hmem
        · refine Or.inl ⟨k, hk, ?_⟩
          rw [Function.update_self]
          exact List.mem_append_left ys hmem
        · exact Or.inr (Or.inl (Or.inr heq))
        · refine Or.inl ⟨k, hk, ?_⟩
          rw [Function.update_self]
          exact List.mem_append_right xs hmem
      · refine Or.inl ⟨k, hk, ?_⟩
        rw [Function.update_of_ne heq]
        exact hmem
    · exact Or.inr (Or.inl (Or.inl hx))
    · exact Or.inr (Or.inr ⟨e, hperm.mem_iff.mp he, hin⟩)
  · intro k hk
    by_cases heq : k = o
    · subst heq
      simp only [delBlock, Function.update_self, h.count k hk, hfree, List.length_append,
        List.length_cons, uint32]
      omega
    · simp only [delBlock, Function.update_of_ne heq]
      exact h.count k hk

theorem two_pow_succ' (o : ℕ) : 2 ^ (o + 1) = 2 ^ o + 2 ^ o := by
  rw [Nat.pow_succ]
  omega

/-- The block in hand is cut in two, and the first pages of the halves are exempt. -/
theorem split (h : Shape s P ((p, o + 1) :: own) free x) :
    Shape s P ((p + 2 ^ o, o) :: (p, o) :: own) free
      (fun q => x q ∨ q = p ∨ q = p + 2 ^ o) := by
  refine ⟨h.lists, ?_, h.heads, ?_, h.count⟩
  · have ht := h.tiling
    simp only [List.cons_append, List.map_cons, asBlock] at ht ⊢
    rw [two_pow_succ'] at ht
    exact (ht.split (Nat.two_pow_pos o) (Nat.two_pow_pos o)).perm (List.Perm.swap _ _ _)
  · intro q hq hflag
    rcases h.stale q hq hflag with hlist | hx | ⟨e, he, hin⟩
    · exact Or.inl hlist
    · exact Or.inr (Or.inl (Or.inl hx))
    · rcases List.mem_cons.mp he with rfl | he
      · rcases hin.split with hin | hin | hstart
        · refine Or.inr (Or.inr ⟨_, ?_, hin⟩)
          exact List.mem_cons_of_mem _ List.mem_cons_self
        · exact Or.inr (Or.inr ⟨_, List.mem_cons_self, hin⟩)
        · exact Or.inr (Or.inl (Or.inr hstart))
      · refine Or.inr (Or.inr ⟨e, ?_, hin⟩)
        exact List.mem_cons_of_mem _ (List.mem_cons_of_mem _ he)

/-- A turn of the splitting loop: the second half goes to its list. -/
theorem splitOff (h : Shape s P ((p, o + 1) :: own) free (fun q => q = p)) (ho : o < maxOrder) :
    Shape (s.addBlock (p + 2 ^ o) o) P ((p, o) :: own)
      (Function.update free o ((p + 2 ^ o) :: free o)) (fun q => q = p) := by
  refine (h.split.add ho).weaken ?_
  intro q hq
  obtain ⟨hq, hne⟩ := hq
  rcases hq with rfl | rfl | heq
  · rfl
  · rfl
  · exact absurd heq hne

/-- The flag of a page that is on no list is cleared. -/
theorem clear (h : Shape s P own free (fun q => q = p)) (hp : ∀ k < maxOrder, p ∉ free k) :
    Shape { s with pages := s.pages.clearPageProperty p } P own free NoPage := by
  refine ⟨h.lists, h.tiling, ?_, ?_, h.count⟩
  · intro k hk q hq
    have hne : q ≠ p := fun heq => hp k hk (heq ▸ hq)
    simp only [Pmm.PageDescs.clearPageProperty, Function.update_of_ne hne]
    exact h.heads k hk q hq
  · intro q hq hflag
    simp only [Pmm.PageDescs.clearPageProperty] at hflag ⊢
    by_cases heq : q = p
    · rw [heq, Function.update_self] at hflag
      exact absurd hflag Bool.false_ne_true
    · rw [Function.update_of_ne heq] at hflag
      rcases h.stale q hq hflag with hlist | hx | hin
      · exact Or.inl hlist
      · exact absurd hx heq
      · exact Or.inr (Or.inr hin)

/-- What looks like a free buddy of the block in hand is one. -/
theorem buddy_listed (h : Shape s P ((p, o) :: own) free NoPage) (hq : P (p ^^^ 2 ^ o)) (hflag : s.pages.pageProperty (p ^^^ 2 ^ o) = true)
    (hprop : s.pages.property (p ^^^ 2 ^ o) = o) : p ^^^ 2 ^ o ∈ free o := by
  rcases h.stale _ hq hflag with ⟨k, hk, hmem⟩ | hx | ⟨e, he, hin⟩
  · have hk' := (h.heads k hk _ hmem).1
    rw [hprop] at hk'
    rwa [← hk'] at hmem
  · exact hx.elim
  · -- the pair would lie in a larger block, which is not the one in hand
    exfalso
    rw [hprop] at hin
    have hp := hin.mem.2
    rw [xor_two_pow_twice] at hp
    have hself : p ∈ asBlock (p, o) := Block.base_mem (Nat.two_pow_pos o)
    have heq := h.tiling.unique (List.mem_map_of_mem he)
      (List.mem_map_of_mem (f := asBlock) List.mem_cons_self) hp hself
    have hsize : 2 ^ e.2 = 2 ^ o := congrArg Block.size heq
    have hlt : 2 ^ o < 2 ^ e.2 := Nat.pow_lt_pow_right Nat.one_lt_two hin.1
    omega

/-- The block in hand is joined with its buddy. -/
theorem join (h : Shape s P ((p ^^^ 2 ^ o, o) :: (p, o) :: own) free
      (fun q => NoPage q ∨ q = p ^^^ 2 ^ o))
    (hprop : s.pages.property (p ^^^ 2 ^ o) = o) :
    Shape s P ((min p (p ^^^ 2 ^ o), o + 1) :: own) free NoPage := by
  obtain ⟨m, hm⟩ : ∃ m, m = min p (p ^^^ 2 ^ o) := ⟨_, rfl⟩
  have hself : Inside (p ^^^ 2 ^ o) o (m, o + 1) := by
    have hin := inside_self (p ^^^ 2 ^ o) o
    rw [xor_two_pow_twice, Nat.min_comm, ← hm] at hin
    exact hin
  have hhalves : (p = m ∧ p ^^^ 2 ^ o = m + 2 ^ o) ∨ (p = m + 2 ^ o ∧ p ^^^ 2 ^ o = m) := by
    have hpos := Nat.two_pow_pos o
    rcases xor_two_pow_cases p o with hx | hx <;> omega
  rw [← hm]
  refine ⟨h.lists, ?_, h.heads, ?_, h.count⟩
  · have ht := h.tiling
    simp only [List.cons_append, List.map_cons, asBlock] at ht ⊢
    rw [two_pow_succ']
    rcases hhalves with ⟨h1, h2⟩ | ⟨h1, h2⟩
    · rw [h2, h1] at ht
      exact (ht.perm (List.Perm.swap _ _ _)).join
    · rw [h2, h1] at ht
      exact ht.join
  · intro q hq hflag
    rcases h.stale q hq hflag with hlist | hx | ⟨e, he, hin⟩
    · exact Or.inl hlist
    · rcases hx with hx | rfl
      · exact hx.elim
      · rw [hprop]
        exact Or.inr (Or.inr ⟨_, List.mem_cons_self, hself⟩)
    · rcases List.mem_cons.mp he with rfl | he
      · refine Or.inr (Or.inr ⟨_, List.mem_cons_self, hin.join ?_⟩)
        omega
      · rcases List.mem_cons.mp he with rfl | he
        · refine Or.inr (Or.inr ⟨_, List.mem_cons_self, hin.join ?_⟩)
          omega
        · exact Or.inr (Or.inr ⟨e, List.mem_cons_of_mem _ he, hin⟩)

/-- Pages without flags come under control as a block in hand. -/
theorem extend (h : Shape s P own free x) {Q : ℕ → Prop}
    (hout : ∀ q ∈ asBlock (p, o), ¬ P q ∧ s.pages.pageProperty q = false)
    (hQ : ∀ q, Q q ↔ P q ∨ q ∈ asBlock (p, o)) : Shape s Q ((p, o) :: own) free x := by
  refine ⟨h.lists, ?_, h.heads, ?_, h.count⟩
  · rw [List.cons_append, List.map_cons]
    exact h.tiling.cons (Nat.two_pow_pos o) (fun q hq => (hout q hq).1) hQ
  · intro q hq hflag
    rcases (hQ q).mp hq with hP | hin
    · rcases h.stale q hP hflag with hlist | hx | ⟨e, he, hin⟩
      · exact Or.inl hlist
      · exact Or.inr (Or.inl hx)
      · exact Or.inr (Or.inr ⟨e, List.mem_cons_of_mem _ he, hin⟩)
    · rw [(hout q hin).2] at hflag
      exact absurd hflag Bool.false_ne_true

end Shape
end Ucore.Dou.BuddyPmm
