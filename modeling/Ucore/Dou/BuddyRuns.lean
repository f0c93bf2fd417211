import Ucore.Dou.BuddyInit
import Mathlib.Algebra.Order.BigOperators.Group.List

/-!
Runs of the buddy manager: every page is owned once, and below `2 ^ 32` pages the count of
free pages is right.
-/
namespace Ucore.Dou.BuddyUsers

open Library Libs BuddyPmm BuddyNode

/-- The blocks handed out, as first pages and orders. -/
def own (h : BuddyUsers) : List (ℕ × ℕ) := h.live.map (fun e => (e.1, requestOrder e.2))

/-- What a request does to the lists and the blocks in use, and the orders at which it looks
up buddies. -/
inductive Moved : (ℕ → List ℕ) → List (ℕ × ℕ) → List ℕ → (ℕ → List ℕ) → List (ℕ × ℕ) → Prop
  | refuse (free : ℕ → List ℕ) (own : List (ℕ × ℕ)) : Moved free own [] free own
  | take {free free' : ℕ → List ℕ} {own : List (ℕ × ℕ)} {p o cur : ℕ} {ys : List ℕ}
    (hcur : cur < maxOrder) (hfree : free cur = p :: ys)
    (hcut : Cut p o cur (Function.update free cur ys) free') :
    Moved free own [] free' ((p, o) :: own)
  | give {free free' : ℕ → List ℕ} {own own' : List (ℕ × ℕ)} {p o : ℕ} {os : List ℕ}
    (hperm : own.Perm ((p, o) :: own')) (ho : o < maxOrder) (hmerged : Merged free (p, o) os free') :
    Moved free own os free' own'

/-- The state between requests. -/
structure Sound (base n : ℕ) (h : BuddyUsers) (free : ℕ → List ℕ) : Prop where
  shape : Shape h.pmm (Managed base n) h.own free NoPage
  orders : ∀ e ∈ h.live, e.2 ≠ 0 ∧ requestOrder e.2 < maxOrder
  machine : base + n ≤ h.pmm.npage

variable {base n : ℕ} {h : BuddyUsers} {free : ℕ → List ℕ}

/-- Every request returns. -/
theorem Sound.step_spec (hs : Sound base n h free) {op : BuddyOp} (hop : Allowed base n h op) :
    ∃ h' free', h.step op = some h' ∧ Sound base n h' free' ∧
      Moved free h.own ((h.lookedUp op).map Prod.snd) free' h'.own := by
  cases op with
  | allocPages m =>
    obtain ⟨r, hrun, halloc⟩ := buddyAllocPages_spec hs.shape m
    simp only [step, hrun, Option.map_some, lookedUp, List.map_nil]
    cases halloc with
    | null hnone => exact ⟨_, free, rfl, ⟨hs.shape, hs.orders, hs.machine⟩, Moved.refuse _ _⟩
    | @block p cur ys s' free' hm hle hcur hfree hcut hshape hsame =>
      refine ⟨⟨s', (p, m) :: h.live⟩, free', rfl, ⟨hshape, ?_, ?_⟩, Moved.take hcur hfree hcut⟩
      · intro e he
        rcases List.mem_cons.mp he with rfl | he
        · exact ⟨hm, Nat.lt_of_le_of_lt hle hcur⟩
        · exact hs.orders e he
      · rw [hsame]
        exact hs.machine
  | freePages page m =>
    obtain ⟨hlook, hlive⟩ := hop
    obtain ⟨hm, ho⟩ := hs.orders _ hlive
    simp only at hm ho
    have hperm : h.own.Perm ((page, requestOrder m) :: own ⟨h.pmm, h.live.erase (page, m)⟩) :=
      (List.perm_cons_erase hlive).map _
    obtain ⟨s', free', hrun, hshape, hmerged, hsame⟩ := mergeLoop_spec
      (hs.shape.perm hperm) (show requestOrder m + (maxOrder - 1 - requestOrder m) = maxOrder - 1 by omega)
      (fun b hb => ⟨hlook b hb, by
        have h1 := (hlook b hb).2
        have h2 := hs.machine
        omega⟩)
    refine ⟨⟨s', h.live.erase (page, m)⟩, free', ?_, ⟨hshape, ?_, ?_⟩,
      Moved.give hperm ho hmerged⟩
    · simp only [step, buddyFreePages, if_neg hm, freeOrder_spec ho, Option.bind_eq_bind,
        Option.bind_some, hrun, Option.map_some]
    · exact fun e he => hs.orders e (List.mem_of_mem_erase he)
    · rw [hsame]
      exact hs.machine

/-- Distinct managed pages are at most `n`. -/
theorem Sound.length_free (hs : Sound base n h free) {o : ℕ} (ho : o < maxOrder) :
    (free o).length ≤ n := by
  have hnodup : (free o).Nodup := List.Nodup.of_map _ (hs.shape.lists.ring o ho).nodup
  have hsub : free o ⊆ List.range' base n := by
    intro p hp
    have hself : p ∈ asBlock (p, o) := Block.base_mem (Nat.two_pow_pos o)
    have hpage := hs.shape.page_of (List.mem_append_right _ (mem_onLists.mpr ⟨ho, hp⟩)) hself
    rw [List.mem_range'_1]
    exact hpage
  have hle := (List.subperm_of_subset hnodup hsub).length_le
  rwa [List.length_range'] at hle

theorem listPages_path {l : Links BuddyNode} {xs : List ℕ} {left o : ℕ} {a : BuddyNode}
    (hpath : l.Path a (xs.map pageLink) (freeList o)) (hleft : xs.length < left) :
    listPages l left a = xs := by
  induction left generalizing a xs with
  | zero => omega
  | succ left ih =>
    rw [listPages]
    cases xs with
    | nil =>
      have hnext : l.next a = freeList o := hpath.1
      rw [hnext]
    | cons x xs =>
      obtain ⟨⟨hnext, -⟩, hrest⟩ := hpath
      rw [hnext]
      simp only
      rw [ih hrest (by rw [List.length_cons] at hleft; omega)]

theorem Sound.listed_eq (hs : Sound base n h free) {o : ℕ} (ho : o < maxOrder) :
    h.listed n o = free o :=
  listPages_path (hs.shape.lists.ring o ho).2 (Nat.lt_succ_of_le (hs.length_free ho))

theorem map_onLists (free : ℕ → List ℕ) :
    (onLists free).map asBlock =
      (List.range maxOrder).flatMap (fun o => (free o).map (fun p => ⟨p, 2 ^ o⟩)) := by
  simp only [onLists, pooled, List.map_flatMap, List.map_map]
  rfl

theorem Sound.freeBlocks_eq (hs : Sound base n h free) :
    h.freeBlocks n = (onLists free).map asBlock := by
  rw [map_onLists, freeBlocks]
  apply List.flatMap_congr
  intro o ho
  rw [hs.listed_eq (List.mem_range.mp ho)]

theorem liveBlocks_eq (h : BuddyUsers) : h.liveBlocks = h.own.map asBlock := by
  simp only [liveBlocks, own, List.map_map]
  rfl

theorem Sound.tiling (hs : Sound base n h free) :
    Tiling (fun p => base ≤ p ∧ p < base + n) (h.liveBlocks ++ h.freeBlocks n) := by
  rw [liveBlocks_eq, hs.freeBlocks_eq, ← List.map_append]
  exact hs.shape.tiling

/-- The pages on the lists, counted list by list. -/
theorem sum_onLists (free : ℕ → List ℕ) :
    (((onLists free).map asBlock).map Block.size).sum =
      ((List.range maxOrder).map (fun o => (free o).length * 2 ^ o)).sum := by
  rw [map_onLists]
  induction List.range maxOrder with
  | nil => rfl
  | cons o os ih =>
    rw [List.flatMap_cons, List.map_append, List.sum_append, ih, List.map_cons, List.sum_cons,
      List.map_map]
    congr 1
    simp [Function.comp_def]

/-- Blocks in use and blocks on the lists have together `n` pages. -/
theorem Sound.sum_pages (hs : Sound base n h free) (hn : 0 < n) :
    ((List.range maxOrder).map (fun o => (free o).length * 2 ^ o)).sum +
      (h.liveBlocks.map Block.size).sum = n := by
  have hwhole : Tiling (fun p => base ≤ p ∧ p < base + n) [⟨base, n⟩] := by
    refine (Tiling.nil (P := fun _ => False) (fun _ hno => hno)).cons hn (fun _ _ hno => hno) ?_
    intro p
    rw [Block.mem_def]
    tauto
  have hsum := hs.tiling.sum_eq hwhole (N := base + n) (fun p hp => hp.2)
  rw [List.map_append, List.sum_append, hs.freeBlocks_eq, sum_onLists] at hsum
  simp only [List.map_cons, List.map_nil, List.sum_cons, List.sum_nil] at hsum
  omega

/-- Below `2 ^ 32` pages no shift of `nr_free_pages` overflows. -/
theorem Sound.nrFreePages_eq (hs : Sound base n h free) (hn : 0 < n) (hlt : n < 2 ^ 32) :
    h.pmm.buddyNrFreePages =
      ((List.range maxOrder).map (fun o => (free o).length * 2 ^ o)).sum := by
  rw [buddyNrFreePages]
  congr 1
  apply List.map_congr_left
  intro o ho
  have hlen := hs.length_free (List.mem_range.mp ho)
  have hterm : (free o).length * 2 ^ o ≤ n := by
    have hsum := hs.sum_pages hn
    have hle := List.le_sum_of_mem
      (List.mem_map_of_mem (f := fun o => (free o).length * 2 ^ o) ho)
    omega
  rw [hs.shape.count o (List.mem_range.mp ho)]
  have hsmall : uint32 (free o).length = (free o).length := uint32_of_lt (by omega)
  rw [hsmall]
  exact uint32_of_lt (by omega)

theorem Sound.owned (hs : Sound base n h free) (hn : 0 < n) (hlt : n < 2 ^ 32) : h.Owned base n where
  ring o ho := by
    rw [hs.listed_eq ho]
    exact hs.shape.lists.ring o ho
  tiling := hs.tiling
  heads o ho p hp := by
    rw [hs.listed_eq ho] at hp
    exact hs.shape.heads o ho p hp
  count := by
    rw [hs.nrFreePages_eq hn hlt]
    exact hs.sum_pages hn

/-- Right after `init_memmap` nothing is in use. -/
theorem sound_init {s s' : BuddyPmm} (hshape : Shape s' (Managed base n) [] free NoPage)
    (hsame : s'.npage = s.npage) (hin : base + n ≤ s.npage) :
    Sound base n ⟨s', []⟩ free where
  shape := hshape
  orders e he := absurd he List.not_mem_nil
  machine := by
    rw [hsame]
    exact hin

/-- Every run with lookups in range gets to its end. -/
theorem Sound.run_spec (hs : Sound base n h free) {ops : List BuddyOp}
    (hops : RunMeets step (Allowed base n) h ops) :
    ∃ t free', runOps step h ops = some t ∧ Sound base n t free' := by
  obtain ⟨t, hrun, free', ht⟩ := runOps_total
    (fun h op (hinv : ∃ free, Sound base n h free) hop => by
      obtain ⟨free, hs⟩ := hinv
      obtain ⟨h', free', hstep, hs', -⟩ := hs.step_spec hop
      exact ⟨h', hstep, free', hs'⟩) ⟨free, hs⟩ hops
  exact ⟨t, free', hrun, ht⟩

/-- Below the last order `init_memmap` puts at most one block on a list. -/
theorem length_laid (hs : Sound base n h free) (hlaid : Laid base n free) {o : ℕ}
    (ho : o < maxOrder - 1) : (free o).length ≤ 1 := by
  have ho' : o < maxOrder := by omega
  have hnodup : (free o).Nodup := List.Nodup.of_map _ (hs.shape.lists.ring o ho').nodup
  have hone : ∀ p ∈ free o, ∀ q ∈ free o, p ≤ q → q = p := by
    intro p hp q hq hle
    obtain ⟨h1, -, h2⟩ := hlaid o ho' p hp
    obtain ⟨h3, -, h4⟩ := hlaid o ho' q hq
    have hlast : q + 2 ^ o - 1 ∈ asBlock (q, o) := by
      have hpos := Nat.two_pow_pos o
      simp only [asBlock, Block.mem_def]
      omega
    have hfit := (hs.shape.page_of (List.mem_append_right _ (mem_onLists.mpr ⟨ho', hq⟩)) hlast).2
    obtain ⟨k, hk⟩ := Nat.dvd_of_mod_eq_zero (h2 ho).1
    obtain ⟨l, hl⟩ := Nat.dvd_of_mod_eq_zero (h4 ho).1
    have hbound := (h2 ho).2
    have hdouble := Shape.two_pow_succ' o
    have hpos := Nat.two_pow_pos o
    have hkl : l = k := by
      have hle' : k ≤ l := Nat.le_of_mul_le_mul_left (by omega) (Nat.two_pow_pos (o + 1))
      have hlt : l < k + 1 := by
        refine Nat.lt_of_mul_lt_mul_left (a := 2 ^ (o + 1)) ?_
        rw [Nat.mul_add, Nat.mul_one]
        omega
      omega
    rw [hkl] at hl
    omega
  by_contra hmany
  obtain ⟨p, q, rest, hfree⟩ : ∃ p q rest, free o = p :: q :: rest := by
    rcases hf : free o with _ | ⟨p, _ | ⟨q, rest⟩⟩
    · simp [hf] at hmany
    · simp [hf] at hmany
    · exact ⟨p, q, rest, rfl⟩
  have hpm : p ∈ free o := hfree ▸ List.mem_cons_self
  have hqm : q ∈ free o := hfree ▸ List.mem_cons_of_mem _ List.mem_cons_self
  have hne : p ≠ q := by
    rw [hfree, List.nodup_cons, List.mem_cons, not_or] at hnodup
    exact hnodup.1.1
  rcases Nat.le_total p q with hle | hle
  · exact hne (hone p hpm q hqm hle).symm
  · exact hne (hone q hqm p hpm hle)

/-- What `nr_free_pages` can say at most about the blocks that `init_memmap` laid out. -/
theorem nrFreePages_laid (hs : Sound base n h free) (hlaid : Laid base n free) :
    h.pmm.buddyNrFreePages < 2 ^ 32 := by
  have hsmall : ∀ o < maxOrder - 1, uint32 (h.pmm.nrFree o * 2 ^ o) ≤ 2 ^ o := by
    intro o ho
    have ho' : o < maxOrder := by omega
    rw [hs.shape.count o ho']
    have hlen := length_laid hs hlaid ho
    have hone : uint32 (free o).length = (free o).length := uint32_of_lt (by omega)
    rw [hone]
    refine (Nat.mod_le _ _).trans ?_
    exact (Nat.mul_le_mul_right _ hlen).trans (Nat.one_mul _).le
  have hlast : uint32 (h.pmm.nrFree 9 * 2 ^ 9) ≤ 2 ^ 32 - 2 ^ 9 := by
    unfold uint32
    omega
  unfold maxOrder at hsmall
  have h0 := hsmall 0 (by omega)
  have h1 := hsmall 1 (by omega)
  have h2 := hsmall 2 (by omega)
  have h3 := hsmall 3 (by omega)
  have h4 := hsmall 4 (by omega)
  have h5 := hsmall 5 (by omega)
  have h6 := hsmall 6 (by omega)
  have h7 := hsmall 7 (by omega)
  have h8 := hsmall 8 (by omega)
  simp only [buddyNrFreePages, maxOrder, List.range_succ, List.range_zero, List.nil_append,
    List.map_append, List.map_cons, List.map_nil, List.sum_append, List.sum_cons, List.sum_nil]
  omega

/-- What the manager promises for `n` pages from `base` on: in every run with matching
releases and with lookups in range, every request returns and ownership is kept. -/
def KeepsOwnership (s : BuddyPmm) (base n : ℕ) : Prop :=
  ∃ s', s.buddyInit.buddyInitMemmap base n = some s' ∧
    ∀ ops, RunMeets step (Allowed base n) ⟨s', []⟩ ops →
      ∃ t, runOps step ⟨s', []⟩ ops = some t ∧ t.Owned base n

/-- From `2 ^ 32` pages on `nr_free_pages` is wrong from the beginning. -/
theorem count_wrong (s : BuddyPmm) {base n : ℕ} (hn : 2 ^ 32 ≤ n)
    (hres : ∀ p, base ≤ p ∧ p < base + n → s.pages.pageReserved p = true)
    (hin : base + n ≤ s.npage) : ¬ KeepsOwnership s base n := by
  intro hkeeps
  obtain ⟨s', free, hinit, hshape, hlaid, hsame⟩ := buddyInitMemmap_spec s (by omega) hres
  have hbound := nrFreePages_laid (sound_init hshape hsame hin) hlaid
  obtain ⟨s'', hinit', hruns⟩ := hkeeps
  obtain rfl : s' = s'' := Option.some.inj (hinit.symm.trans hinit')
  obtain ⟨t, hrun, howned⟩ := hruns [] trivial
  obtain rfl := Option.some.inj hrun
  have hcount := howned.count
  simp only [liveBlocks, List.map_nil, List.sum_nil] at hcount hbound
  omega

/-- A machine with all pages reserved. -/
def machine (npage : ℕ) : BuddyPmm where
  links := ⟨id, id⟩
  pages := ⟨fun _ => true, fun _ => false, fun _ => 0, fun _ => 0⟩
  npage := npage
  nrFree := fun _ => 0

end Ucore.Dou.BuddyUsers
