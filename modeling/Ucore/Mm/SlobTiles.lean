import Ucore.Mm.SlobList

/-!
Who has which memory. `arena` and the pages that the allocator holds are tiled by the free blocks
and the blocks that are in use. A block is put back, pages are got and given back, and
`slob_alloc` takes a block: each of them leaves a tiling.
-/
namespace Ucore.Mm.Slob

open Library

variable {M : PageSource} {s s' : Slob M} {free l r : List ℕ} {rest : List Block} {b c p n u : ℕ}

/-- The memory of the allocator: `arena` and its pages. -/
def Owned (M : PageSource) (pmm : M.State) (a : ℕ) : Prop :=
  a ∈ (⟨M.arena, slobUnit⟩ : Block) ∨ M.Held pmm (a / pageSize)

/-- `n` pages from page `p` on. -/
def pageBlock (p n : ℕ) : Block := ⟨p * pageSize, pageSize * n⟩

theorem mem_pageBlock {a : ℕ} : a ∈ pageBlock p n ↔ p ≤ a / pageSize ∧ a / pageSize < p + n := by
  have hpage : pageSize = 4096 := rfl
  simp only [Block.mem_def, pageBlock]
  rw [Nat.le_div_iff_mul_le (by omega), Nat.div_lt_iff_lt_mul (by omega), Nat.add_mul,
    Nat.mul_comm n]

/-- The free blocks and the blocks of `rest` are the memory of the allocator. -/
structure Tiled (s : Slob M) (free : List ℕ) (rest : List Block) : Prop where
  list : FreeList s free
  tiling : Tiling (Owned M s.pmm) (free.map s.extent ++ rest)
  behind : ∀ q, M.Held s.pmm q → M.arena + slobUnit < q * pageSize

theorem init_tiled (M : PageSource) : Tiled (init M) [M.arena] [] := by
  refine ⟨init_freeList M, ?_, fun q hq => absurd hq (M.start_held q)⟩
  have hextent : (init M).extent M.arena = ⟨M.arena, slobUnit⟩ := by
    rw [extent, (init_freeList M).arena_units, Nat.mul_one]
  have hempty : Tiling (fun _ => False) [] := Tiling.nil (fun _ h => h)
  change Tiling _ [(init M).extent M.arena]
  have hunit : 0 < slobUnit := by decide
  rw [hextent]
  apply hempty.cons hunit (fun _ _ h => h)
  intro a
  have hstart : ¬ M.Held (init M).pmm (a / pageSize) := M.start_held _
  rw [Owned]
  tauto

namespace Tiled

theorem perm {rest' : List Block} (h : Tiled s free rest) (hp : rest.Perm rest') :
    Tiled s free rest' :=
  ⟨h.list, h.tiling.perm (hp.append_left _), h.behind⟩

/-- No block in use reaches into a free block. -/
theorem apart {a : ℕ} {t : Block} (h : Tiled s free rest) (ha : a ∈ free) (ht : t ∈ rest) :
    Block.Apart (s.extent a) t :=
  (List.pairwise_append.mp h.tiling.apart).2.2 _ (List.mem_map_of_mem ha) t ht

theorem base_mem {t : Block} (h : Tiled s free rest) (ht : t ∈ rest) : t.base ∈ t :=
  Block.base_mem (h.tiling.pos t (List.mem_append_right _ ht))

theorem units_pos {a : ℕ} (h : Tiled s free rest) (ha : a ∈ free) : 0 < s.units a := by
  have hpos := h.tiling.pos _ (List.mem_append_left rest (List.mem_map_of_mem ha))
  exact Nat.pos_of_mul_pos_left hpos

theorem notMem_free {t : Block} (h : Tiled s free rest) (ht : t ∈ rest) : t.base ∉ free := by
  intro hmem
  refine h.apart hmem ht t.base ?_ (h.base_mem ht)
  have := h.units_pos hmem
  simp only [extent, Block.mem_def, slobUnit]
  omega

/-- A block in use lies in the pages. -/
theorem held {t : Block} {a : ℕ} (h : Tiled s free rest) (ht : t ∈ rest) (ha : a ∈ t) :
    M.Held s.pmm (a / pageSize) := by
  have hown : Owned M s.pmm a := (h.tiling.cover a).mpr ⟨t, List.mem_append_right _ ht, ha⟩
  refine hown.resolve_left ?_
  intro harena
  apply h.apart h.list.arena_mem ht a ?_ ha
  rw [extent, h.list.arena_units, Nat.mul_one]
  exact harena

theorem base_gt {t : Block} (h : Tiled s free rest) (ht : t ∈ rest) :
    M.arena + slobUnit < t.base := by
  have hlow := h.behind _ (h.held ht (h.base_mem ht))
  have := Nat.div_mul_le_self t.base pageSize
  omega

/-- The pages may change hands elsewhere. -/
theorem withPmm {pmm : M.State} (h : Tiled s free rest)
    (heq : ∀ q, M.Held pmm q ↔ M.Held s.pmm q) : Tiled { s with pmm := pmm } free rest := by
  refine ⟨h.list.of_eq rfl rfl rfl, ?_, ?_⟩
  · refine ⟨h.tiling.pos, h.tiling.apart, ?_⟩
    intro a
    rw [Owned, heq]
    exact h.tiling.cover a
  · intro q hq
    exact h.behind q ((heq q).mp hq)

theorem withBigblocks (h : Tiled s free rest) (bbs : List Bigblock) :
    Tiled { s with bigblocks := bbs } free rest :=
  ⟨h.list.of_eq rfl rfl rfl, h.tiling,
    h.behind⟩

/-- New pages. -/
theorem withPages {pmm : M.State} (h : Tiled s free rest) (hn : 0 < n)
    (halloc : M.allocPages s.pmm n = (some p, pmm)) :
    Tiled { s with pmm := pmm } free (pageBlock p n :: rest) := by
  have hheld := M.alloc_held _ _ _ _ halloc
  have hbehind : ∀ q, M.Held pmm q → M.arena + slobUnit < q * pageSize := by
    intro q hq
    rcases (hheld q).mp hq with hq | ⟨hpq, -⟩
    · exact h.behind q hq
    · have hp := M.alloc_after _ _ _ _ halloc
      have := Nat.mul_le_mul_right pageSize hpq
      omega
  refine ⟨h.list.of_eq rfl rfl rfl, ?_,
    hbehind⟩
  have hnew : Tiling (Owned M pmm) (pageBlock p n :: (free.map s.extent ++ rest)) := by
    apply h.tiling.cons (Nat.mul_pos (by decide) hn)
    · intro a ha hown
      have hpage := mem_pageBlock.mp ha
      rcases hown with hown | hown
      · have := hbehind _ ((hheld _).mpr (Or.inr hpage))
        have := Nat.div_mul_le_self a pageSize
        simp only [Block.mem_def] at hown
        omega
      · exact M.alloc_new _ _ _ _ halloc _ hpage.1 hpage.2 hown
    · intro a
      rw [Owned, Owned, hheld, mem_pageBlock]
      tauto
  exact hnew.perm List.perm_middle.symm

/-- The pages of a block in use are given back. -/
theorem withoutPages (h : Tiled s free (pageBlock p n :: rest)) :
    Tiled { s with pmm := M.freePages s.pmm p n } free rest := by
  have hin : ∀ q, p ≤ q → q < p + n → M.Held s.pmm q := by
    intro q hpq hqn
    have hq : q * pageSize / pageSize = q := Nat.mul_div_cancel q (by decide)
    have hmem : q * pageSize ∈ pageBlock p n := by
      rw [mem_pageBlock, hq]
      exact ⟨hpq, hqn⟩
    have := h.held List.mem_cons_self hmem
    rwa [hq] at this
  have hheld := M.free_held s.pmm p n hin
  have htail := (h.tiling.perm List.perm_middle).tail
  refine ⟨h.list.of_eq rfl rfl rfl,
    ⟨htail.pos, htail.apart, ?_⟩, fun q hq => h.behind q ((hheld q).mp hq).1⟩
  intro a
  have harena : a ∈ (⟨M.arena, slobUnit⟩ : Block) → a ∉ pageBlock p n := by
    intro hlow hmem
    refine h.apart h.list.arena_mem List.mem_cons_self a ?_ hmem
    rw [extent, h.list.arena_units, Nat.mul_one]
    exact hlow
  have hcover := htail.cover a
  simp only [Owned, mem_pageBlock] at hcover harena ⊢
  rw [hheld]
  refine Iff.trans ?_ hcover
  tauto

end Tiled

/-- A block in use is put back. -/
structure PutBack (s s' : Slob M) (free free' : List ℕ) (rest : List Block) (n : ℕ) : Prop where
  tiled : Tiled s' free' rest
  units_eq : ∀ t ∈ rest, s'.units t.base = s.units t.base
  room : ∃ a ∈ free', n ≤ s'.units a
  length_le : free'.length ≤ free.length + 1
  bigblocks_eq : s'.bigblocks = s.bigblocks
  pmm_eq : s'.pmm = s.pmm

theorem marked_bigblocks {size : ℕ} : (s.marked b size).bigblocks = s.bigblocks := by
  rw [marked]
  split <;> rfl

theorem marked_pmm {size : ℕ} : (s.marked b size).pmm = s.pmm := by
  rw [marked]
  split <;> rfl

theorem Tiled.putBack {size : ℕ} (h : Tiled s free (⟨b, slobUnit * n⟩ :: rest))
    (hn : (s.marked b size).units b = n) : ∃ s' free', PutBack s s' free free' rest n ∧
      ∀ fuel, free.length ≤ fuel → slobFree fuel b size s = .ok s' := by
  have hout : b ∉ free := h.notMem_free List.mem_cons_self
  obtain ⟨s', free', hfreed, hrun⟩ :=
    slobFree_freed size h.list (h.base_gt List.mem_cons_self) hout
  refine ⟨s', free', ?_, hrun⟩
  have hhead : (s.marked b size).extent b = ⟨b, slobUnit * n⟩ := by rw [extent, hn]
  have hsame : free.map (s.marked b size).extent = free.map s.extent := by
    apply map_extent
    intro a ha
    apply marked_units_of_ne
    rintro rfl
    exact hout ha
  have hpmm : s'.pmm = s.pmm := hfreed.pmm_eq.trans marked_pmm
  have htiling : Tiling (Owned M s.pmm) (free'.map s'.extent ++ rest) := by
    apply hfreed.tiling
    rw [hhead, hsame]
    exact h.tiling.perm List.perm_middle
  refine ⟨⟨hfreed.list, ?_, ?_⟩, ?_, ?_, hfreed.length_le,
    hfreed.bigblocks_eq.trans marked_bigblocks, hpmm⟩
  · rw [hpmm]
    exact htiling
  · rw [hpmm]
    exact h.behind
  · intro t ht
    have hne : t.base ≠ b := by
      intro heq
      have hrest := (List.pairwise_append.mp h.tiling.apart).2.1
      have hapart := (List.pairwise_cons.mp hrest).1 t ht
      have hbase := h.base_mem List.mem_cons_self
      apply hapart b hbase
      rw [← heq]
      exact h.base_mem (List.mem_cons_of_mem _ ht)
    rw [hfreed.units_eq _ hne (h.notMem_free (List.mem_cons_of_mem _ ht))]
    exact marked_units_of_ne hne
  · obtain ⟨a, ha, hroom⟩ := hfreed.room
    exact ⟨a, ha, hn ▸ hroom⟩

end Ucore.Mm.Slob
