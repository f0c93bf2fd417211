import Ucore.Mm.SlobAlloc

/-!
Runs of `kmalloc` and `kfree` of live blocks. The size decides: a size just below a page passes
the threshold of `kmalloc` and fails the assertion of `slob_alloc`, and `find_order` halves an
`int` and forgets the odd bytes. For the other sizes the memory stays tiled by the free blocks, the
blocks of `kmalloc` with their headers, and the headers of the big blocks.
-/
namespace Ucore.Mm

open Library
open Exec (orderLoop findOrder)
open Slob (Returns Tiled Taken Refused PutBack pageBlock)

/-- The sizes that `kmalloc` gets right. -/
def RightSize (size : ℕ) : Prop :=
  (0 < size ∧ size + slobUnit + slobUnit < pageSize) ∨
  (pageSize ≤ size + slobUnit ∧ size < 2 ^ 31 ∧
    ∀ k, ¬ (pageSize * 2 ^ k < size ∧ size < (pageSize + 1) * 2 ^ k))

theorem lt_orderLoop (left n : ℕ) (h : n < (pageSize + 1) * 2 ^ left) :
    n < (pageSize + 1) * 2 ^ orderLoop left n := by
  have hpage : pageSize + 1 = 4097 := rfl
  rw [hpage] at h ⊢
  induction left generalizing n with
  | zero => exact h
  | succ left ih =>
    rw [orderLoop]
    rw [Nat.pow_succ] at h
    split
    · have hhalf := ih (n / 2) (by omega)
      rw [Nat.pow_succ]
      omega
    · omega

theorem orderLoop_le (left n k : ℕ) (h : n < (pageSize + 1) * 2 ^ k) : orderLoop left n ≤ k := by
  have hpage : pageSize + 1 = 4097 := rfl
  rw [hpage] at h
  induction left generalizing n k with
  | zero => exact Nat.zero_le k
  | succ left ih =>
    rw [orderLoop]
    split
    · cases k with
      | zero => omega
      | succ k =>
        rw [Nat.pow_succ] at h
        have := ih (n / 2) k (by omega)
        omega
    · exact Nat.zero_le k

/-- The size as `find_order` gets it. -/
theorem findOrder_eq {size : ℕ} (h : size < 2 ^ 31) : findOrder size = orderLoop 31 size := by
  have hsmall : size % 2 ^ 32 = size := Nat.mod_eq_of_lt (by omega)
  have htwice : 2 * (BitVec.ofNat 32 size).toNat < 2 ^ 32 := by
    rw [BitVec.toNat_ofNat, hsmall]
    omega
  rw [findOrder, BitVec.toInt_eq_toNat_of_lt htwice, BitVec.toNat_ofNat, hsmall, Int.toNat_natCast]

/-- An `int` has at most 2^31 - 1, so no block has more than 2^19 pages. -/
theorem findOrder_le (size : ℕ) : findOrder size ≤ 19 := by
  apply orderLoop_le
  have hpage : pageSize + 1 = 4097 := rfl
  have hint := (BitVec.ofNat 32 size).toInt_lt
  rw [hpage]
  omega

/-- Enough pages for a right size. -/
theorem RightSize.le_pages {size : ℕ} (h : RightSize size) (hbig : pageSize ≤ size + slobUnit) :
    size ≤ pageSize * 2 ^ findOrder size := by
  rcases h with ⟨-, h⟩ | ⟨-, hint, hright⟩
  · omega
  · have hlt := lt_orderLoop 31 size
      (Nat.lt_of_lt_of_le hint (Nat.le_mul_of_pos_left _ (by decide)))
    rw [findOrder_eq hint]
    by_contra hgt
    exact hright _ ⟨Nat.lt_of_not_le hgt, hlt⟩

/-- The sizes that are not right fail the assertion of `slob_alloc`, or get too few pages. -/
theorem rightSize_iff {size : ℕ} (hpos : 0 < size) : RightSize size ↔
    ¬ (pageSize ≤ size + slobUnit + slobUnit ∧ size + slobUnit < pageSize) ∧
    (pageSize ≤ size + slobUnit → size ≤ pageSize * 2 ^ findOrder size) := by
  have hpage : pageSize = 4096 := rfl
  have hunit : slobUnit = 16 := rfl
  constructor
  · intro h
    refine ⟨?_, h.le_pages⟩
    rcases h with ⟨-, h⟩ | ⟨h, -⟩
    · omega
    · omega
  · rintro ⟨hassert, hroom⟩
    by_cases hbig : pageSize ≤ size + slobUnit
    · have hle := hroom hbig
      have hpow := Nat.pow_le_pow_right (Nat.zero_lt_two) (findOrder_le size)
      have hint : size < 2 ^ 31 := by
        by_contra hge
        have hexact : size = 2 ^ 31 := by
          rw [hpage] at hle
          omega
        have hzero : findOrder (2 ^ 31) = 0 := by decide
        rw [hexact, hzero] at hle
        omega
      right
      refine ⟨hbig, hint, ?_⟩
      rintro k ⟨hlow, hhigh⟩
      have hk := orderLoop_le 31 size k hhigh
      rw [← findOrder_eq hint] at hk
      have := Nat.mul_le_mul_left pageSize (Nat.pow_le_pow_right (Nat.zero_lt_two) hk)
      omega
    · left
      omega

/-- The allocator with the blocks that are live, each with the size that was asked for. -/
structure Heap (M : PageSource) where
  slob : Slob M
  live : List Block

namespace Heap

variable {M : PageSource} {h h' : Heap M} {s s' : Slob M} {free : List ℕ} {small : List Block}
  {big : List (Bigblock × ℕ)} {used rest : List Block} {b : Block} {size : ℕ}

def init (M : PageSource) : Heap M := ⟨Slob.init M, []⟩

inductive Op where
  | kmalloc (size : ℕ)
  | kfree (b : Block)

inductive Step : Heap M → Op → Heap M → Prop
  | kmalloc {h : Heap M} {r : Option ℕ} {s' : Slob M} (size : ℕ)
      (hret : Returns (fun fuel => h.slob.kmalloc fuel size) (r, s')) :
      Step h (.kmalloc size) ⟨s', r.toList.map (fun p => ⟨p, size⟩) ++ h.live⟩
  | kfree {h : Heap M} {s' : Slob M} (b : Block) (hb : b ∈ h.live)
      (hret : Returns (fun fuel => h.slob.kfree fuel b.base) s') :
      Step h (.kfree b) ⟨s', h.live.erase b⟩

inductive Reaches (M : PageSource) : List Op → Heap M → Prop
  | init : Reaches M [] (init M)
  | step {ops : List Op} {op : Op} {h h' : Heap M} (hrun : Reaches M ops h) (hstep : Step h op h') :
      Reaches M (ops ++ [op]) h'

/-- The two blocks behind a big block: its `bigblock_t` and its pages. -/
def bigTiles (e : Bigblock × ℕ) : List Block :=
  [⟨e.1.addr, slobUnit * slobUnits sizeofBigblock⟩, pageBlock (e.1.pages / pageSize) (2 ^ e.1.order)]

/-- The memory behind the live blocks. -/
def tiles (s : Slob M) (small : List Block) (big : List (Bigblock × ℕ)) : List Block :=
  small.map (fun b => s.extent (b.base - slobUnit)) ++ big.flatMap bigTiles

/-- The live blocks are the ones with a header in front and the ones with pages of their own. -/
structure Sorted (h : Heap M) (small : List Block) (big : List (Bigblock × ℕ)) : Prop where
  perm : h.live.Perm (small ++ big.map (fun e => ⟨e.1.pages, e.2⟩))
  bigblocks_eq : h.slob.bigblocks = big.map Prod.fst
  headed : ∀ b ∈ small, slobUnit ≤ b.base ∧ 0 < b.size ∧
    b.size + slobUnit ≤ slobUnit * h.slob.units (b.base - slobUnit)
  paged : ∀ e ∈ big, e.1.pages / pageSize * pageSize = e.1.pages ∧
    e.2 ≤ pageSize * 2 ^ e.1.order

/-- The invariant of the runs. -/
def Inv (h : Heap M) : Prop :=
  ∃ free small big, Tiled h.slob free (tiles h.slob small big) ∧ Sorted h small big

theorem init_inv (M : PageSource) : Inv (init M) := by
  refine ⟨[M.arena], [], [], Slob.init_tiled M, List.Perm.refl _, rfl, ?_, ?_⟩
  · exact fun b hb => absurd hb List.not_mem_nil
  · exact fun e he => absurd he List.not_mem_nil

theorem tiles_eq (heq : ∀ t ∈ tiles s small big, s'.units t.base = s.units t.base) :
    tiles s' small big = tiles s small big := by
  rw [tiles, tiles]
  congr 1
  apply List.map_congr_left
  intro b hb
  have := heq (s.extent (b.base - slobUnit)) (List.mem_append_left _ (List.mem_map_of_mem hb))
  rw [Slob.extent, Slob.extent]
  rw [Slob.extent] at this
  rw [this]

/-- Blocks elsewhere do not matter. -/
theorem Sorted.frame (h : Sorted ⟨s, used⟩ small big)
    (heq : ∀ t ∈ tiles s small big, s'.units t.base = s.units t.base)
    (hbb : s'.bigblocks = s.bigblocks) : Sorted ⟨s', used⟩ small big := by
  refine ⟨h.perm, hbb.trans h.bigblocks_eq, ?_, h.paged⟩
  intro b hb
  have hunits : s'.units (b.base - slobUnit) = s.units (b.base - slobUnit) :=
    heq (s.extent (b.base - slobUnit)) (List.mem_append_left _ (List.mem_map_of_mem hb))
  obtain ⟨h1, h2, h3⟩ := h.headed b hb
  refine ⟨h1, h2, ?_⟩
  change _ ≤ slobUnit * s'.units _
  rw [hunits]
  exact h3

/-- A block with a header lies behind it. -/
theorem Sorted.mem_headed (h : Sorted ⟨s, used⟩ small big) (hb : b ∈ small) :
    ∀ a ∈ b, a ∈ s.extent (b.base - slobUnit) := by
  obtain ⟨hlow, -, hroom⟩ := h.headed b hb
  have hroom' : b.size + slobUnit ≤ slobUnit * s.units (b.base - slobUnit) := hroom
  intro a ha
  simp only [Slob.extent, Block.mem_def] at ha ⊢
  omega

/-- A big block lies in its pages. -/
theorem Sorted.mem_paged {e : Bigblock × ℕ} (h : Sorted ⟨s, used⟩ small big) (he : e ∈ big) :
    ∀ a ∈ (⟨e.1.pages, e.2⟩ : Block), a ∈ pageBlock (e.1.pages / pageSize) (2 ^ e.1.order) := by
  obtain ⟨hpages, hroom⟩ := h.paged e he
  intro a ha
  simp only [pageBlock, Block.mem_def, hpages] at ha ⊢
  omega

theorem pageBlock_mem_bigTiles (e : Bigblock × ℕ) :
    pageBlock (e.1.pages / pageSize) (2 ^ e.1.order) ∈ bigTiles e :=
  List.mem_cons_of_mem _ List.mem_cons_self

/-- A live block lies in one of the tiles. -/
theorem Sorted.tile (h : Sorted ⟨s, used⟩ small big) (hb : b ∈ used) :
    ∃ t ∈ tiles s small big, ∀ a ∈ b, a ∈ t := by
  rcases List.mem_append.mp (h.perm.mem_iff.mp hb) with hb | hb
  · exact ⟨_, List.mem_append_left _ (List.mem_map_of_mem hb), h.mem_headed hb⟩
  · obtain ⟨e, he, rfl⟩ := List.mem_map.mp hb
    refine ⟨_, List.mem_append_right _ ?_, h.mem_paged he⟩
    exact List.mem_flatMap.mpr ⟨e, he, pageBlock_mem_bigTiles e⟩

/-- The live blocks lie apart. -/
theorem Sorted.apart (h : Sorted ⟨s, used⟩ small big) (ht : Tiled s free (tiles s small big)) :
    used.Pairwise Block.Apart := by
  obtain ⟨hsmall, hbig, hcross⟩ :=
    List.pairwise_append.mp (List.pairwise_append.mp ht.tiling.apart).2.1
  apply (h.perm.pairwise_iff (fun hab => hab.symm)).mpr
  refine List.pairwise_append.mpr ⟨?_, ?_, ?_⟩
  · refine (List.pairwise_map.mp hsmall).imp_of_mem ?_
    intro b c hb hc hbc a hab hac
    exact hbc a (h.mem_headed hb a hab) (h.mem_headed hc a hac)
  · refine List.pairwise_map.mpr ((List.pairwise_flatMap.mp hbig).2.imp_of_mem ?_)
    intro e f he hf hef a hae haf
    exact hef _ (pageBlock_mem_bigTiles e) _ (pageBlock_mem_bigTiles f) a (h.mem_paged he a hae)
      (h.mem_paged hf a haf)
  · intro b hb c hc a hab hac
    obtain ⟨e, he, rfl⟩ := List.mem_map.mp hc
    refine hcross _ (List.mem_map_of_mem hb) _ ?_ a (h.mem_headed hb a hab) (h.mem_paged he a hac)
    exact List.mem_flatMap.mpr ⟨e, he, pageBlock_mem_bigTiles e⟩

theorem Inv.live_apart (h : Inv ⟨s, used⟩) : used.Pairwise Block.Apart := by
  obtain ⟨free, small, big, ht, hs⟩ := h
  exact hs.apart ht

theorem Inv.live_held (h : Inv ⟨s, used⟩) (hb : b ∈ used) :
    ∀ a ∈ b, M.Held s.pmm (a / pageSize) := by
  obtain ⟨free, small, big, ht, hs⟩ := h
  obtain ⟨t, htile, hin⟩ := hs.tile hb
  intro a ha
  exact ht.held htile (hin a ha)

/-- `kmalloc` of a size for `slob_alloc`. -/
theorem Inv.kmalloc_small (h : Inv ⟨s, used⟩) (hpos : 0 < size)
    (hsize : size + slobUnit + slobUnit < pageSize) :
    ∃ r s', Returns (fun fuel => s.kmalloc fuel size) (r, s') ∧
      Inv ⟨s', r.toList.map (fun p => ⟨p, size⟩) ++ used⟩ := by
  obtain ⟨free, small, big, ht, hs⟩ := h
  have hunit : slobUnit = 16 := rfl
  have hcall : (fun fuel => s.kmalloc fuel size) = fun fuel =>
      (s.slobAlloc fuel (size + slobUnit)).map
        (fun r => (r.1.map (fun m => m + slobUnit), r.2)) := by
    funext fuel
    exact if_pos (by omega)
  have hunits : slobUnits (size + slobUnit) = (size + 31) / 16 := rfl
  rw [hcall]
  rcases ht.slobAlloc (by omega) hsize with ⟨s', hrefused, hret⟩ | ⟨c, s', free', htaken, hret⟩
  · refine ⟨_, _, hret.map _, free, small, big, ?_, ?_⟩
    · have heq : tiles s' small big = tiles s small big :=
        tiles_eq (fun t _ => congrFun hrefused.units_eq t.base)
      rw [heq]
      exact hrefused.tiled
    · exact hs.frame (fun t _ => congrFun hrefused.units_eq t.base) hrefused.bigblocks_eq
  · have hhead : s'.extent (c + slobUnit - slobUnit) =
        ⟨c, slobUnit * slobUnits (size + slobUnit)⟩ := by
      rw [Nat.add_sub_cancel, Slob.extent, htaken.units_self]
    refine ⟨_, _, hret.map _, free', ⟨c + slobUnit, size⟩ :: small, big, ?_, ?_⟩
    · have heq : tiles s' (⟨c + slobUnit, size⟩ :: small) big =
          ⟨c, slobUnit * slobUnits (size + slobUnit)⟩ :: tiles s small big := by
        rw [← tiles_eq htaken.units_eq, ← hhead]
        rfl
      rw [heq]
      exact htaken.tiled
    · have hold := hs.frame htaken.units_eq htaken.bigblocks_eq
      refine ⟨hold.perm.cons _, hold.bigblocks_eq, ?_, hold.paged⟩
      intro b hb
      rcases List.mem_cons.mp hb with rfl | hb
      · refine ⟨Nat.le_add_left _ _, hpos, ?_⟩
        change size + slobUnit ≤ slobUnit * s'.units (c + slobUnit - slobUnit)
        rw [Nat.add_sub_cancel, htaken.units_self, hunits, hunit]
        omega
      · exact hold.headed b hb

/-- A big block needs a `bigblock_t` first. -/
theorem kmalloc_refused (hsize : pageSize ≤ size + slobUnit)
    (hret : Returns (fun fuel => s.slobAlloc fuel sizeofBigblock) (none, s')) :
    Returns (fun fuel => s.kmalloc fuel size) (none, s') := by
  have hunit : slobUnit = 16 := rfl
  have hbig : ¬ size < pageSize - slobUnit := by omega
  obtain ⟨bound, hret⟩ := hret
  refine ⟨bound, ?_⟩
  intro fuel hfuel
  have halloc : s.slobAlloc fuel sizeofBigblock = .ok (none, s') := hret fuel hfuel
  change s.kmalloc fuel size = _
  rw [Slob.kmalloc, if_neg hbig, halloc]
  rfl

theorem kmalloc_goes_on {bb : ℕ} {r : Option ℕ × Slob M} (hsize : pageSize ≤ size + slobUnit)
    (hret : Returns (fun fuel => s.slobAlloc fuel sizeofBigblock) (some bb, s'))
    (hbig : Returns (fun fuel => s'.bigAlloc fuel size bb) r) :
    Returns (fun fuel => s.kmalloc fuel size) r := by
  have hunit : slobUnit = 16 := rfl
  have hnot : ¬ size < pageSize - slobUnit := by omega
  obtain ⟨m, hret⟩ := hret
  obtain ⟨n, hbig⟩ := hbig
  refine ⟨max m n, ?_⟩
  intro fuel hfuel
  have halloc : s.slobAlloc fuel sizeofBigblock = .ok (some bb, s') :=
    hret fuel (Nat.le_trans (Nat.le_max_left m n) hfuel)
  change s.kmalloc fuel size = _
  rw [Slob.kmalloc, if_neg hnot, halloc]
  exact hbig fuel (Nat.le_trans (Nat.le_max_right m n) hfuel)

/-- The `bigblock_t` is there, and the pages are got or not. -/
theorem Inv.bigAlloc {bb : ℕ} (hroom : size ≤ pageSize * 2 ^ findOrder size)
    (ht : Tiled s free (⟨bb, slobUnit * slobUnits sizeofBigblock⟩ :: tiles s small big))
    (hs : Sorted ⟨s, used⟩ small big) :
    ∃ r s', Returns (fun fuel => s.bigAlloc fuel size bb) (r, s') ∧
      Inv ⟨s', r.toList.map (fun p => ⟨p, size⟩) ++ used⟩ := by
  rcases halloc : M.allocPages s.pmm (2 ^ findOrder size) with ⟨_ | page, pmm⟩
  · have hnone := ht.withPmm (M.alloc_none _ _ _ halloc)
    have hmarked : (Slob.marked { s with pmm := pmm } bb sizeofBigblock).units bb =
        slobUnits sizeofBigblock := Function.update_self _ _ _
    obtain ⟨s', free', hput, hfree⟩ := hnone.putBack hmarked
    refine ⟨none, s', ⟨free.length, ?_⟩, free', small, big, ?_, ?_⟩
    · intro fuel hfuel
      simp only [Slob.bigAlloc, halloc, hfree fuel hfuel]
      rfl
    · have heq : tiles s' small big = tiles s small big := tiles_eq hput.units_eq
      rw [heq]
      exact hput.tiled
    · exact hs.frame hput.units_eq hput.bigblocks_eq
  · have hpages := (ht.withPages (Nat.two_pow_pos _) halloc).withBigblocks
      (⟨bb, findOrder size, page * pageSize⟩ :: s.bigblocks)
    have hdiv : page * pageSize / pageSize = page := Nat.mul_div_cancel page (by decide)
    refine ⟨some (page * pageSize), { s with
      bigblocks := ⟨bb, findOrder size, page * pageSize⟩ :: s.bigblocks, pmm := pmm }, ⟨0, ?_⟩,
      free, small, (⟨bb, findOrder size, page * pageSize⟩, size) :: big, ?_, ?_⟩
    · intro fuel _
      simp only [Slob.bigAlloc, halloc]
    · apply hpages.perm
      change List.Perm _ (small.map _ ++ (bigTiles _ ++ big.flatMap bigTiles))
      rw [bigTiles, hdiv]
      refine (List.Perm.swap _ _ _).trans ?_
      exact List.perm_append_comm_assoc [⟨bb, _⟩, pageBlock page _] (small.map _)
        (big.flatMap bigTiles)
    · refine ⟨?_, ?_, hs.headed, ?_⟩
      · exact (hs.perm.cons _).trans List.perm_middle.symm
      · exact congrArg (List.cons _) hs.bigblocks_eq
      · intro e he
        rcases List.mem_cons.mp he with rfl | he
        · refine ⟨?_, hroom⟩
          change page * pageSize / pageSize * pageSize = page * pageSize
          rw [hdiv]
        · exact hs.paged e he

/-- `kmalloc` of a size with pages of its own. -/
theorem Inv.kmalloc_big (h : Inv ⟨s, used⟩) (hsize : pageSize ≤ size + slobUnit)
    (hright : RightSize size) :
    ∃ r s', Returns (fun fuel => s.kmalloc fuel size) (r, s') ∧
      Inv ⟨s', r.toList.map (fun p => ⟨p, size⟩) ++ used⟩ := by
  obtain ⟨free, small, big, ht, hs⟩ := h
  have htwo : slobUnits sizeofBigblock = 2 := rfl
  rcases ht.slobAlloc (Nat.le_of_eq htwo.symm) (by decide) with
    ⟨s', hrefused, hret⟩ | ⟨bb, s', free', htaken, hret⟩
  · refine ⟨none, s', kmalloc_refused hsize hret, free, small, big, ?_, ?_⟩
    · have heq : tiles s' small big = tiles s small big :=
        tiles_eq (fun t _ => congrFun hrefused.units_eq t.base)
      rw [heq]
      exact hrefused.tiled
    · exact hs.frame (fun t _ => congrFun hrefused.units_eq t.base) hrefused.bigblocks_eq
  · have heq : tiles s' small big = tiles s small big := tiles_eq htaken.units_eq
    have htiled := htaken.tiled
    rw [← heq] at htiled
    obtain ⟨r, s'', hbig, hinv⟩ := Inv.bigAlloc (hright.le_pages hsize) htiled
      (hs.frame htaken.units_eq htaken.bigblocks_eq)
    exact ⟨r, s'', kmalloc_goes_on hsize hret hbig, hinv⟩

/-- The threshold of `kmalloc` lets through what `slob_alloc` refuses. -/
theorem kmalloc_asserts (hlow : pageSize ≤ size + slobUnit + slobUnit)
    (hhigh : size + slobUnit < pageSize) (fuel : ℕ) :
    s.kmalloc fuel size = .error .assertion := by
  have hunit : slobUnit = 16 := rfl
  have hsmall : size < pageSize - slobUnit := by omega
  have hassert : ¬ size + slobUnit + slobUnit < pageSize := by omega
  rw [Slob.kmalloc, if_pos hsmall, Slob.slobAlloc, if_neg hassert]
  rfl

theorem Inv.kmalloc (h : Inv ⟨s, used⟩) (hright : RightSize size) :
    ∃ r s', Returns (fun fuel => s.kmalloc fuel size) (r, s') ∧
      Inv ⟨s', r.toList.map (fun p => ⟨p, size⟩) ++ used⟩ := by
  rcases Classical.em (pageSize ≤ size + slobUnit) with hbig | hsmall
  · exact h.kmalloc_big hbig hright
  · rcases hright with ⟨hpos, hassert⟩ | ⟨hbig, -⟩
    · exact h.kmalloc_small hpos hassert
    · exact absurd hbig hsmall

/-- The pages of a big block begin with the block. -/
theorem pages_mem (e : Bigblock × ℕ) :
    e.1.pages ∈ pageBlock (e.1.pages / pageSize) (2 ^ e.1.order) := by
  apply Slob.mem_pageBlock.mpr
  exact ⟨Nat.le_refl _, Nat.lt_add_of_pos_right (Nat.two_pow_pos _)⟩

/-- A block with a header is not taken for a big one. -/
theorem Sorted.bigOf_small (h : Sorted ⟨s, used⟩ small big)
    (ht : Tiled s free (tiles s small big)) (hb : b ∈ small) : s.bigOf b.base = none := by
  obtain ⟨hlow, hpos, hroom⟩ := h.headed b hb
  have hroom' : b.size + slobUnit ≤ slobUnit * s.units (b.base - slobUnit) := hroom
  have hnone : s.bigblocks.find? (fun bb => bb.pages = b.base) = none := by
    apply List.find?_eq_none.mpr
    intro bb hbb heq
    have hbb' : bb ∈ big.map Prod.fst := h.bigblocks_eq ▸ hbb
    obtain ⟨e, he, rfl⟩ := List.mem_map.mp hbb'
    have hpages : e.1.pages = b.base := of_decide_eq_true heq
    have hcross := (List.pairwise_append.mp (List.pairwise_append.mp ht.tiling.apart).2.1).2.2
    have hmem := pages_mem e
    refine hcross _ (List.mem_map_of_mem hb) _
      (List.mem_flatMap.mpr ⟨e, he, pageBlock_mem_bigTiles e⟩) e.1.pages ?_ hmem
    simp only [Slob.extent, Block.mem_def, hpages]
    omega
  rw [Slob.bigOf, hnone]
  exact ite_self _

theorem Inv.kfree_small (ht : Tiled s free (tiles s small big)) (hs : Sorted ⟨s, used⟩ small big)
    (hb : b ∈ small) : ∃ s', Returns (fun fuel => s.kfree fuel b.base) s' ∧
      Inv ⟨s', used.erase b⟩ := by
  have hnone := hs.bigOf_small ht hb
  obtain ⟨hlow, -, -⟩ := hs.headed b hb
  obtain ⟨x, y, rfl⟩ := List.append_of_mem hb
  have hmiddle : (x ++ b :: y).Perm (b :: (x ++ y)) := List.perm_middle
  have hpull : (tiles s (x ++ b :: y) big).Perm
      (⟨b.base - slobUnit, slobUnit * s.units (b.base - slobUnit)⟩ :: tiles s (x ++ y) big) :=
    (hmiddle.map _).append_right _
  have hrest : Sorted ⟨s, used.erase b⟩ (x ++ y) big := by
    refine ⟨?_, hs.bigblocks_eq, ?_, hs.paged⟩
    · have hperm := (hs.perm.trans (hmiddle.append_right _)).erase b
      rwa [List.cons_append, List.erase_cons_head] at hperm
    · intro c hc
      exact hs.headed c (hmiddle.mem_iff.mpr (List.mem_cons_of_mem b hc))
  have hmarked : (s.marked (b.base - slobUnit) 0).units (b.base - slobUnit) =
      s.units (b.base - slobUnit) := rfl
  obtain ⟨s', free', hput, hfree⟩ := (ht.perm hpull).putBack hmarked
  have hunit : slobUnit = 16 := rfl
  have hne : b.base ≠ 0 := by omega
  refine ⟨s', ⟨free.length, ?_⟩, free', x ++ y, big, ?_, hrest.frame hput.units_eq hput.bigblocks_eq⟩
  · intro fuel hfuel
    change s.kfree fuel b.base = _
    simp only [Slob.kfree, if_neg hne, hnone]
    exact hfree fuel hfuel
  · have heq : tiles s' (x ++ y) big = tiles s (x ++ y) big := tiles_eq hput.units_eq
    rw [heq]
    exact hput.tiled

/-- The search of `kfree` finds the big block. -/
theorem Sorted.bigOf_big {x y : List (Bigblock × ℕ)} {e : Bigblock × ℕ}
    (h : Sorted ⟨s, used⟩ small (x ++ e :: y))
    (ht : Tiled s free (tiles s small (x ++ e :: y))) :
    s.bigOf e.1.pages = some e.1 ∧
      s.bigblocks.eraseP (fun bb => bb.pages = e.1.pages) = (x ++ y).map Prod.fst := by
  have he : e ∈ x ++ e :: y := List.mem_append_right x List.mem_cons_self
  have hbig := (List.pairwise_append.mp (List.pairwise_append.mp ht.tiling.apart).2.1).2.1
  have hapart := (List.pairwise_append.mp (List.pairwise_flatMap.mp hbig).2).2.2
  have hother : ∀ bb ∈ x.map Prod.fst, ¬ decide (bb.pages = e.1.pages) = true := by
    intro bb hbb heq
    obtain ⟨f, hf, rfl⟩ := List.mem_map.mp hbb
    have hpages : f.1.pages = e.1.pages := of_decide_eq_true heq
    have hfmem := pages_mem f
    refine hapart f hf e List.mem_cons_self _ (pageBlock_mem_bigTiles f) _
      (pageBlock_mem_bigTiles e) f.1.pages hfmem ?_
    rw [hpages]
    exact pages_mem e
  have hbbs : s.bigblocks = x.map Prod.fst ++ e.1 :: y.map Prod.fst := by
    rw [← List.map_cons, ← List.map_append]
    exact h.bigblocks_eq
  have hmod : e.1.pages % pageSize = 0 := by
    rw [← (h.paged e he).1]
    exact Nat.mul_mod_left _ _
  have hself : decide (e.1.pages = e.1.pages) = true := decide_eq_true rfl
  constructor
  · rw [Slob.bigOf, if_pos hmod, hbbs, List.find?_append, List.find?_eq_none.mpr hother]
    exact List.find?_cons_of_pos (p := fun bb : Bigblock => bb.pages = e.1.pages) hself
  · rw [hbbs, List.eraseP_append_right _ hother, List.map_append]
    exact congrArg _ (List.eraseP_cons_of_pos hself)

theorem Inv.kfree_big {x y : List (Bigblock × ℕ)} {e : Bigblock × ℕ}
    (ht : Tiled s free (tiles s small (x ++ e :: y)))
    (hs : Sorted ⟨s, used⟩ small (x ++ e :: y)) :
    ∃ s', Returns (fun fuel => s.kfree fuel e.1.pages) s' ∧
      Inv ⟨s', used.erase ⟨e.1.pages, e.2⟩⟩ := by
  have he : e ∈ x ++ e :: y := List.mem_append_right x List.mem_cons_self
  have hmiddle : (x ++ e :: y).Perm (e :: (x ++ y)) := List.perm_middle
  obtain ⟨hfound, herase⟩ := hs.bigOf_big ht
  have hpull : (tiles s small (x ++ e :: y)).Perm
      (pageBlock (e.1.pages / pageSize) (2 ^ e.1.order) ::
        ⟨e.1.addr, slobUnit * slobUnits sizeofBigblock⟩ :: tiles s small (x ++ y)) := by
    refine ((hmiddle.flatMap_right bigTiles).append_left _).trans ?_
    refine List.Perm.trans ?_ (List.Perm.swap _ _ _)
    exact List.perm_append_comm_assoc _ (bigTiles e) _
  have hpulled := ht.perm hpull
  have hne : e.1.pages ≠ 0 := by
    have hlow := hpulled.base_gt List.mem_cons_self
    have hbase : (pageBlock (e.1.pages / pageSize) (2 ^ e.1.order)).base = e.1.pages :=
      (hs.paged e he).1
    omega
  have hreturned := hpulled.withoutPages.withBigblocks ((x ++ y).map Prod.fst)
  have hrest : Sorted ⟨{ s with bigblocks := (x ++ y).map Prod.fst
                                pmm := M.freePages s.pmm (e.1.pages / pageSize) (2 ^ e.1.order) },
      used.erase ⟨e.1.pages, e.2⟩⟩ small (x ++ y) := by
    refine ⟨?_, rfl, hs.headed, ?_⟩
    · have hlast : (small ++ (x ++ e :: y).map (fun e => (⟨e.1.pages, e.2⟩ : Block))).Perm
          (⟨e.1.pages, e.2⟩ :: (small ++ (x ++ y).map (fun e => ⟨e.1.pages, e.2⟩))) :=
        ((hmiddle.map _).append_left small).trans List.perm_middle
      have hperm := (hs.perm.trans hlast).erase ⟨e.1.pages, e.2⟩
      rwa [List.erase_cons_head] at hperm
    · intro f hf
      exact hs.paged f (hmiddle.mem_iff.mpr (List.mem_cons_of_mem e hf))
  have hmarked : (Slob.marked { s with
      bigblocks := (x ++ y).map Prod.fst
      pmm := M.freePages s.pmm (e.1.pages / pageSize) (2 ^ e.1.order) } e.1.addr
        sizeofBigblock).units e.1.addr = slobUnits sizeofBigblock := Function.update_self _ _ _
  obtain ⟨s', free', hput, hfree⟩ := hreturned.putBack hmarked
  refine ⟨s', ⟨free.length, ?_⟩, free', small, x ++ y, ?_,
    hrest.frame hput.units_eq hput.bigblocks_eq⟩
  · intro fuel hfuel
    change s.kfree fuel e.1.pages = _
    simp only [Slob.kfree, if_neg hne, hfound, herase]
    exact hfree fuel hfuel
  · have heq : tiles s' small (x ++ y) = tiles s small (x ++ y) := tiles_eq hput.units_eq
    rw [heq]
    exact hput.tiled

theorem Inv.kfree (h : Inv ⟨s, used⟩) (hb : b ∈ used) :
    ∃ s', Returns (fun fuel => s.kfree fuel b.base) s' ∧ Inv ⟨s', used.erase b⟩ := by
  obtain ⟨free, small, big, ht, hs⟩ := h
  rcases List.mem_append.mp (hs.perm.mem_iff.mp hb) with hb | hb
  · exact Inv.kfree_small ht hs hb
  · obtain ⟨e, he, rfl⟩ := List.mem_map.mp hb
    obtain ⟨x, y, rfl⟩ := List.append_of_mem he
    exact Inv.kfree_big ht hs

theorem Step.inv {op : Op} (hstep : Step h op h') (hinv : Inv h)
    (hop : ∀ size, op = .kmalloc size → RightSize size) : Inv h' := by
  cases hstep with
  | kmalloc size hret =>
    obtain ⟨r, t, hret', hnext⟩ := hinv.kmalloc (hop size rfl)
    obtain ⟨rfl, rfl⟩ := Prod.mk.inj (hret.unique hret')
    exact hnext
  | kfree b hb hret =>
    obtain ⟨t, hret', hnext⟩ := hinv.kfree hb
    obtain rfl := hret.unique hret'
    exact hnext

/-- Runs with right sizes only. -/
theorem Reaches.inv {ops : List Op} (hrun : Reaches M ops h)
    (hops : ∀ size, Op.kmalloc size ∈ ops → RightSize size) : Inv h := by
  induction hrun with
  | init => exact init_inv M
  | step hrun hstep ih =>
    apply hstep.inv (ih (fun size hmem => hops size (List.mem_append_left _ hmem)))
    rintro size rfl
    exact hops size (List.mem_append_right _ (List.mem_singleton_self _))

/-- `kfree` of a live block ends, too. -/
theorem kfree_ends {ops : List Op} (hrun : Reaches M ops h)
    (hops : ∀ size, Op.kmalloc size ∈ ops → RightSize size) (hb : b ∈ h.live) :
    ∃ s', Returns (fun fuel => h.slob.kfree fuel b.base) s' := by
  obtain ⟨s', hret, -⟩ := (hrun.inv hops).kfree hb
  exact ⟨s', hret⟩

end Heap

/-- Pages in rising order, none of them twice. -/
structure RisingPages where
  last : ℕ
  held : List ℕ

namespace RisingPages

def allocPages (s : RisingPages) (n : ℕ) : Option ℕ × RisingPages :=
  (some (s.last + 1), ⟨s.last + n, List.range' (s.last + 1) n ++ s.held⟩)

def freePages (s : RisingPages) (p n : ℕ) : RisingPages :=
  ⟨s.last, s.held.filter (fun q => ¬ (p ≤ q ∧ q < p + n))⟩

def Has (s : RisingPages) (q : ℕ) : Prop := q ∈ s.held ∧ q ≤ s.last

theorem start_has (q : ℕ) : ¬ Has ⟨0, []⟩ q := fun h => List.not_mem_nil h.1

theorem alloc_none (s : RisingPages) (n : ℕ) (s' : RisingPages)
    (h : s.allocPages n = (none, s')) (q : ℕ) : s'.Has q ↔ s.Has q :=
  absurd (Prod.mk.inj h).1 (Option.some_ne_none _)

theorem alloc_new (s : RisingPages) (n p : ℕ) (s' : RisingPages)
    (h : s.allocPages n = (some p, s')) (q : ℕ) (hpq : p ≤ q) (_hq : q < p + n) : ¬ s.Has q := by
  have hp := Option.some.inj (Prod.mk.inj h).1
  intro hq
  have := hq.2
  omega

theorem alloc_has (s : RisingPages) (n p : ℕ) (s' : RisingPages)
    (h : s.allocPages n = (some p, s')) (q : ℕ) :
    s'.Has q ↔ s.Has q ∨ p ≤ q ∧ q < p + n := by
  obtain ⟨hp, rfl⟩ := Prod.mk.inj h
  have hp := Option.some.inj hp
  simp only [Has, List.mem_append, List.mem_range'_1]
  constructor
  · rintro ⟨hq | hq, hle⟩
    · right
      omega
    · rcases Nat.lt_or_ge s.last q with hlt | hle'
      · right
        omega
      · left
        exact ⟨hq, hle'⟩
  · rintro (⟨hq, hle⟩ | hq)
    · exact ⟨Or.inr hq, Nat.le_trans hle (Nat.le_add_right _ _)⟩
    · exact ⟨Or.inl (by omega), by omega⟩

theorem alloc_after (s : RisingPages) (n p : ℕ) (s' : RisingPages)
    (h : s.allocPages n = (some p, s')) : 16 + slobUnit < p * pageSize := by
  have hp := Option.some.inj (Prod.mk.inj h).1
  have hpage : pageSize = 4096 := rfl
  have hunit : slobUnit = 16 := rfl
  rw [hpage]
  omega

theorem free_has (s : RisingPages) (p n : ℕ) (_h : ∀ q, p ≤ q → q < p + n → s.Has q) (q : ℕ) :
    (s.freePages p n).Has q ↔ s.Has q ∧ ¬ (p ≤ q ∧ q < p + n) := by
  simp only [Has, freePages, List.mem_filter, decide_eq_true_eq]
  tauto

/-- `arena` at address 16, and the pages behind it. -/
def source : PageSource where
  State := RisingPages
  start := ⟨0, []⟩
  allocPages := allocPages
  freePages := freePages
  Held := Has
  arena := 16
  arena_pos := Nat.succ_pos 15
  start_held := start_has
  alloc_none := alloc_none
  alloc_new := alloc_new
  alloc_held := alloc_has
  alloc_after := alloc_after
  free_held := free_has

end RisingPages

namespace Heap

end Heap

end Ucore.Mm
