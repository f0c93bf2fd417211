import Mathlib.Algebra.Order.BigOperators.Group.List
import Ucore.Pmm.DefaultPmmOwnership

/-!
The best-fit manager of `best_fit_pmm.c`. It keeps the state of the first-fit manager, and
only `alloc_pages` is different: the search looks for the smallest block that is large enough.
-/
namespace Ucore.Dou.BestFitPmm

open Library Libs Pmm Pmm.DefaultPmm FreeNode

def bestFitInit (s : DefaultPmm) : DefaultPmm := s.defaultInit

def bestFitInitMemmap (s : DefaultPmm) (base n : ℕ) : Option DefaultPmm :=
  s.defaultInitMemmap base n

/-- The search loop of `alloc_pages`, from the node behind `le` on, with the best page so far
and the size of its block. -/
def searchLoop (s : DefaultPmm) (n : ℕ) : ℕ → FreeNode → Option ℕ → ℕ → Option (Option ℕ)
  | 0, _, _, _ => none
  | fuel + 1, le, page, minSize =>
    match s.links.next le with
    | freeList => some page
    | pageLink p =>
      if s.pages.property p ≥ n ∧ s.pages.property p < minSize then
        let minSize := s.pages.property p
        if minSize = n then some (some p) else searchLoop s n fuel (pageLink p) (some p) minSize
      else searchLoop s n fuel (pageLink p) page minSize

/-- The first bound `nr_free + 1` is an `unsigned int`. -/
def bestFitAllocPages (s : DefaultPmm) (n : ℕ) : Option (Option ℕ × DefaultPmm) :=
  if n = 0 then none
  else if n > s.nrFree then some (none, s)
  else do
    let found ← searchLoop s n listFuel freeList none (uint32 (s.nrFree + 1))
    match found with
    | none => some (none, s)
    | some page => some (some page, s.takeBlock page n)

def bestFitFreePages (s : DefaultPmm) (base n : ℕ) : Option DefaultPmm :=
  s.defaultFreePages base n

/-- One request, and what the caller remembers of it. -/
def step (h : Held DefaultPmm) : PmmOp → Option (Held DefaultPmm)
  | .initMemmap base n =>
    (bestFitInitMemmap h.pmm base n).map (fun s => ⟨s, ⟨base, n⟩ :: h.ranges, h.live⟩)
  | .allocPages n =>
    (bestFitAllocPages h.pmm n).map (fun r =>
      match r.1 with
      | none => ⟨r.2, h.ranges, h.live⟩
      | some page => ⟨r.2, h.ranges, ⟨page, n⟩ :: h.live⟩)
  | .freePages base n =>
    (bestFitFreePages h.pmm base n).map (fun s => ⟨s, h.ranges, h.live.erase ⟨base, n⟩⟩)

variable {s : DefaultPmm} {h : Held DefaultPmm} {free before after : List Block} {b : Block}
  {n : ℕ}

/-! The choice of a block. -/

/-- Of the blocks with at least `n` pages, `b` is the first of the smallest ones. -/
structure Chosen (n : ℕ) (before : List Block) (b : Block) (after : List Block) : Prop where
  fits : n ≤ b.size
  first : ∀ c ∈ before, n ≤ c.size → b.size < c.size
  least : ∀ c ∈ after, n ≤ c.size → b.size ≤ c.size

/-- The rest of the loop either keeps the page found so far, since nothing behind it is better,
or ends with the first of the smallest blocks below the bound. -/
theorem searchLoop_eq {fuel minSize : ℕ} {a : FreeNode} {page : Option ℕ}
    (hp : s.links.Path a (nodes free) freeList)
    (hsize : ∀ b ∈ free, s.pages.property b.base = b.size) (hf : free.length < fuel) :
    (searchLoop s n fuel a page minSize = some page ∧
      ∀ b ∈ free, n ≤ b.size → minSize ≤ b.size) ∨
    ∃ before b after, free = before ++ b :: after ∧ b.size < minSize ∧
      Chosen n before b after ∧ searchLoop s n fuel a page minSize = some (some b.base) := by
  induction free generalizing a page minSize fuel with
  | nil =>
    obtain ⟨k, rfl⟩ : ∃ k, fuel = k + 1 := ⟨fuel - 1, by omega⟩
    left
    simp only [searchLoop, hp.1, List.not_mem_nil, false_implies, implies_true, and_self]
  | cons b free ih =>
    obtain ⟨⟨hn, -⟩, hrest⟩ := hp
    obtain ⟨k, rfl⟩ : ∃ k, fuel = k + 1 := ⟨fuel - 1, by omega⟩
    simp only [List.length_cons] at hf
    have hb := hsize b List.mem_cons_self
    have hsize' : ∀ c ∈ free, s.pages.property c.base = c.size :=
      fun c hc => hsize c (List.mem_cons_of_mem b hc)
    simp only [searchLoop, hn, hb]
    by_cases hbetter : b.size ≥ n ∧ b.size < minSize
    · right
      simp only [hbetter, and_self, if_true]
      by_cases hexact : b.size = n
      · refine ⟨[], b, free, rfl, hbetter.2, ⟨hbetter.1, by simp, ?_⟩, ?_⟩
        · intro c _ hc
          omega
        · simp only [hexact, if_true]
      · simp only [hexact, if_false]
        rcases @ih k b.size _ (some b.base) hrest hsize' (by omega) with
          ⟨hkeep, hmin⟩ | ⟨before, c, after, rfl, hlt, hc, heq⟩
        · exact ⟨[], b, free, rfl, hbetter.2, ⟨hbetter.1, by simp, hmin⟩, hkeep⟩
        · refine ⟨b :: before, c, after, rfl, by omega, ⟨hc.fits, ?_, hc.least⟩, heq⟩
          intro d hd hdn
          rcases List.mem_cons.mp hd with rfl | hd
          · exact hlt
          · exact hc.first d hd hdn
    · simp only [hbetter, if_false]
      rcases @ih k minSize _ page hrest hsize' (by omega) with
        ⟨hkeep, hmin⟩ | ⟨before, c, after, rfl, hlt, hc, heq⟩
      · left
        refine ⟨hkeep, ?_⟩
        intro d hd hdn
        rcases List.mem_cons.mp hd with rfl | hd
        · omega
        · exact hmin d hd hdn
      · right
        refine ⟨b :: before, c, after, rfl, hlt, ⟨hc.fits, ?_, hc.least⟩, heq⟩
        intro d hd hdn
        rcases List.mem_cons.mp hd with rfl | hd
        · omega
        · exact hc.first d hd hdn

/-- What stays of a block when its first `n` pages are taken. -/
def remainder (b : Block) (n : ℕ) : List Block :=
  if b.size = n then [] else [⟨b.base + n, b.size - n⟩]

theorem take_eq (hi : Inv h (before ++ b :: after)) (hn : 0 < n) (hfit : n ≤ b.size) :
    Inv ⟨h.pmm.takeBlock b.base n, h.ranges, ⟨b.base, n⟩ :: h.live⟩
      (before ++ (remainder b n ++ after)) := by
  obtain ⟨base, size⟩ := b
  simp only at hfit
  rcases Nat.eq_or_lt_of_le hfit with rfl | hlt
  · simp only [remainder, if_true, List.nil_append]
    exact hi.take_all
  · obtain ⟨k, rfl⟩ : ∃ k, size = n + k := ⟨size - n, by omega⟩
    have hne : ¬ n + k = n := by omega
    simp only [remainder, hne, if_false, Nat.add_sub_cancel_left, List.singleton_append]
    exact hi.take_front hn (by omega)

theorem spaced_remainder (hs : Spaced (before ++ b :: after)) (hfit : n ≤ b.size) :
    Spaced (before ++ (remainder b n ++ after)) := by
  obtain ⟨h1, h2, h3⟩ := List.pairwise_append.mp hs
  obtain ⟨h4, h5⟩ := List.pairwise_cons.mp h2
  have hrest : Spaced (before ++ after) := List.pairwise_append.mpr
    ⟨h1, h5, fun x hx y hy => h3 x hx y (List.mem_cons_of_mem b hy)⟩
  unfold remainder
  by_cases hall : b.size = n
  · simp only [hall, if_true, List.nil_append]
    exact hrest
  · simp only [hall, if_false, List.singleton_append]
    refine spaced_middle hrest ?_ ?_
    · intro a ha
      have hgap := h3 a ha b List.mem_cons_self
      simp only
      omega
    · intro c hc
      have hgap := h4 c hc
      simp only
      omega

/-- A free list in order: a ring of blocks with room between them, the descriptors say where
they begin and how long they are, and `nr_free` is the number of their pages. -/
structure WellFormed (s : DefaultPmm) (free : List Block) : Prop where
  ring : s.links.Ring freeList (nodes free)
  spaced : Spaced free
  pos : ∀ b ∈ free, 0 < b.size
  size : ∀ b ∈ free, s.pages.property b.base = b.size
  heads : ∀ b ∈ free, ∀ p ∈ b, s.pages.pageProperty p = true ↔ p = b.base
  plain : ∀ b ∈ free, ∀ p ∈ b, s.pages.pageReserved p = false
  bound : ∀ b ∈ free, b.base + b.size + 1 < pageLimit
  count : s.nrFree = (free.map Block.size).sum

/-- Such a list is what the manager keeps when its pages are the managed ones. -/
theorem WellFormed.inv (hw : WellFormed s free) : Inv ⟨s, free, []⟩ free where
  ring := hw.ring
  sorted := hw.spaced.imp (fun hab => by omega)
  tiling := by
    refine ⟨hw.pos, ?_, fun p => Iff.rfl⟩
    refine hw.spaced.imp ?_
    intro a b hab p hpa hpb
    simp only [Block.mem_def] at hpa hpb
    omega
  size := hw.size
  heads p hp := by
    obtain ⟨b, hb, hpb⟩ := hp
    rw [hw.heads b hb p hpb]
    constructor
    · intro heq
      exact ⟨b, hb, heq.symm⟩
    · intro hex
      obtain ⟨c, hc, rfl⟩ := hex
      have hflag := (hw.heads c hc c.base (Block.base_mem (hw.pos c hc))).mpr rfl
      exact (hw.heads b hb c.base hpb).mp hflag
  plain p hp := by
    obtain ⟨b, hb, hpb⟩ := hp
    exact hw.plain b hb p hpb
  bound p hp := by
    obtain ⟨b, hb, hpb⟩ := hp
    have hlim := hw.bound b hb
    simp only [Block.mem_def] at hpb
    omega
  count := hw.count

theorem WellFormed.of_inv (hi : Inv h free) (hs : Spaced free)
    (hbound : ∀ p, h.Managed p → p + 2 < pageLimit) : WellFormed h.pmm free := by
  have hmem : ∀ b ∈ free, ∀ p ∈ b, h.Managed p :=
    fun b hb p hp => hi.managed_of_mem (List.mem_append_right _ hb) hp
  have hpos : ∀ b ∈ free, 0 < b.size :=
    fun b hb => hi.tiling.pos b (List.mem_append_right _ hb)
  refine ⟨hi.ring, hs, hpos, hi.size, ?_, ?_, ?_, hi.count⟩
  · intro b hb p hp
    rw [hi.heads p (hmem b hb p hp)]
    constructor
    · intro hex
      obtain ⟨c, hc, rfl⟩ := hex
      rw [hi.tiling.unique (List.mem_append_right _ hc) (List.mem_append_right _ hb)
        (Block.base_mem (hpos c hc)) hp]
    · intro heq
      exact ⟨b, hb, heq.symm⟩
  · intro b hb p hp
    exact hi.plain p (hmem b hb p hp)
  · intro b hb
    have hlast := hbound (b.base + b.size - 1) (hmem b hb _ (by
      have := hpos b hb
      simp only [Block.mem_def]
      omega))
    have := hpos b hb
    omega

theorem size_le_count (hi : Inv h free) (hb : b ∈ free) : b.size ≤ h.pmm.nrFree := by
  rw [hi.count]
  exact List.le_sum_of_mem (List.mem_map_of_mem hb)

/-- Either the request is turned down, and as long as `nr_free + 1` does not wrap around there
is no block for it, or it gets the front of the chosen block. -/
theorem bestFitAllocPages_eq (hi : Inv h free) (hn : 0 < n) :
    (bestFitAllocPages h.pmm n = some (none, h.pmm) ∧
      (h.pmm.nrFree + 1 < pageLimit → ∀ b ∈ free, b.size < n)) ∨
    ∃ before b after, free = before ++ b :: after ∧ Chosen n before b after ∧
      bestFitAllocPages h.pmm n = some (some b.base, h.pmm.takeBlock b.base n) := by
  by_cases hfew : n > h.pmm.nrFree
  · left
    simp only [bestFitAllocPages, Nat.ne_of_gt hn, if_false, hfew, if_true, true_and]
    intro _ b hb
    have hle := size_le_count hi hb
    omega
  · rcases @searchLoop_eq h.pmm free n listFuel (uint32 (h.pmm.nrFree + 1)) freeList none
      hi.ring.2 hi.size hi.length_lt with ⟨hnone, hmin⟩ | ⟨before, b, after, rfl, -, hc, heq⟩
    · left
      simp only [bestFitAllocPages, Nat.ne_of_gt hn, if_false, hfew, hnone, Option.bind_eq_bind,
        Option.bind_some, true_and]
      intro hlim b hb
      by_contra hge
      have hle := size_le_count hi hb
      have hbound := hmin b hb (by omega)
      rw [uint32_of_page hlim] at hbound
      omega
    · right
      refine ⟨before, b, after, rfl, hc, ?_⟩
      simp only [bestFitAllocPages, Nat.ne_of_gt hn, if_false, hfew, heq, Option.bind_eq_bind,
        Option.bind_some]

/-- The chosen block is the smallest one, and of several such blocks the lowest. -/
theorem Chosen.best (hc : Chosen n before b after) (hs : Spaced (before ++ b :: after)) :
    ∀ c ∈ before ++ b :: after, n ≤ c.size →
      b.size < c.size ∨ (b.size = c.size ∧ b.base ≤ c.base) := by
  intro c hmem hfit
  rcases List.mem_append.mp hmem with hmem | hmem
  · exact Or.inl (hc.first c hmem hfit)
  · rcases List.mem_cons.mp hmem with rfl | hmem
    · exact Or.inr ⟨rfl, Nat.le_refl _⟩
    · have hle := hc.least c hmem hfit
      have hgap := (List.pairwise_cons.mp (List.pairwise_append.mp hs).2.1).1 c hmem
      omega

theorem WellFormed.bound_mem (hw : WellFormed s free) {p : ℕ} (hp : ∃ b ∈ free, p ∈ b) :
    p + 2 < pageLimit := by
  obtain ⟨b, hb, hpb⟩ := hp
  have hlim := hw.bound b hb
  simp only [Block.mem_def] at hpb
  omega

theorem WellFormed.count_lt (hw : WellFormed s free) : s.nrFree + 1 < pageLimit := by
  have hsum := hw.inv.tiling.sum_le (N := pageLimit - 2) (fun p hp => by
    have := hw.bound_mem hp
    omega)
  have hcount := hw.count
  have hlim : 2 < pageLimit := by
    unfold pageLimit
    omega
  simp only [List.nil_append] at hsum
  omega

/-- Four pages from page 3 on. -/
def oneBlock : DefaultPmm :=
  ⟨listAdd (listInit ⟨id, id⟩ freeList) freeList (pageLink 3),
    ⟨fun _ => false, fun p => p = 3, fun _ => 4, fun _ => 0⟩, 4⟩

theorem oneBlock_wellFormed : WellFormed oneBlock [⟨3, 4⟩] where
  ring := ring_listAdd_head (Links.ring_isolate _ _) (by simp)
  spaced := List.pairwise_singleton _ _
  pos := by simp
  size := by simp [oneBlock]
  heads := by simp [oneBlock]
  plain := by simp [oneBlock]
  bound := by simp [pageLimit]
  count := rfl

/-- The list is ascending, no block ends where another one begins, and of the managed pages
exactly the first ones of the blocks are flagged. -/
structure Coalesced (h : Held DefaultPmm) : Prop where
  sorted : h.pmm.freeBlocks.Pairwise (fun a b => a.base < b.base)
  apart : ∀ a ∈ h.pmm.freeBlocks, ∀ b ∈ h.pmm.freeBlocks, a.base + a.size ≠ b.base
  heads : ∀ p, h.Managed p →
    (h.pmm.pages.pageProperty p = true ↔ ∃ b ∈ h.pmm.freeBlocks, b.base = p)

/-- A page on the list. -/
def Free (h : Held DefaultPmm) (p : ℕ) : Prop := ∃ b ∈ h.pmm.freeBlocks, p ∈ b

/-- No block enters at the tail of a non-empty list, where it is inserted twice, and a new
range, which `init_memmap` does not join with anything, does not touch a listed block. -/
def EntersInside (h : Held DefaultPmm) : PmmOp → Prop
  | .initMemmap base n => h.pmm.BelowSome base ∧
      ∀ b ∈ h.pmm.freeBlocks, b.base + b.size ≠ base ∧ base + n ≠ b.base
  | .allocPages _ => True
  | .freePages base _ => h.pmm.BelowSome base

/-- The invariant of runs. -/
structure Kept (h : Held DefaultPmm) (free : List Block) : Prop where
  inv : Inv h free
  spaced : Spaced free

theorem Kept.coalesced (hk : Kept h free) : Coalesced h := by
  have hfree := hk.inv.freeBlocks_eq
  refine ⟨?_, ?_, ?_⟩
  · rw [hfree]
    exact hk.inv.sorted
  · rw [hfree]
    intro a ha b hb heq
    have hne : a ≠ b := by
      intro hab
      subst hab
      have hpos := hk.inv.tiling.pos a (List.mem_append_right _ ha)
      omega
    have hpos := hk.inv.tiling.pos b (List.mem_append_right _ hb)
    have hgap : ∀ x ∈ free, ∀ y ∈ free, x ≠ y →
        x.base + x.size < y.base ∨ y.base + y.size < x.base := by
      have : Std.Symm (fun x y : Block => x.base + x.size < y.base ∨ y.base + y.size < x.base) :=
        ⟨fun _ _ hxy => hxy.symm⟩
      have hpair : free.Pairwise (fun x y : Block =>
          x.base + x.size < y.base ∨ y.base + y.size < x.base) := hk.spaced.imp Or.inl
      exact fun x hx y hy hxy => hpair.forall hx hy hxy
    have := hgap a ha b hb hne
    omega
  · rw [hfree]
    exact hk.inv.heads

theorem kept_init (s : DefaultPmm) : Kept ⟨bestFitInit s, [], []⟩ [] :=
  ⟨inv_defaultInit s, List.Pairwise.nil⟩

theorem Kept.initMemmap {base : ℕ} (hk : Kept h free) (ha : Allowed h (.initMemmap base n))
    (he : EntersInside h (.initMemmap base n)) :
    ∃ h' free', step h (.initMemmap base n) = some h' ∧ Kept h' free' := by
  obtain ⟨hbelow, htouch⟩ := he
  obtain ⟨h', before, after, hstep, rfl, hi⟩ := hk.inv.initMemmap ha hbelow
  rw [hk.inv.freeBlocks_eq] at htouch
  obtain ⟨hlow, hhigh⟩ := hi.end_le
  refine ⟨h', _, hstep, hi, spaced_middle hk.spaced ?_ ?_⟩
  · intro a ha
    have hle := hlow a ha
    have hne := (htouch a (List.mem_append_left _ ha)).1
    simp only at hle ⊢
    omega
  · intro c hc
    have hle := hhigh c hc
    have hne := (htouch c (List.mem_append_right _ hc)).2
    simp only at hle ⊢
    omega

theorem Kept.allocPages (hk : Kept h free) (hn : 0 < n) :
    ∃ h' free', step h (.allocPages n) = some h' ∧ Kept h' free' := by
  rcases bestFitAllocPages_eq hk.inv hn with ⟨hnone, -⟩ | ⟨before, b, after, rfl, hc, heq⟩
  · refine ⟨h, free, ?_, hk⟩
    simp only [step, hnone, Option.map_some]
  · refine ⟨_, _, ?_, take_eq hk.inv hn hc.fits, spaced_remainder hk.spaced hc.fits⟩
    simp only [step, heq, Option.map_some]

/-- The pages of a live block come back to the list, and nothing else does. -/
theorem Kept.freePages {base : ℕ} (hk : Kept h free) (hlive : ⟨base, n⟩ ∈ h.live)
    (hbelow : h.pmm.BelowSome base) :
    ∃ h' free', step h (.freePages base n) = some h' ∧ Kept h' free' ∧
      ∀ p, Free h' p ↔ Free h p ∨ p ∈ (⟨base, n⟩ : Block) := by
  obtain ⟨h', free', hstep, hi, hspaced⟩ := hk.inv.freePages hlive hbelow
  refine ⟨h', free', hstep, ⟨hi, hspaced hk.spaced⟩, ?_⟩
  have hheld : h'.ranges = h.ranges ∧ h'.live = h.live.erase ⟨base, n⟩ := by
    simp only [DefaultPmm.step, Option.map_eq_some_iff] at hstep
    obtain ⟨s', -, rfl⟩ := hstep
    exact ⟨rfl, rfl⟩
  obtain ⟨hranges, hrest⟩ := hheld
  have hmanaged : h'.Managed = h.Managed := by
    unfold Held.Managed
    rw [hranges]
  have ht' := hi.tiling
  rw [hmanaged, hrest] at ht'
  -- the same tiling, with the freed block among the listed ones
  have ht : Tiling h.Managed (h.live.erase ⟨base, n⟩ ++ ⟨base, n⟩ :: free) :=
    hk.inv.tiling.perm (((List.perm_cons_erase hlive).append_right free).trans
      List.perm_middle.symm)
  intro p
  unfold Free
  rw [hi.freeBlocks_eq, hk.inv.freeBlocks_eq, ht'.mem_last p, ← ht.mem_last p]
  simp only [List.mem_cons, exists_eq_or_imp]
  exact or_comm

theorem step_kept (h : Held DefaultPmm) (op : PmmOp) (hk : ∃ free, Kept h free)
    (hop : Allowed h op ∧ EntersInside h op) :
    ∃ h', step h op = some h' ∧ ∃ free, Kept h' free := by
  obtain ⟨free, hk⟩ := hk
  have hresult : ∃ h' free', step h op = some h' ∧ Kept h' free' := by
    cases op with
    | initMemmap base n => exact hk.initMemmap hop.1 hop.2
    | allocPages n => exact hk.allocPages hop.1
    | freePages base n =>
      obtain ⟨h', free', hstep, hk', -⟩ := hk.freePages hop.1 hop.2
      exact ⟨h', free', hstep, hk'⟩
  obtain ⟨h', free', hstep, hk'⟩ := hresult
  exact ⟨h', hstep, free', hk'⟩

/-- In a run in which every block enters before another one, or into an empty list, and no new
range touches a listed block, the list is in order after every request. A live block that is
given back in the same way leaves it in order again, with its pages added. -/
theorem best_fit_free_coalesced (s : DefaultPmm) (ops : List PmmOp)
    (hmeets : RunMeets step (fun h op => Allowed h op ∧ EntersInside h op)
      ⟨bestFitInit s, [], []⟩ ops) :
    ∃ h, runOps step ⟨bestFitInit s, [], []⟩ ops = some h ∧ Coalesced h ∧
      ∀ base n, ⟨base, n⟩ ∈ h.live → h.pmm.BelowSome base →
        ∃ h', step h (.freePages base n) = some h' ∧ Coalesced h' ∧
          ∀ p, Free h' p ↔ Free h p ∨ p ∈ (⟨base, n⟩ : Block) := by
  obtain ⟨h, hrun, free, hk⟩ := runOps_total step_kept ⟨_, kept_init s⟩ hmeets
  refine ⟨h, hrun, hk.coalesced, ?_⟩
  intro base n hlive hbelow
  obtain ⟨h', free', hstep, hk', hpages⟩ := hk.freePages hlive hbelow
  exact ⟨h', hstep, hk'.coalesced, hpages⟩

theorem best_fit_free_coalesced_front : ∃ h h',
    runOps step ⟨bestFitInit bootPmm, [], []⟩ [.initMemmap 0 3, .allocPages 1] = some h ∧
      step h (.freePages 0 1) = some h' ∧ Coalesced h' := by
  obtain ⟨h, hrun, -, hfree⟩ := best_fit_free_coalesced bootPmm [.initMemmap 0 3, .allocPages 1]
    (RunMeets.cons ⟨⟨by decide, by decide, fun p _ => ⟨rfl, by simp [Held.Managed]⟩⟩,
        Or.inl rfl, by simp [show (bestFitInit bootPmm).freeBlocks = [] from rfl]⟩ rfl
      (RunMeets.cons ⟨Nat.one_pos, trivial⟩ rfl trivial))
  have hsome : some h = some _ := hrun.symm
  obtain rfl := Option.some.inj hsome
  obtain ⟨h', hstep, hc, -⟩ := hfree 0 1 List.mem_cons_self (Or.inr (by decide +kernel))
  exact ⟨_, h', hrun, hstep, hc⟩

/-- The upper page of two comes back last, at the tail. Its backward link leads to itself then,
and it is not joined with the page before. -/
theorem tail_insertion_leaves_neighbours :
    RunMeets step Allowed ⟨bestFitInit bootPmm, [], []⟩ lowerFirst ∧
      ∃ h, runOps step ⟨bestFitInit bootPmm, [], []⟩ lowerFirst = some h ∧ ¬ Coalesced h := by
  refine ⟨?_, _, rfl, ?_⟩
  · refine RunMeets.cons ⟨by decide, by decide, ?_⟩ rfl ?_
    · intro p _
      exact ⟨rfl, by simp [Held.Managed]⟩
    refine RunMeets.cons Nat.one_pos rfl ?_
    refine RunMeets.cons Nat.one_pos rfl ?_
    refine RunMeets.cons (List.mem_cons_of_mem _ List.mem_cons_self) rfl ?_
    exact RunMeets.cons List.mem_cons_self rfl trivial
  · intro hc
    have hapart := hc.apart ⟨0, 1⟩ (by decide +kernel) ⟨1, 1⟩ (by decide +kernel)
    exact hapart rfl

end Ucore.Dou.BestFitPmm
