import Ucore.Pmm.DefaultPmm

/-!
Ownership in the first-fit manager. The list of blocks behind `free_list` is sorted and
tiles, with the live allocations, the managed pages. Splitting, inserting and joining keep
this as long as no block enters at the tail of a non-empty list.
-/
namespace Ucore.Pmm.DefaultPmm

open Library Libs FreeNode

/-- The links of a list of blocks. -/
abbrev nodes (free : List Block) : List FreeNode := free.map (fun b => pageLink b.base)

/-- `free` is what stands on `free_list`, and the descriptors say so. -/
structure Inv (h : Held DefaultPmm) (free : List Block) : Prop where
  ring : h.pmm.links.Ring freeList (nodes free)
  sorted : free.Pairwise (fun a b => a.base < b.base)
  tiling : Tiling h.Managed (h.live ++ free)
  size : ∀ b ∈ free, h.pmm.pages.property b.base = b.size
  heads : ∀ p, h.Managed p → (h.pmm.pages.pageProperty p = true ↔ ∃ b ∈ free, b.base = p)
  plain : ∀ p, h.Managed p → h.pmm.pages.pageReserved p = false
  bound : ∀ p, h.Managed p → p + 1 < pageLimit
  count : h.pmm.nrFree = (free.map Block.size).sum

/-- A block comes to the front of the live allocations and the listed blocks. -/
theorem perm_front (live before after : List Block) (b : Block) :
    (live ++ (before ++ b :: after)).Perm (b :: (live ++ (before ++ after))) := by
  rw [← List.append_assoc, ← List.append_assoc]
  exact List.perm_middle

/-! Reading the list. -/

theorem mem_nodes {free : List Block} {p : ℕ} :
    pageLink p ∈ nodes free ↔ ∃ b ∈ free, b.base = p := by
  simp only [List.mem_map, pageLink.injEq]

theorem listPages_of_path {l : Links FreeNode} {a : FreeNode} {free : List Block} {fuel : ℕ}
    (hp : l.Path a (nodes free) freeList) (hf : free.length < fuel) :
    listPages l fuel a = free.map Block.base := by
  induction free generalizing a fuel with
  | nil =>
    obtain ⟨fuel, rfl⟩ := Nat.exists_eq_add_of_lt hf
    simp only [listPages, hp.1, List.map_nil]
  | cons b free ih =>
    obtain ⟨⟨hn, -⟩, hrest⟩ := hp
    obtain ⟨k, rfl⟩ : ∃ k, fuel = k + 1 := ⟨fuel - 1, by omega⟩
    simp only [List.length_cons] at hf
    simp only [listPages, hn, List.map_cons]
    rw [ih hrest (by omega)]

namespace Inv

variable {h : Held DefaultPmm} {free : List Block}

theorem sum_lt (hi : Inv h free) : (free.map Block.size).sum < pageLimit := by
  have hall := hi.tiling.sum_le (N := pageLimit - 1) (fun p hp => by
    have := hi.bound p hp
    omega)
  simp only [List.map_append, List.sum_append] at hall
  have hlim : 0 < pageLimit := by
    unfold pageLimit
    omega
  omega

theorem length_lt (hi : Inv h free) : free.length < listFuel := by
  have hall := hi.tiling.length_le (N := pageLimit) (fun p hp => by
    have := hi.bound p hp
    omega)
  rw [List.length_append] at hall
  unfold listFuel
  omega

theorem freeBlocks_eq (hi : Inv h free) : h.pmm.freeBlocks = free := by
  unfold freeBlocks
  rw [listPages_of_path hi.ring.2 hi.length_lt, List.map_map]
  calc free.map ((fun p => ⟨p, h.pmm.pages.property p⟩) ∘ Block.base)
      = free.map id := List.map_congr_left (fun b hb => by simp [hi.size b hb])
    _ = free := List.map_id free

theorem owned (hi : Inv h free) : Owned h := by
  have hfree := hi.freeBlocks_eq
  refine ⟨?_, ?_, ?_, ?_⟩
  · rw [hfree]
    exact hi.ring
  · rw [hfree]
    intro e he
    exact (hi.ring.inverse e he).symm
  · rw [hfree]
    exact hi.tiling
  · rw [hfree]
    exact hi.count

theorem managed_of_mem (hi : Inv h free) {b : Block} (hb : b ∈ h.live ++ free) {p : ℕ}
    (hp : p ∈ b) : h.Managed p := (hi.tiling.cover p).mpr ⟨b, hb, hp⟩

end Inv

/-- An empty manager. -/
theorem inv_defaultInit (s : DefaultPmm) : Inv ⟨s.defaultInit, [], []⟩ [] where
  ring := Links.ring_isolate s.links freeList
  sorted := List.Pairwise.nil
  tiling := Tiling.nil (by simp [Held.Managed])
  size := by simp
  heads p hp := by simp [Held.Managed] at hp
  plain p hp := by simp [Held.Managed] at hp
  bound p hp := by simp [Held.Managed] at hp
  count := rfl

/-! Inserting a block. -/

theorem insertLoop_eq {l : Links FreeNode} {base fuel : ℕ} {a : FreeNode} {free : List Block}
    (hp : l.Path a (nodes free) freeList) (hab : ∃ b ∈ free, base < b.base)
    (hf : free.length < fuel) :
    ∃ before next after, free = before ++ next :: after ∧ (∀ b ∈ before, b.base ≤ base) ∧
      base < next.base ∧
      insertLoop base fuel l a = some (listAddBefore l (pageLink next.base) (pageLink base)) := by
  induction free generalizing a fuel with
  | nil => simp at hab
  | cons c free ih =>
    obtain ⟨⟨hn, -⟩, hrest⟩ := hp
    obtain ⟨k, rfl⟩ : ∃ k, fuel = k + 1 := ⟨fuel - 1, by omega⟩
    simp only [List.length_cons] at hf
    by_cases hc : base < c.base
    · refine ⟨[], c, free, rfl, by simp, hc, ?_⟩
      simp only [insertLoop, hn, hc, if_true]
    · have habove : ∃ b ∈ free, base < b.base := by
        obtain ⟨b, hb, hlt⟩ := hab
        rcases List.mem_cons.mp hb with rfl | hb
        · exact absurd hlt hc
        · exact ⟨b, hb, hlt⟩
      -- another block follows, so this is not the tail
      have hmore : l.next (pageLink c.base) ≠ freeList := by
        obtain ⟨b, hb, -⟩ := habove
        obtain ⟨d, rest, rfl⟩ := List.exists_cons_of_ne_nil (List.ne_nil_of_mem hb)
        rw [hrest.1.1]
        simp
      obtain ⟨before, next, after, rfl, hle, hlt, heq⟩ := @ih k _ hrest habove (by omega)
      refine ⟨c :: before, next, after, rfl, ?_, hlt, ?_⟩
      · intro b hb
        rcases List.mem_cons.mp hb with rfl | hb
        · omega
        · exact hle b hb
      · simp only [insertLoop, hn, hc, if_false, hmore]
        exact heq

/-- The new block stands between the blocks below it and those above it. -/
theorem insertFree_eq {l : Links FreeNode} {b : Block} {free : List Block}
    (hr : l.Ring freeList (nodes free)) (hs : free.Pairwise (fun a b => a.base < b.base))
    (hf : free.length < listFuel) (hnew : ∀ c ∈ free, c.base ≠ b.base)
    (hab : free = [] ∨ ∃ c ∈ free, b.base < c.base) :
    ∃ l' before after, insertFree l b.base = some l' ∧ free = before ++ after ∧
      l'.Ring freeList (nodes (before ++ b :: after)) ∧
      (before ++ b :: after).Pairwise (fun a b => a.base < b.base) := by
  have hout : pageLink b.base ∉ freeList :: nodes free := by
    simp only [List.mem_cons, reduceCtorEq, false_or, mem_nodes, not_exists, not_and]
    exact hnew
  unfold insertFree
  by_cases hempty : free = []
  · subst hempty
    rw [if_pos ((listEmpty_iff hr).mpr rfl)]
    exact ⟨_, [], [], rfl, rfl, ring_listAdd_head hr hout, List.pairwise_singleton _ _⟩
  · have hne : ¬ listEmpty l freeList = true := by
      rw [listEmpty_iff hr]
      simpa using hempty
    have habove := hab.resolve_left hempty
    obtain ⟨before, next, after, rfl, hle, hlt, heq⟩ := insertLoop_eq hr.2 habove hf
    rw [if_neg hne]
    refine ⟨_, before, next :: after, heq, rfl, ?_, ?_⟩
    · simp only [nodes, List.map_append, List.map_cons] at hr hout ⊢
      exact ring_listAddBefore hr hout
    · obtain ⟨hs1, hs2, hs3⟩ := List.pairwise_append.mp hs
      refine List.pairwise_append.mpr ⟨hs1, List.pairwise_cons.mpr ⟨?_, hs2⟩, ?_⟩
      · intro c hc
        rcases List.mem_cons.mp hc with rfl | hc
        · exact hlt
        · have hstep := (List.pairwise_cons.mp hs2).1 c hc
          omega
      · intro a ha c hc
        rcases List.mem_cons.mp hc with rfl | hc
        · have h1 := hle a ha
          have h2 := hnew a (List.mem_append_left _ ha)
          omega
        · exact hs3 a ha c hc

/-- The state after the pages of a block went through the first loop, the block was put on
the list, and its first page became a head. -/
theorem Inv.enter {h h' : Held DefaultPmm} {free : List Block} {b : Block} {d : PageDescs}
    {l : Links FreeNode} (hi : Inv h free) (hsw : PageDescs.Swept h.pmm.pages d b)
    (hl : insertFree h.pmm.links b.base = some l)
    (hpmm : h'.pmm = ⟨l, (d.setProperty b.base b.size).setPageProperty b.base,
      uint32 (h.pmm.nrFree + b.size)⟩)
    (hab : h.pmm.BelowSome b.base) (ht : Tiling h'.Managed (h'.live ++ b :: free))
    (hold : ∀ p, h'.Managed p → p ∉ b → h.Managed p)
    (hbound : ∀ p, h'.Managed p → p + 1 < pageLimit) :
    ∃ before after, free = before ++ after ∧ Inv h' (before ++ b :: after) := by
  have hbpos : 0 < b.size := ht.pos b (by simp)
  have hmem : ∀ c ∈ free, c ∈ h'.live ++ b :: free := by
    intro c hc
    exact List.mem_append_right _ (List.mem_cons_of_mem b hc)
  have hapart : ∀ c ∈ free, Block.Apart b c :=
    (List.pairwise_cons.mp (List.pairwise_append.mp ht.apart).2.1).1
  -- a listed block begins outside the new one
  have hnew : ∀ c ∈ free, c.base ∉ b := by
    intro c hc hbad
    exact hapart c hc c.base hbad (Block.base_mem (ht.pos c (hmem c hc)))
  have hbelow : free = [] ∨ ∃ c ∈ free, b.base < c.base := by
    have := hab
    unfold BelowSome at this
    rw [hi.freeBlocks_eq] at this
    exact this
  obtain ⟨l', before, after, hl', rfl, hring, hsorted⟩ :=
    insertFree_eq hi.ring hi.sorted hi.length_lt
      (fun c hc heq => hnew c hc (heq ▸ Block.base_mem hbpos)) hbelow
  obtain rfl : l = l' := Option.some.inj (hl ▸ hl')
  have ht' : Tiling h'.Managed (h'.live ++ (before ++ b :: after)) := by
    refine ht.perm ?_
    exact List.Perm.append_left _ List.perm_middle.symm
  have hblim : b.size < 2 ^ 32 := by
    have := ht.le_of_bound (N := pageLimit - 1) (b := b) (fun p hp => by
      have := hbound p hp
      omega) (by simp)
    unfold pageLimit at this
    omega
  have hmid : ∀ c, c ∈ before ++ b :: after ↔ c = b ∨ c ∈ before ++ after := by
    intro c
    rw [List.perm_middle.mem_iff, List.mem_cons]
  refine ⟨before, after, rfl, ⟨?_, hsorted, ht', ?_, ?_, ?_, hbound, ?_⟩⟩
  · rw [hpmm]
    exact hring
  · intro c hc
    rw [hpmm]
    simp only [PageDescs.setPageProperty, PageDescs.setProperty]
    rcases (hmid c).mp hc with rfl | hc
    · rw [Function.update_self, uint32_of_page hblim]
    · have hne : c.base ≠ b.base := fun heq => hnew c hc (heq ▸ Block.base_mem hbpos)
      rw [Function.update_of_ne hne, hsw.property_out _ (hnew c hc)]
      exact hi.size c hc
  · intro p hp
    rw [hpmm]
    simp only [PageDescs.setPageProperty, PageDescs.setProperty, hmid, or_and_right,
      exists_or, exists_eq_left]
    by_cases hpb : p = b.base
    · subst hpb
      simp
    · rw [Function.update_of_ne hpb]
      by_cases hin : p ∈ b
      · have hnone : ¬ ∃ c ∈ before ++ after, c.base = p := by
          intro hex
          obtain ⟨c, hc, rfl⟩ := hex
          exact hnew c hc hin
        simp only [hsw.head_in p hin, Bool.false_eq_true, false_iff, not_or]
        exact ⟨fun heq => hpb heq.symm, hnone⟩
      · rw [hsw.head_out p hin, hi.heads p (hold p hp hin)]
        simp only [eq_comm (a := b.base), hpb, false_or]
  · intro p hp
    rw [hpmm]
    simp only [PageDescs.setPageProperty, PageDescs.setProperty]
    by_cases hin : p ∈ b
    · exact hsw.reserved_in p hin
    · rw [hsw.reserved_out p hin]
      exact hi.plain p (hold p hp hin)
  · have hsum := ht'.sum_le (N := pageLimit - 1) (fun p hp => by
      have := hbound p hp
      omega)
    simp only [List.map_append, List.sum_append, List.map_cons, List.sum_cons] at hsum
    have hcount := hi.count
    simp only [List.map_append, List.sum_append] at hcount
    have hlim : 0 < pageLimit := by
      unfold pageLimit
      omega
    rw [hpmm]
    simp only [List.map_append, List.sum_append, List.map_cons, List.sum_cons]
    rw [uint32_of_page (by omega), hcount]
    omega

/-! Joining two neighbours on the list. -/

/-- The block at `a` takes in the block behind it. -/
def absorb (s : DefaultPmm) (a c : ℕ) : DefaultPmm :=
  { s with
    pages := (s.pages.setProperty a (s.pages.property a + s.pages.property c)).clearPageProperty c
    links := listDel s.links (pageLink c) }

theorem Inv.absorb {h : Held DefaultPmm} {before after : List Block} {a c : Block}
    (hi : Inv h (before ++ a :: c :: after)) (hac : a.base + a.size = c.base) :
    Inv { h with pmm := h.pmm.absorb a.base c.base }
      (before ++ ⟨a.base, a.size + c.size⟩ :: after) := by
  obtain ⟨abase, asize⟩ := a
  obtain ⟨cbase, csize⟩ := c
  simp only at hac
  subst hac
  have ha := hi.size ⟨abase, asize⟩ (by simp)
  have hc := hi.size ⟨abase + asize, csize⟩ (by simp)
  have hapos : 0 < asize := hi.tiling.pos ⟨abase, asize⟩ (by simp)
  have hfront := hi.tiling.perm
    ((perm_front _ _ _ _).trans (List.Perm.cons _ (perm_front _ _ _ _)))
  have ht : Tiling h.Managed (h.live ++ (before ++ ⟨abase, asize + csize⟩ :: after)) :=
    hfront.join.perm (perm_front _ _ _ _).symm
  have hsum := hi.sum_lt
  simp only [List.map_append, List.sum_append, List.map_cons, List.sum_cons] at hsum
  have hlim : asize + csize < pageLimit := by omega
  obtain ⟨hs1, hs2, hs3⟩ := List.pairwise_append.mp hi.sorted
  obtain ⟨hs4, hs5⟩ := List.pairwise_cons.mp hs2
  obtain ⟨hs6, hs7⟩ := List.pairwise_cons.mp hs5
  -- no other block begins where one of the two does
  have hother : ∀ b ∈ before ++ after, b.base ≠ abase ∧ b.base ≠ abase + asize := by
    intro b hb
    rcases List.mem_append.mp hb with hb | hb
    · have h1 := hs3 b hb _ List.mem_cons_self
      simp only at h1
      omega
    · have h1 := hs6 b hb
      simp only at h1
      omega
  have hmid : ∀ b, b ∈ before ++ ⟨abase, asize + csize⟩ :: after ↔
      b = ⟨abase, asize + csize⟩ ∨ b ∈ before ++ after := by
    intro b
    rw [List.perm_middle.mem_iff, List.mem_cons]
  refine ⟨?_, ?_, ht, ?_, ?_, hi.plain, hi.bound, ?_⟩
  · have hring := hi.ring
    simp only [nodes, List.map_append, List.map_cons] at hring ⊢
    rw [List.append_cons] at hring ⊢
    exact ring_listDel hring
  · refine List.pairwise_append.mpr ⟨hs1, List.pairwise_cons.mpr ⟨?_, hs7⟩, ?_⟩
    · intro b hb
      exact hs4 b (List.mem_cons_of_mem _ hb)
    · intro b hb b' hb'
      rcases List.mem_cons.mp hb' with rfl | hb'
      · exact hs3 b hb ⟨abase, asize⟩ List.mem_cons_self
      · exact hs3 b hb b' (List.mem_cons_of_mem _ (List.mem_cons_of_mem _ hb'))
  · intro b hb
    simp only [DefaultPmm.absorb, PageDescs.clearPageProperty, PageDescs.setProperty, ha, hc]
    rcases (hmid b).mp hb with rfl | hb
    · rw [Function.update_self, uint32_of_page hlim]
    · rw [Function.update_of_ne (hother b hb).1]
      refine hi.size b ?_
      simp only [List.mem_append, List.mem_cons] at hb ⊢
      tauto
  · intro p hp
    simp only [DefaultPmm.absorb, PageDescs.clearPageProperty, PageDescs.setProperty, hmid,
      or_and_right, exists_or, exists_eq_left]
    by_cases hpc : p = abase + asize
    · subst hpc
      simp only [Function.update_self, Bool.false_eq_true, false_iff, not_or]
      refine ⟨by omega, ?_⟩
      intro hex
      obtain ⟨b, hb, hbase⟩ := hex
      exact (hother b hb).2 hbase
    · rw [Function.update_of_ne hpc, hi.heads p hp]
      constructor
      · intro hex
        obtain ⟨b, hb, hbase⟩ := hex
        simp only [List.mem_append, List.mem_cons] at hb ⊢
        rcases hb with hb | rfl | rfl | hb
        · exact Or.inr ⟨b, Or.inl hb, hbase⟩
        · exact Or.inl hbase
        · exact absurd hbase.symm hpc
        · exact Or.inr ⟨b, Or.inr hb, hbase⟩
      · intro hex
        rcases hex with hbase | ⟨b, hb, hbase⟩
        · exact ⟨⟨abase, asize⟩, by simp, hbase⟩
        · refine ⟨b, ?_, hbase⟩
          simp only [List.mem_append, List.mem_cons] at hb ⊢
          tauto
  · have hcount := hi.count
    simp only [List.map_append, List.sum_append, List.map_cons, List.sum_cons] at hcount ⊢
    simp only [DefaultPmm.absorb]
    omega

/-- The block before is joined if `b` begins where it ends. -/
theorem Inv.mergePrev {h : Held DefaultPmm} {before after : List Block} {b : Block}
    (hi : Inv h (before ++ b :: after)) :
    ((∀ a ∈ before.getLast?, a.base + a.size ≠ b.base) ∧
      (h.pmm.mergePrev b.base).1 = b.base ∧
      Inv { h with pmm := (h.pmm.mergePrev b.base).2 } (before ++ b :: after)) ∨
    ∃ before' a, before = before' ++ [a] ∧ a.base + a.size = b.base ∧
      (h.pmm.mergePrev b.base).1 = a.base ∧
      Inv { h with pmm := (h.pmm.mergePrev b.base).2 }
        (before' ++ ⟨a.base, a.size + b.size⟩ :: after) := by
  have hring := hi.ring
  simp only [nodes, List.map_append, List.map_cons] at hring
  have hprev := hring.prev_mem
  have hb := hi.size b (by simp)
  rcases List.eq_nil_or_concat before with rfl | ⟨before, a, rfl⟩
  · simp only [List.map_nil, List.getLastD_nil] at hprev
    unfold DefaultPmm.mergePrev
    rw [hprev]
    exact Or.inl ⟨by simp, rfl, hi⟩
  · rw [List.concat_eq_append] at hi hprev ⊢
    simp only [List.map_append, List.map_cons, List.map_nil, List.getLastD_concat] at hprev
    have ha := hi.size a (by simp)
    unfold DefaultPmm.mergePrev
    rw [hprev]
    simp only [ha]
    by_cases hadj : a.base + a.size = b.base
    · rw [if_pos hadj]
      have hi' : Inv h (before ++ a :: b :: after) := by
        rw [List.append_cons]
        exact hi
      have hjoined := hi'.absorb hadj
      rw [DefaultPmm.absorb, ha] at hjoined
      exact Or.inr ⟨before, a, rfl, hadj, rfl, hjoined⟩
    · rw [if_neg hadj]
      refine Or.inl ⟨?_, rfl, hi⟩
      intro c hc
      rw [List.getLast?_concat, Option.mem_some_iff] at hc
      exact hc ▸ hadj

/-- The block behind is joined if it begins where `b` ends. -/
theorem Inv.mergeNext {h : Held DefaultPmm} {before after : List Block} {b : Block}
    (hi : Inv h (before ++ b :: after)) :
    ((∀ c ∈ after.head?, b.base + b.size ≠ c.base) ∧
      Inv { h with pmm := h.pmm.mergeNext b.base } (before ++ b :: after)) ∨
    ∃ c after', after = c :: after' ∧ b.base + b.size = c.base ∧
      Inv { h with pmm := h.pmm.mergeNext b.base }
        (before ++ ⟨b.base, b.size + c.size⟩ :: after') := by
  have hring := hi.ring
  simp only [nodes, List.map_append, List.map_cons] at hring
  have hnext := hring.next_mem
  have hb := hi.size b (by simp)
  cases after with
  | nil =>
    simp only [List.map_nil, List.headD_nil] at hnext
    unfold DefaultPmm.mergeNext
    rw [hnext]
    exact Or.inl ⟨by simp, hi⟩
  | cons c after =>
    simp only [List.map_cons, List.headD_cons] at hnext
    unfold DefaultPmm.mergeNext
    rw [hnext]
    simp only [hb]
    by_cases hadj : b.base + b.size = c.base
    · rw [if_pos hadj]
      have hjoined := hi.absorb hadj
      rw [DefaultPmm.absorb, hb] at hjoined
      exact Or.inr ⟨c, after, rfl, hadj, hjoined⟩
    · rw [if_neg hadj]
      refine Or.inl ⟨?_, hi⟩
      intro d hd
      rw [List.head?_cons, Option.mem_some_iff] at hd
      exact hd ▸ hadj

/-! Room between the blocks. -/

/-- Each block ends before the next one begins. -/
def Spaced (free : List Block) : Prop := free.Pairwise (fun a b => a.base + a.size < b.base)

theorem spaced_middle {before after : List Block} {b : Block}
    (h : Spaced (before ++ after)) (hbefore : ∀ a ∈ before, a.base + a.size < b.base)
    (hafter : ∀ c ∈ after, b.base + b.size < c.base) : Spaced (before ++ b :: after) := by
  obtain ⟨h1, h2, h3⟩ := List.pairwise_append.mp h
  refine List.pairwise_append.mpr ⟨h1, List.pairwise_cons.mpr ⟨hafter, h2⟩, ?_⟩
  intro a ha c hc
  rcases List.mem_cons.mp hc with rfl | hc
  · exact hbefore a ha
  · exact h3 a ha c hc

/-- Blocks on the list do not overlap, so the ones before `b` end where it begins or earlier. -/
theorem Inv.end_le {h : Held DefaultPmm} {before after : List Block} {b : Block}
    (hi : Inv h (before ++ b :: after)) :
    (∀ a ∈ before, a.base + a.size ≤ b.base) ∧ ∀ c ∈ after, b.base + b.size ≤ c.base := by
  obtain ⟨-, hs2, hs3⟩ := List.pairwise_append.mp hi.sorted
  obtain ⟨-, hlist, -⟩ := List.pairwise_append.mp hi.tiling.apart
  obtain ⟨-, ha2, ha3⟩ := List.pairwise_append.mp hlist
  have hpos : ∀ c ∈ before ++ b :: after, 0 < c.size :=
    fun c hc => hi.tiling.pos c (List.mem_append_right _ hc)
  have hb := hpos b (by simp)
  constructor
  · intro a ha
    have hlt := hs3 a ha b List.mem_cons_self
    have hapart := (Block.apart_iff (hpos a (List.mem_append_left _ ha)) hb).mp
      (ha3 a ha b List.mem_cons_self)
    omega
  · intro c hc
    have hlt := (List.pairwise_cons.mp hs2).1 c hc
    have hapart := (Block.apart_iff hb (hpos c (by simp [hc]))).mp
      ((List.pairwise_cons.mp ha2).1 c hc)
    omega

/-- After joining on both sides there is room around the block that was put on the list. -/
theorem Inv.merge {h : Held DefaultPmm} {before after : List Block} {b : Block}
    (hi : Inv h (before ++ b :: after)) :
    ∃ free, Inv { h with pmm :=
        (h.pmm.mergePrev b.base).2.mergeNext (h.pmm.mergePrev b.base).1 } free ∧
      (Spaced (before ++ after) → Spaced free) := by
  obtain ⟨hbefore, -⟩ := hi.end_le
  -- the block that holds `b` now, with room before it
  have hfirst : ∃ before' b', (h.pmm.mergePrev b.base).1 = b'.base ∧
      Inv { h with pmm := (h.pmm.mergePrev b.base).2 } (before' ++ b' :: after) ∧
      (Spaced (before ++ after) → Spaced (before' ++ after) ∧
        ∀ a ∈ before', a.base + a.size < b'.base) := by
    rcases hi.mergePrev with ⟨hne, hbase, hi₁⟩ | ⟨before', a, rfl, hadj, hbase, hi₁⟩
    · refine ⟨before, b, hbase, hi₁, fun hs => ⟨hs, ?_⟩⟩
      intro a ha
      rcases List.eq_nil_or_concat before with rfl | ⟨before', c, rfl⟩
      · exact absurd ha List.not_mem_nil
      · rw [List.concat_eq_append] at ha hne hs hbefore
        have hc := hbefore c (by simp)
        have hcne := hne c (by simp)
        rcases List.mem_append.mp ha with ha | ha
        · have hgap := (List.pairwise_append.mp (List.pairwise_append.mp hs).1).2.2 a ha c
            (by simp)
          omega
        · rw [List.mem_singleton] at ha
          subst ha
          omega
    · refine ⟨before', ⟨a.base, a.size + b.size⟩, hbase, hi₁, fun hs => ?_⟩
      rw [List.append_assoc] at hs
      obtain ⟨h1, h2, h3⟩ := List.pairwise_append.mp hs
      have hrest : Spaced (before' ++ after) := List.pairwise_append.mpr
        ⟨h1, (List.pairwise_append.mp h2).2.1,
          fun x hx y hy => h3 x hx y (List.mem_append_right _ hy)⟩
      exact ⟨hrest, fun x hx => h3 x hx a (by simp)⟩
  obtain ⟨before', b', hbase, hi₁, hroom⟩ := hfirst
  rw [hbase]
  obtain ⟨-, hafter⟩ := hi₁.end_le
  rcases hi₁.mergeNext with ⟨hne, hi₂⟩ | ⟨c, after', rfl, hadj, hi₂⟩
  · refine ⟨_, hi₂, fun hs => ?_⟩
    obtain ⟨hrest, hlow⟩ := hroom hs
    refine spaced_middle hrest hlow ?_
    intro d hd
    cases after with
    | nil => exact absurd hd List.not_mem_nil
    | cons c after =>
      have hc := hafter c List.mem_cons_self
      have hcne := hne c (by simp)
      rcases List.mem_cons.mp hd with rfl | hd
      · omega
      · have hgap := (List.pairwise_cons.mp (List.pairwise_append.mp hrest).2.1).1 d hd
        omega
  · refine ⟨_, hi₂, fun hs => ?_⟩
    obtain ⟨hrest, hlow⟩ := hroom hs
    obtain ⟨h1, h2, h3⟩ := List.pairwise_append.mp hrest
    obtain ⟨h4, h5⟩ := List.pairwise_cons.mp h2
    refine spaced_middle (List.pairwise_append.mpr
      ⟨h1, h5, fun x hx y hy => h3 x hx y (List.mem_cons_of_mem c hy)⟩) hlow ?_
    intro d hd
    have hgap := h4 d hd
    simp only
    omega

/-! Taking pages from the front of a listed block. -/

theorem firstFit_eq {s : DefaultPmm} {n fuel : ℕ} {a : FreeNode} {free : List Block}
    (hp : s.links.Path a (nodes free) freeList)
    (hsize : ∀ b ∈ free, s.pages.property b.base = b.size) (hf : free.length < fuel) :
    s.firstFit n fuel a = some none ∨ ∃ before b after, free = before ++ b :: after ∧
      n ≤ b.size ∧ s.firstFit n fuel a = some (some b.base) := by
  induction free generalizing a fuel with
  | nil =>
    obtain ⟨k, rfl⟩ : ∃ k, fuel = k + 1 := ⟨fuel - 1, by omega⟩
    left
    simp only [firstFit, hp.1]
  | cons b free ih =>
    obtain ⟨⟨hn, -⟩, hrest⟩ := hp
    obtain ⟨k, rfl⟩ : ∃ k, fuel = k + 1 := ⟨fuel - 1, by omega⟩
    simp only [List.length_cons] at hf
    have hb := hsize b List.mem_cons_self
    by_cases hfit : n ≤ b.size
    · right
      refine ⟨[], b, free, rfl, hfit, ?_⟩
      simp only [firstFit, hn, hb, ge_iff_le, hfit, if_true]
    · have hskip : s.firstFit n (k + 1) a = s.firstFit n k (pageLink b.base) := by
        simp only [firstFit, hn, hb, ge_iff_le, hfit, if_false]
      rw [hskip]
      rcases @ih k _ hrest (fun c hc => hsize c (List.mem_cons_of_mem b hc)) (by omega)
        with hnone | hsome
      · exact Or.inl hnone
      · obtain ⟨before, c, after, rfl, hfit, heq⟩ := hsome
        exact Or.inr ⟨b :: before, c, after, rfl, hfit, heq⟩

/-- The whole block is taken. -/
theorem Inv.take_all {h : Held DefaultPmm} {before after : List Block} {b : Block}
    (hi : Inv h (before ++ b :: after)) :
    Inv ⟨h.pmm.takeBlock b.base b.size, h.ranges, b :: h.live⟩ (before ++ after) := by
  have hb := hi.size b (by simp)
  have hfit : ¬ h.pmm.pages.property b.base > b.size := by omega
  have hsub : ∀ c ∈ before ++ after, c ∈ before ++ b :: after := by
    intro c hc
    rw [List.perm_middle.mem_iff]
    exact List.mem_cons_of_mem b hc
  obtain ⟨hs1, hs2, hs3⟩ := List.pairwise_append.mp hi.sorted
  obtain ⟨hs4, hs5⟩ := List.pairwise_cons.mp hs2
  have hother : ∀ c ∈ before ++ after, c.base ≠ b.base := by
    intro c hc
    rcases List.mem_append.mp hc with hc | hc
    · have := hs3 c hc b List.mem_cons_self
      omega
    · have := hs4 c hc
      omega
  unfold takeBlock
  simp only [hfit, if_false]
  refine ⟨?_, ?_, ?_, ?_, ?_, hi.plain, hi.bound, ?_⟩
  · have hring := hi.ring
    simp only [nodes, List.map_append, List.map_cons] at hring ⊢
    exact ring_listDel hring
  · exact List.pairwise_append.mpr
      ⟨hs1, hs5, fun x hx y hy => hs3 x hx y (List.mem_cons_of_mem b hy)⟩
  · exact hi.tiling.perm (perm_front _ _ _ _)
  · intro c hc
    exact hi.size c (hsub c hc)
  · intro p hp
    simp only [PageDescs.clearPageProperty]
    by_cases hpb : p = b.base
    · subst hpb
      simp only [Function.update_self, Bool.false_eq_true, false_iff, not_exists, not_and]
      exact hother
    · rw [Function.update_of_ne hpb, hi.heads p hp]
      constructor
      · intro hex
        obtain ⟨c, hc, hcp⟩ := hex
        rw [List.perm_middle.mem_iff, List.mem_cons] at hc
        rcases hc with rfl | hc
        · exact absurd hcp.symm hpb
        · exact ⟨c, hc, hcp⟩
      · intro hex
        obtain ⟨c, hc, hcp⟩ := hex
        exact ⟨c, hsub c hc, hcp⟩
  · have hcount := hi.count
    have hsum := hi.sum_lt
    simp only [List.map_append, List.sum_append, List.map_cons, List.sum_cons] at hcount hsum ⊢
    rw [uint32_of_page (by omega)]
    omega

/-- The block is cut; the part behind the allocation takes its place on the list. -/
theorem Inv.take_front {h : Held DefaultPmm} {before after : List Block} {base m n : ℕ}
    (hi : Inv h (before ++ ⟨base, m + n⟩ :: after)) (hm : 0 < m) (hn : 0 < n) :
    Inv ⟨h.pmm.takeBlock base m, h.ranges, ⟨base, m⟩ :: h.live⟩
      (before ++ ⟨base + m, n⟩ :: after) := by
  have hb : h.pmm.pages.property base = m + n := hi.size ⟨base, m + n⟩ (by simp)
  have hfit : h.pmm.pages.property base > m := by omega
  have hrest : h.pmm.pages.property base - m = n := by omega
  have hmid : ∀ b c, c ∈ before ++ b :: after ↔ c = b ∨ c ∈ before ++ after := by
    intro b c
    rw [List.perm_middle.mem_iff, List.mem_cons]
  have hlen : base + (m + n) < pageLimit := by
    have := hi.tiling.le_of_bound (N := pageLimit - 1) (b := ⟨base, m + n⟩) (fun p hp => by
      have := hi.bound p hp
      omega) (by simp)
    simp only at this
    have hlim : 0 < pageLimit := by
      unfold pageLimit
      omega
    omega
  obtain ⟨hs1, hs2, hs3⟩ := List.pairwise_append.mp hi.sorted
  obtain ⟨hs4, hs5⟩ := List.pairwise_cons.mp hs2
  -- no other listed block begins inside the one that is cut
  have hother : ∀ c ∈ before ++ after, c.base < base ∨ base + (m + n) ≤ c.base := by
    intro c hc
    have hapart := (List.pairwise_append.mp hi.tiling.apart).2.1
    rw [List.perm_middle.pairwise_iff (fun hab => Block.Apart.symm hab)] at hapart
    have hcapart := (List.pairwise_cons.mp hapart).1 c hc
    have hcpos := hi.tiling.pos c (List.mem_append_right _ ((hmid _ c).mpr (Or.inr hc)))
    have hout : c.base ∉ (⟨base, m + n⟩ : Block) :=
      fun hin => hcapart _ hin (Block.base_mem hcpos)
    simp only [Block.mem_def] at hout
    omega
  unfold takeBlock
  simp only [hfit, if_true, hrest]
  refine ⟨?_, ?_, ?_, ?_, ?_, hi.plain, hi.bound, ?_⟩
  · have hring := hi.ring
    simp only [nodes, List.map_append, List.map_cons] at hring ⊢
    rw [hring.prev_mem]
    refine ring_listAdd (ring_listDel hring) ?_
    simp only [List.mem_cons, reduceCtorEq, false_or, ← List.map_append, mem_nodes, not_exists,
      not_and]
    intro c hc heq
    have := hother c hc
    omega
  · refine List.pairwise_append.mpr ⟨hs1, List.pairwise_cons.mpr ⟨?_, hs5⟩, ?_⟩
    · intro c hc
      have h1 := hs4 c hc
      have h2 := hother c (List.mem_append_right _ hc)
      simp only at h1 ⊢
      omega
    · intro c hc b hb
      rcases List.mem_cons.mp hb with rfl | hb
      · have := hs3 c hc _ List.mem_cons_self
        simp only at this ⊢
        omega
      · exact hs3 c hc b (List.mem_cons_of_mem _ hb)
  · have hfront := hi.tiling.perm (perm_front _ _ _ _)
    exact (hfront.split hm hn).perm (List.Perm.cons _ (perm_front _ _ _ _).symm)
  · intro c hc
    simp only [PageDescs.clearPageProperty, PageDescs.setPageProperty, PageDescs.setProperty]
    rcases (hmid _ c).mp hc with rfl | hc
    · rw [Function.update_self, uint32_of_page (by omega)]
    · have hne : c.base ≠ base + m := by
        have := hother c hc
        omega
      rw [Function.update_of_ne hne]
      exact hi.size c ((hmid _ c).mpr (Or.inr hc))
  · intro p hp
    simp only [PageDescs.clearPageProperty, PageDescs.setPageProperty, PageDescs.setProperty,
      hmid, or_and_right, exists_or, exists_eq_left]
    have hheads := hi.heads p hp
    simp only [hmid, or_and_right, exists_or, exists_eq_left] at hheads
    by_cases hpb : p = base
    · subst hpb
      simp only [Function.update_self, Bool.false_eq_true, false_iff, not_or]
      refine ⟨by omega, ?_⟩
      intro hex
      obtain ⟨c, hc, hcp⟩ := hex
      have := hother c hc
      omega
    · rw [Function.update_of_ne hpb]
      by_cases hpr : p = base + m
      · subst hpr
        simp only [Function.update_self, true_or]
      · rw [Function.update_of_ne hpr, hheads]
        simp only [eq_comm (b := p), hpb, hpr, false_or]
  · have hcount := hi.count
    have hsum := hi.sum_lt
    simp only [List.map_append, List.sum_append, List.map_cons, List.sum_cons] at hcount hsum ⊢
    rw [uint32_of_page (by omega)]
    omega

theorem Inv.take {h : Held DefaultPmm} {before after : List Block} {b : Block} {n : ℕ}
    (hi : Inv h (before ++ b :: after)) (hn : 0 < n) (hfit : n ≤ b.size) :
    ∃ free, Inv ⟨h.pmm.takeBlock b.base n, h.ranges, ⟨b.base, n⟩ :: h.live⟩ free := by
  rcases Nat.eq_or_lt_of_le hfit with rfl | hlt
  · exact ⟨_, hi.take_all⟩
  · obtain ⟨base, size⟩ := b
    obtain ⟨k, hk⟩ := Nat.exists_eq_add_of_lt hlt
    simp only at hk
    rw [Nat.add_assoc] at hk
    subst hk
    exact ⟨_, hi.take_front hn (by omega)⟩

/-! One request, and runs. -/

theorem sweepPages_swept {d : PageDescs} {p n : ℕ}
    (h : ∀ q ∈ (⟨p, n⟩ : Block), d.pageReserved q = false ∧ d.pageProperty q = false) :
    ∃ d', sweepPages d p n = some d' ∧ PageDescs.Swept d d' ⟨p, n⟩ := by
  induction n generalizing d p with
  | zero => exact ⟨d, rfl, PageDescs.swept_nil d p⟩
  | succ n ih =>
    obtain ⟨hr, hh⟩ := h p (by simp only [Block.mem_def]; omega)
    obtain ⟨d', hd', hsw⟩ := ih (d := (d.clearFlags p).setPageRef p 0) (p := p + 1) (by
      intro q hq
      have hne : q ≠ p := by
        simp only [Block.mem_def] at hq
        omega
      have hq' : q ∈ (⟨p, n + 1⟩ : Block) := by
        simp only [Block.mem_def] at hq ⊢
        omega
      simpa [PageDescs.clearFlags, PageDescs.setPageRef, hne] using h q hq')
    refine ⟨d', ?_, hsw.cons ?_ ?_ ?_ ?_ ?_⟩
    · simp only [sweepPages, hr, hh, Bool.not_false, Bool.and_self, if_true]
      exact hd'
    · simp [PageDescs.clearFlags, PageDescs.setPageRef]
    · simp [PageDescs.clearFlags, PageDescs.setPageRef]
    · intro q hq
      simp [PageDescs.clearFlags, PageDescs.setPageRef, hq]
    · intro q hq
      simp [PageDescs.clearFlags, PageDescs.setPageRef, hq]
    · intro q _
      simp [PageDescs.clearFlags, PageDescs.setPageRef]

/-- The insertion succeeds under the condition on the tail. -/
theorem Inv.insertFree_isSome {h : Held DefaultPmm} {free : List Block} {b : Block}
    (hi : Inv h free) (hnew : ∀ c ∈ free, c.base ≠ b.base) (hab : h.pmm.BelowSome b.base) :
    ∃ l, insertFree h.pmm.links b.base = some l := by
  unfold BelowSome at hab
  rw [hi.freeBlocks_eq] at hab
  obtain ⟨l, -, -, hl, -⟩ := insertFree_eq hi.ring hi.sorted hi.length_lt hnew hab
  exact ⟨l, hl⟩

theorem Inv.initMemmap {h : Held DefaultPmm} {free : List Block} {base n : ℕ}
    (hi : Inv h free) (ha : Allowed h (.initMemmap base n)) (hb : h.pmm.BelowSome base) :
    ∃ h' before after, step h (.initMemmap base n) = some h' ∧ free = before ++ after ∧
      Inv h' (before ++ ⟨base, n⟩ :: after) := by
  obtain ⟨hn, hlim, hfresh⟩ := ha
  obtain ⟨d, hd, hsw⟩ := PageDescs.initPages_swept (fun p hp => (hfresh p hp).1)
  obtain ⟨l, hl⟩ := hi.insertFree_isSome (b := ⟨base, n⟩) (by
    intro c hc heq
    refine (hfresh base (Block.base_mem (b := ⟨base, n⟩) hn)).2 ?_
    refine hi.managed_of_mem (List.mem_append_right _ hc) ?_
    rw [← show c.base = base from heq]
    exact Block.base_mem (hi.tiling.pos c (List.mem_append_right _ hc))) hb
  have hmanaged : ∀ p, Held.Managed (⟨h.pmm, ⟨base, n⟩ :: h.ranges, h.live⟩ : Held DefaultPmm) p ↔
      h.Managed p ∨ p ∈ (⟨base, n⟩ : Block) := by
    intro p
    simp only [Held.Managed, List.mem_cons, exists_eq_or_imp]
    exact or_comm
  have ht := (hi.tiling.cons hn (fun p hp => (hfresh p hp).2) hmanaged).perm
    (perm_front h.live [] free ⟨base, n⟩).symm
  obtain ⟨before, after, hfree, hi'⟩ := @Inv.enter _
    ⟨⟨l, (d.setProperty base n).setPageProperty base, uint32 (h.pmm.nrFree + n)⟩,
      ⟨base, n⟩ :: h.ranges, h.live⟩ _ _ _ _ hi hsw hl rfl hb ht
    (fun p hp hout => ((hmanaged p).mp hp).resolve_right hout) (fun p hp => by
      rcases (hmanaged p).mp hp with hp | hp
      · exact hi.bound p hp
      · simp only [Block.mem_def] at hp
        omega)
  refine ⟨_, before, after, ?_, hfree, hi'⟩
  simp only [step, defaultInitMemmap, Nat.ne_of_gt hn, if_false, hd, hl, Option.bind_eq_bind,
    Option.bind_some, Option.map_some]

theorem Inv.allocPages {h : Held DefaultPmm} {free : List Block} {n : ℕ} (hi : Inv h free)
    (hn : 0 < n) : ∃ h' free', step h (.allocPages n) = some h' ∧ Inv h' free' := by
  by_cases hfew : n > h.pmm.nrFree
  · refine ⟨h, free, ?_, hi⟩
    simp only [step, defaultAllocPages, Nat.ne_of_gt hn, if_false, hfew, if_true, Option.map_some]
  · rcases firstFit_eq (n := n) hi.ring.2 hi.size hi.length_lt with hnone | hsome
    · refine ⟨h, free, ?_, hi⟩
      simp only [step, defaultAllocPages, Nat.ne_of_gt hn, if_false, hfew, hnone,
        Option.bind_eq_bind, Option.bind_some, Option.map_some]
    · obtain ⟨before, b, after, rfl, hfit, heq⟩ := hsome
      obtain ⟨free', hi'⟩ := hi.take hn hfit
      refine ⟨_, free', ?_, hi'⟩
      simp only [step, defaultAllocPages, Nat.ne_of_gt hn, if_false, hfew, heq,
        Option.bind_eq_bind, Option.bind_some, Option.map_some]

theorem Inv.freePages {h : Held DefaultPmm} {free : List Block} {base n : ℕ} (hi : Inv h free)
    (hlive : ⟨base, n⟩ ∈ h.live) (hb : h.pmm.BelowSome base) :
    ∃ h' free', step h (.freePages base n) = some h' ∧ Inv h' free' ∧
      (Spaced free → Spaced free') := by
  have hmem : ⟨base, n⟩ ∈ h.live ++ free := List.mem_append_left _ hlive
  have hn : 0 < n := hi.tiling.pos ⟨base, n⟩ hmem
  have hapart : ∀ c ∈ free, Block.Apart ⟨base, n⟩ c :=
    fun c hc => (List.pairwise_append.mp hi.tiling.apart).2.2 _ hlive c hc
  have hcbase : ∀ c ∈ free, c.base ∈ c :=
    fun c hc => Block.base_mem (hi.tiling.pos c (List.mem_append_right _ hc))
  -- a page of an allocation is neither reserved nor a head
  obtain ⟨d, hd, hsw⟩ := sweepPages_swept (d := h.pmm.pages) (p := base) (n := n) (by
    intro q hq
    have hq' := hi.managed_of_mem hmem hq
    refine ⟨hi.plain q hq', ?_⟩
    rw [Bool.eq_false_iff]
    intro hhead
    obtain ⟨c, hc, rfl⟩ := (hi.heads q hq').mp hhead
    exact hapart c hc _ hq (hcbase c hc))
  obtain ⟨l, hl⟩ := hi.insertFree_isSome (b := ⟨base, n⟩) (by
    intro c hc heq
    refine hapart c hc c.base ?_ (hcbase c hc)
    rw [heq]
    exact Block.base_mem (b := ⟨base, n⟩) hn) hb
  have hperm : (h.live ++ free).Perm (h.live.erase ⟨base, n⟩ ++ ⟨base, n⟩ :: free) :=
    ((List.perm_cons_erase hlive).append_right free).trans
      (perm_front (h.live.erase ⟨base, n⟩) [] free ⟨base, n⟩).symm
  obtain ⟨before, after, hfree, hi₁⟩ := @Inv.enter _
    ⟨⟨l, (d.setProperty base n).setPageProperty base, uint32 (h.pmm.nrFree + n)⟩,
      h.ranges, h.live.erase ⟨base, n⟩⟩ _ _ _ _ hi hsw hl rfl hb (hi.tiling.perm hperm)
    (fun p hp _ => hp) hi.bound
  obtain ⟨free', hi₂, hspaced⟩ := hi₁.merge
  refine ⟨_, free', ?_, hi₂, fun hs => hspaced (hfree ▸ hs)⟩
  simp only [step, defaultFreePages, Nat.ne_of_gt hn, if_false, hd, hl, Option.bind_eq_bind,
    Option.bind_some, Option.map_some]

theorem step_inv (h : Held DefaultPmm) (op : PmmOp) (hi : ∃ free, Inv h free)
    (hop : Allowed h op ∧ NoTailInsert h op) :
    ∃ h', step h op = some h' ∧ ∃ free, Inv h' free := by
  obtain ⟨free, hi⟩ := hi
  have hresult : ∃ h' free', step h op = some h' ∧ Inv h' free' := by
    cases op with
    | initMemmap base n =>
      obtain ⟨h', before, after, hstep, -, hi'⟩ := hi.initMemmap hop.1 hop.2
      exact ⟨h', _, hstep, hi'⟩
    | allocPages n => exact hi.allocPages hop.1
    | freePages base n =>
      obtain ⟨h', free', hstep, hi', -⟩ := hi.freePages hop.1 hop.2
      exact ⟨h', free', hstep, hi'⟩
  obtain ⟨h', free', hstep, hi'⟩ := hresult
  exact ⟨h', hstep, free', hi'⟩

/-- A run in which no block enters at the tail of a non-empty list keeps the ownership of
every page. -/
theorem ownership (s : DefaultPmm) (ops : List PmmOp)
    (hmeets : RunMeets step (fun h op => Allowed h op ∧ NoTailInsert h op)
      ⟨s.defaultInit, [], []⟩ ops) :
    ∃ h, runOps step ⟨s.defaultInit, [], []⟩ ops = some h ∧ Owned h := by
  obtain ⟨h, hrun, free, hi⟩ := runOps_total step_inv ⟨_, inv_defaultInit s⟩ hmeets
  exact ⟨h, hrun, hi.owned⟩

/-- Every page reserved and no list, as at boot. -/
def bootPmm : DefaultPmm :=
  ⟨⟨id, id⟩, ⟨fun _ => true, fun _ => false, fun _ => 0, fun _ => 0⟩, 0⟩

theorem ownership_small :
    ∃ h, runOps step ⟨bootPmm.defaultInit, [], []⟩
      [.initMemmap 0 3, .allocPages 1, .freePages 0 1] = some h ∧ Owned h := by
  refine ownership bootPmm _ ?_
  refine RunMeets.cons ⟨⟨by decide, by decide, ?_⟩, Or.inl rfl⟩ rfl ?_
  · intro p _
    exact ⟨rfl, by simp [Held.Managed]⟩
  refine RunMeets.cons ⟨Nat.one_pos, trivial⟩ rfl ?_
  exact RunMeets.cons ⟨List.mem_cons_self, Or.inr (by decide +kernel)⟩ rfl trivial

/-- Both pages of a range are allocated and given back, the lower one first. -/
def lowerFirst : List PmmOp :=
  [.initMemmap 0 2, .allocPages 1, .allocPages 1, .freePages 0 1, .freePages 1 1]

/-- After an insertion at the tail the loop inserts the block a second time, behind itself. -/
theorem tail_insertion_damages_list :
    RunMeets step Allowed ⟨bootPmm.defaultInit, [], []⟩ lowerFirst ∧
      ∃ h, runOps step ⟨bootPmm.defaultInit, [], []⟩ lowerFirst = some h ∧ ¬ Owned h := by
  refine ⟨?_, _, rfl, ?_⟩
  · refine RunMeets.cons ⟨by decide, by decide, ?_⟩ rfl ?_
    · intro p _
      exact ⟨rfl, by simp [Held.Managed]⟩
    refine RunMeets.cons Nat.one_pos rfl ?_
    refine RunMeets.cons Nat.one_pos rfl ?_
    refine RunMeets.cons (List.mem_cons_of_mem _ List.mem_cons_self) rfl ?_
    exact RunMeets.cons List.mem_cons_self rfl trivial
  · intro ho
    have hback := (ho.inverse (pageLink 1) (by decide +kernel)).2
    revert hback
    decide +kernel

end Ucore.Pmm.DefaultPmm
