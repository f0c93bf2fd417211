import Ucore.Dou.SlabPages
import Ucore.Library.RingFamily

/-!
What holds between the requests: the pages on the lists of the caches are pages that the
page allocator has handed out, and each of them is a slab page for the objects that live
on it.
-/
namespace Ucore.Dou

open Library Libs Vm SlabPage Users

/-- What the caches rely on. `Rep s bs` says that the blocks `bs` are handed out in state
`s`: they are disjoint pages of the machine, an allocation adds a block and a release takes
it away. The memory of the machine ends before its kernel addresses pass `2 ^ 64`. -/
structure HandsOut (A : PageAllocator) (Rep : A.State → List Block → Prop) : Prop where
  window : A.npage < 0xC0000
  zero : ∀ s, (A.allocPages s 0).1 = none
  grant : ∀ {s s' bs n p}, Rep s bs → A.allocPages s n = (some p, s') → Rep s' (⟨p, n⟩ :: bs)
  refuse : ∀ {s s' bs n}, Rep s bs → A.allocPages s n = (none, s') → Rep s' bs
  release : ∀ {s bs n p}, Rep s (⟨p, n⟩ :: bs) → Rep (A.freePages s p n) bs
  perm : ∀ {s bs cs}, Rep s bs → bs.Perm cs → Rep s cs
  apart : ∀ {s bs}, Rep s bs → bs.Pairwise Block.Apart
  inside : ∀ {s bs}, Rep s bs → ∀ b ∈ bs, b.base + b.size ≤ A.npage

section addresses

variable {p k : ℕ}

theorem kva_eq (hp : p < 0xC0000) : kva p = p * pgSize + vaPaOffset := by
  unfold kva
  apply uint64_of_lt
  unfold pgSize vaPaOffset
  omega

theorem kva_last (hp : p < 0xBFFFF) : kva p + pgSize < 2 ^ 64 := by
  rw [kva_eq (by omega)]
  unfold pgSize vaPaOffset
  omega

theorem pageOf_kva_add (hp : p < 0xC0000) (hk : k < pgSize) : pageOf (kva p + k) = kva p := by
  rw [kva_eq hp]
  unfold pageOf
  unfold pgSize vaPaOffset at *
  omega

theorem pageOf_kva (hp : p < 0xC0000) : pageOf (kva p) = kva p := by
  have hzero : 0 < pgSize := by
    unfold pgSize
    omega
  have h := pageOf_kva_add hp hzero
  rwa [Nat.add_zero] at h

/-- An address lies in its page. -/
theorem pageOf_bounds (a : ℕ) : pageOf a ≤ a ∧ a < pageOf a + pgSize := by
  unfold pageOf pgSize
  omega

/-- A page that contains an address is the page of that address. -/
theorem pageOf_unique {a : ℕ} (hp : p < 0xC0000) (h1 : kva p ≤ a) (h2 : a < kva p + pgSize) :
    pageOf a = kva p := by
  obtain ⟨k, rfl⟩ := Nat.exists_eq_add_of_le h1
  exact pageOf_kva_add hp (by omega)

theorem kva_inj {q : ℕ} (hp : p < 0xC0000) (hq : q < 0xC0000) (h : kva p = kva q) : p = q := by
  rw [kva_eq hp, kva_eq hq] at h
  unfold pgSize at h
  omega

/-- The physical page of a kernel address. -/
theorem page_of_address {a : ℕ} (hp : p < 0xC0000) (h : pageOf a = kva p) :
    vaPaOffset ≤ a ∧ (a - vaPaOffset) / pgSize = p := by
  obtain ⟨h1, h2⟩ := pageOf_bounds a
  rw [h, kva_eq hp] at h1 h2
  unfold pgSize at *
  omega

end addresses

/-- The block of the page allocator that a slab page is. -/
def slabBlock (sp : ℕ) : Block := ⟨(sp - vaPaOffset) / pgSize, 1⟩

theorem slabBlock_kva {p : ℕ} (hp : p < 0xC0000) : slabBlock (kva p) = ⟨p, 1⟩ := by
  have h := (page_of_address hp (pageOf_kva hp)).2
  rw [slabBlock, h]

theorem distinctNodes : DistinctNodes SlabNode.pages SlabNode.list where
  head_inj h := SlabNode.pages.inj h
  entry_inj h := SlabNode.list.inj h
  head_ne _ _ h := SlabNode.noConfusion h

theorem objectsOn_cons (e : ℕ × ℕ) (live : List (ℕ × ℕ)) (sp : ℕ) :
    objectsOn (e :: live) sp =
      if pageOf e.1 = sp then e.1 :: objectsOn live sp else objectsOn live sp := by
  simp only [objectsOn, List.map_cons, List.filter_cons, decide_eq_true_eq]

theorem mem_objectsOn {live : List (ℕ × ℕ)} {sp ptr : ℕ} :
    ptr ∈ objectsOn live sp ↔ (∃ e ∈ live, e.1 = ptr) ∧ pageOf ptr = sp := by
  simp only [objectsOn, List.mem_filter, List.mem_map, decide_eq_true_eq]

theorem objectsOn_perm {live live' : List (ℕ × ℕ)} (h : live.Perm live') (sp : ℕ) :
    (objectsOn live sp).Perm (objectsOn live' sp) := (h.map Prod.fst).filter _

/-- The state between two requests. `ps i` are the slab pages of cache `i`, `big` the blocks
that large requests have got, and `others` the blocks that were handed out before. -/
structure Sound {A : PageAllocator} (Rep : A.State → List Block → Prop) (others : List Block)
    (h : Users A) (ps : ℕ → List ℕ) (big : List Block) : Prop where
  lists : RingFamily h.slub.links SlabNode.pages SlabNode.list maxBucket ps
  size : ∀ i < maxBucket, h.slub.size i = bucketSize i
  count : ∀ i < maxBucket, h.slub.nrPages i = (ps i).length
  rep : Rep h.slub.pmm ((pooled maxBucket ps).map slabBlock ++ (big ++ others))
  page : ∀ i < maxBucket, ∀ sp ∈ ps i, ∃ p < A.npage, sp = kva p
  slab : ∀ i < maxBucket, ∀ sp ∈ ps i,
    ∃ fr, Slab h.slub.mem sp (bucketSize i) fr (objectsOn h.live sp)
  small : ∀ e ∈ h.live, e.2 ≤ 2048 → ∃ i < maxBucket, e.2 ≤ bucketSize i ∧ pageOf e.1 ∈ ps i
  large : ∀ e ∈ h.live, 2048 < e.2 → ∃ b ∈ big, e.1 = kva b.base ∧ e.2 ≤ b.size * pgSize

/-- No page of a cache is without live objects. -/
def Used {A : PageAllocator} (h : Users A) (ps : ℕ → List ℕ) : Prop :=
  ∀ i < maxBucket, ∀ sp ∈ ps i, objectsOn h.live sp ≠ []

namespace Sound

variable {A : PageAllocator} {Rep : A.State → List Block → Prop} {others big : List Block}
  {h : Users A} {ps : ℕ → List ℕ} {i sp : ℕ}

/-- Distinct pages of the machine are no more than it has. -/
theorem length_le (hs : Sound Rep others h ps big) (hi : i < maxBucket) :
    (ps i).length ≤ A.npage := by
  have hnodup : (ps i).Nodup := List.Nodup.of_map _ (hs.lists.ring i hi).nodup
  have hsub : ps i ⊆ (List.range A.npage).map kva := by
    intro sp hsp
    obtain ⟨p, hp, heq⟩ := hs.page i hi sp hsp
    rw [heq]
    exact List.mem_map_of_mem (List.mem_range.mpr hp)
  have hle := (List.subperm_of_subset hnodup hsub).length_le
  rwa [List.length_map, List.length_range] at hle

theorem listPages_path {l : Links SlabNode} {xs : List ℕ} {left : ℕ} {a : SlabNode}
    (hpath : l.Path a (xs.map SlabNode.list) (.pages i)) (hleft : xs.length < left) :
    Slub.listPages l left a = xs := by
  induction left generalizing a xs with
  | zero => omega
  | succ left ih =>
    rw [Slub.listPages]
    cases xs with
    | nil =>
      have hnext : l.next a = .pages i := hpath.1
      rw [hnext]
    | cons x xs =>
      obtain ⟨⟨hnext, -⟩, hrest⟩ := hpath
      rw [hnext]
      simp only
      rw [ih hrest (by rw [List.length_cons] at hleft; omega)]

theorem cachePages_eq (hs : Sound Rep others h ps big) (hi : i < maxBucket) :
    h.slub.cachePages i = ps i := by
  refine listPages_path (hs.lists.ring i hi).2 ?_
  have hle := hs.length_le hi
  unfold Slub.fuel
  omega

/-- The page of a slab page is a page of the machine. -/
theorem page_bound (ha : HandsOut A Rep) (hs : Sound Rep others h ps big) (hi : i < maxBucket)
    (hsp : sp ∈ ps i) : ∃ p, p < A.npage ∧ p < 0xBFFFF ∧ sp = kva p := by
  obtain ⟨p, hp, heq⟩ := hs.page i hi sp hsp
  have hw := ha.window
  exact ⟨p, hp, by omega, heq⟩

/-- A slab page is no page of a large block. -/
theorem apart_big (ha : HandsOut A Rep) (hs : Sound Rep others h ps big) (hi : i < maxBucket)
    (hsp : sp ∈ ps i) {b : Block} (hb : b ∈ big) : (sp - vaPaOffset) / pgSize ∉ b := by
  have hapart := List.pairwise_append.mp (ha.apart hs.rep)
  have hmem : slabBlock sp ∈ (pooled maxBucket ps).map slabBlock :=
    List.mem_map_of_mem (mem_pooled.mpr ⟨i, hi, hsp⟩)
  have hab := hapart.2.2 _ hmem b (List.mem_append_left others hb)
  exact hab _ (Block.base_mem Nat.one_pos)

/-- The block behind a large live pointer. -/
theorem large_block (ha : HandsOut A Rep) (hs : Sound Rep others h ps big) {e : ℕ × ℕ}
    (he : e ∈ h.live) (hlarge : 2048 < e.2) :
    ∃ b ∈ big, e.1 = kva b.base ∧ e.2 ≤ b.size * pgSize ∧ 0 < b.size ∧
      b.base + b.size ≤ A.npage := by
  obtain ⟨b, hb, hptr, hroom⟩ := hs.large e he hlarge
  have hin := ha.inside hs.rep b (List.mem_append_right _ (List.mem_append_left _ hb))
  refine ⟨b, hb, hptr, hroom, ?_, hin⟩
  rcases Nat.eq_zero_or_pos b.size with hzero | hpos
  · rw [hzero] at hroom
    omega
  · exact hpos

/-- A page that was just handed out is no slab page, and no live object is on it. -/
theorem fresh (ha : HandsOut A Rep) (hs : Sound Rep others h ps big) {p : ℕ} {pmm : A.State}
    (hrep : Rep pmm (⟨p, 1⟩ :: ((pooled maxBucket ps).map slabBlock ++ (big ++ others)))) :
    p < A.npage ∧ (∀ i < maxBucket, kva p ∉ ps i) ∧ objectsOn h.live (kva p) = [] := by
  have hin := ha.inside hrep ⟨p, 1⟩ List.mem_cons_self
  simp only at hin
  have hp : p < A.npage := by omega
  have hw := ha.window
  have hapart := (List.pairwise_cons.mp (ha.apart hrep)).1
  have hself : p ∈ (⟨p, 1⟩ : Block) := Block.base_mem Nat.one_pos
  have hpage : ∀ i < maxBucket, kva p ∉ ps i := by
    intro i hi hbad
    have hmem : slabBlock (kva p) ∈ (pooled maxBucket ps).map slabBlock :=
      List.mem_map_of_mem (mem_pooled.mpr ⟨i, hi, hbad⟩)
    rw [slabBlock_kva (by omega)] at hmem
    exact hapart _ (List.mem_append_left _ hmem) p hself hself
  refine ⟨hp, hpage, List.eq_nil_iff_forall_not_mem.mpr ?_⟩
  intro ptr hptr
  obtain ⟨⟨e, he, rfl⟩, hon⟩ := mem_objectsOn.mp hptr
  rcases Nat.lt_or_ge 2048 e.2 with hlarge | hsmall
  · obtain ⟨b, hb, hbase, -, hpos, hbin⟩ := hs.large_block ha he hlarge
    rw [hbase, pageOf_kva (by omega)] at hon
    have heq : b.base = p := kva_inj (by omega) (by omega) hon
    refine hapart b (List.mem_append_right _ (List.mem_append_left _ hb)) p hself ?_
    rw [← heq]
    exact Block.base_mem hpos
  · obtain ⟨i, hi, -, hmem⟩ := hs.small e he hsmall
    rw [hon] at hmem
    exact hpage i hi hmem

/-- The page allocator has moved on. -/
theorem repmm {big' : List Block} (hs : Sound Rep others h ps big) {pmm : A.State}
    (hrep : Rep pmm ((pooled maxBucket ps).map slabBlock ++ (big' ++ others)))
    (hbig : ∀ b ∈ big, b ∈ big') :
    Sound Rep others ⟨{ h.slub with pmm := pmm }, h.live⟩ ps big' where
  lists := hs.lists
  size := hs.size
  count := hs.count
  rep := hrep
  page := hs.page
  slab := hs.slab
  small := hs.small
  large := by
    intro e he hlarge
    obtain ⟨b, hb, hrest⟩ := hs.large e he hlarge
    exact ⟨b, hbig b hb, hrest⟩

/-- The memory changes on one page only, and only in the words that are not read. -/
theorem remem (ha : HandsOut A Rep) (hs : Sound Rep others h ps big) {mem : ℕ → ℕ} {a : ℕ}
    (hother : ∀ w, pageOf w ≠ a → mem w = h.slub.mem w)
    (hpage : ∀ i < maxBucket, a ∈ ps i →
      ∃ fr, Slab mem a (bucketSize i) fr (objectsOn h.live a)) :
    Sound Rep others ⟨{ h.slub with mem := mem }, h.live⟩ ps big where
  lists := hs.lists
  size := hs.size
  count := hs.count
  rep := hs.rep
  page := hs.page
  slab := by
    intro i hi sp hsp
    by_cases heq : sp = a
    · subst heq
      exact hpage i hi hsp
    · obtain ⟨fr, hfr⟩ := hs.slab i hi sp hsp
      obtain ⟨p, -, hp, hkva⟩ := hs.page_bound ha hi hsp
      have hz := (bucketSize_spec hi).1
      refine ⟨fr, hfr.congr_outside (by omega) ?_⟩
      intro w h1 h2
      rw [hkva] at h1 h2
      refine hother w ?_
      rw [pageOf_unique (by omega) h1 h2, ← hkva]
      exact heq
  small := hs.small
  large := hs.large

end Sound
end Ucore.Dou
