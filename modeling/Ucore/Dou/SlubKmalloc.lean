import Ucore.Dou.SlubShape

/-!
What `kmalloc` does to a sound state: it takes a free object, or pages of the page
allocator.
-/
namespace Ucore.Dou

open Library Libs Vm SlabPage Users

theorem bucketLoop_spec (size left i : ℕ) :
    (bucketLoop size left i = none ∧ ∀ j, i ≤ j → j < i + left → bucketSize j < size) ∨
      ∃ b, bucketLoop size left i = some b ∧ b < i + left ∧ size ≤ bucketSize b := by
  induction left generalizing i with
  | zero => exact Or.inl ⟨rfl, fun j h1 h2 => by omega⟩
  | succ left ih =>
    rw [bucketLoop]
    by_cases hle : size ≤ bucketSize i
    · rw [if_pos hle]
      exact Or.inr ⟨i, rfl, by omega, hle⟩
    · rw [if_neg hle]
      rcases ih (i + 1) with ⟨hnone, hall⟩ | ⟨b, hb, hlt, hsize⟩
      · refine Or.inl ⟨hnone, ?_⟩
        intro j h1 h2
        rcases Nat.eq_or_lt_of_le h1 with rfl | hlt
        · omega
        · exact hall j hlt (by omega)
      · exact Or.inr ⟨b, hb, by omega, hsize⟩

/-- Requests up to the largest bucket go to a cache, larger ones to the page allocator. -/
theorem sizeToBucket_spec (size : ℕ) :
    (sizeToBucket size = none ∧ 2048 < size) ∨
      ∃ b, sizeToBucket size = some b ∧ b < maxBucket ∧ size ≤ bucketSize b := by
  rcases bucketLoop_spec size maxBucket 0 with ⟨hnone, hall⟩ | hsome
  · exact Or.inl ⟨hnone, hall 8 (Nat.zero_le 8) (by unfold maxBucket; omega)⟩
  · obtain ⟨b, hb, hlt, hsize⟩ := hsome
    exact Or.inr ⟨b, hb, by omega, hsize⟩

/-- A request larger than the largest bucket gets enough pages, if it gets any. -/
theorem pagesOf_spec {size : ℕ} (hsize : size < 2 ^ 64) :
    Slub.pagesOf size = 0 ∨ size ≤ Slub.pagesOf size * pgSize := by
  unfold Slub.pagesOf uint64 pgSize
  omega

theorem findFree_path {A : PageAllocator} {s : Slub A} {b left : ℕ} {a : SlabNode}
    {xs : List ℕ} (hpath : s.links.Path a (xs.map SlabNode.list) (.pages b))
    (hleft : xs.length < left) :
    s.findFree b left a = some none ∨
      ∃ sp ∈ xs, s.findFree b left a = some (some sp) ∧ s.mem (free sp) ≠ 0 := by
  induction left generalizing a xs with
  | zero => omega
  | succ left ih =>
    rw [Slub.findFree]
    cases xs with
    | nil =>
      have hnext : s.links.next a = .pages b := hpath.1
      rw [hnext]
      simp
    | cons x xs =>
      obtain ⟨⟨hnext, -⟩, hrest⟩ := hpath
      rw [hnext]
      simp only
      by_cases hx : s.mem (free x) ≠ 0
      · rw [if_pos hx]
        exact Or.inr ⟨x, List.mem_cons_self, rfl, hx⟩
      · rw [if_neg hx]
        rw [List.length_cons] at hleft
        rcases ih hrest (by omega) with hnone | ⟨sp, hsp, hfound⟩
        · exact Or.inl hnone
        · exact Or.inr ⟨sp, List.mem_cons_of_mem x hsp, hfound⟩

namespace Sound

variable {A : PageAllocator} {Rep : A.State → List Block → Prop} {others big : List Block}
  {h : Users A} {ps : ℕ → List ℕ} {sp : ℕ}

/-- The loop over the pages of a cache ends, with a page that has a free object or none. -/
theorem findFree (hs : Sound Rep others h ps big) {b : ℕ} (hb : b < maxBucket) :
    h.slub.findFree b (Slub.fuel A) (.pages b) = some none ∨
      ∃ sp ∈ ps b, h.slub.findFree b (Slub.fuel A) (.pages b) = some (some sp) ∧
        h.slub.mem (free sp) ≠ 0 := by
  refine findFree_path (hs.lists.ring b hb).2 ?_
  have hle := hs.length_le hb
  unfold Slub.fuel
  omega

/-- The first free object of a page becomes a live one. -/
theorem take (ha : HandsOut A Rep) (hs : Sound Rep others h ps big) {b size : ℕ}
    (hb : b < maxBucket) (hsp : sp ∈ ps b) (hfree : h.slub.mem (free sp) ≠ 0)
    (hsize : size ≤ bucketSize b) :
    (h.slub.take sp).1 ≠ 0 ∧ pageOf (h.slub.take sp).1 = sp ∧
      Sound Rep others ⟨(h.slub.take sp).2, ((h.slub.take sp).1, size) :: h.live⟩ ps big := by
  obtain ⟨fr, hfr⟩ := hs.slab b hb sp hsp
  obtain ⟨p, -, hp, hkva⟩ := hs.page_bound ha hb hsp
  have hz := bucketSize_spec hb
  obtain ⟨fr', rfl, -⟩ := hfr.list.chain.exists_cons hfree
  obtain ⟨o, ho⟩ : ∃ o, o = h.slub.mem (free sp) := ⟨_, rfl⟩
  rw [← ho] at hfr hfree
  obtain ⟨-, hpop⟩ := hfr.pop hz.1
  have hslot := slot_bounds (by omega) (hpop.slot_of_obj List.mem_cons_self)
  have hpage : pageOf o = sp := by
    rw [hkva] at hslot ⊢
    exact pageOf_unique (by omega) (by omega) (by omega)
  have hsmall : size ≤ 2048 := by omega
  simp only [Slub.take, ← ho]
  refine ⟨hfree, hpage, ⟨hs.lists, hs.size, hs.count, hs.rep, hs.page, ?_, ?_, ?_⟩⟩
  · intro i hi sp' hsp'
    rw [objectsOn_cons]
    by_cases heq : sp' = sp
    · subst heq
      have hib : i = b := by
        by_contra hne
        exact hs.lists.disjoint i hi b hb hne sp' hsp' hsp
      subst hib
      rw [if_pos hpage]
      exact ⟨fr', hpop⟩
    · rw [if_neg (fun hbad => heq (hbad.symm.trans hpage))]
      obtain ⟨fr'', hfr''⟩ := hs.slab i hi sp' hsp'
      obtain ⟨p', -, hp', hkva'⟩ := hs.page_bound ha hi hsp'
      have hz' := (bucketSize_spec hi).1
      refine ⟨fr'', hfr''.congr_outside (by omega) ?_⟩
      intro w h1 h2
      rw [hkva'] at h1 h2
      have hw : pageOf w = sp' := by
        rw [hkva']
        exact pageOf_unique (by omega) h1 h2
      have hout : ∀ w', pageOf w' = sp → w ≠ w' := fun w' hw' hbad =>
        heq (hw.symm.trans ((congrArg pageOf hbad).trans hw'))
      refine popObj_other _ (hout _ ?_) (hout _ ?_)
      · rw [hkva, free]
        exact pageOf_kva_add (by omega) (by unfold pgSize; omega)
      · rw [hkva, nrFree]
        exact pageOf_kva_add (by omega) (by unfold pgSize; omega)
  · intro e he hle
    rcases List.mem_cons.mp he with rfl | he
    · exact ⟨b, hb, hsize, hpage ▸ hsp⟩
    · exact hs.small e he hle
  · intro e he hlarge
    rcases List.mem_cons.mp he with rfl | he
    · simp only at hlarge
      omega
    · exact hs.large e he hlarge

/-- A page from the page allocator becomes a slab page with free objects only. -/
theorem addPage (ha : HandsOut A Rep) (hs : Sound Rep others h ps big) {b p : ℕ}
    {pmm : A.State} (hb : b < maxBucket) (halloc : A.allocPages h.slub.pmm 1 = (some p, pmm)) :
    ∃ s', ({ h.slub with pmm := pmm } : Slub A).addPage b (kva p) = some s' ∧
      Sound Rep others ⟨s', h.live⟩ (Function.update ps b (kva p :: ps b)) big ∧
      s'.mem (free (kva p)) ≠ 0 ∧ ∀ i < maxBucket, kva p ∉ ps i := by
  have hrep := ha.grant hs.rep halloc
  obtain ⟨hp, hout, hnone⟩ := hs.fresh ha hrep
  have hw := ha.window
  have hz := bucketSize_spec hb
  have hlast := kva_last (p := p) (by omega)
  obtain ⟨mem, hinit, hslab, hother⟩ :=
    slabPageInit_spec h.slub.mem hz.1 hz.2.1 hlast
  refine ⟨
    { links := listAdd (listInit h.slub.links (.list (kva p))) (.pages b) (.list (kva p))
      mem := mem
      size := h.slub.size
      nrPages := Function.update h.slub.nrPages b (uint32 (h.slub.nrPages b + 1))
      pmm := pmm }, ?_, ⟨?_, hs.size, ?_, ?_, ?_, ?_, ?_, hs.large⟩, ?_, hout⟩
  · simp only [Slub.addPage, hs.size b hb, hinit, Option.bind_eq_bind, Option.bind_some]
  · exact (hs.lists.isolate distinctNodes hout).push distinctNodes hb hout
  · intro i hi
    by_cases heq : i = b
    · subst heq
      have hle : (ps i).length + 1 ≤ A.npage + 1 := Nat.succ_le_succ (hs.length_le hi)
      simp only [Function.update_self, List.length_cons, hs.count i hi]
      exact uint32_of_lt (by omega)
    · simp only [Function.update_of_ne heq]
      exact hs.count i hi
  · refine ha.perm hrep ?_
    have hpool : (pooled maxBucket (Function.update ps b (kva p :: ps b))).Perm
        (kva p :: pooled maxBucket ps) := pooled_push hb
    have hperm := hpool.map slabBlock
    rw [List.map_cons, slabBlock_kva (by omega)] at hperm
    exact (hperm.append_right (big ++ others)).symm
  · intro i hi sp hsp
    by_cases heq : i = b
    · subst heq
      rw [Function.update_self] at hsp
      rcases List.mem_cons.mp hsp with hnew | hsp
      · exact ⟨p, hp, hnew⟩
      · exact hs.page i hi sp hsp
    · rw [Function.update_of_ne heq] at hsp
      exact hs.page i hi sp hsp
  · have hold : ∀ i < maxBucket, ∀ sp ∈ ps i,
        ∃ fr, Slab mem sp (bucketSize i) fr (objectsOn h.live sp) := by
      intro i hi sp hsp
      obtain ⟨fr, hfr⟩ := hs.slab i hi sp hsp
      obtain ⟨q, -, hq, hkva⟩ := hs.page_bound ha hi hsp
      have hz' := (bucketSize_spec hi).1
      refine ⟨fr, hfr.congr_outside (by omega) ?_⟩
      intro w h1 h2
      apply hother
      by_contra hin
      rw [hkva] at h1 h2
      have h3 := pageOf_unique (by omega) h1 h2
      have h4 := pageOf_unique (p := p) (a := w) (by omega) (by omega) (by omega)
      rw [h3, ← hkva] at h4
      exact hout i hi (h4 ▸ hsp)
    intro i hi sp hsp
    by_cases heq : i = b
    · subst heq
      rw [Function.update_self] at hsp
      rcases List.mem_cons.mp hsp with hnew | hsp
      · rw [hnew, hnone]
        exact ⟨_, hslab⟩
      · exact hold i hi sp hsp
    · rw [Function.update_of_ne heq] at hsp
      exact hold i hi sp hsp
  · intro e he hle
    obtain ⟨i, hi, hsize, hmem⟩ := hs.small e he hle
    refine ⟨i, hi, hsize, ?_⟩
    by_cases heq : i = b
    · subst heq
      rw [Function.update_self]
      exact List.mem_cons_of_mem _ hmem
    · rwa [Function.update_of_ne heq]
  · intro hzero
    have hnil := hslab.list.chain.nil_iff.mpr hzero
    have hlen := hslab.length
    have hpos := slotCount_pos (by omega) hz.2.2
    rw [hnil] at hlen
    simp only [List.length_nil] at hlen
    omega

/-- Only a granted large request adds a block to those that large requests have got. -/
def Grown (h : Users A) (op : SlubOp) (big big' : List Block) : Prop :=
  (LargeRefused h op ∧ big' = big) ∨
    (¬ LargeRefused h op ∧ ∃ b : Block, 0 < b.size ∧ big' = b :: big)

theorem kva_ne_zero {p : ℕ} (hp : p < 0xC0000) : kva p ≠ 0 := by
  rw [kva_eq hp]
  unfold vaPaOffset
  omega

/-- After the first free object of a page was taken, the page is in use. -/
theorem used_take {size o : ℕ} (hpage : pageOf o = sp) {s : Slub A}
    (hu : ∀ i < maxBucket, ∀ sp' ∈ ps i, sp' ≠ sp → objectsOn h.live sp' ≠ []) :
    Used ⟨s, (o, size) :: h.live⟩ ps := by
  intro i hi sp' hsp'
  rw [objectsOn_cons]
  by_cases heq : sp' = sp
  · rw [heq, if_pos hpage]
    exact List.cons_ne_nil _ _
  · rw [if_neg (fun hbad => heq (hbad.symm.trans hpage))]
    exact hu i hi sp' hsp' heq

/-- The pages of a large request are no slab pages. -/
theorem grantLarge (ha : HandsOut A Rep) (hs : Sound Rep others h ps big) {p n size : ℕ}
    {pmm : A.State} (halloc : A.allocPages h.slub.pmm n = (some p, pmm)) (hpos : 0 < n)
    (hlarge : 2048 < size) (hroom : size ≤ n * pgSize) :
    kva p ≠ 0 ∧
      Sound Rep others ⟨{ h.slub with pmm := pmm }, (kva p, size) :: h.live⟩ ps (⟨p, n⟩ :: big) := by
  have hw := ha.window
  have hrep := ha.grant hs.rep halloc
  have hin := ha.inside hrep _ List.mem_cons_self
  simp only at hin
  have hmoved : Sound Rep others ⟨{ h.slub with pmm := pmm }, h.live⟩ ps (⟨p, n⟩ :: big) :=
    hs.repmm (ha.perm hrep List.perm_middle.symm) (fun _ hb => List.mem_cons_of_mem _ hb)
  refine ⟨kva_ne_zero (by omega), hmoved.lists, hmoved.size, hmoved.count, hmoved.rep,
    hmoved.page, ?_, ?_, ?_⟩
  · intro i hi sp hsp
    rw [objectsOn_cons, if_neg]
    · exact hmoved.slab i hi sp hsp
    · intro hbad
      rw [pageOf_kva (by omega)] at hbad
      refine hmoved.apart_big ha hi hsp List.mem_cons_self ?_
      have hno := (page_of_address (a := kva p) (by omega) (pageOf_kva (by omega))).2
      rw [← hbad, hno]
      exact Block.base_mem hpos
  · intro e he hle
    rcases List.mem_cons.mp he with heq | he
    · rw [heq] at hle
      simp only at hle
      omega
    · exact hmoved.small e he hle
  · intro e he hle
    rcases List.mem_cons.mp he with heq | he
    · rw [heq]
      exact ⟨_, List.mem_cons_self, rfl, hroom⟩
    · exact hmoved.large e he hle

/-- What `kmalloc` returns to the caller, and the state behind it. -/
structure Served (Rep : A.State → List Block → Prop) (others : List Block) (h : Users A)
    (size : ℕ) (big : List Block) (r : ℕ × Slub A) (ps' : ℕ → List ℕ) (big' : List Block) :
    Prop where
  sound : Sound Rep others ⟨r.2, if r.1 = 0 then h.live else (r.1, size) :: h.live⟩ ps' big'
  used : Used ⟨r.2, if r.1 = 0 then h.live else (r.1, size) :: h.live⟩ ps'
  grown : Grown h (.kmalloc size) big big'

/-- A request larger than the largest bucket. -/
theorem kmalloc_pages (ha : HandsOut A Rep) (hs : Sound Rep others h ps big) (hu : Used h ps)
    {size : ℕ} (hsize : size < 2 ^ 64) (hlarge : 2048 < size)
    (hnone : sizeToBucket size = none) :
    ∃ r ps' big', h.slub.kmalloc size = some r ∧ Served Rep others h size big r ps' big' := by
  unfold Slub.kmalloc
  rw [if_neg (show size ≠ 0 by omega)]
  simp only [hnone]
  rcases halloc : A.allocPages h.slub.pmm (Slub.pagesOf size) with ⟨_ | p, pmm⟩
  · refine ⟨_, ps, big, rfl, ?_, hu, Or.inl ⟨?_, rfl⟩⟩
    · exact hs.repmm (ha.refuse hs.rep halloc) (fun _ hb => hb)
    · intro _
      rw [halloc]
  · have hpos : 0 < Slub.pagesOf size := by
      rcases Nat.eq_zero_or_pos (Slub.pagesOf size) with hnp | hpos
      · have hrefused := ha.zero h.slub.pmm
        rw [← hnp, halloc] at hrefused
        exact absurd hrefused (by simp)
      · exact hpos
    have hroom := (pagesOf_spec hsize).resolve_left (by omega)
    obtain ⟨hne, hgranted⟩ := hs.grantLarge ha halloc hpos hlarge hroom
    refine ⟨_, ps, ⟨p, Slub.pagesOf size⟩ :: big, rfl, ?_, ?_, Or.inr ⟨?_, _, hpos, rfl⟩⟩
    · simp only [if_neg hne]
      exact hgranted
    · simp only [if_neg hne]
      intro i hi sp hsp
      rw [objectsOn_cons]
      split
      · exact List.cons_ne_nil _ _
      · exact hu i hi sp hsp
    · intro hrefused
      have hbad := hrefused hlarge
      rw [halloc] at hbad
      exact absurd hbad (by simp)

/-- A request that fits into bucket `b`. -/
theorem kmalloc_object (ha : HandsOut A Rep) (hs : Sound Rep others h ps big) (hu : Used h ps)
    {size b : ℕ} (hzero : size ≠ 0) (hbucket : sizeToBucket size = some b)
    (hb : b < maxBucket) (hfit : size ≤ bucketSize b) :
    ∃ r ps' big', h.slub.kmalloc size = some r ∧ Served Rep others h size big r ps' big' := by
  have hsmall : LargeRefused h (.kmalloc size) := by
    intro hlarge
    have hz := (bucketSize_spec hb).2.2
    omega
  unfold Slub.kmalloc
  rw [if_neg hzero]
  simp only [hbucket]
  rcases hs.findFree hb with hfound | ⟨sp, hsp, hfound, hfree⟩
  · simp only [hfound, Option.bind_eq_bind, Option.bind_some]
    rcases halloc : A.allocPages h.slub.pmm 1 with ⟨_ | p, pmm⟩
    · refine ⟨_, ps, big, rfl, ?_, hu, Or.inl ⟨hsmall, rfl⟩⟩
      exact hs.repmm (ha.refuse hs.rep halloc) (fun _ hb => hb)
    · obtain ⟨s', hadd, hs', hfree, -⟩ := hs.addPage ha hb halloc
      have hmem : kva p ∈ Function.update ps b (kva p :: ps b) b := by
        rw [Function.update_self]
        exact List.mem_cons_self
      obtain ⟨hne, hpage, htaken⟩ := hs'.take ha hb hmem hfree hfit
      refine ⟨s'.take (kva p), Function.update ps b (kva p :: ps b), big, ?_, ?_, ?_,
        Or.inl ⟨hsmall, rfl⟩⟩
      · simp only [hadd, Option.bind_some, if_pos hfree]
      · rw [if_neg hne]
        exact htaken
      · rw [if_neg hne]
        refine used_take (h := ⟨s', h.live⟩) hpage ?_
        intro i hi sp' hsp' hother
        by_cases heq : i = b
        · subst heq
          rw [Function.update_self] at hsp'
          rcases List.mem_cons.mp hsp' with hnew | hsp'
          · exact absurd hnew hother
          · exact hu i hi sp' hsp'
        · rw [Function.update_of_ne heq] at hsp'
          exact hu i hi sp' hsp'
  · obtain ⟨hne, hpage, htaken⟩ := hs.take ha hb hsp hfree hfit
    refine ⟨h.slub.take sp, ps, big, ?_, ?_, ?_, Or.inl ⟨hsmall, rfl⟩⟩
    · simp only [hfound, Option.bind_eq_bind, Option.bind_some]
    · rw [if_neg hne]
      exact htaken
    · rw [if_neg hne]
      exact used_take hpage (fun i hi sp' hsp' _ => hu i hi sp' hsp')

theorem kmalloc (ha : HandsOut A Rep) (hs : Sound Rep others h ps big) (hu : Used h ps)
    {size : ℕ} (hsize : size < 2 ^ 64) :
    ∃ r ps' big', h.slub.kmalloc size = some r ∧ Served Rep others h size big r ps' big' := by
  by_cases hzero : size = 0
  · refine ⟨(0, h.slub), ps, big, ?_, hs, hu, Or.inl ⟨?_, rfl⟩⟩
    · rw [Slub.kmalloc, if_pos hzero]
    · intro hlarge
      omega
  · rcases sizeToBucket_spec size with ⟨hnone, hlarge⟩ | ⟨b, hbucket, hb, hfit⟩
    · exact hs.kmalloc_pages ha hu hsize hlarge hnone
    · exact hs.kmalloc_object ha hu hzero hbucket hb hfit

end Sound
end Ucore.Dou
