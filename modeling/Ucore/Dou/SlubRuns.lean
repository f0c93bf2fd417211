import Ucore.Dou.SlubKfree

/-!
Runs of the object allocator: who owns the objects and the slab pages, and what is left of
the memory when everything has been given back.
-/
namespace Ucore.Dou

open Library Libs Vm SlabPage Users

variable {A : PageAllocator}

/-- The free objects of a slab page. -/
def Slub.chainOf (s : Slub A) (sp : ℕ) : List ℕ := Slub.freeObjs s.mem pgSize (s.mem (free sp))

namespace Users

/-- The memory that belongs to a pointer into a slab page. -/
def object (h : Users A) (ptr : ℕ) : Block := ⟨ptr, h.slub.mem (objSize (pageOf ptr))⟩

/-- Small pointers own disjoint objects behind the headers of slab pages. On every slab page
the free objects form a chain of the length that the header says, together with the live
ones they are as many as the page has, and some are live. -/
structure Owned (h : Users A) : Prop where
  ring : ∀ i < maxBucket,
    h.slub.links.Ring (SlabNode.pages i) ((h.slub.cachePages i).map SlabNode.list)
  apart : (h.live.filter (fun e => e.2 ≤ 2048)).Pairwise
    (fun e e' => Block.Apart (h.object e.1) (h.object e'.1))
  inside : ∀ e ∈ h.live, e.2 ≤ 2048 → ∃ i < maxBucket, pageOf e.1 ∈ h.slub.cachePages i ∧
    pageOf e.1 + headerSize ≤ e.1 ∧ e.1 + (h.object e.1).size ≤ pageOf e.1 + pgSize ∧
    e.2 ≤ (h.object e.1).size
  chain : ∀ i < maxBucket, ∀ sp ∈ h.slub.cachePages i,
    Chain h.slub.mem (h.slub.mem (free sp)) (h.slub.chainOf sp) ∧ (h.slub.chainOf sp).Nodup ∧
    h.slub.mem (nrFree sp) = (h.slub.chainOf sp).length
  full : ∀ i < maxBucket, ∀ sp ∈ h.slub.cachePages i,
    h.slub.mem (nrFree sp) + (objectsOn h.live sp).length = h.slub.mem (capacity sp)
  used : ∀ i < maxBucket, ∀ sp ∈ h.slub.cachePages i,
    h.slub.mem (nrFree sp) ≠ h.slub.mem (capacity sp)
  count : ∀ i < maxBucket, h.slub.nrPages i = (h.slub.cachePages i).length

end Users

namespace Sound

variable {Rep : A.State → List Block → Prop} {others big : List Block} {h : Users A}
  {ps : ℕ → List ℕ} {i sp : ℕ}

/-- No pointer to a small object is live twice. -/
theorem nodup_small (hs : Sound Rep others h ps big) :
    ((h.live.filter (fun e => e.2 ≤ 2048)).map Prod.fst).Nodup := by
  rw [List.nodup_iff_count_le_one]
  intro ptr
  by_cases hmem : ptr ∈ (h.live.filter (fun e => e.2 ≤ 2048)).map Prod.fst
  · obtain ⟨e, he, rfl⟩ := List.mem_map.mp hmem
    rw [List.mem_filter, decide_eq_true_eq] at he
    obtain ⟨i, hi, -, hpage⟩ := hs.small e he.1 he.2
    obtain ⟨fr, hfr⟩ := hs.slab i hi _ hpage
    have hz := (bucketSize_spec hi).1
    have hnodup := (List.nodup_append.mp (hfr.nodup (by omega))).2.1
    have hsub : ((h.live.filter (fun e => e.2 ≤ 2048)).map Prod.fst).Sublist
        (h.live.map Prod.fst) := List.filter_sublist.map _
    have hone := List.nodup_iff_count_le_one.mp hnodup e.1
    rw [objectsOn, List.count_filter (by simp)] at hone
    exact Nat.le_trans (hsub.count_le e.1) hone
  · rw [List.count_eq_zero_of_not_mem hmem]
    exact Nat.zero_le 1

/-- A small pointer in its page. -/
theorem object_slot (hs : Sound Rep others h ps big) {e : ℕ × ℕ} (he : e ∈ h.live)
    (hsmall : e.2 ≤ 2048) :
    ∃ i < maxBucket, pageOf e.1 ∈ ps i ∧ e.2 ≤ bucketSize i ∧
      h.slub.mem (objSize (pageOf e.1)) = bucketSize i ∧
      e.1 ∈ slots (pageOf e.1) (bucketSize i) := by
  obtain ⟨i, hi, hfit, hpage⟩ := hs.small e he hsmall
  obtain ⟨fr, hfr⟩ := hs.slab i hi _ hpage
  exact ⟨i, hi, hpage, hfit, hfr.size, hfr.slot_of_obj (mem_objectsOn.mpr ⟨⟨e, he, rfl⟩, rfl⟩)⟩

/-- Objects of different small pointers do not overlap. -/
theorem objects_apart (hs : Sound Rep others h ps big) {e e' : ℕ × ℕ} (he : e ∈ h.live)
    (he' : e' ∈ h.live) (hsmall : e.2 ≤ 2048) (hsmall' : e'.2 ≤ 2048) (hne : e.1 ≠ e'.1) :
    Block.Apart (h.object e.1) (h.object e'.1) := by
  obtain ⟨i, hi, hpage, -, hsize, hslot⟩ := hs.object_slot he hsmall
  obtain ⟨j, hj, hpage', -, hsize', hslot'⟩ := hs.object_slot he' hsmall'
  have hz := bucketSize_spec hi
  have hz' := bucketSize_spec hj
  intro w hw hw'
  rw [Block.mem_def] at hw hw'
  simp only [object, hsize, hsize'] at hw hw'
  by_cases heq : pageOf e.1 = pageOf e'.1
  · rw [← heq, hsize] at hsize'
    rw [← hsize', ← heq] at hslot'
    have hap := slot_apart hslot hslot' hne
    omega
  · have hb := slot_bounds (by omega) hslot
    have hb' := slot_bounds (by omega) hslot'
    refine heq ?_
    unfold pageOf at *
    unfold pgSize at *
    omega

theorem owned (hs : Sound Rep others h ps big) (hu : Used h ps) : h.Owned where
  ring i hi := by
    rw [hs.cachePages_eq hi]
    exact hs.lists.ring i hi
  apart := by
    refine List.Pairwise.of_map (S := fun p q => Block.Apart (h.object p) (h.object q)) Prod.fst
      (fun _ _ hap => hap) (hs.nodup_small.pairwise_of_forall_ne ?_)
    intro p hp q hq hne
    obtain ⟨e, he, rfl⟩ := List.mem_map.mp hp
    obtain ⟨e', he', rfl⟩ := List.mem_map.mp hq
    rw [List.mem_filter, decide_eq_true_eq] at he he'
    exact hs.objects_apart he.1 he'.1 he.2 he'.2 hne
  inside e he hsmall := by
    obtain ⟨i, hi, hpage, hfit, hsize, hslot⟩ := hs.object_slot he hsmall
    have hz := (bucketSize_spec hi).1
    have hb := slot_bounds (by omega) hslot
    refine ⟨i, hi, ?_, hb.1, ?_, ?_⟩
    · rw [hs.cachePages_eq hi]
      exact hpage
    · rw [object, hsize]
      exact hb.2
    · rw [object, hsize]
      exact hfit
  chain i hi sp hsp := by
    rw [hs.cachePages_eq hi] at hsp
    obtain ⟨fr, hfr⟩ := hs.slab i hi sp hsp
    have hz := (bucketSize_spec hi).1
    have hlen := hfr.length
    have hcount := slotCount_le hz
    have hchain : h.slub.chainOf sp = fr :=
      freeObjs_spec hfr.list.chain (by unfold pgSize; omega)
    rw [hchain]
    exact ⟨hfr.list.chain, (List.nodup_append.mp (hfr.nodup (by omega))).1, hfr.list.count⟩
  full i hi sp hsp := by
    rw [hs.cachePages_eq hi] at hsp
    obtain ⟨fr, hfr⟩ := hs.slab i hi sp hsp
    rw [hfr.list.count, hfr.cap]
    exact hfr.length
  used i hi sp hsp := by
    rw [hs.cachePages_eq hi] at hsp
    obtain ⟨fr, hfr⟩ := hs.slab i hi sp hsp
    have hlen := hfr.length
    have hpos := List.length_pos_iff.mpr (hu i hi sp hsp)
    rw [hfr.list.count, hfr.cap]
    omega
  count i hi := by
    rw [hs.cachePages_eq hi]
    exact hs.count i hi

end Sound

/-- The caches behind `slub_init`, one after the other. -/
theorem initCaches_spec (s : Slub A) (n : ℕ) :
    (s.initCaches n).pmm = s.pmm ∧
      RingFamily (s.initCaches n).links SlabNode.pages SlabNode.list n (fun _ => []) ∧
      ∀ i < n, (s.initCaches n).size i = bucketSize i ∧ (s.initCaches n).nrPages i = 0 := by
  induction n with
  | zero =>
    refine ⟨rfl, ⟨fun k hk => absurd hk (Nat.not_lt_zero k), ?_⟩, ?_⟩
    · exact fun k hk => absurd hk (Nat.not_lt_zero k)
    · exact fun k hk => absurd hk (Nat.not_lt_zero k)
  | succ n ih =>
    obtain ⟨hpmm, hlists, hfields⟩ := ih
    refine ⟨hpmm, hlists.init_step distinctNodes (fun _ _ => rfl) rfl, ?_⟩
    intro i hi
    simp only [Slub.initCaches]
    by_cases heq : i = n
    · rw [heq, Function.update_self, Function.update_self]
      exact ⟨rfl, rfl⟩
    · rw [Function.update_of_ne heq, Function.update_of_ne heq]
      exact hfields i (by omega)

/-- After `slub_init` nothing is on a list. -/
theorem sound_init {Rep : A.State → List Block → Prop} {others : List Block} (s : Slub A)
    (hrep : Rep s.pmm others) :
    Sound Rep others ⟨s.slubInit, []⟩ (fun _ => []) [] ∧ Used ⟨s.slubInit, []⟩ (fun _ => []) := by
  obtain ⟨hpmm, hlists, hfields⟩ := initCaches_spec s maxBucket
  have hpool : pooled maxBucket (fun _ => ([] : List ℕ)) = [] := by
    simp [pooled]
  refine ⟨⟨hlists, fun i hi => (hfields i hi).1, fun i hi => (hfields i hi).2, ?_, ?_, ?_, ?_, ?_⟩,
    ?_⟩
  · rw [hpool]
    have hsame : s.slubInit.pmm = s.pmm := hpmm
    simp only [hsame]
    exact hrep
  · exact fun i _ sp hsp => absurd hsp List.not_mem_nil
  · exact fun i _ sp hsp => absurd hsp List.not_mem_nil
  · exact fun e he => absurd he List.not_mem_nil
  · exact fun e he => absurd he List.not_mem_nil
  · exact fun i _ sp hsp => absurd hsp List.not_mem_nil

/-- One step: the request returns, and only granted large requests add to the blocks of large
requests. -/
theorem step_spec {Rep : A.State → List Block → Prop} {others big : List Block}
    (ha : HandsOut A Rep) {h : Users A} {ps : ℕ → List ℕ} (hs : Sound Rep others h ps big)
    (hu : Used h ps) {op : SlubOp} (hop : h.Allowed op) :
    ∃ h' ps' big', h.step op = some h' ∧ Sound Rep others h' ps' big' ∧ Used h' ps' ∧
      Sound.Grown h op big big' := by
  cases op with
  | kmalloc size =>
    obtain ⟨r, ps', big', hrun, hserved⟩ := hs.kmalloc ha hu hop
    refine ⟨⟨r.2, if r.1 = 0 then h.live else (r.1, size) :: h.live⟩, ps', big', ?_,
      hserved.sound, hserved.used, hserved.grown⟩
    rw [step, hrun, Option.map_some]
  | kfree ptr size =>
    obtain ⟨s', ps', hrun, hs', hu'⟩ := hs.kfree ha hu hop
    refine ⟨_, ps', big, ?_, hs', hu', Or.inl ⟨trivial, rfl⟩⟩
    rw [step, hrun, Option.map_some]
  | store word value =>
    exact ⟨_, ps, big, rfl, hs.store ha value hop, hu, Or.inl ⟨trivial, rfl⟩⟩

/-- A run: it gets to its end, and the blocks of large requests are gone for ever. -/
theorem run_spec {Rep : A.State → List Block → Prop} {others big : List Block}
    (ha : HandsOut A Rep) {h : Users A} {ps : ℕ → List ℕ} (hs : Sound Rep others h ps big)
    (hu : Used h ps) {ops : List SlubOp} (hops : RunMeets step Allowed h ops) :
    ∃ t ps' bigs, runOps step h ops = some t ∧ Sound Rep others t ps' (bigs ++ big) ∧
      Used t ps' ∧ (∀ b ∈ bigs, 0 < b.size) ∧
      (bigs = [] ↔ RunMeets step LargeRefused h ops) := by
  induction ops generalizing h ps big with
  | nil => exact ⟨h, ps, [], rfl, hs, hu, by simp, iff_of_true rfl trivial⟩
  | cons op ops ih =>
    obtain ⟨h', ps', big', hstep, hs', hu', hgrown⟩ := step_spec ha hs hu hops.1
    obtain ⟨t, ps'', bigs, hrun, ht, hut, hpos, hiff⟩ := ih hs' hu' (hops.2 h' hstep)
    have hwhole : runOps step h (op :: ops) = some t := by
      rw [runOps, hstep]
      exact hrun
    have hrest : ∀ hop : LargeRefused h op,
        RunMeets step LargeRefused h (op :: ops) ↔
          RunMeets step LargeRefused h' ops := by
      intro hop
      constructor
      · exact fun hall => hall.2 h' hstep
      · exact fun hall => RunMeets.cons hop hstep hall
    rcases hgrown with ⟨hop, rfl⟩ | ⟨hop, b, hb, rfl⟩
    · exact ⟨t, ps'', bigs, hwhole, ht, hut, hpos, hiff.trans (hrest hop).symm⟩
    · refine ⟨t, ps'', bigs ++ [b], hwhole, ?_, hut, ?_, ?_⟩
      · rw [List.append_assoc]
        exact ht
      · intro c hc
        rcases List.mem_append.mp hc with hc | hc
        · exact hpos c hc
        · rw [List.mem_singleton.mp hc]
          exact hb
      · refine iff_of_false (by simp) ?_
        exact fun hall => hop hall.1

/-- For every page allocator that hands out disjoint pages and every run of requests, with
any contents of the objects: all requests return, and in the state reached every object,
slab page and counter is as it must be. -/
theorem slub_ownership {Rep : A.State → List Block → Prop} {others : List Block}
    (ha : HandsOut A Rep) (s : Slub A) (hrep : Rep s.pmm others) (ops : List SlubOp)
    (hops : RunMeets step Allowed ⟨s.slubInit, []⟩ ops) :
    ∃ t, runOps step ⟨s.slubInit, []⟩ ops = some t ∧ t.Owned := by
  obtain ⟨hs, hu⟩ := sound_init s hrep
  obtain ⟨t, ps', bigs, hrun, ht, hut, -⟩ := run_spec ha hs hu hops
  exact ⟨t, hrun, ht.owned hut⟩

/-- A page allocator with single blocks that are neither split nor joined: a request gets a
block of exactly its size. -/
def exactFit : PageAllocator where
  State := List Block
  npage := 0x88000
  allocPages s n :=
    if n = 0 then (none, s)
    else
      match s.find? (fun b => b.size = n) with
      | none => (none, s)
      | some b => (some b.base, s.erase b)
  freePages s p n := ⟨p, n⟩ :: s
  nrFreePages s := (s.map Block.size).sum

/-- Free and handed-out blocks together are disjoint blocks of the machine. -/
def exactFitRep (s bs : List Block) : Prop :=
  (s ++ bs).Pairwise Block.Apart ∧ ∀ b ∈ s ++ bs, 0 < b.size ∧ b.base + b.size ≤ 0x88000

theorem exactFitRep_perm {s s' bs bs' : List Block} (h : exactFitRep s bs)
    (hp : (s ++ bs).Perm (s' ++ bs')) : exactFitRep s' bs' :=
  ⟨(hp.pairwise_iff (fun hab => hab.symm)).mp h.1, fun b hb => h.2 b (hp.mem_iff.mpr hb)⟩

/-- What an allocation takes is a free block of the size that was asked for. -/
theorem exactFit_alloc {s s' : List Block} {n p : ℕ}
    (h : exactFit.allocPages s n = (some p, s')) :
    0 < n ∧ (⟨p, n⟩ : Block) ∈ s ∧ s' = s.erase ⟨p, n⟩ := by
  simp only [exactFit] at h
  split at h
  · cases h
  · rename_i hn
    split at h
    · cases h
    · rename_i b hb
      have hsize := List.find?_some hb
      rw [decide_eq_true_eq] at hsize
      obtain ⟨hbase, hrest⟩ := Prod.mk.inj h
      have hbeq : b = ⟨p, n⟩ := by
        rw [← hsize, ← Option.some.inj hbase]
      rw [hbeq] at hb hrest
      exact ⟨Nat.pos_of_ne_zero hn, List.mem_of_find?_eq_some hb, hrest.symm⟩

theorem exactFit_refuse {s s' : List Block} {n : ℕ}
    (h : exactFit.allocPages s n = (none, s')) : s' = s := by
  simp only [exactFit] at h
  split at h
  · exact (Prod.mk.inj h).2.symm
  · split at h
    · exact (Prod.mk.inj h).2.symm
    · cases h

theorem exactFit_handsOut : HandsOut exactFit exactFitRep where
  window := by
    show (0x88000 : ℕ) < 0xC0000
    omega
  zero s := by
    simp only [exactFit, if_pos]
  grant := by
    intro s s' bs n p h halloc
    obtain ⟨-, hmem, rfl⟩ := exactFit_alloc halloc
    refine exactFitRep_perm h ?_
    exact ((List.perm_cons_erase hmem).append_right bs).trans List.perm_middle.symm
  refuse := by
    intro s s' bs n h halloc
    rw [exactFit_refuse halloc]
    exact h
  release h := exactFitRep_perm h List.perm_middle
  perm h hp := exactFitRep_perm h (hp.append_left _)
  apart h := (List.pairwise_append.mp h.1).2.1
  inside h b hb := (h.2 b (List.mem_append_right _ hb)).2

/-- Memory with zeros, no lists, and one free page under the caches. -/
def onePage : Slub exactFit where
  links := ⟨id, id⟩
  mem := fun _ => 0
  size := fun _ => 0
  nrPages := fun _ => 0
  pmm := [⟨0x80000, 1⟩]

theorem onePage_rep : exactFitRep onePage.pmm [] := by
  simp [exactFitRep, onePage]

/-- One object of 2000 bytes is used and given back. -/
theorem slub_ownership_object :
    ∃ t, runOps step ⟨onePage.slubInit, []⟩
      [.kmalloc 2000, .store 0xFFFFFFFFC0000038 7, .kfree 0xFFFFFFFFC0000030 2000] = some t ∧
      t.Owned := by
  refine slub_ownership exactFit_handsOut onePage onePage_rep _ ?_
  have hlive : ((step ⟨onePage.slubInit, []⟩ (.kmalloc 2000)).map (fun h => h.live)) =
      some [(0xFFFFFFFFC0000030, 2000)] := by decide +kernel
  refine ⟨by simp [Allowed], ?_⟩
  intro h hstep
  rw [hstep, Option.map_some, Option.some.injEq] at hlive
  refine ⟨⟨by simp, Or.inl ?_⟩, ?_⟩
  · rw [hlive]
    exact ⟨_, List.mem_singleton_self _, by simp, by simp⟩
  · intro h' hstep'
    obtain rfl := Option.some.inj hstep'
    refine ⟨?_, fun _ _ => trivial⟩
    rw [Allowed, hlive]
    exact List.mem_singleton_self _

/-- The count of free pages: an allocation of `n` pages takes `cost n` pages from it, and the
release brings them back. -/
structure Counts (A : PageAllocator) (Rep : A.State → List Block → Prop) (cost : ℕ → ℕ) :
    Prop where
  pos : ∀ n, 0 < n → 0 < cost n
  granted : ∀ {s s' bs n p}, Rep s bs → A.allocPages s n = (some p, s') →
    A.nrFreePages s' + cost n = A.nrFreePages s
  refused : ∀ {s s' bs n}, Rep s bs → A.allocPages s n = (none, s') →
    A.nrFreePages s' = A.nrFreePages s
  released : ∀ {s bs n p}, Rep s (⟨p, n⟩ :: bs) →
    A.nrFreePages (A.freePages s p n) = A.nrFreePages s + cost n

/-- What blocks cost together. -/
def totalCost (cost : ℕ → ℕ) (bs : List Block) : ℕ := (bs.map (fun b => cost b.size)).sum

/-- Free pages and blocks that are handed out have a constant sum. -/
def Balanced (A : PageAllocator) (Rep : A.State → List Block → Prop) (cost : ℕ → ℕ) (total : ℕ)
    (s : A.State) (bs : List Block) : Prop :=
  Rep s bs ∧ A.nrFreePages s + totalCost cost bs = total

theorem HandsOut.balanced {Rep : A.State → List Block → Prop} {cost : ℕ → ℕ}
    (ha : HandsOut A Rep) (hc : Counts A Rep cost) (total : ℕ) :
    HandsOut A (Balanced A Rep cost total) where
  window := ha.window
  zero := ha.zero
  grant := by
    intro s s' bs n p h halloc
    refine ⟨ha.grant h.1 halloc, ?_⟩
    have hcount := hc.granted h.1 halloc
    have hold := h.2
    simp only [totalCost, List.map_cons, List.sum_cons] at hold ⊢
    omega
  refuse := by
    intro s s' bs n h halloc
    refine ⟨ha.refuse h.1 halloc, ?_⟩
    rw [hc.refused h.1 halloc]
    exact h.2
  release := by
    intro s bs n p h
    refine ⟨ha.release h.1, ?_⟩
    have hcount := hc.released h.1
    have hold := h.2
    simp only [totalCost, List.map_cons, List.sum_cons] at hold ⊢
    omega
  perm := by
    intro s bs cs h hp
    refine ⟨ha.perm h.1 hp, ?_⟩
    have hsum : totalCost cost bs = totalCost cost cs := (hp.map _).sum_eq
    rw [← hsum]
    exact h.2
  apart h := ha.apart h.1
  inside h := ha.inside h.1

/-- Without live pointers no slab page is left on a list. -/
theorem Used.no_pages {h : Users A} {ps : ℕ → List ℕ} (hu : Used h ps) (hlive : h.live = []) {i : ℕ}
    (hi : i < maxBucket) : ps i = [] := by
  rw [List.eq_nil_iff_forall_not_mem]
  intro sp hsp
  refine hu i hi sp hsp ?_
  rw [hlive]
  rfl

/-- When everything has been given back, all pages are back exactly if no request beyond the
largest bucket ever got pages. -/
theorem slub_returns_iff {Rep : A.State → List Block → Prop} {cost : ℕ → ℕ}
    {others : List Block} (ha : HandsOut A Rep) (hc : Counts A Rep cost) (s : Slub A)
    (hrep : Rep s.pmm others) (ops : List SlubOp)
    (hops : RunMeets step Allowed ⟨s.slubInit, []⟩ ops) (t : Users A)
    (hrun : runOps step ⟨s.slubInit, []⟩ ops = some t) (hlive : t.live = []) :
    (A.nrFreePages t.slub.pmm = A.nrFreePages s.pmm ∧
      ∀ i < maxBucket, t.slub.cachePages i = []) ↔
      RunMeets step LargeRefused ⟨s.slubInit, []⟩ ops := by
  have hb := ha.balanced hc (A.nrFreePages s.pmm + totalCost cost others)
  have hbalanced : Balanced A Rep cost (A.nrFreePages s.pmm + totalCost cost others) s.pmm
      others := ⟨hrep, rfl⟩
  obtain ⟨hs, hu⟩ := sound_init s hbalanced
  obtain ⟨t', ps', bigs, hrun', ht, hut, hpos, hiff⟩ := run_spec hb hs hu hops
  obtain rfl : t' = t := Option.some.inj (hrun'.symm.trans hrun)
  have hnone : ∀ i < maxBucket, ps' i = [] := fun i hi => hut.no_pages hlive hi
  have hpool : pooled maxBucket ps' = [] := by
    rw [List.eq_nil_iff_forall_not_mem]
    intro sp hsp
    obtain ⟨i, hi, hmem⟩ := mem_pooled.mp hsp
    rw [hnone i hi] at hmem
    exact absurd hmem List.not_mem_nil
  have hsum := ht.rep.2
  rw [hpool] at hsum
  simp only [List.map_nil, List.nil_append, List.append_nil, totalCost, List.map_append,
    List.sum_append] at hsum
  rw [← hiff]
  constructor
  · intro hback
    by_contra hne
    obtain ⟨b, bs, hbigs⟩ := List.exists_cons_of_ne_nil hne
    have hcost := hc.pos b.size (hpos b (hbigs ▸ List.mem_cons_self))
    have hfree := hback.1
    rw [hbigs, List.map_cons, List.sum_cons] at hsum
    omega
  · intro hnil
    rw [hnil, List.map_nil, List.sum_nil] at hsum
    refine ⟨by omega, ?_⟩
    intro i hi
    rw [ht.cachePages_eq hi]
    exact hnone i hi

theorem exactFit_counts : Counts exactFit exactFitRep id where
  pos _ hn := hn
  granted := by
    intro s s' bs n p _ halloc
    obtain ⟨-, hmem, rfl⟩ := exactFit_alloc halloc
    have hsum := ((List.perm_cons_erase hmem).map Block.size).sum_eq
    simp only [List.map_cons, List.sum_cons] at hsum
    simp only [exactFit, id]
    omega
  refused := by
    intro s s' bs n _ halloc
    rw [exactFit_refuse halloc]
  released := by
    intro s bs n p _
    exact Nat.add_comm n (List.map Block.size s).sum

/-- What a user of the caches sees of a state. -/
def seen (h : Users exactFit) : List (ℕ × ℕ) × List Block := (h.live, h.slub.pmm)

/-- An object of 2048 bytes comes and goes, and a request for five pages is refused. -/
theorem slub_returns_iff_object :
    ∃ t, runOps step ⟨onePage.slubInit, []⟩
      [.kmalloc 2048, .kmalloc 20000, .kfree 0xFFFFFFFFC0000030 2048] = some t ∧
      (exactFit.nrFreePages t.slub.pmm = exactFit.nrFreePages onePage.pmm ∧
        ∀ i < maxBucket, t.slub.cachePages i = []) := by
  have hobject : (step ⟨onePage.slubInit, []⟩ (.kmalloc 2048)).map seen =
      some ([(0xFFFFFFFFC0000030, 2048)], []) := by decide +kernel
  have hrefused : (runOps step ⟨onePage.slubInit, []⟩ [.kmalloc 2048, .kmalloc 20000]).map seen =
      some ([(0xFFFFFFFFC0000030, 2048)], []) := by decide +kernel
  have hend : (runOps step ⟨onePage.slubInit, []⟩
      [.kmalloc 2048, .kmalloc 20000, .kfree 0xFFFFFFFFC0000030 2048]).map seen =
      some ([], [⟨0x80000, 1⟩]) := by decide +kernel
  obtain ⟨h₁, hstep₁, hseen₁⟩ := Option.map_eq_some_iff.mp hobject
  obtain ⟨h₂, hrun₂, hseen₂⟩ := Option.map_eq_some_iff.mp hrefused
  obtain ⟨t, hrun, hseen⟩ := Option.map_eq_some_iff.mp hend
  have hstep₂ : step h₁ (.kmalloc 20000) = some h₂ := by
    simpa only [runOps, hstep₁, Option.bind_some, Option.bind_fun_some] using hrun₂
  have hlive₂ : h₂.live = [(0xFFFFFFFFC0000030, 2048)] := congrArg Prod.fst hseen₂
  have hpmm₁ : h₁.slub.pmm = ([] : List Block) := congrArg Prod.snd hseen₁
  refine ⟨t, hrun, (slub_returns_iff exactFit_handsOut exactFit_counts onePage onePage_rep _ ?_ t
    hrun (congrArg Prod.fst hseen)).mpr ?_⟩
  · refine RunMeets.cons (by simp [Allowed]) hstep₁ (RunMeets.cons (by simp [Allowed]) hstep₂ ?_)
    refine ⟨?_, fun _ _ => trivial⟩
    rw [Allowed, hlive₂]
    exact List.mem_singleton_self _
  · refine RunMeets.cons ?_ hstep₁ (RunMeets.cons ?_ hstep₂ ⟨trivial, fun _ _ => trivial⟩)
    · intro hlarge
      omega
    · intro _
      rw [hpmm₁]
      rfl

/-- A page that `kmalloc` hands out for a request of 4096 bytes does not come back. -/
theorem large_block_lost :
    ∃ t, RunMeets step Allowed ⟨onePage.slubInit, []⟩
        [.kmalloc 4096, .kfree 0xFFFFFFFFC0000000 4096] ∧
      runOps step ⟨onePage.slubInit, []⟩
        [.kmalloc 4096, .kfree 0xFFFFFFFFC0000000 4096] = some t ∧ t.live = [] ∧
      exactFit.nrFreePages onePage.pmm = 1 ∧ exactFit.nrFreePages t.slub.pmm = 0 := by
  have hgranted : (step ⟨onePage.slubInit, []⟩ (.kmalloc 4096)).map seen =
      some ([(0xFFFFFFFFC0000000, 4096)], []) := by decide +kernel
  have hend : (runOps step ⟨onePage.slubInit, []⟩
      [.kmalloc 4096, .kfree 0xFFFFFFFFC0000000 4096]).map seen = some ([], []) := by
    decide +kernel
  obtain ⟨h₁, hstep₁, hseen₁⟩ := Option.map_eq_some_iff.mp hgranted
  obtain ⟨t, hrun, hseen⟩ := Option.map_eq_some_iff.mp hend
  have hlive₁ : h₁.live = [(0xFFFFFFFFC0000000, 4096)] := congrArg Prod.fst hseen₁
  have hpmm : t.slub.pmm = ([] : List Block) := congrArg Prod.snd hseen
  refine ⟨t, ?_, hrun, congrArg Prod.fst hseen, rfl, ?_⟩
  · refine RunMeets.cons (by simp [Allowed]) hstep₁ ⟨?_, fun _ _ => trivial⟩
    rw [Allowed, hlive₁]
    exact List.mem_singleton_self _
  · rw [hpmm]
    rfl

end Ucore.Dou
