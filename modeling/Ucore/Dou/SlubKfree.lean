import Ucore.Dou.SlubKmalloc

/-!
What `kfree` and the stores of the users do to a sound state.
-/
namespace Ucore.Dou

open Library Libs Vm SlabPage Users

namespace Sound

variable {A : PageAllocator} {Rep : A.State → List Block → Prop} {others big : List Block}
  {h : Users A} {ps : ℕ → List ℕ} {sp : ℕ}

/-- Other objects of the page do not change when one is given back. -/
theorem objectsOn_erase (sp : ℕ) {live : List (ℕ × ℕ)} {e : ℕ × ℕ} (he : e ∈ live) :
    (objectsOn live sp).Perm
      (if pageOf e.1 = sp then e.1 :: objectsOn (live.erase e) sp
        else objectsOn (live.erase e) sp) := by
  have hperm := objectsOn_perm (List.perm_cons_erase he) sp
  rwa [objectsOn_cons] at hperm

/-- A pointer leaves the live ones, with a memory in which every slab page is right again. -/
theorem drop (hs : Sound Rep others h ps big) (e : ℕ × ℕ) (mem : ℕ → ℕ)
    (hslab : ∀ i < maxBucket, ∀ sp ∈ ps i,
      ∃ fr, Slab mem sp (bucketSize i) fr (objectsOn (h.live.erase e) sp)) :
    Sound Rep others ⟨{ h.slub with mem := mem }, h.live.erase e⟩ ps big where
  lists := hs.lists
  size := hs.size
  count := hs.count
  rep := hs.rep
  page := hs.page
  slab := hslab
  small e' he' := hs.small e' (List.mem_of_mem_erase he')
  large e' he' := hs.large e' (List.mem_of_mem_erase he')

/-- The block of a large request stays where it is. -/
theorem kfree_pages (ha : HandsOut A Rep) (hs : Sound Rep others h ps big) (hu : Used h ps)
    {ptr size : ℕ} (he : (ptr, size) ∈ h.live) (hlarge : 2048 < size) :
    h.slub.kfree ptr = some h.slub ∧
      Sound Rep others ⟨h.slub, h.live.erase (ptr, size)⟩ ps big ∧
      Used ⟨h.slub, h.live.erase (ptr, size)⟩ ps := by
  obtain ⟨b, hb, hptr, -, hpos, hin⟩ := hs.large_block ha he hlarge
  simp only at hptr
  have hw := ha.window
  have hpage : pageOf ptr = kva b.base := by
    rw [hptr]
    exact pageOf_kva (by omega)
  obtain ⟨hoff, hno⟩ := page_of_address (by omega) hpage
  have hother : ∀ i < maxBucket, ∀ sp ∈ ps i,
      (objectsOn h.live sp).Perm (objectsOn (h.live.erase (ptr, size)) sp) := by
    intro i hi sp hsp
    have hperm := objectsOn_erase sp he
    rwa [if_neg] at hperm
    intro hbad
    refine hs.apart_big ha hi hsp hb ?_
    rw [← hbad, hpage, ← hptr, hno]
    exact Block.base_mem hpos
  refine ⟨?_, ?_, ?_⟩
  · have hne : ptr ≠ 0 := by
      rw [hptr]
      exact kva_ne_zero (by omega)
    unfold Slub.kfree
    rw [if_neg hne, if_neg (Nat.not_lt.mpr hoff)]
    simp only [hno, if_neg (show ¬ b.base ≥ A.npage by omega), ← hptr]
    by_cases hobj : h.slub.mem (objSize ptr) = 0
    · rw [if_pos hobj]
    · rw [if_neg hobj, if_pos (Or.inl (by unfold headerSize; omega))]
  · refine hs.drop (ptr, size) h.slub.mem ?_
    intro i hi sp hsp
    obtain ⟨fr, hfr⟩ := hs.slab i hi sp hsp
    exact ⟨fr, hfr.perm (hother i hi sp hsp)⟩
  · intro i hi sp hsp hnil
    refine hu i hi sp hsp ?_
    have hperm := hother i hi sp hsp
    simp only at hnil
    rw [hnil] at hperm
    exact hperm.eq_nil

/-- The first cache with objects of the size of bucket `i` is the cache `i`. -/
theorem dropPage_spec {size nrPages : ℕ → ℕ} (hsize : ∀ j < maxBucket, size j = bucketSize j)
    {i left j : ℕ} (hi : i < maxBucket) (hj : j ≤ i) (hleft : i < j + left) :
    dropPage size nrPages (bucketSize i) left j =
      Function.update nrPages i (nrPages i - 1) := by
  induction left generalizing j with
  | zero => omega
  | succ left ih =>
    rw [dropPage, hsize j (by omega)]
    rcases Nat.eq_or_lt_of_le hj with rfl | hlt
    · rw [if_pos rfl]
      split
      · rfl
      · rename_i hzero
        rw [show nrPages j - 1 = nrPages j by omega, Function.update_eq_self]
    · rw [if_neg, ih hlt (by omega)]
      unfold maxBucket at hi
      intro hbad
      interval_cases i <;> interval_cases j <;> simp [bucketSize] at hbad

/-- A page without live objects goes back to the page allocator. -/
theorem releasePage (ha : HandsOut A Rep) (hs : Sound Rep others h ps big) {i p : ℕ}
    (hi : i < maxBucket) (hsp : sp ∈ ps i) (hp : p < 0xBFFFF) (hkva : sp = kva p)
    (hnone : objectsOn h.live sp = []) :
    ∃ ps', Sound Rep others ⟨h.slub.releasePage p sp, h.live⟩ ps' big ∧
      ∀ j < maxBucket, ∀ sp' ∈ ps' j, sp' ∈ ps j ∧ sp' ≠ sp := by
  obtain ⟨xs, ys, hsplit⟩ := List.append_of_mem hsp
  obtain ⟨fr, hfr⟩ := hs.slab i hi sp hsp
  have hnodup : (ps i).Nodup := List.Nodup.of_map _ (hs.lists.ring i hi).nodup
  rw [hsplit, List.nodup_middle, List.nodup_cons] at hnodup
  have hsub : ∀ j < maxBucket, ∀ sp' ∈ Function.update ps i (xs ++ ys) j,
      sp' ∈ ps j ∧ sp' ≠ sp := by
    intro j hj sp' hsp'
    by_cases heq : j = i
    · subst heq
      rw [Function.update_self] at hsp'
      refine ⟨?_, fun hbad => hnodup.1 (hbad ▸ hsp')⟩
      rw [hsplit]
      simp only [List.mem_append, List.mem_cons] at hsp' ⊢
      tauto
    · rw [Function.update_of_ne heq] at hsp'
      refine ⟨hsp', fun hbad => ?_⟩
      exact hs.lists.disjoint j hj i hi heq sp' hsp' (hbad ▸ hsp)
  refine ⟨Function.update ps i (xs ++ ys), ⟨?_, hs.size, ?_, ?_, ?_, ?_, ?_, hs.large⟩, hsub⟩
  · exact hs.lists.remove distinctNodes hi hsplit
  · intro j hj
    have hdrop : (h.slub.releasePage p sp).nrPages =
        Function.update h.slub.nrPages i (h.slub.nrPages i - 1) := by
      simp only [Slub.releasePage, hfr.size]
      exact dropPage_spec hs.size hi (Nat.zero_le i) (by omega)
    simp only [hdrop]
    by_cases heq : j = i
    · subst heq
      rw [Function.update_self, Function.update_self, hs.count j hj, hsplit]
      simp only [List.length_append, List.length_cons]
      omega
    · rw [Function.update_of_ne heq, Function.update_of_ne heq]
      exact hs.count j hj
  · have hperm := (pooled_remove hi hsplit).map slabBlock
    rw [List.map_cons, hkva, slabBlock_kva (by omega)] at hperm
    exact ha.release (ha.perm hs.rep (hperm.append_right (big ++ others)))
  · intro j hj sp' hsp'
    exact hs.page j hj sp' (hsub j hj sp' hsp').1
  · intro j hj sp' hsp'
    obtain ⟨hmem, hne⟩ := hsub j hj sp' hsp'
    obtain ⟨fr', hfr'⟩ := hs.slab j hj sp' hmem
    obtain ⟨q, -, hq, hkva'⟩ := hs.page_bound ha hj hmem
    have hz := (bucketSize_spec hj).1
    refine ⟨fr', hfr'.congr_outside (by omega) ?_⟩
    intro w h1 h2
    rw [hkva'] at h1 h2
    have hw : pageOf w = sp' := by
      rw [hkva']
      exact pageOf_unique (by omega) h1 h2
    have hout : ∀ k < pgSize, w ≠ sp + k := by
      intro k hk hbad
      rw [hbad, hkva, pageOf_kva_add (by omega) hk, ← hkva] at hw
      exact hne hw.symm
    unfold pgSize at hout
    have h3 : w ≠ capacity sp := hout 40 (by omega)
    have h4 : w ≠ nrFree sp := hout 32 (by omega)
    have h5 : w ≠ objSize sp := hout 24 (by omega)
    have h6 : w ≠ free sp := hout 16 (by omega)
    simp [Slub.releasePage, write, h3, h4, h5, h6]
  · intro e he hle
    obtain ⟨j, hj, hsize, hmem⟩ := hs.small e he hle
    refine ⟨j, hj, hsize, ?_⟩
    by_cases heq : j = i
    · subst heq
      rw [Function.update_self]
      rw [hsplit, List.mem_append, List.mem_cons] at hmem
      rw [List.mem_append]
      rcases hmem with hmem | hbad | hmem
      · exact Or.inl hmem
      · have hon : e.1 ∈ objectsOn h.live sp := mem_objectsOn.mpr ⟨⟨e, he, rfl⟩, hbad⟩
        rw [hnone] at hon
        exact absurd hon List.not_mem_nil
      · exact Or.inr hmem
    · rwa [Function.update_of_ne heq]

/-- The object becomes free; the page may be left without live objects. -/
theorem freeObject (ha : HandsOut A Rep) (hs : Sound Rep others h ps big) {i : ℕ}
    (hi : i < maxBucket) {e : ℕ × ℕ} (he : e ∈ h.live) (hpage : pageOf e.1 ∈ ps i)
    {fr objs : List ℕ}
    (hslab : Slab (pushObj h.slub.mem (pageOf e.1) e.1) (pageOf e.1) (bucketSize i) fr objs)
    (hobjs : objs.Perm (objectsOn (h.live.erase e) (pageOf e.1))) :
    Sound Rep others
      ⟨{ h.slub with mem := pushObj h.slub.mem (pageOf e.1) e.1 }, h.live.erase e⟩ ps big := by
  refine hs.drop e _ ?_
  intro j hj sp hsp
  by_cases heq : pageOf e.1 = sp
  · have hij : j = i := by
      by_contra hne
      exact hs.lists.disjoint j hj i hi hne sp hsp (heq ▸ hpage)
    rw [← heq, hij]
    exact ⟨fr, hslab.perm hobjs⟩
  · obtain ⟨fr', hfr'⟩ := hs.slab j hj sp hsp
    have hperm := objectsOn_erase sp he
    rw [if_neg heq] at hperm
    obtain ⟨q, -, hq, hkva⟩ := hs.page_bound ha hj hsp
    obtain ⟨p, -, hp, hkvap⟩ := hs.page_bound ha hi hpage
    have hz := (bucketSize_spec hj).1
    refine ⟨fr', (hfr'.perm hperm).congr_outside (by omega) ?_⟩
    intro w h1 h2
    rw [hkva] at h1 h2
    have hw := pageOf_unique (by omega) h1 h2
    rw [← hkva] at hw
    have hout : ∀ w', pageOf w' = pageOf e.1 → w ≠ w' := fun w' hw' hbad =>
      heq (hw'.symm.trans ((congrArg pageOf hbad).symm.trans hw))
    refine pushObj_other _ (hout _ rfl) (hout _ ?_) (hout _ ?_)
    · rw [hkvap, free]
      exact pageOf_kva_add (by omega) (by unfold pgSize; omega)
    · rw [hkvap, nrFree]
      exact pageOf_kva_add (by omega) (by unfold pgSize; omega)

/-- An object of a cache is given back. -/
theorem kfree_object (ha : HandsOut A Rep) (hs : Sound Rep others h ps big) (hu : Used h ps)
    {ptr size : ℕ} (he : (ptr, size) ∈ h.live) (hsmall : size ≤ 2048) :
    ∃ s' ps', h.slub.kfree ptr = some s' ∧
      Sound Rep others ⟨s', h.live.erase (ptr, size)⟩ ps' big ∧
      Used ⟨s', h.live.erase (ptr, size)⟩ ps' := by
  obtain ⟨i, hi, -, hpage⟩ := hs.small _ he hsmall
  simp only at hpage
  obtain ⟨fr, hfr⟩ := hs.slab i hi _ hpage
  obtain ⟨p, hp, hp', hkva⟩ := hs.page_bound ha hi hpage
  have hz := bucketSize_spec hi
  have hperm := objectsOn_erase (pageOf ptr) he
  rw [if_pos rfl] at hperm
  have hslab := hfr.perm hperm
  have hslot := slot_bounds (by omega) (hslab.slot_of_obj List.mem_cons_self)
  have hpush := hslab.push hz.1
  have hnotfree : ptr ∉ fr := by
    intro hbad
    exact (List.nodup_append.mp (hslab.nodup (by omega))).2.2 ptr hbad ptr List.mem_cons_self rfl
  obtain ⟨hoff, hno⟩ := page_of_address (by omega) hkva
  have hlast := kva_last hp'
  rw [← hkva] at hlast
  have hlen := hslab.length
  have hcount := slotCount_le hz.1
  rw [List.length_cons] at hlen
  have hfreed := hs.freeObject ha hi he hpage hpush (List.Perm.refl _)
  have huse : ∀ j < maxBucket, ∀ sp ∈ ps j, sp ≠ pageOf ptr →
      objectsOn (h.live.erase (ptr, size)) sp ≠ [] := by
    intro j hj sp hsp hne hnil
    have hrest := objectsOn_erase sp he
    rw [if_neg (Ne.symm hne), hnil] at hrest
    exact hu j hj sp hsp hrest.eq_nil
  have hrun : h.slub.kfree ptr =
      if slotCount (bucketSize i) ≤ fr.length + 1 then
        some (({ h.slub with mem := pushObj h.slub.mem (pageOf ptr) ptr } : Slub A).releasePage p
          (pageOf ptr))
      else some { h.slub with mem := pushObj h.slub.mem (pageOf ptr) ptr } := by
    have hne : ptr ≠ 0 := by
      unfold vaPaOffset at hoff
      omega
    have hchain : chainHas h.slub.mem ptr pgSize (h.slub.mem (free (pageOf ptr))) =
        some (decide (ptr ∈ fr)) := chainHas_spec hfr.list.chain (by unfold pgSize; omega)
    rw [decide_eq_false hnotfree] at hchain
    unfold Slub.kfree
    rw [if_neg hne, if_neg (Nat.not_lt.mpr hoff)]
    simp only [hno, if_neg (show ¬ p ≥ A.npage by omega), ← hkva, hfr.size]
    rw [if_neg (show bucketSize i ≠ 0 by omega), if_neg (by rw [uint64_of_lt hlast]; omega)]
    simp only [hchain, Option.bind_eq_bind, Option.bind_some, Bool.false_eq_true, if_false,
      hpush.list.count, hpush.cap, List.length_cons, ge_iff_le]
  rw [hrun]
  by_cases hfull : slotCount (bucketSize i) ≤ fr.length + 1
  · rw [if_pos hfull]
    have hnil : objectsOn (h.live.erase (ptr, size)) (pageOf ptr) = [] :=
      List.length_eq_zero_iff.mp (by omega)
    obtain ⟨ps', hs', hsub⟩ := hfreed.releasePage ha hi hpage hp' hkva hnil
    refine ⟨_, ps', rfl, hs', ?_⟩
    intro j hj sp hsp
    exact huse j hj sp (hsub j hj sp hsp).1 (hsub j hj sp hsp).2
  · rw [if_neg hfull]
    refine ⟨_, ps, rfl, hfreed, ?_⟩
    intro j hj sp hsp
    by_cases heq : sp = pageOf ptr
    · intro hnil
      rw [heq] at hnil
      simp only at hnil
      rw [hnil] at hlen
      simp only [List.length_nil] at hlen
      omega
    · exact huse j hj sp hsp heq

theorem kfree (ha : HandsOut A Rep) (hs : Sound Rep others h ps big) (hu : Used h ps)
    {ptr size : ℕ} (he : (ptr, size) ∈ h.live) :
    ∃ s' ps', h.slub.kfree ptr = some s' ∧
      Sound Rep others ⟨s', h.live.erase (ptr, size)⟩ ps' big ∧
      Used ⟨s', h.live.erase (ptr, size)⟩ ps' := by
  rcases Nat.lt_or_ge 2048 size with hlarge | hsmall
  · obtain ⟨hrun, hs', hu'⟩ := hs.kfree_pages ha hu he hlarge
    exact ⟨h.slub, ps, hrun, hs', hu'⟩
  · exact hs.kfree_object ha hu he hsmall

/-- A store into a live object or into memory of others. -/
theorem store (ha : HandsOut A Rep) (hs : Sound Rep others h ps big) {word : ℕ} (value : ℕ)
    (hallowed : h.Allowed (.store word value)) :
    Sound Rep others ⟨{ h.slub with mem := write h.slub.mem word value }, h.live⟩ ps big := by
  refine hs.remem ha (a := pageOf word) ?_ ?_
  · intro w hw
    exact Function.update_of_ne (fun heq => hw (congrArg pageOf heq)) _ _
  · intro i hi hpage
    rcases hallowed.2 with ⟨e, he, h1, h2⟩ | hother
    · rcases Nat.lt_or_ge 2048 e.2 with hlarge | hsmall
      · -- the store hits a page of a large block, which is no slab page
        exfalso
        obtain ⟨b, hb, hptr, hroom, -, hin⟩ := hs.large_block ha he hlarge
        have hw := ha.window
        refine hs.apart_big ha hi hpage hb ?_
        rw [hptr, kva_eq (by omega)] at h1 h2
        rw [Block.mem_def]
        unfold pageOf
        unfold pgSize at *
        unfold vaPaOffset at *
        omega
      · obtain ⟨j, hj, hfit, hobj⟩ := hs.small e he hsmall
        obtain ⟨fr, hfr⟩ := hs.slab j hj _ hobj
        obtain ⟨p, -, hp, hkva⟩ := hs.page_bound ha hj hobj
        have hz := bucketSize_spec hj
        have hmem : e.1 ∈ objectsOn h.live (pageOf e.1) := mem_objectsOn.mpr ⟨⟨e, he, rfl⟩, rfl⟩
        have hslot := slot_bounds (by omega) (hfr.slot_of_obj hmem)
        have hword : pageOf word = pageOf e.1 := by
          rw [hkva] at hslot ⊢
          exact pageOf_unique (by omega) (by omega) (by omega)
        rw [hword] at hpage ⊢
        have hij : i = j := by
          by_contra hne
          exact hs.lists.disjoint i hi j hj hne _ hpage hobj
        rw [hij]
        exact ⟨fr, hfr.store (by omega) hmem h1 (by omega) value⟩
    · have hout := hother i hi
      rw [hs.cachePages_eq hi] at hout
      exact absurd hpage hout

end Sound
end Ucore.Dou
