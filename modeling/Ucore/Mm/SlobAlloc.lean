import Ucore.Mm.SlobTiles

/-!
`slob_alloc`. It takes the first block with room on the way around the ring. If there is none it
puts in a page and goes around once more, and then there is one.
-/
namespace Ucore.Mm.Slob

open Library

variable {M : PageSource} {s s' : Slob M} {free l r : List ℕ} {rest : List Block}
  {a b c p n u size : ℕ}

/-- `slob_alloc` got the block `c` of `u` units. -/
structure Taken (s s' : Slob M) (free' : List ℕ) (rest : List Block) (c u : ℕ) : Prop where
  tiled : Tiled s' free' (⟨c, slobUnit * u⟩ :: rest)
  units_self : s'.units c = u
  units_eq : ∀ t ∈ rest, s'.units t.base = s.units t.base
  bigblocks_eq : s'.bigblocks = s.bigblocks

/-- The block between its neighbours in the ring. -/
theorem around_cut (h : FreeList s (l ++ p :: c :: r)) :
    p ∉ l ∧ p ∉ r ∧ c ∉ l ∧ c ≠ p ∧ c ∉ r ∧ M.arena < c := by
  have hnodup := h.nodup
  rw [List.nodup_append] at hnodup
  obtain ⟨-, htail, hcross⟩ := hnodup
  obtain ⟨hp, hcr⟩ := List.nodup_cons.mp htail
  obtain ⟨hc, -⟩ := List.nodup_cons.mp hcr
  rw [List.mem_cons, not_or] at hp
  have hpc : p < c :=
    (List.pairwise_cons.mp (List.pairwise_append.mp h.sorted).2.1).1 c List.mem_cons_self
  have hlow := h.arena_le (List.mem_append_right l List.mem_cons_self)
  refine ⟨fun hm => hcross p hm p List.mem_cons_self rfl, hp.2, ?_, Ne.symm hp.1, hc,
    Nat.lt_of_le_of_lt hlow hpc⟩
  exact fun hm => hcross c hm c (List.mem_cons_of_mem p List.mem_cons_self) rfl

theorem sublist_cut : (l ++ p :: r).Sublist (l ++ p :: c :: r) :=
  ((List.sublist_cons_self c r).cons_cons p).append_left l

theorem head_cut {q : List ℕ} : (l ++ p :: r).head? = (l ++ p :: q).head? := by
  cases l with
  | nil => rfl
  | cons x l => rfl

/-- The block has the units that are asked for. -/
theorem take_whole (h : Tiled s (l ++ p :: c :: r) rest) (hunits : s.units c = u) :
    Taken s (s.take u p c) (l ++ p :: r) rest c u := by
  obtain ⟨hpl, hpr, hcl, hcp, hcr, harena⟩ := around_cut h.list
  have htake : s.take u p c =
      { s with next := Function.update s.next p (s.next c), slobfree := p } := if_pos hunits
  obtain ⟨hfront, hback⟩ := leads_append.mp h.list.linked
  obtain ⟨hcnext, hrest⟩ := leads_cons.mp (leads_cons.mp hback).2
  rw [htake]
  refine ⟨⟨⟨?_, h.list.arena_units, ?_, h.list.sorted.sublist sublist_cut, ?_⟩, ?_, h.behind⟩,
    hunits, fun _ _ => rfl, rfl⟩
  · rw [head_cut]
    exact h.list.first
  · exact leads_append.mpr ⟨hfront.update hpl, hrest.link hpr hcnext⟩
  · exact List.mem_append_right l List.mem_cons_self
  · have hcut := h.tiling.perm ((perm_behind.map s.extent).append_right rest)
    have hhead : s.extent c = ⟨c, slobUnit * u⟩ := by rw [extent, hunits]
    rw [← hhead]
    exact hcut.perm List.perm_middle.symm

/-- The first units of a block, without the last ones, are inside it. -/
theorem rest_mem_extent (hu : u < s.units c) : c + slobUnit * u ∈ s.extent c := by
  have hmul : ∀ m, slobUnit * m = 16 * m := fun _ => rfl
  simp only [extent, Block.mem_def, hmul]
  omega

/-- The rest of a block is not in the ring yet. -/
theorem Tiled.rest_fresh (h : Tiled s (l ++ p :: c :: r) rest) (hu : u < s.units c) :
    ∀ x ∈ l ++ p :: r, x ≠ c + slobUnit * u := by
  rintro x hx rfl
  have hpos := h.units_pos (sublist_cut.subset hx)
  have hbase : c + slobUnit * u ∈ s.extent (c + slobUnit * u) :=
    Block.base_mem (Nat.mul_pos (by decide) hpos)
  have hcut := h.tiling.perm ((perm_behind.map s.extent).append_right rest)
  refine hcut.apart_head _ ?_ _ (rest_mem_extent hu) hbase
  exact List.mem_append_left rest (List.mem_map_of_mem hx)

/-- It lies in front of the blocks that follow. -/
theorem Tiled.rest_before (h : Tiled s (l ++ p :: c :: r) rest) (hu : u < s.units c) :
    ∀ y ∈ r, c + slobUnit * u < y := by
  intro y hy
  have hmul : ∀ m, slobUnit * m = 16 * m := fun _ => rfl
  have hymem : y ∈ l ++ p :: r := List.mem_append_right l (List.mem_cons_of_mem p hy)
  have hcy : c < y := by
    have hback := (List.pairwise_append.mp h.list.sorted).2.1
    exact (List.pairwise_cons.mp (List.pairwise_cons.mp hback).2).1 y hy
  have hypos := h.units_pos (sublist_cut.subset hymem)
  have hcut := h.tiling.perm ((perm_behind.map s.extent).append_right rest)
  have hapart : Block.Apart (s.extent c) (s.extent y) :=
    hcut.apart_head _ (List.mem_append_left rest (List.mem_map_of_mem hymem))
  have hcsize : 0 < slobUnit * s.units c := Nat.mul_pos (by decide) (Nat.zero_lt_of_lt hu)
  have hysize : 0 < slobUnit * s.units y := Nat.mul_pos (by decide) hypos
  rcases (Block.apart_iff hcsize hysize).mp hapart with hle | hle
  · simp only [extent, hmul] at hle ⊢
    omega
  · simp only [extent, hmul] at hle
    omega

/-- The block has more units, and the rest of it stays free. -/
theorem take_part (h : Tiled s (l ++ p :: c :: r) rest) (hu : 0 < u) (hunits : u < s.units c) :
    Taken s (s.take u p c) (l ++ p :: (c + slobUnit * u) :: r) rest c u := by
  obtain ⟨hpl, hpr, hcl, hcp, hcr, harena⟩ := around_cut h.list
  have hmul : ∀ m, slobUnit * m = 16 * m := fun _ => rfl
  have hstart := hmul u
  obtain ⟨k, hk⟩ : ∃ k, s.units c = u + k := ⟨s.units c - u, by omega⟩
  have hcmem : c ∈ l ++ p :: c :: r := List.mem_append_right l (by simp)
  have hnew := h.rest_fresh hunits
  have hpc : p < c :=
    (List.pairwise_cons.mp (List.pairwise_append.mp h.list.sorted).2.1).1 c List.mem_cons_self
  have hne : s.units c ≠ u := by omega
  obtain ⟨hfront, hback⟩ := leads_append.mp h.list.linked
  obtain ⟨hcnext, hrest⟩ := leads_cons.mp (leads_cons.mp hback).2
  have hkeep : ∀ x, x ≠ c → x ≠ c + slobUnit * u → (s.take u p c).units x = s.units x := by
    intro x hxc hxnew
    rw [take, if_neg hne]
    exact (Function.update_of_ne hxc _ _).trans (Function.update_of_ne hxnew _ _)
  have hself : (s.take u p c).units c = u := by
    rw [take, if_neg hne]
    exact Function.update_self _ _ _
  have hother : (s.take u p c).units (c + slobUnit * u) = k := by
    have hoff : c + slobUnit * u ≠ c := by omega
    rw [take, if_neg hne]
    refine (Function.update_of_ne hoff _ _).trans ((Function.update_self _ _ _).trans ?_)
    omega
  have hnext : (s.take u p c).next = Function.update (Function.update s.next p (c + slobUnit * u))
      (c + slobUnit * u) (s.next c) := by
    rw [take, if_neg hne]
    change Function.update (Function.update s.next p (c + slobUnit * u)) (c + slobUnit * u)
      (Function.update s.next p (c + slobUnit * u) c) = _
    rw [Function.update_of_ne hcp]
  have hpmm : (s.take u p c).pmm = s.pmm := by rw [take, if_neg hne]
  have hbb : (s.take u p c).bigblocks = s.bigblocks := by rw [take, if_neg hne]
  have hcursor : (s.take u p c).slobfree = p := by rw [take, if_neg hne]
  refine ⟨⟨⟨?_, ?_, ?_, ?_, ?_⟩, ?_, ?_⟩, hself, ?_, hbb⟩
  · rw [head_cut]
    exact h.list.first
  · rw [hkeep M.arena (by omega) (by omega)]
    exact h.list.arena_units
  · have hnewr : c + slobUnit * u ∉ r := by
      intro hm
      exact hnew _ (List.mem_append_right l (List.mem_cons_of_mem p hm)) rfl
    have hnewl : c + slobUnit * u ∉ l := by
      intro hm
      exact hnew _ (List.mem_append_left _ hm) rfl
    rw [hnext]
    apply leads_append.mpr
    refine ⟨(hfront.update hpl).update hnewl, leads_cons.mpr ⟨?_, ?_⟩⟩
    · have hoff : p ≠ c + slobUnit * u := by omega
      rw [Function.update_of_ne hoff, Function.update_self]
      rfl
    · exact (hrest.update hpr).link hnewr hcnext
  · apply sorted_between (h.list.sorted.sublist sublist_cut)
    · omega
    · exact h.rest_before hunits
  · rw [hcursor]
    exact List.mem_append_right l List.mem_cons_self
  · rw [hpmm]
    have hcut := h.tiling.perm ((perm_behind.map s.extent).append_right rest)
    have hwhole : s.extent c = ⟨c, slobUnit * u + slobUnit * k⟩ := by
      rw [extent, hk, Nat.mul_add]
    have hsame : (l ++ p :: r).map (s.take u p c).extent = (l ++ p :: r).map s.extent := by
      apply map_extent
      intro x hx
      apply hkeep x ?_ (hnew x hx)
      rintro rfl
      rcases List.mem_append.mp hx with hx | hx
      · exact hcl hx
      · rcases List.mem_cons.mp hx with hx | hx
        · exact hcp hx
        · exact hcr hx
    rw [List.map_cons, List.cons_append, hwhole] at hcut
    have hlast := hmul k
    have hparts := hcut.split (by omega) (by omega)
    have hsecond : (s.take u p c).extent (c + slobUnit * u) =
        ⟨c + slobUnit * u, slobUnit * k⟩ := by rw [extent, hother]
    rw [← hsame, ← hsecond] at hparts
    apply hparts.perm
    have hput := ((@perm_behind l r (c + slobUnit * u) p).map
      (s.take u p c).extent).append_right rest
    exact (hput.symm.cons _).trans List.perm_middle.symm
  · rw [hpmm]
    exact h.behind
  · intro t ht
    apply hkeep
    · intro heq
      exact h.notMem_free ht (heq ▸ hcmem)
    · intro heq
      apply h.apart hcmem ht _ (rest_mem_extent hunits)
      rw [← heq]
      exact h.base_mem ht

/-- `slob_alloc` takes a block with room that lies behind another one in the ring. -/
theorem Tiled.take (h : Tiled s free rest) (hp : p ∈ free) (hu : 2 ≤ u)
    (hroom : u ≤ s.units (s.next p)) :
    ∃ free', Taken s (s.take u p (s.next p)) free' rest (s.next p) u := by
  obtain ⟨l, r, rfl⟩ := List.append_of_mem hp
  have hnext := h.list.linked.next_eq
  cases r with
  | nil =>
    have harena : s.next p = M.arena := hnext
    rw [harena, h.list.arena_units] at hroom
    omega
  | cons c r =>
    have hc : s.next p = c := hnext
    rw [hc] at hroom ⊢
    by_cases hunits : s.units c = u
    · exact ⟨_, take_whole h hunits⟩
    · exact ⟨_, take_part h (by omega) (by omega)⟩

/-- With enough fuel the call returns `x`. -/
def Returns {α : Type*} (call : ℕ → Except SlobFault α) (x : α) : Prop :=
  ∃ bound, ∀ fuel, bound ≤ fuel → call fuel = .ok x

theorem Returns.unique {α : Type*} {call : ℕ → Except SlobFault α} {x y : α}
    (hx : Returns call x) (hy : Returns call y) : x = y := by
  obtain ⟨m, hx⟩ := hx
  obtain ⟨n, hy⟩ := hy
  have heq := (hx (max m n) (Nat.le_max_left m n)).symm.trans (hy (max m n) (Nat.le_max_right m n))
  exact Except.ok.inj heq

theorem Returns.map {α β : Type*} {call : ℕ → Except SlobFault α} {x : α} (f : α → β)
    (h : Returns call x) : Returns (fun fuel => (call fuel).map f) (f x) := by
  obtain ⟨bound, h⟩ := h
  refine ⟨bound, ?_⟩
  intro fuel hfuel
  exact congrArg (Except.map f) (h fuel hfuel)

/-- Once around the ring: the loop takes a block, or it comes back to `slobfree` in vain. -/
theorem allocLoop_walk (size : ℕ) {prev : ℕ} (h : Leads s.next (prev :: l) s.slobfree) (hout : s.slobfree ∉ l) :
    (∃ p ∈ prev :: l, slobUnits size ≤ s.units (s.next p) ∧
      ∀ fuel, l.length < fuel → allocLoop size fuel prev (s.next prev) s =
        .ok (some (s.next p), s.take (slobUnits size) p (s.next p))) ∨
    ((∀ c ∈ l, s.units c < slobUnits size) ∧ s.units s.slobfree < slobUnits size ∧
      ∃ p, ∀ fuel, allocLoop size (fuel + l.length) prev (s.next prev) s =
        allocLoop size fuel p s.slobfree s) := by
  induction l generalizing prev with
  | nil =>
    have hnext : s.next prev = s.slobfree := (leads_cons.mp h).1
    by_cases hroom : slobUnits size ≤ s.units s.slobfree
    · left
      refine ⟨prev, List.mem_cons_self, hnext ▸ hroom, ?_⟩
      intro fuel hfuel
      obtain ⟨k, rfl⟩ := Nat.exists_eq_succ_of_ne_zero (Nat.ne_of_gt hfuel)
      rw [allocLoop, hnext]
      exact if_pos hroom
    · right
      refine ⟨fun c hc => absurd hc List.not_mem_nil, Nat.lt_of_not_le hroom, prev, ?_⟩
      intro fuel
      rw [hnext]
      rfl
  | cons c l ih =>
    obtain ⟨hnext, hrest⟩ := leads_cons.mp h
    have hc : s.next prev = c := hnext
    have hne : c ≠ s.slobfree := fun heq => hout (heq ▸ List.mem_cons_self)
    by_cases hroom : slobUnits size ≤ s.units c
    · left
      refine ⟨prev, List.mem_cons_self, hc ▸ hroom, ?_⟩
      intro fuel hfuel
      obtain ⟨k, rfl⟩ := Nat.exists_eq_succ_of_ne_zero (Nat.ne_of_gt (Nat.zero_lt_of_lt hfuel))
      rw [allocLoop, hc]
      exact if_pos hroom
    · have hstep : ∀ fuel, allocLoop size (fuel + 1) prev c s =
          allocLoop size fuel c (s.next c) s := by
        intro fuel
        rw [allocLoop, if_neg hroom, if_neg hne]
      rw [hc]
      rcases ih hrest (fun hm => hout (List.mem_cons_of_mem c hm)) with
        ⟨p, hp, hfound, hrun⟩ | ⟨hsmall, hback, p, hrun⟩
      · left
        refine ⟨p, List.mem_cons_of_mem prev hp, hfound, ?_⟩
        intro fuel hfuel
        obtain ⟨k, rfl⟩ := Nat.exists_eq_succ_of_ne_zero (Nat.ne_of_gt (Nat.zero_lt_of_lt hfuel))
        rw [hstep]
        apply hrun
        simpa using hfuel
      · right
        refine ⟨?_, hback, p, ?_⟩
        · intro x hx
          rcases List.mem_cons.mp hx with rfl | hx
          · exact Nat.lt_of_not_le hroom
          · exact hsmall x hx
        · intro fuel
          rw [List.length_cons, ← Nat.add_assoc, hstep]
          exact hrun fuel

/-- If some free block has room, a block is taken on the first way around. -/
theorem Tiled.allocLoop_takes (h : Tiled s free rest) (hu : 2 ≤ slobUnits size)
    (hroom : ∃ a ∈ free, slobUnits size ≤ s.units a) :
    ∃ c s' free', Taken s s' free' rest c (slobUnits size) ∧
      Returns (fun fuel => allocLoop size fuel s.slobfree (s.next s.slobfree) s) (some c, s') := by
  obtain ⟨walked, hleads, hout, hmem, -⟩ := h.list.walk
  rcases allocLoop_walk size hleads hout with ⟨p, hp, hfound, hrun⟩ | ⟨hsmall, hback, -⟩
  · obtain ⟨free', htaken⟩ := h.take ((hmem p).mp hp) hu hfound
    exact ⟨_, _, free', htaken, walked.length + 1, hrun⟩
  · exfalso
    obtain ⟨a, ha, hle⟩ := hroom
    rcases List.mem_cons.mp ((hmem a).mpr ha) with rfl | ha
    · omega
    · have := hsmall a ha
      omega

/-- `slob_alloc` returns what is left of the memory, or a block besides. -/
structure Refused (s s' : Slob M) (free : List ℕ) (rest : List Block) : Prop where
  tiled : Tiled s' free rest
  units_eq : s'.units = s.units
  bigblocks_eq : s'.bigblocks = s.bigblocks

/-- The loop gets back to `slobfree` and asks for a page. -/
theorem Tiled.allocLoop_grows (h : Tiled s free rest) (hu : 2 ≤ slobUnits size)
    (hpage : slobUnits size ≤ slobUnits pageSize) (hsize : size ≠ pageSize)
    (hback : s.units s.slobfree < slobUnits size) :
    (∃ s', Refused s s' free rest ∧
      Returns (fun fuel => allocLoop size fuel p s.slobfree s) (none, s')) ∨
    ∃ c s' free', Taken s s' free' rest c (slobUnits size) ∧
      Returns (fun fuel => allocLoop size fuel p s.slobfree s) (some c, s') := by
  have hroom : ¬ slobUnits size ≤ s.units s.slobfree := by omega
  rcases halloc : M.allocPages s.pmm 1 with ⟨_ | page, pmm⟩
  · left
    have hrefused : Refused s { s with pmm := pmm } free rest :=
      ⟨h.withPmm (M.alloc_none _ _ _ halloc), rfl, rfl⟩
    refine ⟨_, hrefused, 1, ?_⟩
    intro fuel hfuel
    obtain ⟨k, rfl⟩ := Nat.exists_eq_add_of_le' hfuel
    simp only [allocLoop, if_neg hroom, if_pos, if_neg hsize, halloc]
  · right
    have hpages : Tiled { s with pmm := pmm } free
        (⟨page * pageSize, slobUnit * slobUnits pageSize⟩ :: rest) :=
      h.withPages Nat.one_pos halloc
    have hmarked : (marked { s with pmm := pmm } (page * pageSize) pageSize).units
        (page * pageSize) = slobUnits pageSize := Function.update_self _ _ _
    obtain ⟨t, free', hput, hfree⟩ := hpages.putBack hmarked
    obtain ⟨a, ha, hle⟩ := hput.room
    obtain ⟨c, s', free'', htaken, bound, hrun⟩ :=
      hput.tiled.allocLoop_takes hu ⟨a, ha, Nat.le_trans hpage hle⟩
    refine ⟨c, s', free'', ?_, max bound free.length + 1, ?_⟩
    · refine ⟨htaken.tiled, htaken.units_self, ?_, htaken.bigblocks_eq.trans hput.bigblocks_eq⟩
      intro x hx
      exact (htaken.units_eq x hx).trans (hput.units_eq x hx)
    · intro fuel hfuel
      obtain ⟨k, rfl⟩ := Nat.exists_eq_add_of_le' (Nat.le_trans (Nat.le_add_left 1 _) hfuel)
      have hk := Nat.le_of_add_le_add_right hfuel
      have hput := hfree k (Nat.le_trans (Nat.le_max_right _ _) hk)
      simp only [allocLoop, if_neg hroom, if_pos, if_neg hsize, halloc, hput]
      exact hrun k (Nat.le_trans (Nat.le_max_left _ _) hk)

/-- `slob_alloc` ends, with a block or without one. -/
theorem Tiled.slobAlloc (h : Tiled s free rest) (hu : 2 ≤ slobUnits size)
    (hsize : size + slobUnit < pageSize) :
    (∃ s', Refused s s' free rest ∧ Returns (fun fuel => slobAlloc fuel size s) (none, s')) ∨
    ∃ c s' free', Taken s s' free' rest c (slobUnits size) ∧
      Returns (fun fuel => slobAlloc fuel size s) (some c, s') := by
  have hcall : (fun fuel => Slob.slobAlloc fuel size s) =
      fun fuel => allocLoop size fuel s.slobfree (s.next s.slobfree) s := by
    funext fuel
    exact if_pos hsize
  have hpage : slobUnits size ≤ slobUnits pageSize :=
    Nat.div_le_div_right (by omega)
  rw [hcall]
  obtain ⟨walked, hleads, hout, hmem, -⟩ := h.list.walk
  rcases allocLoop_walk size hleads hout with ⟨p, hp, hfound, hrun⟩ | ⟨-, hback, p, hrun⟩
  · right
    obtain ⟨free', htaken⟩ := h.take ((hmem p).mp hp) hu hfound
    exact ⟨_, _, free', htaken, walked.length + 1, hrun⟩
  · have hlate : ∀ x, Returns (fun fuel => allocLoop size fuel p s.slobfree s) x →
        Returns (fun fuel => allocLoop size fuel s.slobfree (s.next s.slobfree) s) x := by
      rintro x ⟨bound, hx⟩
      refine ⟨bound + walked.length, ?_⟩
      intro fuel hfuel
      obtain ⟨k, rfl⟩ := Nat.exists_eq_add_of_le' (Nat.le_trans (Nat.le_add_left _ _) hfuel)
      exact (hrun k).trans (hx k (by omega))
    rcases h.allocLoop_grows hu hpage (by omega) hback with
      ⟨s', hrefused, hret⟩ | ⟨c, s', free', htaken, hret⟩
    · left
      exact ⟨s', hrefused, hlate _ hret⟩
    · right
      exact ⟨c, s', free', htaken, hlate _ hret⟩

end Ucore.Mm.Slob
