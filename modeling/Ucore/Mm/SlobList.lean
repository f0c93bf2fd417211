import Ucore.Library.Circle
import Ucore.Library.Tiling
import Ucore.Mm.Slob

/-!
The ring of the free blocks. It is kept in the order of the addresses, with `arena` as the first
block. `slob_free` puts a block in at its place and joins it with its neighbours, and
`slob_alloc` finds the first block with room behind `slobfree`, if there is one.
-/
namespace Ucore.Mm.Slob

open Library

variable {M : PageSource} {s s' : Slob M} {free l r : List ℕ} {b x : ℕ}

/-- The memory of the block with its header at `a`. -/
def extent (s : Slob M) (a : ℕ) : Block := ⟨a, slobUnit * s.units a⟩

/-- The headers of the free blocks, in the order of their addresses. -/
structure FreeList (s : Slob M) (free : List ℕ) : Prop where
  first : free.head? = some M.arena
  arena_units : s.units M.arena = 1
  linked : Leads s.next free M.arena
  sorted : free.Pairwise (· < ·)
  cursor : s.slobfree ∈ free

theorem map_extent (heq : ∀ a ∈ l, s'.units a = s.units a) :
    l.map s'.extent = l.map s.extent := by
  apply List.map_congr_left
  intro a ha
  rw [extent, extent, heq a ha]

theorem init_freeList (M : PageSource) : FreeList (init M) [M.arena] where
  first := rfl
  arena_units := if_pos rfl
  linked := leads_cons.mpr ⟨rfl, leads_nil⟩
  sorted := List.pairwise_singleton _ _
  cursor := List.mem_singleton_self _

namespace FreeList

theorem eq_cons (h : FreeList s free) : ∃ rest, free = M.arena :: rest := by
  cases free with
  | nil => exact absurd h.first (Option.some_ne_none _).symm
  | cons a rest =>
    have ha := Option.some.inj h.first
    exact ⟨rest, by rw [ha]⟩

/-- The list of the big blocks and the pages do not matter. -/
theorem of_eq (h : FreeList s free) (hunits : s'.units = s.units) (hnext : s'.next = s.next)
    (hcursor : s'.slobfree = s.slobfree) : FreeList s' free := by
  refine ⟨h.first, ?_, ?_, h.sorted, ?_⟩
  · rw [hunits]
    exact h.arena_units
  · rw [hnext]
    exact h.linked
  · rw [hcursor]
    exact h.cursor

theorem arena_mem (h : FreeList s free) : M.arena ∈ free := by
  obtain ⟨rest, rfl⟩ := h.eq_cons
  exact List.mem_cons_self

/-- `arena` is the lowest block. -/
theorem arena_le (h : FreeList s free) (hx : x ∈ free) : M.arena ≤ x := by
  obtain ⟨rest, rfl⟩ := h.eq_cons
  rcases List.mem_cons.mp hx with rfl | hx
  · exact Nat.le_refl _
  · exact Nat.le_of_lt ((List.pairwise_cons.mp h.sorted).1 x hx)

theorem nodup (h : FreeList s free) : free.Nodup := h.sorted.imp (fun hlt => Nat.ne_of_lt hlt)

/-- The ring as it is walked from `slobfree`. -/
theorem walk (h : FreeList s free) : ∃ walked, Leads s.next (s.slobfree :: walked) s.slobfree ∧
    s.slobfree ∉ walked ∧ (∀ a, a ∈ s.slobfree :: walked ↔ a ∈ free) ∧
    walked.length < free.length := by
  obtain ⟨front, back, heq⟩ := List.append_of_mem h.cursor
  have hperm : (s.slobfree :: (back ++ front)).Perm free := by
    rw [heq]
    exact (List.perm_append_comm.cons _).trans List.perm_middle.symm
  have hlinked := h.linked
  obtain ⟨rest, hrest⟩ := h.eq_cons
  rw [hrest] at hlinked heq
  refine ⟨back ++ front, hlinked.turn heq, ?_, fun a => hperm.mem_iff, ?_⟩
  · exact (List.nodup_cons.mp (hperm.nodup_iff.mpr h.nodup)).1
  · rw [← hperm.length_eq]
    exact Nat.lt_succ_self _

/-- `slob_free` may stop in front of the place of the block only. -/
theorem stops_place (h : FreeList s free) (hb : M.arena < b) (hx : x ∈ free)
    (hstop : s.Stops b x) : ∃ l r, free = l ++ x :: r ∧ x < b ∧ ∀ y ∈ r, b < y := by
  have hlow := h.arena_le hx
  obtain ⟨l, r, rfl⟩ := List.append_of_mem hx
  have hnext := h.linked.next_eq
  refine ⟨l, r, rfl, ?_⟩
  cases r with
  | nil =>
    have hback : s.next x = M.arena := hnext
    refine ⟨?_, fun y hy => absurd hy List.not_mem_nil⟩
    simp only [Stops, hback] at hstop
    omega
  | cons y r =>
    have hy : s.next x = y := hnext
    have hsorted := (List.pairwise_append.mp h.sorted).2.1
    obtain ⟨hxr, hyr⟩ := List.pairwise_cons.mp hsorted
    have hxy := hxr y List.mem_cons_self
    simp only [Stops, hy] at hstop
    refine ⟨by omega, ?_⟩
    intro w hw
    rcases List.mem_cons.mp hw with rfl | hw
    · omega
    · have := (List.pairwise_cons.mp hyr).1 w hw
      omega

/-- There is a place for every block behind `arena`. -/
theorem exists_stops (h : FreeList s free) (hb : M.arena < b) (hout : b ∉ free) :
    ∃ x ∈ free, s.Stops b x := by
  have hsplit : ∀ l : List ℕ, (∀ y ∈ l, M.arena ≤ y) → b ∉ l → ∀ x, x < b → M.arena ≤ x →
      Leads s.next (x :: l) M.arena → ∃ y ∈ x :: l, s.Stops b y := by
    intro l
    induction l with
    | nil =>
      intro _ _ x hxb hx hlinked
      have hback : s.next x = M.arena := (leads_cons.mp hlinked).1
      refine ⟨x, List.mem_cons_self, Or.inr ?_⟩
      rw [hback]
      exact ⟨hx, Or.inl hxb⟩
    | cons y l ih =>
      intro hlow hout x hxb hx hlinked
      obtain ⟨hnext, hrest⟩ := leads_cons.mp hlinked
      have hy : s.next x = y := hnext
      by_cases hyb : y < b
      · obtain ⟨w, hw, hstop⟩ := ih (fun w hw => hlow w (List.mem_cons_of_mem y hw))
          (fun hmem => hout (List.mem_cons_of_mem y hmem)) y hyb (hlow y List.mem_cons_self) hrest
        exact ⟨w, List.mem_cons_of_mem x hw, hstop⟩
      · have hne : b ≠ y := fun heq => hout (heq ▸ List.mem_cons_self)
        refine ⟨x, List.mem_cons_self, Or.inl ⟨hxb, ?_⟩⟩
        rw [hy]
        omega
  obtain ⟨rest, hrest⟩ := h.eq_cons
  have hlow : ∀ y ∈ free, M.arena ≤ y := fun y hy => h.arena_le hy
  have hlinked := h.linked
  rw [hrest] at hlow hout hlinked ⊢
  exact hsplit rest (fun y hy => hlow y (List.mem_cons_of_mem _ hy))
    (fun hmem => hout (List.mem_cons_of_mem _ hmem)) M.arena hb (Nat.le_refl _) hlinked

end FreeList

/-- The search goes along the links to the first block where it may stop. -/
theorem freeLoop_finds {cur z : ℕ} (h : Leads s.next (cur :: l) z)
    (hstop : ∃ x ∈ cur :: l, s.Stops b x) :
    ∃ x ∈ cur :: l, s.Stops b x ∧ ∀ fuel, l.length < fuel → s.freeLoop b fuel cur = .ok x := by
  induction l generalizing cur with
  | nil =>
    obtain ⟨x, hx, hstop⟩ := hstop
    obtain rfl := List.mem_singleton.mp hx
    refine ⟨x, hx, hstop, ?_⟩
    intro fuel hfuel
    obtain ⟨k, rfl⟩ := Nat.exists_eq_succ_of_ne_zero (Nat.ne_of_gt hfuel)
    exact if_pos hstop
  | cons y l ih =>
    by_cases hcur : s.Stops b cur
    · refine ⟨cur, List.mem_cons_self, hcur, ?_⟩
      intro fuel hfuel
      obtain ⟨k, rfl⟩ := Nat.exists_eq_succ_of_ne_zero (Nat.ne_of_gt (Nat.zero_lt_of_lt hfuel))
      exact if_pos hcur
    · obtain ⟨hnext, hrest⟩ := leads_cons.mp h
      have hy : s.next cur = y := hnext
      obtain ⟨w, hw, hwstop⟩ := hstop
      have hw' : w ∈ y :: l :=
        (List.mem_cons.mp hw).resolve_left (fun heq => hcur (heq ▸ hwstop))
      obtain ⟨x, hx, hxstop, hfound⟩ := ih hrest ⟨w, hw', hwstop⟩
      refine ⟨x, List.mem_cons_of_mem cur hx, hxstop, ?_⟩
      intro fuel hfuel
      obtain ⟨k, rfl⟩ := Nat.exists_eq_succ_of_ne_zero (Nat.ne_of_gt (Nat.zero_lt_of_lt hfuel))
      rw [freeLoop, if_neg hcur, hy]
      apply hfound
      simpa using hfuel

theorem FreeList.freeLoop_place (h : FreeList s free) (hb : M.arena < b) (hout : b ∉ free) :
    ∃ l x r, free = l ++ x :: r ∧ x < b ∧ (∀ y ∈ r, b < y) ∧
      ∀ fuel, free.length ≤ fuel → s.freeLoop b fuel s.slobfree = .ok x := by
  obtain ⟨walked, hleads, -, hmem, hlength⟩ := h.walk
  obtain ⟨w, hw, hwstop⟩ := h.exists_stops hb hout
  obtain ⟨x, hx, hstop, hfound⟩ := freeLoop_finds hleads ⟨w, (hmem w).mpr hw, hwstop⟩
  obtain ⟨l, r, heq, hxb, hr⟩ := h.stops_place hb ((hmem x).mp hx) hstop
  exact ⟨l, x, r, heq, hxb, hr, fun fuel hfuel => hfound fuel (by omega)⟩

theorem perm_behind : (l ++ x :: b :: r).Perm (b :: (l ++ x :: r)) := by
  have hmiddle : (l ++ [x] ++ b :: r).Perm (b :: (l ++ [x] ++ r)) := List.perm_middle
  simpa using hmiddle

/-- Two blocks that meet become one. -/
theorem join_extent {P : ℕ → Prop} {bs : List Block} {a c : ℕ}
    (h : Tiling P (s.extent a :: s.extent c :: bs)) (hmeet : a + slobUnit * s.units a = c) :
    Tiling P (⟨a, slobUnit * (s.units a + s.units c)⟩ :: bs) := by
  subst hmeet
  rw [Nat.mul_add]
  exact h.join

/-- After `joinNext` the block leads to the rest of the ring. -/
theorem joinNext_spec (h : FreeList s (l ++ x :: r)) (hb : M.arena < b) (hxb : x < b)
    (hr : ∀ y ∈ r, b < y) (hl : b ∉ l) :
    ∃ r', r'.Sublist r ∧ Leads (s.joinNext b x).next (b :: r') M.arena ∧
      Leads (s.joinNext b x).next l x ∧
      (∀ a, a ≠ b → (s.joinNext b x).units a = s.units a) ∧
      s.units b ≤ (s.joinNext b x).units b ∧
      ∀ (P : ℕ → Prop) (rest : List Block),
        Tiling P (s.extent b :: ((l ++ x :: r).map s.extent ++ rest)) →
        Tiling P ((s.joinNext b x).extent b ::
          ((l ++ x :: r').map (s.joinNext b x).extent ++ rest)) := by
  have hbr : b ∉ r := fun hmem => Nat.lt_irrefl b (hr b hmem)
  have hnext : s.next x = r.headD M.arena := h.linked.next_eq
  obtain ⟨hfront, hback⟩ := leads_append.mp h.linked
  have hrest := (leads_cons.mp hback).2
  by_cases hmeet : b + slobUnit * s.units b = s.next x
  · cases r with
    | nil =>
      have harena : s.next x = M.arena := hnext
      omega
    | cons y r' =>
      have hy : s.next x = y := hnext
      obtain ⟨hynext, hrest'⟩ := leads_cons.mp hrest
      have hbr' : b ∉ r' := fun hmem => hbr (List.mem_cons_of_mem y hmem)
      have hkeep : ∀ a, a ≠ b → (s.joinNext b x).units a = s.units a := by
        intro a ha
        rw [joinNext, if_pos hmeet]
        exact Function.update_of_ne ha _ _
      have hunits : (s.joinNext b x).units b = s.units b + s.units y := by
        rw [joinNext, if_pos hmeet, ← hy]
        exact Function.update_self _ _ _
      refine ⟨r', List.sublist_cons_self y r', ?_, ?_, hkeep, ?_, ?_⟩
      · rw [joinNext, if_pos hmeet, hy]
        exact hrest'.link hbr' hynext
      · rw [joinNext, if_pos hmeet]
        exact hfront.update hl
      · rw [hunits]
        exact Nat.le_add_right _ _
      · intro P rest ht
        have hperm : (l ++ x :: y :: r').Perm (y :: (l ++ x :: r')) := perm_behind
        have hsame : (l ++ x :: r').map (s.joinNext b x).extent = (l ++ x :: r').map s.extent := by
          apply map_extent
          intro a ha
          apply hkeep
          rintro rfl
          rcases List.mem_append.mp ha with ha | ha
          · exact hl ha
          · rcases List.mem_cons.mp ha with rfl | ha
            · exact Nat.lt_irrefl _ hxb
            · exact hbr' ha
        have hswap := ht.perm (((hperm.map s.extent).append_right rest).cons (s.extent b))
        rw [hsame, extent, hunits]
        exact join_extent hswap (hmeet.trans hy)
  · have hunits : (s.joinNext b x).units = s.units := by rw [joinNext, if_neg hmeet]
    have hextent : (s.joinNext b x).extent = s.extent := by
      funext a
      rw [extent, extent, hunits]
    refine ⟨r, List.Sublist.refl r, ?_, ?_, ?_, ?_, ?_⟩
    · rw [joinNext, if_neg hmeet]
      exact hrest.link hbr hnext
    · rw [joinNext, if_neg hmeet]
      exact hfront.update hl
    · intro a _
      rw [hunits]
    · rw [hunits]
    · intro P rest ht
      rw [hextent]
      exact ht

/-- What `slob_free` makes of the ring `free` and a block `b`, whatever else there is. -/
structure Freed (s s' : Slob M) (b : ℕ) (free free' : List ℕ) : Prop where
  list : FreeList s' free'
  tiling : ∀ (P : ℕ → Prop) (rest : List Block),
    Tiling P (s.extent b :: (free.map s.extent ++ rest)) → Tiling P (free'.map s'.extent ++ rest)
  units_eq : ∀ a, a ≠ b → a ∉ free → s'.units a = s.units a
  room : ∃ c ∈ free', s.units b ≤ s'.units c
  length_le : free'.length ≤ free.length + 1
  bigblocks_eq : s'.bigblocks = s.bigblocks
  pmm_eq : s'.pmm = s.pmm

/-- The state after `slob_free` found `x` in front of `b`. -/
def putIn (s : Slob M) (b x : ℕ) : Slob M :=
  { (s.joinNext b x).joinPrev b x with slobfree := x }

/-- A block between two neighbours keeps the order. -/
theorem sorted_between (h : (l ++ x :: r).Pairwise (· < ·)) (hxb : x < b) (hr : ∀ y ∈ r, b < y) :
    (l ++ x :: b :: r).Pairwise (· < ·) := by
  obtain ⟨hl, hrest, hcross⟩ := List.pairwise_append.mp h
  obtain ⟨hx, hrr⟩ := List.pairwise_cons.mp hrest
  apply List.pairwise_append.mpr
  refine ⟨hl, ?_, ?_⟩
  · apply List.pairwise_cons.mpr
    refine ⟨?_, List.pairwise_cons.mpr ⟨hr, hrr⟩⟩
    intro y hy
    rcases List.mem_cons.mp hy with rfl | hy
    · exact hxb
    · exact hx y hy
  · intro w hw y hy
    rcases List.mem_cons.mp hy with rfl | hy
    · exact hcross w hw y List.mem_cons_self
    · rcases List.mem_cons.mp hy with rfl | hy
      · exact Nat.lt_trans (hcross w hw x List.mem_cons_self) hxb
      · exact hcross w hw y (List.mem_cons_of_mem x hy)

/-- `putIn` where the block behind `b` has been dealt with and `b` does not meet `x`. -/
theorem putIn_apart (h : FreeList s (l ++ x :: r)) (hb : M.arena + slobUnit < b) (hxb : x < b)
    (hr : ∀ y ∈ r, b < y) (hl : b ∉ l) (hmeet : x + slobUnit * s.units x ≠ b) :
    ∃ free', Freed s (s.putIn b x) b (l ++ x :: r) free' := by
  have harena : M.arena < b := by omega
  obtain ⟨r', hsub, hleads, hfront, hunits, hroom, htile⟩ := joinNext_spec h harena hxb hr hl
  have hxeq : (s.joinNext b x).units x = s.units x := hunits x (Nat.ne_of_lt hxb)
  have hmeet' : ¬ x + slobUnit * (s.joinNext b x).units x = b := by
    rw [hxeq]
    exact hmeet
  have hunits' : (s.putIn b x).units = (s.joinNext b x).units := by
    rw [putIn, joinPrev, if_neg hmeet']
  have hextent : (s.putIn b x).extent = (s.joinNext b x).extent := by
    funext a
    rw [extent, extent, hunits']
  have hnext : (s.putIn b x).next = Function.update (s.joinNext b x).next x b := by
    rw [putIn, joinPrev, if_neg hmeet']
  have hsorted := h.sorted.sublist ((hsub.cons_cons x).append_left l)
  obtain ⟨-, hx, hcross⟩ := List.pairwise_append.mp hsorted
  have hxl : x ∉ l := fun hmem => Nat.lt_irrefl x (hcross x hmem x List.mem_cons_self)
  have hxr : x ∉ b :: r' := by
    intro hmem
    rcases List.mem_cons.mp hmem with heq | hmem
    · omega
    · exact Nat.lt_irrefl x ((List.pairwise_cons.mp hx).1 x hmem)
  refine ⟨l ++ x :: b :: r', ?_, ?_, ?_, ?_, ?_, ?_, ?_⟩
  · refine ⟨?_, ?_, ?_, sorted_between hsorted hxb (fun y hy => hr y (hsub.subset hy)), ?_⟩
    · have hfirst := h.first
      cases l with
      | nil => exact hfirst
      | cons y l => exact hfirst
    · rw [hunits', hunits M.arena (Nat.ne_of_lt harena)]
      exact h.arena_units
    · rw [hnext]
      exact leads_append.mpr ⟨hfront.update hxl, hleads.link hxr rfl⟩
    · exact List.mem_append_right l List.mem_cons_self
  · intro P rest ht
    rw [hextent]
    exact (htile P rest ht).perm ((perm_behind.symm.map _).append_right rest)
  · intro a hab _
    rw [hunits']
    exact hunits a hab
  · refine ⟨b, by simp, ?_⟩
    rw [hunits']
    exact hroom
  · have hlength := hsub.length_le
    simp only [List.length_append, List.length_cons]
    omega
  · rw [putIn, joinPrev, if_neg hmeet', joinNext]
    split <;> rfl
  · rw [putIn, joinPrev, if_neg hmeet', joinNext]
    split <;> rfl

/-- `putIn` where `b` becomes a part of `x`. -/
theorem putIn_meets (h : FreeList s (l ++ x :: r)) (hb : M.arena + slobUnit < b) (hxb : x < b)
    (hr : ∀ y ∈ r, b < y) (hl : b ∉ l) (hmeet : x + slobUnit * s.units x = b) :
    ∃ free', Freed s (s.putIn b x) b (l ++ x :: r) free' := by
  have harena : M.arena < b := by omega
  obtain ⟨r', hsub, hleads, hfront, hunits, hroom, htile⟩ := joinNext_spec h harena hxb hr hl
  have hxeq : (s.joinNext b x).units x = s.units x := hunits x (Nat.ne_of_lt hxb)
  have hmeet' : x + slobUnit * (s.joinNext b x).units x = b := by
    rw [hxeq]
    exact hmeet
  have hunits' : (s.putIn b x).units = Function.update (s.joinNext b x).units x
      ((s.joinNext b x).units x + (s.joinNext b x).units b) := by
    rw [putIn, joinPrev, if_pos hmeet']
  have hnext : (s.putIn b x).next =
      Function.update (s.joinNext b x).next x ((s.joinNext b x).next b) := by
    rw [putIn, joinPrev, if_pos hmeet']
  have hsorted := h.sorted.sublist ((hsub.cons_cons x).append_left l)
  obtain ⟨-, hx, hcross⟩ := List.pairwise_append.mp hsorted
  have hxl : x ∉ l := fun hmem => Nat.lt_irrefl x (hcross x hmem x List.mem_cons_self)
  have hxr : x ∉ r' := fun hmem => Nat.lt_irrefl x ((List.pairwise_cons.mp hx).1 x hmem)
  obtain ⟨hbnext, hrest⟩ := leads_cons.mp hleads
  have hself : (s.putIn b x).units x = s.units x + (s.joinNext b x).units b := by
    rw [hunits', Function.update_self, hxeq]
  have hkeep : ∀ a, a ≠ b → a ≠ x → (s.putIn b x).units a = s.units a := by
    intro a hab hax
    rw [hunits', Function.update_of_ne hax]
    exact hunits a hab
  refine ⟨l ++ x :: r', ?_, ?_, ?_, ?_, ?_, ?_, ?_⟩
  · refine ⟨?_, ?_, ?_, hsorted, List.mem_append_right l List.mem_cons_self⟩
    · have hfirst := h.first
      cases l with
      | nil => exact hfirst
      | cons y l => exact hfirst
    · have hne : M.arena ≠ x := by
        -- `arena` has one unit, and `b` lies behind it
        rintro rfl
        rw [h.arena_units] at hmeet
        omega
      rw [hkeep M.arena (Nat.ne_of_lt harena) hne]
      exact h.arena_units
    · rw [hnext]
      exact leads_append.mpr ⟨hfront.update hxl, hrest.link hxr hbnext⟩
  · intro P rest ht
    have hmiddle : (l ++ x :: r').Perm (x :: (l ++ r')) := List.perm_middle
    have hpull : ((s.joinNext b x).extent b :: ((l ++ x :: r').map (s.joinNext b x).extent ++ rest)).Perm
        ((s.joinNext b x).extent x :: (s.joinNext b x).extent b ::
          ((l ++ r').map (s.joinNext b x).extent ++ rest)) :=
      (((hmiddle.map _).append_right rest).cons _).trans (List.Perm.swap _ _ _)
    have hsame : (l ++ r').map (s.putIn b x).extent = (l ++ r').map (s.joinNext b x).extent := by
      apply map_extent
      intro a ha
      rw [hunits']
      apply Function.update_of_ne
      rintro rfl
      rcases List.mem_append.mp ha with ha | ha
      · exact hxl ha
      · exact hxr ha
    have hjoin := join_extent ((htile P rest ht).perm hpull) hmeet'
    rw [← hsame, ← Function.update_self x ((s.joinNext b x).units x + (s.joinNext b x).units b)
      (s.joinNext b x).units, ← hunits'] at hjoin
    exact hjoin.perm ((hmiddle.map (s.putIn b x).extent).append_right rest).symm
  · intro a hab hfree
    apply hkeep a hab
    rintro rfl
    exact hfree (List.mem_append_right l List.mem_cons_self)
  · refine ⟨x, List.mem_append_right l List.mem_cons_self, ?_⟩
    rw [hself]
    omega
  · have hlength := hsub.length_le
    simp only [List.length_append, List.length_cons]
    omega
  · rw [putIn, joinPrev, if_pos hmeet', joinNext]
    split <;> rfl
  · rw [putIn, joinPrev, if_pos hmeet', joinNext]
    split <;> rfl

/-- The units that the block has when `slob_free` looks for its place. -/
def marked (s : Slob M) (b size : ℕ) : Slob M :=
  if size ≠ 0 then { s with units := Function.update s.units b (slobUnits size) } else s

theorem marked_units_of_ne {a size : ℕ} (ha : a ≠ b) : (s.marked b size).units a = s.units a := by
  rw [marked]
  split
  · exact Function.update_of_ne ha _ _
  · rfl

theorem marked_freeList {size : ℕ} (h : FreeList s free) (hb : M.arena ≠ b) :
    FreeList (s.marked b size) free := by
  refine ⟨h.first, ?_, ?_, h.sorted, ?_⟩
  · rw [marked_units_of_ne hb]
    exact h.arena_units
  · rw [marked]
    split <;> exact h.linked
  · rw [marked]
    split <;> exact h.cursor

/-- `slob_free` puts in every block that lies behind `arena` and is not free. -/
theorem slobFree_freed (size : ℕ) (h : FreeList s free) (hb : M.arena + slobUnit < b)
    (hout : b ∉ free) : ∃ s' free', Freed (s.marked b size) s' b free free' ∧
      ∀ fuel, free.length ≤ fuel → slobFree fuel b size s = .ok s' := by
  have harena : M.arena < b := by omega
  have hmarked : FreeList (s.marked b size) free := marked_freeList h (Nat.ne_of_lt harena)
  obtain ⟨l, x, r, rfl, hxb, hr, hfound⟩ := hmarked.freeLoop_place harena hout
  have hl : b ∉ l := fun hmem => hout (List.mem_append_left _ hmem)
  have hfreed : ∃ free', Freed (s.marked b size) ((s.marked b size).putIn b x) b
      (l ++ x :: r) free' := by
    by_cases hmeet : x + slobUnit * (s.marked b size).units x = b
    · exact putIn_meets hmarked hb hxb hr hl hmeet
    · exact putIn_apart hmarked hb hxb hr hl hmeet
  obtain ⟨free', hfreed⟩ := hfreed
  refine ⟨_, free', hfreed, ?_⟩
  intro fuel hfuel
  have hb0 : b ≠ 0 := by omega
  rw [slobFree, if_neg hb0]
  change Except.map _ ((s.marked b size).freeLoop b fuel (s.marked b size).slobfree) = _
  rw [hfound fuel hfuel]
  rfl

end Ucore.Mm.Slob
