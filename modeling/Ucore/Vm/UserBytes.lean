import Ucore.Vm.LoadIcode

/-!
The bytes that an address space shows at its user addresses, and what mapping a fresh page and
writing to it through its kernel address do to them.
-/
namespace Ucore.Vm

namespace Mem

variable {M : PmmManager} {K F : Set ℕ} {m m' : Mem M} {pd la page va : ℕ}

/-- The byte at a user address, if a page is mapped there. -/
def userByte (m : Mem M) (pd va : ℕ) : Option UInt8 :=
  if va < userTop ∧ hasFlag (m.entry pd va) pteV = true then
    some (m.data (ptePpn (m.entry pd va)) (va % pgSize))
  else none

theorem userByte_eq_view (hva : va < userTop) :
    m.userByte pd va = (m.view pd va).map fun w => w.2 (va % pgSize) := by
  unfold userByte view
  by_cases hv : hasFlag (m.entry pd va) pteV = true
  · rw [if_pos ⟨hva, hv⟩, if_pos hv]
    rfl
  · rw [if_neg fun h => hv h.2, if_neg hv]
    rfl

theorem userByte_of_view (hva : va < userTop) (hview : m'.view pd va = m.view pd va) :
    m'.userByte pd va = m.userByte pd va := by
  rw [userByte_eq_view hva, userByte_eq_view hva, hview]

theorem userByte_of_le (h : userTop ≤ va) : m.userByte pd va = none :=
  if_neg fun hbad => absurd hbad.1 (Nat.not_lt.mpr h)

/-- The page is mapped at `la`, and nowhere else in this address space. -/
structure PageAt (m : Mem M) (pd la page : ℕ) : Prop where
  below : la < userTop
  valid : hasFlag (m.entry pd la) pteV = true
  ppn : ptePpn (m.entry pd la) = page
  alone : ∀ x, x < userTop → hasFlag (m.entry pd x) pteV = true →
    ptePpn (m.entry pd x) = page → x / pgSize = la / pgSize

theorem entry_of_page {x : ℕ} (h : x / pgSize = la / pgSize) : m.entry pd x = m.entry pd la := by
  rw [← entry_page m pd x, h, entry_page]

theorem PageAt.userByte (h : m.PageAt pd la page) (hva : va / pgSize = la / pgSize) :
    m.userByte pd va = some (m.data page (va % pgSize)) := by
  have hbelow := h.below
  have hlt : va < userTop := by
    unfold userTop pgSize at *
    omega
  unfold Mem.userByte
  rw [entry_of_page hva, if_pos ⟨hlt, h.valid⟩, h.ppn]

theorem PageAt.congr {x : ℕ} (h : m.PageAt pd la page) (hx : x / pgSize = la / pgSize) :
    m.PageAt pd x page := by
  have hbelow := h.below
  refine ⟨?_, ?_, ?_, ?_⟩
  · unfold userTop pgSize at *
    omega
  · rw [entry_of_page hx]
    exact h.valid
  · rw [entry_of_page hx]
    exact h.ppn
  · intro y hy hv hppn
    exact (h.alone y hy hv hppn).trans hx.symm

/-- `pgdir_alloc_page` maps a page that nobody else has, and changes no other byte. -/
theorem RefInv.pgdirAllocPage_bytes (hi : m.RefInv K F) {perm : ℕ} (hla : la < userTop)
    (hperm : perm < pteFlagLimit) (h : m.pgdirAllocPage pd la perm = some (some page, m')) :
    m'.RefInv K F ∧ m'.PageAt pd la page ∧
      ∀ va, va / pgSize ≠ la / pgSize → m'.userByte pd va = m.userByte pd va := by
  obtain ⟨hi', ⟨hr, -⟩ | ⟨p, hp, hfree, hc⟩⟩ := hi.pgdirAllocPage_cases hla hperm h
  · exact absurd hr (Option.some_ne_none _)
  · obtain rfl := Option.some.inj hp
    have hlimit : pteV ||| perm < pteFlagLimit := or_lt_flagLimit (by decide) hperm
    have hentry : m'.entry pd la = pteCreate page (pteV ||| perm) := by
      rw [hc.entry pd la hla, if_pos ⟨rfl, rfl⟩]
    refine ⟨hi', ⟨hla, ?_, ?_, ?_⟩, ?_⟩
    · rw [hentry]
      exact hasFlag_create_valid _ _
    · rw [hentry]
      exact ptePpn_create hlimit
    · intro x hx hv hppn
      by_contra hne
      -- an older entry would point to a free page
      have hold := hc.entry pd x hx
      rw [if_neg fun hbad => hne hbad.2] at hold
      rw [hold] at hv hppn
      exact hi.not_free_of_valid hx hv (hppn ▸ hfree)
    · intro va hne
      by_cases hva : va < userTop
      · exact userByte_of_view hva (hi.view_changed hc hva fun hbad => hne hbad.2)
      · rw [userByte_of_le (Nat.le_of_not_lt hva), userByte_of_le (Nat.le_of_not_lt hva)]

/-- A write through the kernel address of a page that is mapped once. -/
theorem PageAt.userByte_writePage (h : m.PageAt pd la page) (off size : ℕ) (src : ℕ → UInt8)
    (pos va : ℕ) : (m.writePage page off size src pos).userByte pd va =
      if va / pgSize = la / pgSize ∧ off ≤ va % pgSize ∧ va % pgSize < off + size then
        some (src (pos + (va % pgSize - off)))
      else m.userByte pd va := by
  have hentry : ∀ x, (m.writePage page off size src pos).entry pd x = m.entry pd x := fun _ => rfl
  by_cases hva : va / pgSize = la / pgSize
  · have hbelow := h.below
    have hlt : va < userTop := by
      unfold userTop pgSize at *
      omega
    rw [h.userByte hva]
    unfold Mem.userByte
    rw [hentry, entry_of_page hva, if_pos ⟨hlt, h.valid⟩, h.ppn]
    simp only [writePage, Function.update_self, hva, true_and]
    exact apply_ite some _ _ _
  · rw [if_neg fun hbad => hva hbad.1]
    unfold Mem.userByte
    rw [hentry]
    by_cases hv : va < userTop ∧ hasFlag (m.entry pd va) pteV = true
    · have hne : ptePpn (m.entry pd va) ≠ page := fun heq => hva (h.alone va hv.1 hv.2 heq)
      rw [if_pos hv, if_pos hv]
      simp only [writePage, Function.update_of_ne hne]
    · rw [if_neg hv, if_neg hv]

theorem PageAt.writePage (h : m.PageAt pd la page) (p off size : ℕ) (src : ℕ → UInt8) (pos : ℕ) :
    (m.writePage p off size src pos).PageAt pd la page :=
  ⟨h.below, h.valid, h.ppn, h.alone⟩

/-- A page stays where it is when another address gets a page. -/
theorem PageAt.pgdirAllocPage (h : m.PageAt pd la page) (hi : m.RefInv K F) {la' perm : ℕ}
    {r : Option ℕ} (hla' : la' < userTop) (hne : la' / pgSize ≠ la / pgSize)
    (hperm : perm < pteFlagLimit) (ha : m.pgdirAllocPage pd la' perm = some (r, m')) :
    m'.PageAt pd la page := by
  obtain ⟨-, ⟨-, hs⟩ | ⟨p, -, hfree, hc⟩⟩ := hi.pgdirAllocPage_cases hla' hperm ha
  · refine ⟨h.below, ?_, ?_, ?_⟩
    · rw [hs.entry pd la]
      exact h.valid
    · rw [hs.entry pd la]
      exact h.ppn
    · intro x hx hv hppn
      rw [hs.entry pd x] at hv hppn
      exact h.alone x hx hv hppn
  · have hold : ∀ x, x < userTop → x / pgSize ≠ la' / pgSize → m'.entry pd x = m.entry pd x := by
      intro x hx hxne
      rw [hc.entry pd x hx, if_neg fun hbad => hxne hbad.2]
    have hsame := hold la h.below hne.symm
    have hpage : page ≠ p := by
      intro heq
      refine hi.not_free_of_valid h.below h.valid ?_
      rw [h.ppn, heq]
      exact hfree
    refine ⟨h.below, ?_, ?_, ?_⟩
    · rw [hsame]
      exact h.valid
    · rw [hsame]
      exact h.ppn
    · intro x hx hv hppn
      by_cases hnew : x / pgSize = la' / pgSize
      · have hentry := hc.entry pd x hx
        rw [if_pos ⟨rfl, hnew⟩] at hentry
        rw [hentry, ptePpn_create (or_lt_flagLimit (by decide) hperm)] at hppn
        exact absurd hppn.symm hpage
      · rw [hold x hx hnew] at hv hppn
        exact h.alone x hx hv hppn

/-- A page that is cleared through its kernel address. -/
theorem PageAt.userByte_clearPage (h : m.PageAt pd la page) (va : ℕ) :
    (m.clearPage page).userByte pd va =
      if va / pgSize = la / pgSize then some 0 else m.userByte pd va := by
  have hentry : ∀ x, (m.clearPage page).entry pd x = m.entry pd x := fun _ => rfl
  by_cases hva : va / pgSize = la / pgSize
  · have hat : (m.clearPage page).PageAt pd la page := ⟨h.below, h.valid, h.ppn, h.alone⟩
    rw [hat.userByte hva, if_pos hva]
    simp only [clearPage, Function.update_self]
  · rw [if_neg hva]
    unfold Mem.userByte
    rw [hentry]
    by_cases hv : va < userTop ∧ hasFlag (m.entry pd va) pteV = true
    · have hne : ptePpn (m.entry pd va) ≠ page := fun heq => hva (h.alone va hv.1 hv.2 heq)
      rw [if_pos hv, if_pos hv]
      simp only [clearPage, Function.update_of_ne hne]
    · rw [if_neg hv, if_neg hv]

theorem PageAt.clearPage (h : m.PageAt pd la page) (p : ℕ) : (m.clearPage p).PageAt pd la page :=
  ⟨h.below, h.valid, h.ppn, h.alone⟩

end Mem
end Ucore.Vm
