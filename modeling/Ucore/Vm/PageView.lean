import Ucore.Vm.PageOps

/-!
An address space as its process sees it: for every page the user permissions and
the bytes. Operations on one address space leave the views of all others alone,
although they share physical pages.
-/
namespace Ucore.Vm

open Library

/-- The user permissions and the bytes of a mapped page. -/
abbrev PageView := Option (ℕ × (ℕ → UInt8))

namespace PageView

/-- The same page without write permission. -/
def strip (v : PageView) : PageView := v.map (fun w => (permNoWrite w.1, w.2))

/-- The same page with write permission. -/
def promote (v : PageView) : PageView := v.map (fun w => (w.1 ||| pteW, w.2))

@[simp] theorem strip_none : strip none = none := rfl

@[simp] theorem strip_strip (v : PageView) : v.strip.strip = v.strip := by
  cases v with
  | none => rfl
  | some w =>
    simp only [strip, Option.map_some, permNoWrite, Nat.and_assoc, Nat.and_self]

@[simp] theorem isSome_strip (v : PageView) : (strip v).isSome = v.isSome := by
  cases v <;> rfl

end PageView

theorem pteUser_testBit (i : ℕ) : pteUser.testBit i = decide (i < 5) :=
  Nat.testBit_two_pow_sub_one 5 i

/-- The user permissions of an entry made from user permissions. -/
theorem create_and_pteUser {ppn perm : ℕ} (hlt : perm < 2 ^ 5) (hv : perm.testBit 0 = true) :
    pteCreate ppn (pteV ||| perm) &&& pteUser = perm := by
  apply Nat.eq_of_testBit_eq
  intro i
  rw [Nat.testBit_and, pteCreate_testBit, pteUser_testBit, Nat.testBit_or]
  by_cases hi : i < 5
  · have hge : ¬ 10 ≤ i := by omega
    have h1 : pteV.testBit i = decide (i = 0) := by
      unfold pteV
      cases i with
      | zero => rfl
      | succ i => simp [Nat.testBit_succ]
    rw [h1]
    by_cases h0 : i = 0
    · subst h0
      simp [hv]
    · simp [hge, h0, hi]
  · have hperm : perm.testBit i = false := by
      apply Nat.testBit_lt_two_pow
      calc perm < 2 ^ 5 := hlt
        _ ≤ 2 ^ i := Nat.pow_le_pow_right (by omega) (by omega)
    simp [hi, hperm]

theorem and_pteUser_lt_user (e : ℕ) : e &&& pteUser < 2 ^ 5 :=
  lt_of_le_of_lt Nat.and_le_right (by decide)

theorem and_pteUser_testBit_zero {e : ℕ} (hv : hasFlag e pteV = true) :
    (e &&& pteUser).testBit 0 = true := by
  rw [Nat.testBit_and, pteUser_testBit, ← hasFlag_two_pow]
  simpa [pteV] using hv

theorem permNoWrite_testBit_zero {perm : ℕ} (hv : perm.testBit 0 = true) :
    (permNoWrite perm).testBit 0 = true := by
  unfold permNoWrite
  rw [Nat.testBit_and, hv]
  decide

theorem permNoWrite_lt_user {perm : ℕ} (h : perm < 2 ^ 5) : permNoWrite perm < 2 ^ 5 :=
  lt_of_le_of_lt Nat.and_le_left h

theorem or_pteW_lt_user {perm : ℕ} (h : perm < 2 ^ 5) : perm ||| pteW < 2 ^ 5 :=
  Nat.or_lt_two_pow h (by decide)

theorem or_pteW_testBit_zero {perm : ℕ} (hv : perm.testBit 0 = true) :
    (perm ||| pteW).testBit 0 = true := by
  rw [Nat.testBit_or, hv]
  rfl

theorem lt_pteFlagLimit_of_user {perm : ℕ} (h : perm < 2 ^ 5) : perm < pteFlagLimit :=
  h.trans (by decide)

namespace Mem

variable {M : PmmManager} {K F : Set ℕ} {m m' : Mem M}

def view (m : Mem M) (pd la : ℕ) : PageView :=
  if hasFlag (m.entry pd la) pteV then
    some (m.entry pd la &&& pteUser, m.data (ptePpn (m.entry pd la)))
  else none

theorem view_of_no_pgdir {pd : ℕ} (h : m.pgdir pd = none) (la : ℕ) : m.view pd la = none := by
  unfold view entry
  rw [h]
  simp

theorem isSome_view {pd la : ℕ} : (m.view pd la).isSome = hasFlag (m.entry pd la) pteV := by
  unfold view
  split <;> simp_all

theorem hasTable_of_valid {pd la : ℕ} (hv : hasFlag (m.entry pd la) pteV = true) :
    m.HasTable pd la := by
  by_contra h
  rw [RefInv.entry_of_no_table h] at hv
  simp at hv

theorem holds_of_valid {pd la : ℕ} (hv : hasFlag (m.entry pd la) pteV = true) :
    m.holds (pd, la / pgSize) = some (ptePpn (m.entry pd la)) := by
  rw [holds_eq_some_iff, entry_page]
  exact ⟨hv, rfl⟩

theorem RefInv.mem_slots_of_valid (hi : RefInv K F m) {pd la : ℕ} (hla : la < userTop)
    (hv : hasFlag (m.entry pd la) pteV = true) : (pd, la / pgSize) ∈ slots M :=
  mem_slots (hi.pgdir_lt (hasTable_of_valid hv)) hla

theorem RefInv.mapCount_pos_of_valid (hi : RefInv K F m) {pd la : ℕ} (hla : la < userTop)
    (hv : hasFlag (m.entry pd la) pteV = true) : 0 < m.mapCount (ptePpn (m.entry pd la)) :=
  holders_pos_iff.mpr ⟨_, hi.mem_slots_of_valid hla hv, holds_of_valid hv⟩

theorem RefInv.not_free_of_valid (hi : RefInv K F m) {pd la : ℕ} (hla : la < userTop)
    (hv : hasFlag (m.entry pd la) pteV = true) : ¬ m.IsFree (ptePpn (m.entry pd la)) :=
  (hi.busy_of_mapped (hi.mapCount_pos_of_valid hla hv)).2.2

/-- A view depends on the entry and on the bytes of a page in use. -/
theorem RefInv.view_congr (hi : RefInv K F m) {pd la : ℕ} (hla : la < userTop)
    (hentry : m'.entry pd la = m.entry pd la)
    (hdata : ∀ p, ¬ m.IsFree p → m'.data p = m.data p) : m'.view pd la = m.view pd la := by
  unfold view
  rw [hentry]
  by_cases hv : hasFlag (m.entry pd la) pteV
  · rw [hdata _ (hi.not_free_of_valid hla hv)]
  · simp [hv]

theorem RefInv.view_same (hi : RefInv K F m) (h : SameMap m m') {pd la : ℕ} (hla : la < userTop) :
    m'.view pd la = m.view pd la :=
  hi.view_congr hla (h.entry pd la) h.data

theorem RefInv.view_changed (hi : RefInv K F m) {pd la v pd' la' : ℕ} (h : Changed m m' pd la v)
    (hla' : la' < userTop) (hne : ¬ (pd' = pd ∧ la' / pgSize = la / pgSize)) :
    m'.view pd' la' = m.view pd' la' := by
  apply hi.view_congr hla' _ h.data
  rw [h.entry pd' la' hla', if_neg hne]

/-- The view of the changed entry itself. -/
theorem Changed.view_self {pd la ppn perm la' : ℕ}
    (h : Changed m m' pd la (pteCreate ppn (pteV ||| perm))) (hla' : la' < userTop)
    (hpage : la' / pgSize = la / pgSize) (hlt : perm < 2 ^ 5) (hv : perm.testBit 0 = true) :
    m'.view pd la' = some (perm, m'.data ppn) := by
  have hentry := h.entry pd la' hla'
  rw [if_pos ⟨rfl, hpage⟩] at hentry
  have hperm : pteV ||| perm < pteFlagLimit :=
    or_lt_flagLimit (by decide) (lt_pteFlagLimit_of_user hlt)
  unfold view
  rw [hentry, if_pos (hasFlag_create_valid _ _), create_and_pteUser hlt hv,
    ptePpn_create hperm]

theorem Changed.view_zero {pd la la' : ℕ} (h : Changed m m' pd la 0) (hla' : la' < userTop)
    (hpage : la' / pgSize = la / pgSize) : m'.view pd la' = none := by
  have hentry := h.entry pd la' hla'
  rw [if_pos ⟨rfl, hpage⟩] at hentry
  unfold view
  rw [hentry]
  simp

theorem view_eq_of_page {pd la la' : ℕ} (h : la / pgSize = la' / pgSize) :
    m.view pd la = m.view pd la' := by
  have hentry : m.entry pd la = m.entry pd la' := by
    rw [← entry_page, h, entry_page]
  unfold view
  rw [hentry]

/-- Nothing in the invariant depends on the bytes of pages. -/
theorem RefInv.of_data (hi : RefInv K F m) (data : ℕ → ℕ → UInt8) :
    RefInv K F { m with data := data } :=
  ⟨hi.counted, hi.held_lt, hi.fresh, hi.table, hi.table_inj, hi.kept⟩

/-- The page of an exclusive entry is in no other view. -/
theorem RefInv.exclusive (hi : RefInv K F m) {pd la pd' la' : ℕ} (hla : la < userTop)
    (hla' : la' < userTop) (hv : hasFlag (m.entry pd la) pteV = true)
    (hw : hasFlag (m.entry pd la) pteW = true)
    (hv' : hasFlag (m.entry pd' la') pteV = true)
    (hpage : ptePpn (m.entry pd' la') = ptePpn (m.entry pd la)) :
    pd' = pd ∧ la' / pgSize = la / pgSize := by
  have hk := hi.mem_slots_of_valid hla hv
  have hwrite : m.Writable (pd, la / pgSize) := by
    unfold Writable slotEntry
    rw [entry_page]
    exact ⟨hv, hw⟩
  have hone := hi.counted.alone _ hk hwrite _ (holds_of_valid hv)
  have heq := eq_of_holders_eq_one hone (hi.mem_slots_of_valid hla' hv') hk
    (hpage ▸ holds_of_valid hv') (holds_of_valid hv)
  exact Prod.mk.inj heq

end Mem
end Ucore.Vm
