import Mathlib.Data.Nat.Bitwise
import Mathlib.Tactic.NormNum

/-!
Linear addresses and page table entries of the Sv39 layout (`mmu.h`,
`memlayout.h`, `pmm.h`). An entry is the 64-bit word of the source: ten flag
bits below the page number.
-/
namespace Ucore.Vm

def pgSize : ℕ := 4096
def pgShift : ℕ := 12
def ptSize : ℕ := pgSize * 512
def pdSize : ℕ := ptSize * 512
def ptePpnShift : ℕ := 10

def userBase : ℕ := 0x00200000
def userTop : ℕ := 0x80000000

/-- The page numbers of user addresses. -/
def userPages : ℕ := userTop / pgSize

def pteV : ℕ := 0x001
def pteR : ℕ := 0x002
def pteW : ℕ := 0x004
def pteX : ℕ := 0x008
def pteU : ℕ := 0x010
def pteUser : ℕ := pteR ||| pteW ||| pteX ||| pteU ||| pteV

/-- All flag bits of an entry. -/
def pteFlagLimit : ℕ := 2 ^ ptePpnShift

def roundDown (a n : ℕ) : ℕ := a - a % n
def roundUp (a n : ℕ) : ℕ := roundDown (a + n - 1) n

def pdx1 (la : ℕ) : ℕ := (la >>> 30) &&& 0x1FF
def pdx0 (la : ℕ) : ℕ := (la >>> 21) &&& 0x1FF
def ptx (la : ℕ) : ℕ := (la >>> 12) &&& 0x1FF

/-- `USER_ACCESS(start, end)` -/
def userAccess (start stop : ℕ) : Prop :=
  userBase ≤ start ∧ start < stop ∧ stop ≤ userTop

instance (start stop : ℕ) : Decidable (userAccess start stop) :=
  inferInstanceAs (Decidable (_ ∧ _ ∧ _))

/-- `pte_create`: a page number with permission bits, always valid. -/
def pteCreate (ppn type : ℕ) : ℕ := (ppn <<< ptePpnShift) ||| pteV ||| type

/-- The page number of an entry, `PPN(PTE_ADDR(pte))`. -/
def ptePpn (pte : ℕ) : ℕ := pte >>> ptePpnShift

/-- `perm & (~PTE_W)` on 32-bit permissions. -/
def permNoWrite (perm : ℕ) : ℕ := perm &&& (0xFFFFFFFF ^^^ pteW)

/-- A flag is set in an entry. -/
def hasFlag (pte flag : ℕ) : Bool := (pte &&& flag) != 0

theorem pdx1_eq (la : ℕ) : pdx1 la = la / 2 ^ 30 % 512 := by
  rw [pdx1, Nat.shiftRight_eq_div_pow]
  exact Nat.and_two_pow_sub_one_eq_mod _ 9

theorem pdx0_eq (la : ℕ) : pdx0 la = la / 2 ^ 21 % 512 := by
  rw [pdx0, Nat.shiftRight_eq_div_pow]
  exact Nat.and_two_pow_sub_one_eq_mod _ 9

theorem ptx_eq (la : ℕ) : ptx la = la / 2 ^ 12 % 512 := by
  rw [ptx, Nat.shiftRight_eq_div_pow]
  exact Nat.and_two_pow_sub_one_eq_mod _ 9

/-- Within the user range, the three indices identify the page of an address. -/
theorem page_eq_of_index {a b : ℕ} (ha : a < userTop) (hb : b < userTop)
    (h1 : pdx1 a = pdx1 b) (h0 : pdx0 a = pdx0 b) (ht : ptx a = ptx b) :
    a / pgSize = b / pgSize := by
  rw [pdx1_eq, pdx1_eq] at h1
  rw [pdx0_eq, pdx0_eq] at h0
  rw [ptx_eq, ptx_eq] at ht
  unfold userTop at ha hb
  unfold pgSize
  omega

/-- The indices of an address depend on its page only. -/
theorem index_of_page_eq {a b : ℕ} (h : a / pgSize = b / pgSize) :
    pdx1 a = pdx1 b ∧ pdx0 a = pdx0 b ∧ ptx a = ptx b := by
  rw [pdx1_eq, pdx1_eq, pdx0_eq, pdx0_eq, ptx_eq, ptx_eq]
  unfold pgSize at h
  omega

theorem page_mul_div (v : ℕ) : v * pgSize / pgSize = v :=
  Nat.mul_div_cancel v (by unfold pgSize; omega)

theorem page_lt_userPages {la : ℕ} (h : la < userTop) : la / pgSize < userPages := by
  unfold userPages
  unfold userTop pgSize at *
  omega

theorem mul_page_lt_userTop {v : ℕ} (h : v < userPages) : v * pgSize < userTop := by
  unfold userPages at h
  unfold userTop pgSize at *
  omega

theorem hasFlag_two_pow (pte i : ℕ) : hasFlag pte (2 ^ i) = pte.testBit i := by
  unfold hasFlag
  rw [Nat.and_two_pow]
  cases h : pte.testBit i <;> simp

theorem pteCreate_testBit (ppn type i : ℕ) :
    (pteCreate ppn type).testBit i =
      ((decide (10 ≤ i) && ppn.testBit (i - 10)) || decide (i = 0) || type.testBit i) := by
  unfold pteCreate pteV ptePpnShift
  rw [Nat.testBit_or, Nat.testBit_or, Nat.testBit_shiftLeft]
  have h1 : Nat.testBit 1 i = decide (i = 0) := by
    cases i with
    | zero => rfl
    | succ i => simp [Nat.testBit_succ]
  rw [h1]

theorem ptePpn_create {ppn type : ℕ} (ht : type < pteFlagLimit) :
    ptePpn (pteCreate ppn type) = ppn := by
  apply Nat.eq_of_testBit_eq
  intro i
  unfold ptePpn ptePpnShift
  rw [Nat.testBit_shiftRight, pteCreate_testBit]
  have hti : type.testBit (10 + i) = false := by
    apply Nat.testBit_lt_two_pow
    calc type < 2 ^ 10 := ht
      _ ≤ 2 ^ (10 + i) := Nat.pow_le_pow_right (by omega) (by omega)
  have hge : 10 ≤ 10 + i := by omega
  simp [hti, hge]

@[simp] theorem hasFlag_create_valid (ppn type : ℕ) :
    hasFlag (pteCreate ppn type) pteV = true := by
  rw [show pteV = 2 ^ 0 from rfl, hasFlag_two_pow, pteCreate_testBit]
  simp

theorem hasFlag_create {ppn type i : ℕ} (hi : 0 < i) (hi' : i < 10) :
    hasFlag (pteCreate ppn type) (2 ^ i) = hasFlag type (2 ^ i) := by
  rw [hasFlag_two_pow, hasFlag_two_pow, pteCreate_testBit]
  have hge : ¬ 10 ≤ i := by omega
  have hne : ¬ i = 0 := by omega
  simp [hge, hne]

@[simp] theorem hasFlag_create_write (ppn type : ℕ) :
    hasFlag (pteCreate ppn type) pteW = hasFlag type pteW :=
  hasFlag_create (i := 2) (by omega) (by omega)

@[simp] theorem hasFlag_create_read (ppn type : ℕ) :
    hasFlag (pteCreate ppn type) pteR = hasFlag type pteR :=
  hasFlag_create (i := 1) (by omega) (by omega)

@[simp] theorem hasFlag_create_user (ppn type : ℕ) :
    hasFlag (pteCreate ppn type) pteU = hasFlag type pteU :=
  hasFlag_create (i := 4) (by omega) (by omega)

theorem hasFlag_or (a b i : ℕ) :
    hasFlag (a ||| b) (2 ^ i) = (hasFlag a (2 ^ i) || hasFlag b (2 ^ i)) := by
  simp only [hasFlag_two_pow, Nat.testBit_or]

theorem hasFlag_and (a b i : ℕ) :
    hasFlag (a &&& b) (2 ^ i) = (hasFlag a (2 ^ i) && hasFlag b (2 ^ i)) := by
  simp only [hasFlag_two_pow, Nat.testBit_and]

@[simp] theorem hasFlag_permNoWrite_write (perm : ℕ) :
    hasFlag (permNoWrite perm) pteW = false := by
  rw [permNoWrite, show pteW = 2 ^ 2 from rfl, hasFlag_and,
    show hasFlag (0xFFFFFFFF ^^^ 2 ^ 2) (2 ^ 2) = false from by decide, Bool.and_false]

@[simp] theorem hasFlag_permNoWrite_read (perm : ℕ) :
    hasFlag (permNoWrite perm) pteR = hasFlag perm pteR := by
  rw [permNoWrite, show pteR = 2 ^ 1 from rfl, hasFlag_and,
    show hasFlag (0xFFFFFFFF ^^^ pteW) (2 ^ 1) = true from by decide, Bool.and_true]

@[simp] theorem hasFlag_permNoWrite_user (perm : ℕ) :
    hasFlag (permNoWrite perm) pteU = hasFlag perm pteU := by
  rw [permNoWrite, show pteU = 2 ^ 4 from rfl, hasFlag_and,
    show hasFlag (0xFFFFFFFF ^^^ pteW) (2 ^ 4) = true from by decide, Bool.and_true]

@[simp] theorem hasFlag_and_pteUser_write (pte : ℕ) :
    hasFlag (pte &&& pteUser) pteW = hasFlag pte pteW := by
  rw [show pteW = 2 ^ 2 from rfl, hasFlag_and,
    show hasFlag pteUser (2 ^ 2) = true from by decide, Bool.and_true]

@[simp] theorem hasFlag_and_pteUser_read (pte : ℕ) :
    hasFlag (pte &&& pteUser) pteR = hasFlag pte pteR := by
  rw [show pteR = 2 ^ 1 from rfl, hasFlag_and,
    show hasFlag pteUser (2 ^ 1) = true from by decide, Bool.and_true]

@[simp] theorem hasFlag_and_pteUser_user (pte : ℕ) :
    hasFlag (pte &&& pteUser) pteU = hasFlag pte pteU := by
  rw [show pteU = 2 ^ 4 from rfl, hasFlag_and,
    show hasFlag pteUser (2 ^ 4) = true from by decide, Bool.and_true]

theorem or_lt_flagLimit {a b : ℕ} (ha : a < pteFlagLimit) (hb : b < pteFlagLimit) :
    a ||| b < pteFlagLimit := Nat.or_lt_two_pow ha hb

@[simp] theorem not_hasFlag_zero (flag : ℕ) : hasFlag 0 flag = false := by
  simp [hasFlag]

end Ucore.Vm
