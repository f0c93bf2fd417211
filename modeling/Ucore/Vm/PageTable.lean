import Ucore.Vm.PageEntry

/-!
Page tables of user address spaces and the operations of `pmm.c` on them. A
directory is the tree that the table pages form in memory; every table keeps the
number of the page it occupies. The page allocator is the `pmm_manager` class of
`pmm.h`, with the contract its members are documented to meet. `none` as the
outcome of an operation is a failed assertion, which halts the kernel, or the use
of a page directory that does not exist.
-/
namespace Ucore.Vm

def eInval : ℤ := 3
def eNoMem : ℤ := 4

/-- The physical page manager: single pages leave and enter its free set. -/
structure PmmManager where
  State : Type
  npage : ℕ
  allocPage : State → Option (ℕ × State)
  freePage : State → ℕ → State
  IsFree : State → ℕ → Prop
  lt_npage : ∀ s p, IsFree s p → p < npage
  alloc_isFree : ∀ s p s', allocPage s = some (p, s') → IsFree s p
  alloc_iff : ∀ s p s', allocPage s = some (p, s') →
    ∀ q, IsFree s' q ↔ IsFree s q ∧ q ≠ p
  free_iff : ∀ s p, ¬ IsFree s p → p < npage →
    ∀ q, IsFree (freePage s p) q ↔ IsFree s q ∨ q = p

/-- A last-level table: 512 entries in the page `page`. -/
structure PageTable where
  page : ℕ
  pte : ℕ → ℕ

/-- A middle-level table; a missing table is an entry without `PTE_V`. -/
structure PageDirectory where
  page : ℕ
  pde0 : ℕ → Option PageTable

/-- The user part of a page directory table. -/
structure Pgdir where
  pde1 : ℕ → Option PageDirectory

namespace Pgdir

def empty : Pgdir := ⟨fun _ => none⟩

def table (d : Pgdir) (la : ℕ) : Option PageTable :=
  (d.pde1 (pdx1 la)).bind (fun t => t.pde0 (pdx0 la))

/-- The entry for a linear address, zero where no table exists. -/
def entry (d : Pgdir) (la : ℕ) : ℕ := ((d.table la).map (fun t => t.pte (ptx la))).getD 0

def setPde1 (d : Pgdir) (la : ℕ) (t : PageDirectory) : Pgdir :=
  ⟨Function.update d.pde1 (pdx1 la) (some t)⟩

def setPde0 (d : Pgdir) (la : ℕ) (t : PageTable) : Pgdir :=
  match d.pde1 (pdx1 la) with
  | none => d
  | some dir => d.setPde1 la { dir with pde0 := Function.update dir.pde0 (pdx0 la) (some t) }

def setEntry (d : Pgdir) (la v : ℕ) : Pgdir :=
  match d.table la with
  | none => d
  | some t => d.setPde0 la { t with pte := Function.update t.pte (ptx la) v }

end Pgdir

/-- Physical memory: the allocator, the counts and contents of pages, and the page
directories, each under the number of its own page. -/
structure Mem (M : PmmManager) where
  pmm : M.State
  ref : ℕ → ℤ
  data : ℕ → ℕ → UInt8
  pgdir : ℕ → Option Pgdir

namespace Mem

variable {M : PmmManager}

def IsFree (m : Mem M) (p : ℕ) : Prop := M.IsFree m.pmm p

def allocPage (m : Mem M) : Option (ℕ × Mem M) :=
  (M.allocPage m.pmm).map (fun r => (r.1, { m with pmm := r.2 }))

/-- `free_page`; every manager's `free_pages` ends with `set_page_ref(p, 0)`. -/
def freePage (m : Mem M) (p : ℕ) : Mem M :=
  { m with pmm := M.freePage m.pmm p, ref := Function.update m.ref p 0 }

def setPageRef (m : Mem M) (p : ℕ) (v : ℤ) : Mem M :=
  { m with ref := Function.update m.ref p v }

def pageRefInc (m : Mem M) (p : ℕ) : Mem M := m.setPageRef p (m.ref p + 1)

def pageRefDec (m : Mem M) (p : ℕ) : Mem M := m.setPageRef p (m.ref p - 1)

/-- `memset(page2kva(page), 0, PGSIZE)` -/
def clearPage (m : Mem M) (p : ℕ) : Mem M :=
  { m with data := Function.update m.data p (fun _ => 0) }

/-- `memcpy(page2kva(dst), page2kva(src), PGSIZE)` -/
def copyPage (m : Mem M) (dst src : ℕ) : Mem M :=
  { m with data := Function.update m.data dst (m.data src) }

def setPgdir (m : Mem M) (pd : ℕ) (d : Pgdir) : Mem M :=
  { m with pgdir := Function.update m.pgdir pd (some d) }

/-- The value `*ptep` for an address of a directory, zero where there is no table. -/
def entry (m : Mem M) (pd la : ℕ) : ℕ := ((m.pgdir pd).map (fun d => d.entry la)).getD 0

/-- `*ptep = v` -/
def setEntry (m : Mem M) (pd la v : ℕ) : Mem M :=
  match m.pgdir pd with
  | none => m
  | some d => m.setPgdir pd (d.setEntry la v)

/-- A zeroed page for a table, with one reference. -/
def allocTablePage (m : Mem M) : Option (ℕ × Mem M) :=
  m.allocPage.map (fun r => (r.1, (r.2.setPageRef r.1 1).clearPage r.1))

/-- First half of `get_pte`: the middle-level table exists afterwards, or the
result is false. -/
def getPde1 (m : Mem M) (pd la : ℕ) (create : Bool) : Option (Bool × Mem M) := do
  let d ← m.pgdir pd
  if (d.pde1 (pdx1 la)).isSome then some (true, m)
  else if !create then some (false, m)
  else match m.allocTablePage with
    | none => some (false, m)
    | some (page, m') => some (true, m'.setPgdir pd (d.setPde1 la ⟨page, fun _ => none⟩))

/-- Second half of `get_pte`: the last-level table. -/
def getPde0 (m : Mem M) (pd la : ℕ) (create : Bool) : Option (Bool × Mem M) := do
  let d ← m.pgdir pd
  if (d.table la).isSome then some (true, m)
  else if !create then some (false, m)
  else match m.allocTablePage with
    | none => some (false, m)
    | some (page, m') => some (true, m'.setPgdir pd (d.setPde0 la ⟨page, fun _ => 0⟩))

/-- The first component says whether the returned pointer is not `NULL`. -/
def getPte (m : Mem M) (pd la : ℕ) (create : Bool) : Option (Bool × Mem M) := do
  let (ok, m) ← m.getPde1 pd la create
  if ok then m.getPde0 pd la create else some (false, m)

def pageRemovePte (m : Mem M) (pd la : ℕ) : Mem M :=
  if hasFlag (m.entry pd la) pteV then
    let page := ptePpn (m.entry pd la)
    let m := m.pageRefDec page
    let m := if m.ref page = 0 then m.freePage page else m
    m.setEntry pd la 0
  else m

def pageRemove (m : Mem M) (pd la : ℕ) : Option (Mem M) := do
  let (ok, m) ← m.getPte pd la false
  if ok then some (m.pageRemovePte pd la) else some m

def pageInsert (m : Mem M) (pd page la perm : ℕ) : Option (ℤ × Mem M) := do
  let (ok, m) ← m.getPte pd la true
  if !ok then some (-eNoMem, m)
  else
    let m := m.pageRefInc page
    let m := if hasFlag (m.entry pd la) pteV then
        if ptePpn (m.entry pd la) = page then m.pageRefDec page else m.pageRemovePte pd la
      else m
    some (0, m.setEntry pd la (pteCreate page (pteV ||| perm)))

def pgdirAllocPage (m : Mem M) (pd la perm : ℕ) : Option (Option ℕ × Mem M) :=
  match m.allocPage with
  | none => some (none, m)
  | some (page, m) => do
    let (r, m) ← m.pageInsert pd page la perm
    if r ≠ 0 then some (none, m.freePage page)
    else if m.ref page = 1 then some (some page, m) else none

/-- One turn of the loop of `unmap_range`: the next address and the memory. -/
def unmapStep (m : Mem M) (pd start : ℕ) : Option (ℕ × Mem M) := do
  let (ok, m) ← m.getPte pd start false
  if !ok then some (roundDown (start + ptSize) ptSize, m)
  else
    let m := if m.entry pd start ≠ 0 then m.pageRemovePte pd start else m
    some (start + pgSize, m)

/-- The body of the loop of `copy_range` for one page that is valid in `from`:
share it without write permission, or copy it. -/
def copyPte (share : Bool) (m : Mem M) (dst src start : ℕ) : Option (ℤ × Mem M) :=
  let perm := m.entry src start &&& pteUser
  let page := ptePpn (m.entry src start)
  if share then do
    let m := m.setEntry src start (pteCreate page (pteV ||| permNoWrite perm))
    let (ok, m) ← m.getPte dst start true
    if !ok then some (-eNoMem, m)
    else
      let (r, m) ← m.pageInsert dst page start (permNoWrite perm)
      if r ≠ 0 then some (-eNoMem, m) else some (0, m)
  else do
    let (ok, m) ← m.getPte dst start true
    if !ok then some (-eNoMem, m)
    else match m.allocPage with
      | none => none
      | some (npage, m) => do
        let m := m.copyPage npage page
        let (r, m) ← m.pageInsert dst npage start perm
        if r ≠ 0 then some (-eNoMem, m.freePage npage) else some (0, m)

/-- One turn of the loop of `copy_range`: the return code so far, the next address,
the memory. -/
def copyStep (share : Bool) (m : Mem M) (dst src start : ℕ) : Option (ℤ × ℕ × Mem M) := do
  let (ok, m) ← m.getPte src start false
  if !ok then some (0, roundDown (start + ptSize) ptSize, m)
  else if hasFlag (m.entry src start) pteV then do
    let (r, m) ← m.copyPte share dst src start
    some (r, start + pgSize, m)
  else some (0, start + pgSize, m)

theorem lt_roundDown_add (a : ℕ) : a < roundDown (a + ptSize) ptSize := by
  have h := Nat.mod_lt (a + ptSize) (show 0 < ptSize by decide)
  unfold roundDown
  omega

/-- Both loops move forward. -/
theorem unmapStep_lt {m m' : Mem M} {pd start next : ℕ}
    (h : m.unmapStep pd start = some (next, m')) : start < next := by
  unfold unmapStep at h
  rw [Option.bind_eq_bind, Option.bind_eq_some_iff] at h
  obtain ⟨⟨ok, m1⟩, -, h⟩ := h
  have hskip := lt_roundDown_add start
  cases ok with
  | false =>
    simp only [Bool.not_false, if_true, Option.some.injEq, Prod.mk.injEq] at h
    omega
  | true =>
    simp only [Bool.not_true, Bool.false_eq_true, if_false, Option.some.injEq,
      Prod.mk.injEq] at h
    unfold pgSize at h
    omega

theorem copyStep_lt {share : Bool} {m m' : Mem M} {dst src start next : ℕ} {r : ℤ}
    (h : m.copyStep share dst src start = some (r, next, m')) : start < next := by
  unfold copyStep at h
  rw [Option.bind_eq_bind, Option.bind_eq_some_iff] at h
  obtain ⟨⟨ok, m1⟩, -, h⟩ := h
  have hskip := lt_roundDown_add start
  cases ok with
  | false =>
    simp only [Bool.not_false, if_true, Option.some.injEq, Prod.mk.injEq] at h
    omega
  | true =>
    simp only [Bool.not_true, Bool.false_eq_true, if_false] at h
    split at h
    · rw [Option.bind_eq_bind, Option.bind_eq_some_iff] at h
      obtain ⟨⟨r1, m2⟩, -, h⟩ := h
      simp only [Option.some.injEq, Prod.mk.injEq] at h
      unfold pgSize at h
      omega
    · simp only [Option.some.injEq, Prod.mk.injEq] at h
      unfold pgSize at h
      omega

/-- The `do … while (start != 0 && start < end)` loop of `unmap_range`. -/
def unmapLoop (m : Mem M) (pd start stop : ℕ) : Option (Mem M) :=
  match _h : m.unmapStep pd start with
  | none => none
  | some (next, m') =>
    if next ≠ 0 ∧ next < stop then unmapLoop m' pd next stop else some m'
termination_by stop - start
decreasing_by
  have := unmapStep_lt _h
  omega

def unmapRange (m : Mem M) (pd start stop : ℕ) : Option (Mem M) :=
  if start % pgSize = 0 ∧ stop % pgSize = 0 ∧ userAccess start stop then
    m.unmapLoop pd start stop
  else none

/-- The `do … while (start != 0 && start < end)` loop of `copy_range`. -/
def copyLoop (share : Bool) (m : Mem M) (dst src start stop : ℕ) : Option (ℤ × Mem M) :=
  match _h : m.copyStep share dst src start with
  | none => none
  | some (r, next, m') =>
    if r ≠ 0 then some (r, m')
    else if next ≠ 0 ∧ next < stop then copyLoop share m' dst src next stop
    else some (0, m')
termination_by stop - start
decreasing_by
  have := copyStep_lt _h
  omega

def copyRange (share : Bool) (m : Mem M) (dst src start stop : ℕ) : Option (ℤ × Mem M) :=
  if start % pgSize = 0 ∧ stop % pgSize = 0 ∧ userAccess start stop then
    m.copyLoop share dst src start stop
  else none

/-- `setup_pgdir`: a page for a directory whose user part is empty. -/
def setupPgdir (m : Mem M) : Option ℕ × Mem M :=
  match m.allocPage with
  | none => (none, m)
  | some (page, m) => (some page, m.setPgdir page Pgdir.empty)

end Mem
end Ucore.Vm
