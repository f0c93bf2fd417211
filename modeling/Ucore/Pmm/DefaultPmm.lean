import Ucore.Libs.ListH
import Ucore.Library.Run
import Ucore.Pmm.Pages

/-!
The first-fit manager of `default_pmm.c`, on the links inside the page descriptors.
The loops over the free list carry fuel for more steps than there are pages; `none`
is a failed assertion or a list that does not end.
-/
namespace Ucore.Pmm

open Library Libs

/-- The list head `free_list`, or the link inside a page descriptor. -/
inductive FreeNode where
  | freeList
  | pageLink (page : ℕ)
  deriving DecidableEq

def listFuel : ℕ := pageLimit + 1

/-- The page descriptors with their links, and `free_area`. -/
structure DefaultPmm where
  links : Links FreeNode
  pages : PageDescs
  nrFree : ℕ

namespace DefaultPmm

open FreeNode

def defaultInit (s : DefaultPmm) : DefaultPmm :=
  { s with links := listInit s.links freeList, nrFree := 0 }

/-- The loop that looks for the place of `base`, from the node behind `le` on. After
the insertion at the tail the loop goes on. -/
def insertLoop (base : ℕ) : ℕ → Links FreeNode → FreeNode → Option (Links FreeNode)
  | 0, _, _ => none
  | fuel + 1, l, le =>
    match l.next le with
    | freeList => some l
    | pageLink page =>
      if base < page then some (listAddBefore l (pageLink page) (pageLink base))
      else if l.next (pageLink page) = freeList then
        insertLoop base fuel (listAdd l (pageLink page) (pageLink base)) (pageLink page)
      else insertLoop base fuel l (pageLink page)

/-- The insertion that `init_memmap` and `free_pages` share. -/
def insertFree (l : Links FreeNode) (base : ℕ) : Option (Links FreeNode) :=
  if listEmpty l freeList then some (listAdd l freeList (pageLink base))
  else insertLoop base listFuel l freeList

def defaultInitMemmap (s : DefaultPmm) (base n : ℕ) : Option DefaultPmm :=
  if n = 0 then none
  else do
    let pages ← s.pages.initPages base n
    let links ← insertFree s.links base
    some
      { links := links
        pages := (pages.setProperty base n).setPageProperty base
        nrFree := uint32 (s.nrFree + n) }

/-- The search loop of `alloc_pages`: the first page with enough pages behind it. -/
def firstFit (s : DefaultPmm) (n : ℕ) : ℕ → FreeNode → Option (Option ℕ)
  | 0, _ => none
  | fuel + 1, le =>
    match s.links.next le with
    | freeList => some none
    | pageLink p => if s.pages.property p ≥ n then some (some p) else firstFit s n fuel (pageLink p)

/-- Taking `n` pages from the front of the block at `page`. -/
def takeBlock (s : DefaultPmm) (page n : ℕ) : DefaultPmm :=
  let prev := s.links.prev (pageLink page)
  let links := listDel s.links (pageLink page)
  let rest := page + n
  let s' : DefaultPmm :=
    if s.pages.property page > n then
      { s with
        links := listAdd links prev (pageLink rest)
        pages := (s.pages.setProperty rest (s.pages.property page - n)).setPageProperty rest }
    else { s with links := links }
  { s' with
    pages := s'.pages.clearPageProperty page
    nrFree := uint32 (s.nrFree - n) }

def defaultAllocPages (s : DefaultPmm) (n : ℕ) : Option (Option ℕ × DefaultPmm) :=
  if n = 0 then none
  else if n > s.nrFree then some (none, s)
  else do
    let found ← s.firstFit n listFuel freeList
    match found with
    | none => some (none, s)
    | some page => some (some page, s.takeBlock page n)

/-- The first loop of `free_pages`. -/
def sweepPages (d : PageDescs) (p : ℕ) : ℕ → Option PageDescs
  | 0 => some d
  | n + 1 =>
    if !d.pageReserved p && !d.pageProperty p then
      sweepPages ((d.clearFlags p).setPageRef p 0) (p + 1) n
    else none

/-- Joining the block before `base`; the result is the block that holds `base` now. -/
def mergePrev (s : DefaultPmm) (base : ℕ) : ℕ × DefaultPmm :=
  match s.links.prev (pageLink base) with
  | freeList => (base, s)
  | pageLink p =>
    if p + s.pages.property p = base then
      (p, { s with
        pages := (s.pages.setProperty p (s.pages.property p + s.pages.property base)
          ).clearPageProperty base
        links := listDel s.links (pageLink base) })
    else (base, s)

/-- Joining the block behind `base`. -/
def mergeNext (s : DefaultPmm) (base : ℕ) : DefaultPmm :=
  match s.links.next (pageLink base) with
  | freeList => s
  | pageLink p =>
    if base + s.pages.property base = p then
      { s with
        pages := (s.pages.setProperty base (s.pages.property base + s.pages.property p)
          ).clearPageProperty p
        links := listDel s.links (pageLink p) }
    else s

def defaultFreePages (s : DefaultPmm) (base n : ℕ) : Option DefaultPmm :=
  if n = 0 then none
  else do
    let pages ← sweepPages s.pages base n
    let links ← insertFree s.links base
    let s' : DefaultPmm :=
      { links := links
        pages := (pages.setProperty base n).setPageProperty base
        nrFree := uint32 (s.nrFree + n) }
    let (base, s') := s'.mergePrev base
    some (s'.mergeNext base)

/-- The pages on the list, from the node behind `le` on. -/
def listPages (l : Links FreeNode) : ℕ → FreeNode → List ℕ
  | 0, _ => []
  | fuel + 1, le =>
    match l.next le with
    | freeList => []
    | pageLink p => p :: listPages l fuel (pageLink p)

/-- The blocks on `free_list`, each with the `property` of its first page. -/
def freeBlocks (s : DefaultPmm) : List Block :=
  (listPages s.links listFuel freeList).map (fun p => ⟨p, s.pages.property p⟩)

end DefaultPmm

/-- A request to the manager. -/
inductive PmmOp where
  | initMemmap (base n : ℕ)
  | allocPages (n : ℕ)
  | freePages (base n : ℕ)

/-- A manager together with what its callers have: the ranges handed over by
`init_memmap` and the blocks that are allocated. -/
structure Held (S : Type) where
  pmm : S
  ranges : List Block
  live : List Block

namespace Held

/-- The pages under the manager's control. -/
def Managed {S : Type} (h : Held S) (p : ℕ) : Prop := ∃ r ∈ h.ranges, p ∈ r

end Held

namespace DefaultPmm

open FreeNode

/-- One request, and what the caller remembers of it. -/
def step (h : Held DefaultPmm) : PmmOp → Option (Held DefaultPmm)
  | .initMemmap base n =>
    (h.pmm.defaultInitMemmap base n).map (fun s => ⟨s, ⟨base, n⟩ :: h.ranges, h.live⟩)
  | .allocPages n =>
    (h.pmm.defaultAllocPages n).map (fun r =>
      match r.1 with
      | none => ⟨r.2, h.ranges, h.live⟩
      | some page => ⟨r.2, h.ranges, ⟨page, n⟩ :: h.live⟩)
  | .freePages base n =>
    (h.pmm.defaultFreePages base n).map (fun s => ⟨s, h.ranges, h.live.erase ⟨base, n⟩⟩)

/-- What callers promise: new ranges are reserved, disjoint and inside the array of
descriptors, allocations ask for pages, and blocks are given back as they were got. -/
def Allowed (h : Held DefaultPmm) : PmmOp → Prop
  | .initMemmap base n => 0 < n ∧ base + n < pageLimit ∧
      ∀ p ∈ (⟨base, n⟩ : Block), h.pmm.pages.pageReserved p = true ∧ ¬ h.Managed p
  | .allocPages n => 0 < n
  | .freePages base n => ⟨base, n⟩ ∈ h.live

/-- A block that enters the list finds it empty, or finds a block above it. -/
def BelowSome (s : DefaultPmm) (base : ℕ) : Prop :=
  s.freeBlocks = [] ∨ ∃ b ∈ s.freeBlocks, base < b.base

/-- The insertion of the request does not take place at the tail of a non-empty list. -/
def NoTailInsert (h : Held DefaultPmm) : PmmOp → Prop
  | .initMemmap base _ => h.pmm.BelowSome base
  | .allocPages _ => True
  | .freePages base _ => h.pmm.BelowSome base

/-- Ownership: `free_list` is a well-formed circular list, its blocks and the live
allocations are disjoint and cover exactly the managed pages, and `nr_free` counts
the pages on the list. -/
structure Owned (h : Held DefaultPmm) : Prop where
  ring : h.pmm.links.Ring freeList (h.pmm.freeBlocks.map (fun b => pageLink b.base))
  inverse : ∀ e ∈ freeList :: h.pmm.freeBlocks.map (fun b => pageLink b.base),
    h.pmm.links.prev (h.pmm.links.next e) = e ∧ h.pmm.links.next (h.pmm.links.prev e) = e
  tiling : Tiling h.Managed (h.live ++ h.pmm.freeBlocks)
  count : h.pmm.nrFree = (h.pmm.freeBlocks.map Block.size).sum

end DefaultPmm
end Ucore.Pmm
