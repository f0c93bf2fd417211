import Ucore.Libs.ListH
import Ucore.Library.Run
import Ucore.Pmm.Pages

/-!
The buddy manager of `buddy_pmm.c`, with ten free lists through the page descriptors. A
page is named by its physical page number. The counters `nr_free` are of type
`unsigned int`. Loops are bounded by a count of the turns that are left; `none` is a failed
assertion, a page outside the machine or a loop that does not end.
-/
namespace Ucore.Dou

open Library Libs

/-- The list head `free_list[order]`, or the link inside a page descriptor. -/
inductive BuddyNode where
  | freeList (order : ℕ)
  | pageLink (page : ℕ)
  deriving DecidableEq

def maxOrder : ℕ := 10

def pgShift : ℕ := 12

/-- The page descriptors with their links, the number of pages of the machine and
`free_area`. -/
structure BuddyPmm where
  links : Links BuddyNode
  pages : Pmm.PageDescs
  npage : ℕ
  nrFree : ℕ → ℕ

namespace BuddyPmm

open BuddyNode

def initLists (s : BuddyPmm) : ℕ → BuddyPmm
  | 0 => s
  | i + 1 =>
    let s := initLists s i
    { s with
      links := listInit s.links (freeList i)
      nrFree := Function.update s.nrFree i 0 }

def buddyInit (s : BuddyPmm) : BuddyPmm := s.initLists maxOrder

/-- The first loop of `init_memmap`: the pages must be reserved. -/
def initPages (d : Pmm.PageDescs) (p : ℕ) : ℕ → Option Pmm.PageDescs
  | 0 => some d
  | n + 1 =>
    if d.pageReserved p then
      initPages (((d.clearFlags p).setPageRef p 0).clearPageProperty p) (p + 1) n
    else none

/-- A block becomes the first one on its list; `nr_free[order]++`. -/
def addBlock (s : BuddyPmm) (page order : ℕ) : BuddyPmm :=
  { s with
    pages := (s.pages.setProperty page order).setPageProperty page
    links := listAdd s.links (freeList order) (pageLink page)
    nrFree := Function.update s.nrFree order (uint32 (s.nrFree order + 1)) }

/-- A block leaves its list; `nr_free[order]--`. -/
def delBlock (s : BuddyPmm) (page order : ℕ) : BuddyPmm :=
  { s with
    links := listDel s.links (pageLink page)
    nrFree := Function.update s.nrFree order (uint32 (s.nrFree order + (2 ^ 32 - 1))) }

/-- The largest order that fits into `n` pages, from `order` downwards. -/
def fitOrder (n : ℕ) : ℕ → ℕ
  | 0 => 0
  | order + 1 => if 2 ^ (order + 1) > n then fitOrder n order else order + 1

/-- The second loop of `init_memmap`. -/
def layout : ℕ → BuddyPmm → ℕ → ℕ → Option BuddyPmm
  | 0, s, _, n => if n = 0 then some s else none
  | left + 1, s, page, n =>
    if n = 0 then some s
    else
      let order := fitOrder n (maxOrder - 1)
      layout left (s.addBlock page order) (page + 2 ^ order) (n - 2 ^ order)

def buddyInitMemmap (s : BuddyPmm) (base n : ℕ) : Option BuddyPmm :=
  if n = 0 then none
  else do
    let pages ← initPages s.pages base n
    layout n { s with pages := pages } base n

/-- `while ((1U << order) < n) order++`, with `left` orders to go. -/
def orderLoop (n : ℕ) : ℕ → ℕ → ℕ
  | 0, order => order
  | left + 1, order => if 2 ^ order < n then orderLoop n left (order + 1) else order

/-- The first order from `cur` on with a block on its list, `maxOrder` if there is none. -/
def findList (s : BuddyPmm) : ℕ → ℕ → ℕ
  | 0, cur => cur
  | left + 1, cur =>
    if listEmpty s.links (freeList cur) then findList s left (cur + 1) else cur

/-- The second halves go to the lists until the block has the order that is wanted. -/
def splitLoop (page order : ℕ) : ℕ → BuddyPmm → BuddyPmm
  | 0, s => s
  | cur + 1, s =>
    if cur + 1 > order then splitLoop page order cur (s.addBlock (page + 2 ^ cur) cur) else s

def buddyAllocPages (s : BuddyPmm) (n : ℕ) : Option (Option ℕ × BuddyPmm) :=
  if n = 0 then some (none, s)
  else
    let order := orderLoop n maxOrder 0
    if order ≥ maxOrder then some (none, s)
    else
      let cur := s.findList (maxOrder - order) order
      if cur = maxOrder then some (none, s)
      else
        match s.links.next (freeList cur) with
        | freeList _ => none
        | pageLink page =>
          let s := splitLoop page order cur (s.delBlock page cur)
          some (some page, { s with pages := s.pages.clearPageProperty page })

/-- `pa2page(page2pa(page) ^ (1U << (order + PGSHIFT)))` -/
def buddyOf (page order : ℕ) : ℕ := (page * 2 ^ pgShift ^^^ 2 ^ (order + pgShift)) / 2 ^ pgShift

/-- The joining loop with `left` orders below the last, and the insertion behind it. -/
def mergeLoop : ℕ → BuddyPmm → ℕ → ℕ → Option BuddyPmm
  | 0, s, base, order => some (s.addBlock base order)
  | left + 1, s, base, order =>
    let buddy := buddyOf base order
    if buddy ≥ s.npage then none
    else if !s.pages.pageProperty buddy ∨ s.pages.property buddy ≠ order then
      some (s.addBlock base order)
    else
      mergeLoop left (s.delBlock buddy order) (if buddy < base then buddy else base) (order + 1)

/-- The order of a block of `n` pages; from `2 ^ 31` on the shift of the source overflows. -/
def freeOrder (n : ℕ) : Option ℕ := if n ≤ 2 ^ 31 then some (orderLoop n 31 0) else none

def buddyFreePages (s : BuddyPmm) (base n : ℕ) : Option BuddyPmm :=
  if n = 0 then none
  else do
    let order ← freeOrder n
    mergeLoop (maxOrder - 1 - order) s base order

/-- `total += (free_area.nr_free[i] << i)`: the shift is one of 32 bits. -/
def buddyNrFreePages (s : BuddyPmm) : ℕ :=
  ((List.range maxOrder).map (fun i => uint32 (s.nrFree i * 2 ^ i))).sum

/-- The pages on a list, from the node behind `le` on. -/
def listPages (l : Links BuddyNode) : ℕ → BuddyNode → List ℕ
  | 0, _ => []
  | left + 1, le =>
    match l.next le with
    | freeList _ => []
    | pageLink p => p :: listPages l left (pageLink p)

/-- The pages whose descriptors the joining loop looks at, each with the order. -/
def lookups : ℕ → BuddyPmm → ℕ → ℕ → List (ℕ × ℕ)
  | 0, _, _, _ => []
  | left + 1, s, base, order =>
    let buddy := buddyOf base order
    if !s.pages.pageProperty buddy ∨ s.pages.property buddy ≠ order then [(buddy, order)]
    else
      (buddy, order) ::
        lookups left (s.delBlock buddy order) (if buddy < base then buddy else base) (order + 1)

end BuddyPmm

/-- A request to the manager. -/
inductive BuddyOp where
  | allocPages (n : ℕ)
  | freePages (base n : ℕ)

/-- The manager and the blocks handed out and not given back, each with the number of pages
that was asked for. -/
structure BuddyUsers where
  pmm : BuddyPmm
  live : List (ℕ × ℕ)

namespace BuddyUsers

open BuddyPmm BuddyNode

/-- The order that a request for `n` pages gets. -/
def requestOrder (n : ℕ) : ℕ := orderLoop n maxOrder 0

def step (h : BuddyUsers) : BuddyOp → Option BuddyUsers
  | .allocPages n =>
    (h.pmm.buddyAllocPages n).map (fun r =>
      match r.1 with
      | none => ⟨r.2, h.live⟩
      | some page => ⟨r.2, (page, n) :: h.live⟩)
  | .freePages base n =>
    (h.pmm.buddyFreePages base n).map (fun s => ⟨s, h.live.erase (base, n)⟩)

/-- The buddies that a request looks up. -/
def lookedUp (h : BuddyUsers) : BuddyOp → List (ℕ × ℕ)
  | .allocPages _ => []
  | .freePages base n => lookups (maxOrder - 1 - requestOrder n) h.pmm base (requestOrder n)

/-- What callers promise: blocks come back as they were got. All buddies that are looked up
are among the `n` pages from `base` on. -/
def Allowed (base n : ℕ) (h : BuddyUsers) (op : BuddyOp) : Prop :=
  (∀ b ∈ h.lookedUp op, base ≤ b.1 ∧ b.1 < base + n) ∧
    match op with
    | .allocPages _ => True
    | .freePages page m => (page, m) ∈ h.live

/-- The blocks handed out. -/
def liveBlocks (h : BuddyUsers) : List Block := h.live.map (fun e => ⟨e.1, 2 ^ requestOrder e.2⟩)

/-- The first pages of the blocks on list `o`, of `n` pages in all. -/
def listed (h : BuddyUsers) (n o : ℕ) : List ℕ := listPages h.pmm.links (n + 1) (freeList o)

/-- The blocks on the free lists. -/
def freeBlocks (h : BuddyUsers) (n : ℕ) : List Block :=
  (List.range maxOrder).flatMap (fun o => (h.listed n o).map (fun p => ⟨p, 2 ^ o⟩))

/-- Ownership of the `n` pages from `base` on: each is in exactly one block, handed out or on
a list; the lists are well-formed, their blocks are flagged and have the order of the list,
and the count is right. -/
structure Owned (base n : ℕ) (h : BuddyUsers) : Prop where
  ring : ∀ o < maxOrder, h.pmm.links.Ring (freeList o) ((h.listed n o).map pageLink)
  tiling : Tiling (fun p => base ≤ p ∧ p < base + n) (h.liveBlocks ++ h.freeBlocks n)
  heads : ∀ o < maxOrder, ∀ p ∈ h.listed n o,
    h.pmm.pages.property p = o ∧ h.pmm.pages.pageProperty p = true
  count : h.pmm.buddyNrFreePages + (h.liveBlocks.map Block.size).sum = n

end BuddyUsers
end Ucore.Dou
