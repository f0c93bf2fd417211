import Ucore.Libs.ListH
import Ucore.Library.Run
import Ucore.Pmm.DefaultPmm

/-!
The buddy manager of `Lab2_Challenge1_buddy_pmm.c`: seventeen free lists through the page
descriptors. Loops are bounded by a count of the turns that are left; `none` is a failed
assertion or a loop that does not end.
-/
namespace Ucore.Pmm

open Library Libs

/-- The list head `flist(order)`, or the link inside a page descriptor. -/
inductive BuddyNode where
  | flist (order : ℕ)
  | pageLink (page : ℕ)
  deriving DecidableEq

def buddyMaxOrder : ℕ := 16

def orderOfPages (o : ℕ) : ℕ := 2 ^ o

/-- The frame number of the first page descriptor, `DRAM_BASE / PGSIZE`. -/
def nbase : ℕ := 0x80000

def turnPageToPfn (p : ℕ) : ℕ := p + nbase

/-- The page descriptors with their links, the number of frames and `buddy_area`. -/
structure BuddyPmm where
  links : Links BuddyNode
  pages : PageDescs
  npage : ℕ
  nrFree : ℕ

namespace BuddyPmm

open BuddyNode

/-- The loop of `find_upper_number`; `v` is a `size_t`. -/
def upperLoop (n : ℕ) : ℕ → ℕ → ℕ → Option ℕ
  | 0, _, _ => none
  | left + 1, v, k => if v < n then upperLoop n left (v * 2 % 2 ^ 64) (k + 1) else some k

def findUpperNumber (n : ℕ) : Option ℕ := upperLoop n 64 1 0

def pushBlock (s : BuddyPmm) (p order : ℕ) : Option BuddyPmm :=
  if order ≤ buddyMaxOrder then
    some
      { s with
        pages := (s.pages.setProperty p (orderOfPages order)).setPageProperty p
        links := listAdd s.links (flist order) (pageLink p) }
  else none

/-- The first block of a list. A list head behind a list head has no page around it. -/
def popBlock (s : BuddyPmm) (order : ℕ) : Option (Option ℕ × BuddyPmm) :=
  if listEmpty s.links (flist order) then some (none, s)
  else
    match s.links.next (flist order) with
    | flist _ => none
    | pageLink p =>
      some (some p,
        { s with
          links := listDel s.links (pageLink p)
          pages := (s.pages.clearPageProperty p).setProperty p 0 })

def initLists (l : Links BuddyNode) : ℕ → Links BuddyNode
  | 0 => l
  | o + 1 => listInit (initLists l o) (flist o)

def buddyInit (s : BuddyPmm) : BuddyPmm :=
  { s with links := initLists s.links (buddyMaxOrder + 1), nrFree := 0 }

/-- The loop that looks for the largest block that starts at `pfn` and fits into `n` pages,
with at most `left` more orders to try. -/
def fitOrder (pfn n : ℕ) : ℕ → ℕ → ℕ
  | 0, k => k
  | left + 1, k =>
    if orderOfPages (k + 1) ≤ n ∧ pfn &&& (orderOfPages (k + 1) - 1) = 0 then
      fitOrder pfn n left (k + 1)
    else k

def initLoop : ℕ → BuddyPmm → ℕ → ℕ → ℕ → Option BuddyPmm
  | 0, s, _, _, n => if n = 0 then some s else none
  | left + 1, s, base, pfn, n =>
    if n = 0 then some s
    else do
      let blk := orderOfPages (fitOrder pfn n buddyMaxOrder 0)
      let s ← s.pushBlock base (fitOrder pfn n buddyMaxOrder 0)
      initLoop left { s with nrFree := s.nrFree + blk } (base + blk) (pfn + blk) (n - blk)

def buddyInitMemmap (s : BuddyPmm) (base n : ℕ) : Option BuddyPmm :=
  if n = 0 then none
  else do
    let pages ← s.pages.initPages base n
    initLoop n { s with pages := pages } base (turnPageToPfn base) n

/-- The index of the buddy, as `p + (buddy_pfn - p_pfn)`. -/
def buddyOf (p o : ℕ) : ℤ :=
  p + ((turnPageToPfn p ^^^ orderOfPages o : ℕ) - (turnPageToPfn p : ℤ))

/-- The joining loop from order `o` on, and the insertion behind it. -/
def mergeLoop : ℕ → BuddyPmm → ℕ → ℕ → Option BuddyPmm
  | 0, s, p, o => some { s with links := listAdd s.links (flist o) (pageLink p) }
  | left + 1, s, p, o =>
    let q := (buddyOf p o).toNat
    if buddyOf p o < 0 ∨ buddyOf p o ≥ s.npage then
      some { s with links := listAdd s.links (flist o) (pageLink p) }
    else if !s.pages.pageProperty q ∨ s.pages.property q ≠ orderOfPages o then
      some { s with links := listAdd s.links (flist o) (pageLink p) }
    else
      let p' := if q < p then q else p
      if turnPageToPfn p' % orderOfPages (o + 1) = 0 then
        mergeLoop left
          { s with
            links := listDel s.links (pageLink q)
            pages := ((s.pages.clearPageProperty q).setProperty p' (orderOfPages (o + 1))
              ).setPageProperty p' }
          p' (o + 1)
      else none

def freeOneBlockAndMerge (s : BuddyPmm) (p o : ℕ) : Option BuddyPmm :=
  if turnPageToPfn p % orderOfPages o = 0 then
    mergeLoop (buddyMaxOrder - o)
      { s with pages := (s.pages.setProperty p (orderOfPages o)).setPageProperty p } p o
  else none

/-- The first loop of `free_pages`. -/
def sweepPages (d : PageDescs) (p : ℕ) : ℕ → Option PageDescs
  | 0 => some d
  | n + 1 =>
    if !d.pageReserved p && !d.pageProperty p then sweepPages (d.setPageRef p 0) (p + 1) n
    else none

def freeLoop : ℕ → BuddyPmm → ℕ → ℕ → ℕ → Option BuddyPmm
  | 0, s, _, _, n => if n = 0 then some s else none
  | left + 1, s, base, pfn, n =>
    if n = 0 then some s
    else do
      let blk := orderOfPages (fitOrder pfn n buddyMaxOrder 0)
      let s ← s.freeOneBlockAndMerge base (fitOrder pfn n buddyMaxOrder 0)
      freeLoop left s (base + blk) (pfn + blk) (n - blk)

def buddyFreePages (s : BuddyPmm) (base n : ℕ) : Option BuddyPmm :=
  if n = 0 then none
  else do
    let pages ← sweepPages s.pages base n
    let s' ← freeLoop n { s with pages := pages } base (turnPageToPfn base) n
    some { s' with nrFree := s'.nrFree + n }

/-- The recursion is on `bigger_order`; at order 0 there are no halves. -/
def splitBlock : ℕ → BuddyPmm → ℕ → ℕ → Option (ℕ × BuddyPmm)
  | 0, s, head, n => if n = orderOfPages 0 then some (head, s) else none
  | o + 1, s, head, n =>
    if n = orderOfPages (o + 1) then some (head, s)
    else
      let half := orderOfPages o
      if n ≤ half then do
        let s ← s.pushBlock (head + half) o
        splitBlock o s head n
      else do
        let (_, s) ← splitBlock o s (head + half) (n - half)
        some (head, s)

/-- The first non-empty list from `curr_order` on gives a block. -/
def takeFirst (s : BuddyPmm) : ℕ → ℕ → Option (Option (ℕ × ℕ) × BuddyPmm)
  | 0, _ => some (none, s)
  | left + 1, currOrder =>
    if listEmpty s.links (flist currOrder) then takeFirst s left (currOrder + 1)
    else do
      let (blk, s) ← s.popBlock currOrder
      some (blk.map (fun p => (p, currOrder)), s)

def buddyAllocPages (s : BuddyPmm) (n : ℕ) : Option (Option ℕ × BuddyPmm) :=
  if n = 0 then none
  else if n > s.nrFree then some (none, s)
  else do
    let need ← findUpperNumber n
    let found ← s.takeFirst (buddyMaxOrder + 1 - need) need
    match found with
    | (none, s) => some (none, s)
    | (some (blk, currOrder), s) => do
      let (result, s) ← splitBlock currOrder s blk n
      some (some result, { s with nrFree := s.nrFree - n })

/-- The pages on a list, from the node behind `le` on. -/
def listPages (l : Links BuddyNode) : ℕ → BuddyNode → List ℕ
  | 0, _ => []
  | fuel + 1, le =>
    match l.next le with
    | flist _ => []
    | pageLink p => p :: listPages l fuel (pageLink p)

/-- The blocks on one free list, each with the `property` of its first page. -/
def listBlocks (s : BuddyPmm) (o : ℕ) : List Block :=
  (listPages s.links listFuel (flist o)).map (fun p => ⟨p, s.pages.property p⟩)

def freeBlocks (s : BuddyPmm) : List Block :=
  (List.range (buddyMaxOrder + 1)).flatMap s.listBlocks

/-- One request, and what the caller remembers of it. -/
def step (h : Held BuddyPmm) : PmmOp → Option (Held BuddyPmm)
  | .initMemmap base n =>
    (h.pmm.buddyInitMemmap base n).map (fun s => ⟨s, ⟨base, n⟩ :: h.ranges, h.live⟩)
  | .allocPages n =>
    (h.pmm.buddyAllocPages n).map (fun r =>
      match r.1 with
      | none => ⟨r.2, h.ranges, h.live⟩
      | some page => ⟨r.2, h.ranges, ⟨page, n⟩ :: h.live⟩)
  | .freePages base n =>
    (h.pmm.buddyFreePages base n).map (fun s => ⟨s, h.ranges, h.live.erase ⟨base, n⟩⟩)

/-- What callers promise: one range, reserved and inside the array of descriptors,
allocations of at least a page, and blocks given back as they were got. -/
def Allowed (h : Held BuddyPmm) : PmmOp → Prop
  | .initMemmap base n => h.ranges = [] ∧ 0 < n ∧ base + n < pageLimit ∧
      ∀ p ∈ (⟨base, n⟩ : Block), h.pmm.pages.pageReserved p = true
  | .allocPages n => 0 < n
  | .freePages base n => ⟨base, n⟩ ∈ h.live

/-- The blocks that `free_pages` gives back, first page and order. -/
def pieces : ℕ → ℕ → ℕ → List (ℕ × ℕ)
  | 0, _, _ => []
  | left + 1, base, n =>
    if n = 0 then []
    else
      let k := fitOrder (turnPageToPfn base) n buddyMaxOrder 0
      (base, k) :: pieces left (base + orderOfPages k) (n - orderOfPages k)

/-- The page is free already, or given back by the request up to `last`. -/
def FreeUpTo (s : BuddyPmm) (base last x : ℕ) : Prop :=
  (∃ b ∈ s.freeBlocks, x ∈ b) ∨ base ≤ x ∧ x < last

/-- Wherever a piece has grown upwards to order `o`, the block below it is not free as a
whole, and no descriptor outside the range passes for its free buddy. -/
def MergesUpwards (h : Held BuddyPmm) (base n : ℕ) : Prop :=
  ∀ p k, (p, k) ∈ pieces n base n → ∀ o, k ≤ o → o < buddyMaxOrder →
    (∀ x ∈ (⟨p, orderOfPages o⟩ : Block), h.pmm.FreeUpTo base (p + orderOfPages k) x) →
    ∀ q : ℕ, buddyOf p o = q →
      (q < p → ∃ x ∈ (⟨q, orderOfPages o⟩ : Block),
        ¬ h.pmm.FreeUpTo base (p + orderOfPages k) x) ∧
      (¬ h.Managed q → q < h.pmm.npage →
        ¬ (h.pmm.pages.pageProperty q = true ∧ h.pmm.pages.property q = orderOfPages o))

/-- No block is joined with the one below it. -/
def NoLowerMerge (h : Held BuddyPmm) : PmmOp → Prop
  | .initMemmap _ _ => True
  | .allocPages _ => True
  | .freePages base n => MergesUpwards h base n

/-- Ownership: the free lists are well-formed and hold aligned blocks of the size of their
order, these and the live allocations are disjoint and cover the managed pages, the heads
are flagged and no other page, and the counter is right. -/
structure Owned (h : Held BuddyPmm) : Prop where
  ring : ∀ o ≤ buddyMaxOrder,
    h.pmm.links.Ring (flist o) ((h.pmm.listBlocks o).map (fun b => pageLink b.base))
  aligned : ∀ o ≤ buddyMaxOrder, ∀ b ∈ h.pmm.listBlocks o,
    b.size = orderOfPages o ∧ turnPageToPfn b.base % b.size = 0
  tiling : Tiling h.Managed (h.live ++ h.pmm.freeBlocks)
  heads : ∀ p, h.Managed p →
    (h.pmm.pages.pageProperty p = true ↔ ∃ b ∈ h.pmm.freeBlocks, b.base = p)
  count : h.pmm.nrFree = (h.pmm.freeBlocks.map Block.size).sum

end BuddyPmm
end Ucore.Pmm
