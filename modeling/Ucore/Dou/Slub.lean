import Ucore.Libs.Defs
import Ucore.Libs.ListH
import Ucore.Library.Run
import Ucore.Library.Tiling
import Ucore.Vm.PageEntry

/-!
The object allocator of `slub.c`: nine caches of slab pages over a page allocator. Slab
headers and free objects share the memory with the users of the objects. Memory is a map
from the addresses of aligned words to their values, apart from the list links. `none` is
a panic or a loop that does not end.
-/
namespace Ucore.Dou

open Library Libs Vm

/-- The page allocator under the caches; pages are physical page numbers, and `none` is
`NULL`. -/
structure PageAllocator where
  State : Type
  npage : ℕ
  allocPages : State → ℕ → Option ℕ × State
  freePages : State → ℕ → ℕ → State
  nrFreePages : State → ℕ

/-- `PHYSICAL_MEMORY_OFFSET` -/
def vaPaOffset : ℕ := 0xFFFFFFFF40000000

/-- The kernel address of a physical page, `page2pa(p) + va_pa_offset`. -/
def kva (p : ℕ) : ℕ := uint64 (p * pgSize + vaPaOffset)

def maxBucket : ℕ := 9

def bucketSize (i : ℕ) : ℕ := [8, 16, 32, 64, 128, 256, 512, 1024, 2048].getD i 0

def bucketLoop (size : ℕ) : ℕ → ℕ → Option ℕ
  | 0, _ => none
  | left + 1, i => if size ≤ bucketSize i then some i else bucketLoop size left (i + 1)

/-- The first bucket that is large enough; `none` for -1. -/
def sizeToBucket (size : ℕ) : Option ℕ := bucketLoop size maxBucket 0

/-- The list head `caches[i].pages`, or the link in the header of a slab page. -/
inductive SlabNode where
  | pages (i : ℕ)
  | list (sp : ℕ)
  deriving DecidableEq

namespace SlabPage

/-! The fields of `slab_page_t` behind the link, at their offsets in the page. -/

def free (sp : ℕ) : ℕ := sp + 16

def objSize (sp : ℕ) : ℕ := sp + 24

def nrFree (sp : ℕ) : ℕ := sp + 32

def capacity (sp : ℕ) : ℕ := sp + 40

/-- `sizeof(slab_page_t)` -/
def headerSize : ℕ := 48

end SlabPage

open SlabPage

/-- Memory, the array `caches` and the page allocator. -/
structure Slub (A : PageAllocator) where
  links : Links SlabNode
  mem : ℕ → ℕ
  size : ℕ → ℕ
  nrPages : ℕ → ℕ
  pmm : A.State

def write (mem : ℕ → ℕ) (a v : ℕ) : ℕ → ℕ := Function.update mem a v

/-- `o->next = sp->free; sp->free = o; sp->nr_free++;` -/
def pushObj (mem : ℕ → ℕ) (sp o : ℕ) : ℕ → ℕ :=
  let mem := write mem o (mem (free sp))
  let mem := write mem (free sp) o
  write mem (nrFree sp) (uint64 (mem (nrFree sp) + 1))

/-- `sp->free = o->next; sp->nr_free--;` -/
def popObj (mem : ℕ → ℕ) (sp o : ℕ) : ℕ → ℕ :=
  let mem := write mem (free sp) (mem o)
  write mem (nrFree sp) (uint64 (mem (nrFree sp) + (2 ^ 64 - 1)))

/-- The loop of `slab_page_init` over the objects. -/
def objLoop (sp stride last : ℕ) : ℕ → (ℕ → ℕ) → ℕ → Option (ℕ → ℕ)
  | 0, _, _ => none
  | left + 1, mem, cur =>
    if cur + stride ≤ last then objLoop sp stride last left (pushObj mem sp cur) (cur + stride)
    else some mem

/-- What `slab_page_init` does to the memory. -/
def slabPageInit (mem : ℕ → ℕ) (page objsize : ℕ) : Option (ℕ → ℕ) := do
  let mem := write mem (free page) 0
  let mem := write mem (objSize page) objsize
  let mem := write mem (nrFree page) 0
  let stride := (objsize + 8 - 1) / 8 * 8
  let mem ← objLoop page stride (uint64 (page + pgSize)) pgSize mem (page + headerSize)
  some (write mem (capacity page) (mem (nrFree page)))

/-- The loop of `kfree` over the free objects of a page. -/
def chainHas (mem : ℕ → ℕ) (ptr : ℕ) : ℕ → ℕ → Option Bool
  | 0, _ => none
  | left + 1, it =>
    if it = 0 then some false
    else if it = ptr then some true
    else chainHas mem ptr left (mem it)

/-- The loop of `kfree` that takes a page off the count of its cache. -/
def dropPage (size nrPages : ℕ → ℕ) (objsize : ℕ) : ℕ → ℕ → ℕ → ℕ
  | 0, _ => nrPages
  | left + 1, i =>
    if size i = objsize then
      if nrPages i > 0 then Function.update nrPages i (nrPages i - 1) else nrPages
    else dropPage size nrPages objsize left (i + 1)

namespace Slub

variable {A : PageAllocator}

def initCaches (s : Slub A) : ℕ → Slub A
  | 0 => s
  | i + 1 =>
    let s := initCaches s i
    { s with
      size := Function.update s.size i (bucketSize i)
      links := listInit s.links (.pages i)
      nrPages := Function.update s.nrPages i 0 }

def slubInit (s : Slub A) : Slub A := s.initCaches maxBucket

/-- The loop of `kmalloc` over the pages of cache `b`: the first page with a free object. A
head of another list has no slab page around it. -/
def findFree (s : Slub A) (b : ℕ) : ℕ → SlabNode → Option (Option ℕ)
  | 0, _ => none
  | left + 1, le =>
    match s.links.next le with
    | .pages i => if i = b then some none else none
    | .list sp => if s.mem (free sp) ≠ 0 then some (some sp) else findFree s b left (.list sp)

/-- Enough turns for a list of different pages. -/
def fuel (A : PageAllocator) : ℕ := A.npage + 1

/-- Taking the first free object of a slab page. -/
def take (s : Slub A) (sp : ℕ) : ℕ × Slub A :=
  (s.mem (free sp), { s with mem := popObj s.mem sp (s.mem (free sp)) })

/-- The page at `pagev` becomes a page of cache `b`. -/
def addPage (s : Slub A) (b pagev : ℕ) : Option (Slub A) := do
  let mem ← slabPageInit s.mem pagev (s.size b)
  some
    { s with
      mem := mem
      links := listAdd (listInit s.links (.list pagev)) (.pages b) (.list pagev)
      nrPages := Function.update s.nrPages b (uint32 (s.nrPages b + 1)) }

/-- Pages for a request that fits into no bucket; the addition is a `size_t`. -/
def pagesOf (size : ℕ) : ℕ := uint64 (size + pgSize - 1) / pgSize

/-- The pointer that is returned, 0 for `NULL`, and the state. -/
def kmalloc (s : Slub A) (size : ℕ) : Option (ℕ × Slub A) :=
  if size = 0 then some (0, s)
  else
    match sizeToBucket size with
    | none =>
      match A.allocPages s.pmm (pagesOf size) with
      | (none, pmm) => some (0, { s with pmm := pmm })
      | (some p, pmm) => some (kva p, { s with pmm := pmm })
    | some b => do
      let found ← s.findFree b (fuel A) (.pages b)
      match found with
      | some sp => some (s.take sp)
      | none =>
        match A.allocPages s.pmm 1 with
        | (none, pmm) => some (0, { s with pmm := pmm })
        | (some p, pmm) => do
          let s ← { s with pmm := pmm }.addPage b (kva p)
          if s.mem (free (kva p)) ≠ 0 then some (s.take (kva p)) else some (0, s)

/-- The end of `kfree` for a page without live objects. -/
def releasePage (s : Slub A) (p sp : ℕ) : Slub A :=
  let mem := write s.mem (free sp) 0
  let mem := write mem (objSize sp) 0
  let mem := write mem (nrFree sp) 0
  let mem := write mem (capacity sp) 0
  { s with
    links := listDel s.links (.list sp)
    nrPages := dropPage s.size s.nrPages (s.mem (objSize sp)) maxBucket 0
    mem := mem
    pmm := A.freePages s.pmm p 1 }

def kfree (s : Slub A) (ptr : ℕ) : Option (Slub A) :=
  if ptr = 0 then some s
  else if ptr < vaPaOffset then some s
  else
    let p := (ptr - vaPaOffset) / pgSize
    if p ≥ A.npage then none
    else
      let sp := kva p
      if s.mem (objSize sp) = 0 then some s
      else if ptr < sp + headerSize ∨ ptr ≥ uint64 (sp + pgSize) then some s
      else do
        let freed ← chainHas s.mem ptr pgSize (s.mem (free sp))
        if freed then some s
        else
          let s : Slub A := { s with mem := pushObj s.mem sp ptr }
          if s.mem (nrFree sp) ≥ s.mem (capacity sp) then some (s.releasePage p sp)
          else some s

/-- The pages on a list, from the node behind `le` on. -/
def listPages (l : Links SlabNode) : ℕ → SlabNode → List ℕ
  | 0, _ => []
  | left + 1, le =>
    match l.next le with
    | .pages _ => []
    | .list sp => sp :: listPages l left (.list sp)

/-- The slab pages of cache `i`. -/
def cachePages (s : Slub A) (i : ℕ) : List ℕ := listPages s.links (fuel A) (.pages i)

/-- The free objects of a page, from the address `it` on. -/
def freeObjs (mem : ℕ → ℕ) : ℕ → ℕ → List ℕ
  | 0, _ => []
  | left + 1, it => if it = 0 then [] else it :: freeObjs mem left (mem it)

end Slub

/-- What happens: requests, and stores into the memory that the allocator leaves to others. -/
inductive SlubOp where
  | kmalloc (size : ℕ)
  | kfree (ptr size : ℕ)
  | store (word value : ℕ)

/-- The allocator and the pointers it has returned and not got back, each with the size that
was asked for. -/
structure Users (A : PageAllocator) where
  slub : Slub A
  live : List (ℕ × ℕ)

namespace Users

variable {A : PageAllocator}

/-- The page that an address lies in. -/
def pageOf (a : ℕ) : ℕ := a / pgSize * pgSize

/-- The pointers to live objects on a page. -/
def objectsOn (live : List (ℕ × ℕ)) (sp : ℕ) : List ℕ :=
  (live.map Prod.fst).filter (fun ptr => pageOf ptr = sp)

def step (h : Users A) : SlubOp → Option (Users A)
  | .kmalloc size =>
    (h.slub.kmalloc size).map (fun r =>
      ⟨r.2, if r.1 = 0 then h.live else (r.1, size) :: h.live⟩)
  | .kfree ptr size => (h.slub.kfree ptr).map (fun s => ⟨s, h.live.erase (ptr, size)⟩)
  | .store word value => some ⟨{ h.slub with mem := write h.slub.mem word value }, h.live⟩

/-- What callers promise: sizes are of type `size_t`, only live pointers are given back, and
a store goes to a live object or to a page that is no slab page. -/
def Allowed (h : Users A) : SlubOp → Prop
  | .kmalloc size => size < 2 ^ 64
  | .kfree ptr size => (ptr, size) ∈ h.live
  | .store word _ => word % 8 = 0 ∧
      ((∃ e ∈ h.live, e.1 ≤ word ∧ word < e.1 + e.2) ∨
        ∀ i < maxBucket, pageOf word ∉ h.slub.cachePages i)

/-- A request beyond the largest bucket gets no pages. -/
def LargeRefused (h : Users A) : SlubOp → Prop
  | .kmalloc size => 2048 < size → (A.allocPages h.slub.pmm (Slub.pagesOf size)).1 = none
  | _ => True

end Users
end Ucore.Dou
