import Ucore.Exec.LoadFile

/-!
`kmalloc` and `kfree` over the SLOB allocator of `kmalloc.c`. The free blocks form a ring that
is linked in the order of the addresses, from the static block `arena` on; pages come from
`alloc_pages`. Addresses are those of bytes, and 0 is `NULL`.
-/
namespace Ucore.Mm

open Exec (findOrder)

def pageSize : ℕ := 4096

/-- `SLOB_UNIT`, the size of a `slob_t`. -/
def slobUnit : ℕ := 16

/-- `SLOB_UNITS` -/
def slobUnits (size : ℕ) : ℕ := (size + slobUnit - 1) / slobUnit

/-- The size of a `bigblock_t`. -/
def sizeofBigblock : ℕ := 24

/-- `alloc_pages` and `free_pages` as `kmalloc` uses them, by the numbers of the pages. `Held` are
the pages that it got and has not given back; other pages may change hands at every call. The
first call comes in the state `start`. -/
structure PageSource where
  State : Type
  start : State
  allocPages : State → ℕ → Option ℕ × State
  freePages : State → ℕ → ℕ → State
  Held : State → ℕ → Prop
  /-- Where the static `arena` is, in the kernel in front of all pages. -/
  arena : ℕ
  arena_pos : 0 < arena
  start_held : ∀ q, ¬ Held start q
  alloc_none : ∀ s n s', allocPages s n = (none, s') → ∀ q, Held s' q ↔ Held s q
  alloc_new : ∀ s n p s', allocPages s n = (some p, s') → ∀ q, p ≤ q → q < p + n → ¬ Held s q
  alloc_held : ∀ s n p s', allocPages s n = (some p, s') →
    ∀ q, Held s' q ↔ Held s q ∨ p ≤ q ∧ q < p + n
  alloc_after : ∀ s n p s', allocPages s n = (some p, s') → arena + slobUnit < p * pageSize
  free_held : ∀ s p n, (∀ q, p ≤ q → q < p + n → Held s q) →
    ∀ q, Held (freePages s p n) q ↔ Held s q ∧ ¬ (p ≤ q ∧ q < p + n)

structure Bigblock where
  addr : ℕ
  order : ℕ
  pages : ℕ

/-- `units` and `next` are the headers. The `bigblock_t`s are listed as `bigblocks` links them. -/
structure Slob (M : PageSource) where
  units : ℕ → ℕ
  next : ℕ → ℕ
  slobfree : ℕ
  bigblocks : List Bigblock
  pmm : M.State

/-- A failed assertion; `fuel` bounds how often a loop goes on. -/
inductive SlobFault where
  | assertion
  | outOfFuel
  deriving DecidableEq

namespace Slob

variable {M : PageSource}

/-- Before the first call. -/
def init (M : PageSource) : Slob M :=
  { units := fun a => if a = M.arena then 1 else 0
    next := fun _ => M.arena
    slobfree := M.arena
    bigblocks := []
    pmm := M.start }

/-- Where the search of `slob_free` for the place of `b` ends. -/
def Stops (s : Slob M) (b cur : ℕ) : Prop :=
  (cur < b ∧ b < s.next cur) ∨ (s.next cur ≤ cur ∧ (cur < b ∨ b < s.next cur))

instance (s : Slob M) (b cur : ℕ) : Decidable (s.Stops b cur) :=
  inferInstanceAs (Decidable (_ ∨ _))

/-- The loop of `slob_free`. -/
def freeLoop (s : Slob M) (b : ℕ) : ℕ → ℕ → Except SlobFault ℕ
  | 0, _ => .error .outOfFuel
  | fuel + 1, cur => if s.Stops b cur then .ok cur else freeLoop s b fuel (s.next cur)

/-- Joining the block with the free block behind it. -/
def joinNext (s : Slob M) (b cur : ℕ) : Slob M :=
  if b + slobUnit * s.units b = s.next cur then
    { s with units := Function.update s.units b (s.units b + s.units (s.next cur))
             next := Function.update s.next b (s.next (s.next cur)) }
  else { s with next := Function.update s.next b (s.next cur) }

/-- Joining the free block in front of it with the block. -/
def joinPrev (s : Slob M) (b cur : ℕ) : Slob M :=
  if cur + slobUnit * s.units cur = b then
    { s with units := Function.update s.units cur (s.units cur + s.units b)
             next := Function.update s.next cur (s.next b) }
  else { s with next := Function.update s.next cur b }

def slobFree (fuel b size : ℕ) (s : Slob M) : Except SlobFault (Slob M) :=
  if b = 0 then .ok s
  else
    let s' := if size ≠ 0 then { s with units := Function.update s.units b (slobUnits size) } else s
    (s'.freeLoop b fuel s'.slobfree).map fun cur =>
      { (s'.joinNext b cur).joinPrev b cur with slobfree := cur }

/-- What `slob_alloc` does at a free block with room, in the order of its assignments. -/
def take (s : Slob M) (units prev cur : ℕ) : Slob M :=
  if s.units cur = units then
    { s with next := Function.update s.next prev (s.next cur), slobfree := prev }
  else
    let rest := cur + slobUnit * units
    let next := Function.update s.next prev rest
    { s with units := Function.update (Function.update s.units rest (s.units cur - units)) cur units
             next := Function.update next rest (next cur)
             slobfree := prev }

/-- The loop of `slob_alloc`, with `align` 0 as in every call of it. -/
def allocLoop (size : ℕ) : ℕ → ℕ → ℕ → Slob M → Except SlobFault (Option ℕ × Slob M)
  | 0, _, _, _ => .error .outOfFuel
  | fuel + 1, prev, cur, s =>
    if slobUnits size ≤ s.units cur then .ok (some cur, s.take (slobUnits size) prev cur)
    else if cur = s.slobfree then
      if size = pageSize then .ok (none, s)
      else
        match M.allocPages s.pmm 1 with
        | (none, pmm) => .ok (none, { s with pmm := pmm })
        | (some page, pmm) =>
          (slobFree fuel (page * pageSize) pageSize { s with pmm := pmm }).bind fun s' =>
            allocLoop size fuel s'.slobfree (s'.next s'.slobfree) s'
    else allocLoop size fuel cur (s.next cur) s

def slobAlloc (fuel size : ℕ) (s : Slob M) : Except SlobFault (Option ℕ × Slob M) :=
  if size + slobUnit < pageSize then allocLoop size fuel s.slobfree (s.next s.slobfree) s
  else .error .assertion

/-- `__kmalloc` from the `bigblock_t` on. -/
def bigAlloc (fuel size bb : ℕ) (s : Slob M) : Except SlobFault (Option ℕ × Slob M) :=
  match M.allocPages s.pmm (2 ^ findOrder size) with
  | (some page, pmm) =>
    .ok (some (page * pageSize), { s with
      bigblocks := ⟨bb, findOrder size, page * pageSize⟩ :: s.bigblocks, pmm := pmm })
  | (none, pmm) =>
    (slobFree fuel bb sizeofBigblock { s with pmm := pmm }).map fun s' => (none, s')

def kmalloc (fuel size : ℕ) (s : Slob M) : Except SlobFault (Option ℕ × Slob M) :=
  if size < pageSize - slobUnit then
    (slobAlloc fuel (size + slobUnit) s).map fun r => (r.1.map (fun m => m + slobUnit), r.2)
  else
    (slobAlloc fuel sizeofBigblock s).bind fun r =>
      match r.1 with
      | none => .ok (none, r.2)
      | some bb => bigAlloc fuel size bb r.2

/-- The search of `kfree` in the list of the big blocks. -/
def bigOf (s : Slob M) (block : ℕ) : Option Bigblock :=
  if block % pageSize = 0 then s.bigblocks.find? (fun bb => bb.pages = block) else none

def kfree (fuel block : ℕ) (s : Slob M) : Except SlobFault (Slob M) :=
  if block = 0 then .ok s
  else
    match s.bigOf block with
    | some bb => slobFree fuel bb.addr sizeofBigblock { s with
        bigblocks := s.bigblocks.eraseP (fun bb => bb.pages = block)
        pmm := M.freePages s.pmm (block / pageSize) (2 ^ bb.order) }
    | none => slobFree fuel (block - slobUnit) 0 s

end Slob

end Ucore.Mm
