import Ucore.Library.Run
import Ucore.Vm.Fork
import Mathlib.Data.Option.Defs

/-!
User processes over shared physical memory. A store that the page table forbids goes
through `do_pgfault` and is tried again. The sharing fork is compared with the fork
that copies every page: the same operations give the same outcomes.
-/
namespace Ucore.Vm

open Library

namespace PageView

/-- The byte a user load gets. -/
def load (v : PageView) (off : ℕ) : Option UInt8 :=
  v.bind (fun w => if hasFlag w.1 pteR && hasFlag w.1 pteU then some (w.2 off) else none)

/-- A user store is allowed. -/
def storable (v : PageView) : Bool := v.any (fun w => hasFlag w.1 pteW && hasFlag w.1 pteU)

/-- The page with one byte replaced. -/
def write (v : PageView) (off : ℕ) (b : UInt8) : PageView :=
  v.map (fun w => (w.1, Function.update w.2 off b))

end PageView

namespace Mem

variable {M : PmmManager}

/-- The page table lets a user read the address. -/
def canLoad (m : Mem M) (pd addr : ℕ) : Bool :=
  decide (addr < userTop) && hasFlag (m.entry pd addr) pteV && hasFlag (m.entry pd addr) pteR &&
    hasFlag (m.entry pd addr) pteU

/-- The page table lets a user write the address. -/
def canStore (m : Mem M) (pd addr : ℕ) : Bool :=
  decide (addr < userTop) && hasFlag (m.entry pd addr) pteV && hasFlag (m.entry pd addr) pteW &&
    hasFlag (m.entry pd addr) pteU

def loadByte (m : Mem M) (pd addr : ℕ) : Option UInt8 :=
  if m.canLoad pd addr then some (m.data (ptePpn (m.entry pd addr)) (addr % pgSize)) else none

def storeByte (m : Mem M) (pd addr : ℕ) (b : UInt8) : Mem M :=
  let page := ptePpn (m.entry pd addr)
  let bytes := Function.update (m.data page) (addr % pgSize) b
  { m with data := Function.update m.data page bytes }

end Mem

/-- What a process observes of an operation. -/
inductive Outcome where
  | byte (b : Option UInt8)
  | stored (done : Bool)
  | forked
  | exited
  | noMem
  | noProc
  deriving DecidableEq

namespace Mem

variable {M : PmmManager}

/-- A user store: the fault handler of `trap.c` calls `do_pgfault` and, if it
succeeds, the instruction runs again. -/
def userStore (m : Mem M) (mm : Mm) (addr : ℕ) (b : UInt8) : Option (Outcome × Mem M × Mm) :=
  if m.canStore mm.pgdir addr then some (.stored true, m.storeByte mm.pgdir addr b, mm)
  else do
    let (r, m, mm) ← m.doPgfault mm 0 addr
    if r = -eNoMem then some (.noMem, m, mm)
    else if r = 0 ∧ m.canStore mm.pgdir addr then
      some (.stored true, m.storeByte mm.pgdir addr b, mm)
    else some (.stored false, m, mm)

end Mem

/-- Memory and the address space of each process. -/
structure Procs (M : PmmManager) where
  mem : Mem M
  mm : ℕ → Option Mm

inductive ProcOp where
  | load (pid addr : ℕ)
  | store (pid addr : ℕ) (b : UInt8)
  | fork (parent child : ℕ)
  | exit (pid : ℕ)

namespace Procs

variable {M : PmmManager}

/-- What `do_fork` makes of the result of `copy_mm`. -/
def forkResult (s : Procs M) (child : ℕ) (r : ℤ × Mem M × Option Mm) : Outcome × Procs M :=
  match r.2.2 with
  | none => (.noMem, ⟨r.2.1, s.mm⟩)
  | some mm => (.forked, ⟨r.2.1, Function.update s.mm child (some mm)⟩)

/-- One operation, where a fork shares pages or copies them. -/
def step (share : Bool) (s : Procs M) : ProcOp → Option (Outcome × Procs M)
  | .load pid addr =>
    match s.mm pid with
    | none => some (.noProc, s)
    | some mm => some (.byte (s.mem.loadByte mm.pgdir addr), s)
  | .store pid addr b =>
    match s.mm pid with
    | none => some (.noProc, s)
    | some mm => (s.mem.userStore mm addr b).map
        (fun r => (r.1, ⟨r.2.1, Function.update s.mm pid (some r.2.2)⟩))
  | .fork parent child =>
    match s.mm parent, s.mm child with
    | some oldmm, none => (s.mem.copyMm share oldmm).map (s.forkResult child)
    | _, _ => some (.noProc, s)
  | .exit pid =>
    match s.mm pid with
    | none => some (.noProc, s)
    | some mm => (s.mem.exitMmap mm).map
        (fun m => (.exited, ⟨m.putPgdir mm.pgdir, Function.update s.mm pid none⟩))

/-- One operation, with the outcomes so far. -/
def logStep (share : Bool) (s : List Outcome × Procs M) (op : ProcOp) :
    Option (List Outcome × Procs M) :=
  (s.2.step share op).map (fun r => (s.1 ++ [r.1], r.2))

/-- The operation does not fail for lack of memory. -/
def AllocSucceeds (share : Bool) (s : List Outcome × Procs M) (op : ProcOp) : Prop :=
  ∀ s', s.2.step share op ≠ some (.noMem, s')

/-- Well-formed processes: counted pages, directories of their own, and every mapped
page in an area. -/
structure Ok (s : Procs M) : Prop where
  ref : s.mem.RefInv ∅ ∅
  pgdir : ∀ p mm, s.mm p = some mm → (s.mem.pgdir mm.pgdir).isSome
  inj : ∀ p q a b, s.mm p = some a → s.mm q = some b → a.pgdir = b.pgdir → p = q
  sorted : ∀ p mm, s.mm p = some mm → mm.Sorted
  area : ∀ p mm, s.mm p = some mm → ∀ la, la < userTop →
    (s.mem.view mm.pgdir la).isSome → mm.InArea la

/-- Exactly the mapped pages of areas with `VM_WRITE` are writable. -/
def WritableAreas (s : Procs M) : Prop :=
  ∀ p mm, s.mm p = some mm → ∀ la, la < userTop → hasFlag (s.mem.entry mm.pgdir la) pteV = true →
    (hasFlag (s.mem.entry mm.pgdir la) pteW = true ↔ mm.AreaWritable la)

end Procs
end Ucore.Vm
