import Ucore.Library.Logged
import Ucore.Vm.LoadIcode
import Ucore.Vm.MapRequests

/-!
`load_icode` on the bytes of a program in kernel memory, where every field of a header is a
machine word and sums wrap around. It notes what it reads at `binary`, which pages it maps, and
what its assertion sees.
-/
namespace Ucore.Vm

open Library

/-- A program in kernel memory: the address `binary`, the `size` that came with it, and the bytes
of the memory by their distance from `binary`. -/
structure Binary where
  addr : ℕ
  size : ℕ
  mem : ℕ → UInt8
  addr_lt : addr < wordLimit

/-- What `load_icode` does besides building the address space. -/
inductive LoadEvent where
  | read (off len : ℕ)
  | alloc (la : ℕ)
  | check (ok : Bool)
deriving DecidableEq

/-- Whether `kmalloc` finds memory for the `mm_struct`, for the areas, and for the stack's. -/
structure KernelMemory where
  mm : Bool
  vma : ℕ → Bool
  stack : Bool

/-- `struct proghdr`, as far as it is read. -/
structure ElfProghdr where
  pType : ℕ
  pFlags : ℕ
  pOffset : ℕ
  pVa : ℕ
  pFilesz : ℕ
  pMemsz : ℕ
  pVa_lt : pVa < wordLimit
  pFilesz_lt : pFilesz < wordLimit
  pMemsz_lt : pMemsz < wordLimit

def sizeofProghdr : ℕ := 56

namespace ElfProghdr

def vmFlags (ph : ElfProghdr) : ℕ :=
  (if ph.pFlags &&& elfPfX ≠ 0 then vmExec else 0) |||
    (if ph.pFlags &&& elfPfW ≠ 0 then vmWrite else 0) |||
    (if ph.pFlags &&& elfPfR ≠ 0 then vmRead else 0)

def perm (ph : ElfProghdr) : ℕ :=
  pteU ||| pteV ||| (if ph.vmFlags &&& vmRead ≠ 0 then pteR else 0) |||
    (if ph.vmFlags &&& vmWrite ≠ 0 then pteW ||| pteR else 0) |||
    (if ph.vmFlags &&& vmExec ≠ 0 then pteX else 0)

/-- `mm_map(mm, ph->p_va, ph->p_memsz, vm_flags, NULL)` -/
def request (ph : ElfProghdr) (kmem : Bool) : MapRequest :=
  ⟨ph.pVa, ph.pMemsz, ph.vmFlags, kmem, ph.pVa_lt, ph.pMemsz_lt⟩

/-- The ends of the data and of the segment, as sums of words. -/
def fileEnd (ph : ElfProghdr) : ℕ := (ph.pVa + ph.pFilesz) % wordLimit

def memEnd (ph : ElfProghdr) : ℕ := (ph.pVa + ph.pMemsz) % wordLimit

end ElfProghdr

namespace Binary

/-- The byte at a distance from `binary`; addresses wrap around. -/
def bytes (b : Binary) (off : ℕ) : UInt8 := b.mem (off % wordLimit)

/-- The little-endian number of some bytes. -/
def word (b : Binary) (off : ℕ) : ℕ → ℕ
  | 0 => 0
  | n + 1 => (b.bytes off).toNat + 256 * b.word (off + 1) n

theorem word_lt (b : Binary) (off n : ℕ) : b.word off n < 256 ^ n := by
  induction n generalizing off with
  | zero => exact Nat.one_pos
  | succ n ih =>
    have hrest := ih (off + 1)
    have hbyte := (b.bytes off).toNat_lt
    rw [word, Nat.pow_succ]
    omega

theorem word_lt_wordLimit (b : Binary) (off : ℕ) : b.word off 8 < wordLimit := b.word_lt off 8

def eMagic (b : Binary) : ℕ := b.word 0 4
def ePhoff (b : Binary) : ℕ := b.word 32 8
def ePhnum (b : Binary) : ℕ := b.word 56 2

/-- The program header at a distance from `binary`. -/
def proghdr (b : Binary) (ph : ℕ) : ElfProghdr where
  pType := b.word ph 4
  pFlags := b.word (ph + 4) 4
  pOffset := b.word (ph + 8) 8
  pVa := b.word (ph + 16) 8
  pFilesz := b.word (ph + 32) 8
  pMemsz := b.word (ph + 40) 8
  pVa_lt := b.word_lt_wordLimit _
  pFilesz_lt := b.word_lt_wordLimit _
  pMemsz_lt := b.word_lt_wordLimit _

/-- `(struct proghdr *)(binary + elf->e_phoff) + i` -/
def phdrOff (b : Binary) (i : ℕ) : ℕ := b.ePhoff + i * sizeofProghdr

/-- How often the loop `for (; ph < ph_end; ph++)` turns: not at all if `ph_end` wraps around. -/
def phCount (b : Binary) : ℕ :=
  if (b.addr + b.ePhoff) % wordLimit + b.ePhnum * sizeofProghdr < wordLimit then b.ePhnum else 0

end Binary

namespace Mem

variable {M : PmmManager}

/-- A `while (start < end)` loop; `copy` is the one that reads the binary. Nobody has the memory
for one in which `la` comes to the end of the address space. -/
def fillPages (m : Mem M) (copy : Bool) (pd perm : ℕ) (src : ℕ → UInt8) (pos start la stop : ℕ)
    (page : Option ℕ) (hla : start < stop → la ≤ start) :
    Logged LoadEvent (Option Filled × Mem M) :=
  if _h : start < stop then
    if wordLimit ≤ la + pgSize then .ofOption none
    else do
      let (page, m) ← .ofOption (m.pgdirAllocPage pd la perm)
      match page with
      | none => pure (none, m)
      | some page => do
        let off := start - la
        let size := chunk start la stop
        .tell (if copy then [.alloc la, .read pos size] else [.alloc la])
        fillPages (m.writePage page off size src pos) copy pd perm src (pos + size) (start + size)
          (la + pgSize) stop (some page) (chunk_next hla)
  else pure (some ⟨start, la, page⟩, m)
termination_by stop - la
decreasing_by
  have := hla _h
  unfold pgSize
  omega

variable {m m₁ : Mem M} {copy : Bool} {pd perm pos start la stop : ℕ} {src : ℕ → UInt8}
  {page : Option ℕ} {hla : start < stop → la ≤ start}

theorem fillPages_done (h : ¬ start < stop) :
    m.fillPages copy pd perm src pos start la stop page hla =
      Pure.pure (some ⟨start, la, page⟩, m) := by
  rw [fillPages, dif_neg h]

/-- A turn that maps a page. -/
theorem fillPages_page {new : ℕ} (hlt : start < stop) (hwrap : ¬ wordLimit ≤ la + pgSize)
    (ha : m.pgdirAllocPage pd la perm = some (some new, m₁)) :
    m.fillPages copy pd perm src pos start la stop page hla =
      (Logged.tell (if copy then [.alloc la, .read pos (chunk start la stop)] else [.alloc la]) >>=
        fun _ => (m₁.writePage new (start - la) (chunk start la stop) src pos).fillPages copy pd
          perm src (pos + chunk start la stop) (start + chunk start la stop) (la + pgSize) stop
          (some new) (chunk_next hla)) := by
  rw [fillPages, dif_pos hlt, if_neg hwrap, ha, Logged.ofOption_some_bind]

/-- A turn in which there is no page left, or with which the loop does not come back. -/
theorem fillPages_stop (hlt : start < stop) (hwrap : ¬ wordLimit ≤ la + pgSize)
    (ha : ∀ new m₁, m.pgdirAllocPage pd la perm ≠ some (some new, m₁)) :
    (m.fillPages copy pd perm src pos start la stop page hla).log = [] ∧
      ∀ f m', (m.fillPages copy pd perm src pos start la stop page hla).result ≠
        some (some f, m') := by
  rw [fillPages, dif_pos hlt, if_neg hwrap]
  cases hr : m.pgdirAllocPage pd la perm with
  | none =>
    rw [Logged.ofOption_none_bind]
    exact ⟨rfl, fun f m' h => absurd h (by simp)⟩
  | some r =>
    obtain ⟨new, m₁⟩ := r
    cases new with
    | none =>
      rw [Logged.ofOption_some_bind]
      exact ⟨rfl, fun f m' h => absurd h (by simp)⟩
    | some new => exact absurd hr (ha new m₁)

/-- The induction over the turns of a loop: it is done, it stops, or it maps a page and goes on. -/
theorem fillPages_induct
    {motive : Mem M → ℕ → ℕ → ℕ → Option ℕ → Logged LoadEvent (Option Filled × Mem M) → Prop}
    (done : ∀ m pos start la page, ¬ start < stop →
      motive m pos start la page (Pure.pure (some ⟨start, la, page⟩, m)))
    (ended : ∀ m pos start la page r, start < stop → r.log = [] →
      (∀ f m', r.result ≠ some (some f, m')) → motive m pos start la page r)
    (turn : ∀ m pos start la page new m₁ r, start < stop → la ≤ start →
      m.pgdirAllocPage pd la perm = some (some new, m₁) →
      motive (m₁.writePage new (start - la) (chunk start la stop) src pos)
        (pos + chunk start la stop) (start + chunk start la stop) (la + pgSize) (some new) r →
      motive m pos start la page (Logged.tell (if copy then
        [.alloc la, .read pos (chunk start la stop)] else [.alloc la]) >>= fun _ => r)) :
    motive m pos start la page (m.fillPages copy pd perm src pos start la stop page hla) := by
  induction hn : stop - la using Nat.strong_induction_on generalizing m pos start la page with
  | _ n ih =>
    by_cases hlt : start < stop
    · by_cases hwrap : wordLimit ≤ la + pgSize
      · rw [fillPages, dif_pos hlt, if_pos hwrap]
        exact ended m pos start la page _ hlt rfl fun f m' h => absurd h (by simp)
      · by_cases ha : ∃ new m₁, m.pgdirAllocPage pd la perm = some (some new, m₁)
        · obtain ⟨new, m₁, ha⟩ := ha
          have hle := hla hlt
          rw [fillPages_page hlt hwrap ha]
          refine turn m pos start la page new m₁ _ hlt hle ha (ih _ ?_ rfl)
          unfold pgSize
          omega
        · simp only [not_exists] at ha
          have hstop : (m.fillPages copy pd perm src pos start la stop page hla).log = [] ∧ _ :=
            fillPages_stop hlt hwrap ha
          exact ended m pos start la page _ hlt hstop.1 hstop.2
    · rw [fillPages_done hlt]
      exact done m pos start la page hlt

/-- The `size_t` that `memset` gets for the zeros behind the data. -/
def tailWord (f : Filled) (stop : ℕ) : ℕ :=
  let size := pgSize - (f.start + pgSize - f.la)
  if stop < f.la then (size + wordLimit - (f.la - stop)) % wordLimit else size

end Mem

namespace LoadState

variable {M : PmmManager}

def zeroPages (s : LoadState M) (perm start la stop : ℕ) (hla : start < stop → la ≤ start) :
    Logged LoadEvent (ℤ × LoadState M) := do
  let (f, m) ← s.mem.fillPages false s.mm.pgdir perm (fun _ => 0) 0 start la stop s.page hla
  match f with
  | none => pure (-eNoMem, ⟨m, s.mm, none⟩)
  | some f => pure (0, ⟨m, s.mm, f.page⟩)

/-- The BSS section. A `memset` of a size that wrapped around does not come back. -/
def loadTail (s : LoadState M) (perm : ℕ) (f : Mem.Filled) (stop : ℕ) :
    Logged LoadEvent (ℤ × LoadState M) :=
  if hlt : f.start < f.la then
    if f.start = stop then pure (0, s)
    else
      match f.page with
      | none => .ofOption none
      | some page =>
        let off := f.start + pgSize - f.la
        let size := Mem.tailWord f stop
        if pgSize < off + size then .ofOption none
        else do
          let m := s.mem.writePage page off size (fun _ => 0) 0
          let start := (f.start + size) % wordLimit
          .tell [.check (decide ((stop < f.la ∧ start = stop) ∨ (stop ≥ f.la ∧ start = f.la)))]
          if h : (stop < f.la ∧ start = stop) ∨ (stop ≥ f.la ∧ start = f.la) then
            zeroPages { s with mem := m } perm start f.la stop (Mem.le_of_tail h)
          else .ofOption none
  else s.zeroPages perm f.start f.la stop (Mem.le_of_noTail hlt)

/-- Text, data and BSS of a segment, after `mm_map`. -/
def loadData (s : LoadState M) (b : Binary) (ph : ℕ) (h : ElfProghdr) :
    Logged LoadEvent (ℤ × LoadState M) := do
  .tell [.read (ph + 8) 8]
  let (f, m) ← s.mem.fillPages true s.mm.pgdir h.perm b.bytes h.pOffset h.pVa
    (roundDown h.pVa pgSize) h.fileEnd s.page (fun _ => roundDown_le _ _)
  match f with
  | none => pure (-eNoMem, ⟨m, s.mm, none⟩)
  | some f => loadTail ⟨m, s.mm, f.page⟩ h.perm f h.memEnd

/-- One turn of the loop over the program headers. -/
def loadHeader (s : LoadState M) (b : Binary) (kmem : Bool) (ph : ℕ) :
    Logged LoadEvent (ℤ × LoadState M) := do
  let h := b.proghdr ph
  .tell [.read ph 4]
  if h.pType ≠ elfPtLoad then pure (0, s)
  else do
    .tell [.read (ph + 32) 8, .read (ph + 40) 8]
    if h.pFilesz > h.pMemsz then pure (-eInvalElf, s)
    else do
      .tell [.read (ph + 4) 4, .read (ph + 16) 8]
      let (r, mm) ← .ofOption (s.mm.mapRequest (h.request kmem))
      if r ≠ 0 then pure (r, { s with mm := mm }) else loadData { s with mm := mm } b ph h

/-- `count` program headers from the one with number `i` on. -/
def loadHeaders (s : LoadState M) (b : Binary) (k : KernelMemory) (i : ℕ) :
    ℕ → Logged LoadEvent (ℤ × LoadState M)
  | 0 => pure (0, s)
  | count + 1 => do
    let (r, s) ← s.loadHeader b (k.vma i) (b.phdrOff i)
    if r ≠ 0 then pure (r, s) else loadHeaders s b k (i + 1) count

/-- `assert(pgdir_alloc_page(mm->pgdir, USTACKTOP - i * PGSIZE, PTE_USER) != NULL)` -/
def mapStackPage (s : LoadState M) (i : ℕ) : Logged LoadEvent (LoadState M) := do
  let s ← .ofOption (s.stackPage i)
  .tell [.alloc (uStackTop - i * pgSize)]
  pure s

/-- `mm_map` of the stack -/
def stackRequest (kmem : Bool) : MapRequest :=
  ⟨uStackTop - uStackSize, uStackSize, vmRead ||| vmWrite ||| vmStack, kmem, by decide, by decide⟩

def mapStack (s : LoadState M) (k : KernelMemory) : Logged LoadEvent (ℤ × LoadState M) := do
  let (r, mm) ← .ofOption (s.mm.mapRequest (stackRequest k.stack))
  if r ≠ 0 then pure (r, { s with mm := mm })
  else do
    let s ← { s with mm := mm }.mapStackPage 1
    let s ← s.mapStackPage 2
    let s ← s.mapStackPage 3
    let s ← s.mapStackPage 4
    pure (0, s)

def loadProgram (s : LoadState M) (b : Binary) (k : KernelMemory) :
    Logged LoadEvent (ℤ × LoadState M) := do
  let (r, s) ← s.loadHeaders b k 0 b.phCount
  if r ≠ 0 then pure (r, s) else s.mapStack k

end LoadState

namespace Mem

variable {M : PmmManager}

/-- `load_icode(binary, size)`; `size` is not used. -/
def loadBinary (m : Mem M) (b : Binary) (k : KernelMemory) :
    Logged LoadEvent (ℤ × Mem M × Option Mm) :=
  if k.mm = false then pure (-eNoMem, m, none)
  else
    match m.setupPgdir with
    | (none, m) => pure (-eNoMem, m, none)
    | (some pd, m) => do
      .tell [.read 32 8, .read 0 4]
      if b.eMagic ≠ elfMagic then pure (-eInvalElf, m.putPgdir pd, none)
      else do
        .tell [.read 56 2]
        let (r, s) ← LoadState.loadProgram ⟨m, mmCreate pd, none⟩ b k
        if r ≠ 0 then do
          let m ← .ofOption (s.mem.exitMmap s.mm)
          pure (r, m.putPgdir s.mm.pgdir, none)
        else do
          .tell [.read 24 8]
          pure (0, s.mem, some s.mm)

end Mem

/-- The bytes of a number, the lowest one first. -/
def leBytes : ℕ → ℕ → List UInt8
  | 0, _ => []
  | n + 1, v => UInt8.ofNat (v % 256) :: leBytes n (v / 256)

/-- A program with one loadable segment. The program header stands behind the ELF header, and
eight bytes of data behind it. -/
def oneSegment (pOffset pVa pFilesz pMemsz : ℕ) : Binary where
  addr := kernBase + 0x100000
  size := 128
  mem off := (leBytes 4 elfMagic ++ leBytes 20 0 ++ leBytes 8 0x800000 ++ leBytes 8 64 ++
    leBytes 16 0 ++ leBytes 2 1 ++ leBytes 6 0 ++ leBytes 4 elfPtLoad ++
    leBytes 4 (elfPfR ||| elfPfW) ++ leBytes 8 pOffset ++ leBytes 8 pVa ++ leBytes 8 0 ++
    leBytes 8 pFilesz ++ leBytes 8 pMemsz ++ leBytes 8 0 ++ leBytes 8 0x1122334455667788).getD off 0
  addr_lt := by decide

def KernelMemory.plenty : KernelMemory := ⟨true, fun _ => true, true⟩

end Ucore.Vm
