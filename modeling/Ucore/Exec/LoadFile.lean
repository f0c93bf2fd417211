import Ucore.Vm.ElfBinary
import Ucore.Vm.UserBytes

/-!
`load_icode` of lab8, which reads a program from an open file. It notes which blocks it takes from
`kmalloc` and gives back, which bytes of them it reads, where it stores the arguments, and when it
closes the descriptor.
-/
namespace Ucore.Exec

open Library Vm

def shtSymtab : ℕ := 2

def sizeofElfhdr : ℕ := 64
def sizeofShdr : ℕ := 64
def sizeofSym : ℕ := 24

def execMaxArgNum : ℕ := 32
def execMaxArgLen : ℕ := 4095

/-- The calls of `load_icode_read`. -/
inductive ReadPoint where
  | elfhdr
  | shdrs
  | syms (i : ℕ)
  | strtab (i : ℕ)
  | proghdr (i : ℕ)
  | page (i off : ℕ)
deriving DecidableEq

/-- The blocks that are taken from `kmalloc`. -/
inductive Block where
  | mm
  | shdrs
  | syms (i : ℕ)
  | strtab (i : ℕ)
  | vma (i : ℕ)
  | stackVma
deriving DecidableEq

inductive ExecEvent where
  | kmalloc (b : Block)
  | kfree (b : Block)
  | look (b : Block) (size off len : ℕ)
  | store (frame off len : ℕ)
  | close
deriving DecidableEq

/-- The open file: its bytes, and the result of each call of `load_icode_read`. `sysfile_seek`
refuses a negative position, and with the result zero all bytes that were asked for have come;
their number is an `int`. -/
structure ExecFile where
  size : ℕ
  bytes : ℕ → UInt8
  code : ReadPoint → ℕ → ℕ → ℤ
  size_lt : size < 2 ^ 31
  inside : ∀ p off len, code p off len = 0 → off < 2 ^ 63 ∧ (len = 0 ∨ off + len ≤ size)

/-- The arguments in kernel memory, as `copy_kargv` leaves them. -/
structure ExecArgs where
  kargv : List (List UInt8)
  argc_pos : 1 ≤ kargv.length
  argc_le : kargv.length ≤ execMaxArgNum
  short : ∀ s ∈ kargv, s.length ≤ execMaxArgLen
  no_nul : ∀ s ∈ kargv, (0 : UInt8) ∉ s

/-- What the caller finds besides the file: for which blocks `kmalloc` has memory, and what lies
behind them. -/
structure KernelHeap where
  has : Block → Bool
  behind : Block → ℕ → UInt8

/-- A block for `size` bytes with what was read into it, and what lies behind it. What a read that
goes beyond the end of the block overwrites there is left out. -/
structure Buffer where
  block : Block
  size : ℕ
  bytes : ℕ → UInt8

/-- The little-endian number of some bytes. -/
def leWord (bytes : ℕ → UInt8) (off : ℕ) : ℕ → ℕ
  | 0 => 0
  | n + 1 => (bytes off).toNat + 256 * leWord bytes (off + 1) n

abbrev Loader (α : Type) := Logged ExecEvent α

/-- The loop of `find_order`, which halves the size until it is at most a page. -/
def orderLoop : ℕ → ℕ → ℕ
  | 0, _ => 0
  | left + 1, size => if size > 4096 then orderLoop left (size / 2) + 1 else 0

/-- `find_order`, whose argument is an `int`. -/
def findOrder (size : ℕ) : ℕ := orderLoop 31 (BitVec.ofNat 32 size).toInt.toNat

/-- How many of the bytes that were asked for are in the block: a small block has them all, a big
one has `1 << find_order(size)` pages. -/
def usable (size : ℕ) : ℕ := if size < 4080 then size else min size (pgSize * 2 ^ findOrder size)

/-- Reading a field of a table. -/
def Buffer.field (b : Buffer) (off len : ℕ) : Loader ℕ := do
  .tell [.look b.block (usable b.size) off len]
  pure (leWord b.bytes off len)

/-- `strcmp(name, literal) == 0`, byte by byte. -/
def Buffer.strcmp (b : Buffer) (name : ℕ) : List UInt8 → Loader Bool
  | [] => do
    .tell [.look b.block (usable b.size) name 1]
    pure (decide (b.bytes name = 0))
  | c :: literal => do
    .tell [.look b.block (usable b.size) name 1]
    if b.bytes name ≠ 0 ∧ b.bytes name = c then b.strcmp (name + 1) literal else pure false

/-- `__global_pointer$` -/
def globalPointer : List UInt8 :=
  [95, 95, 103, 108, 111, 98, 97, 108, 95, 112, 111, 105, 110, 116, 101, 114, 36]

namespace KernelHeap

/-- `slob_alloc` asserts that a size and two units are below a page; `__kmalloc` sends it all sizes
below a page less one unit. -/
def asserts (size : ℕ) : Prop := 4064 ≤ size ∧ size < 4080

instance (size : ℕ) : Decidable (asserts size) := inferInstanceAs (Decidable (_ ∧ _))

/-- `kmalloc`, with whether the result is not `NULL`. -/
def kmalloc (k : KernelHeap) (b : Block) (size : ℕ) : Loader Bool :=
  if asserts size then .ofOption none
  else do
    .tell (if k.has b then [.kmalloc b] else [])
    pure (k.has b)

end KernelHeap

namespace ExecFile

/-- The file as a program in memory. -/
def image (f : ExecFile) : Binary := ⟨0, f.size, f.bytes, by decide⟩

/-- What a block holds after a successful `load_icode_read`. -/
def buffer (f : ExecFile) (k : KernelHeap) (b : Block) (off size : ℕ) : Buffer :=
  ⟨b, size, fun i => if i < size then f.bytes (off + i) else k.behind b i⟩

def eMagic (f : ExecFile) : ℕ := leWord f.bytes 0 4
def eEntry (f : ExecFile) : ℕ := leWord f.bytes 24 8
def ePhoff (f : ExecFile) : ℕ := leWord f.bytes 32 8
def eShoff (f : ExecFile) : ℕ := leWord f.bytes 40 8
def ePhnum (f : ExecFile) : ℕ := leWord f.bytes 56 2
def eShentsize (f : ExecFile) : ℕ := leWord f.bytes 58 2
def eShnum (f : ExecFile) : ℕ := leWord f.bytes 60 2

/-- `elf.e_phoff + i * sizeof(struct proghdr)` -/
def phdrOff (f : ExecFile) (i : ℕ) : ℕ := (f.ePhoff + i * sizeofProghdr) % wordLimit

/-- The program header with number `i`. -/
def proghdr (f : ExecFile) (i : ℕ) : ElfProghdr := f.image.proghdr (f.phdrOff i)

/-! The symbol table. -/

/-- The loop over the symbols, from number `j` on; the result is `gp`. -/
def scanSyms (syms strtab : Buffer) : ℕ → ℕ → Loader ℕ
  | 0, _ => pure 0
  | left + 1, j => do
    let name ← syms.field (j * sizeofSym) 4
    let same ← strtab.strcmp name globalPointer
    if same then syms.field (j * sizeofSym + 8) 8 else scanSyms syms strtab left (j + 1)

/-- A symbol table of the file, after its two blocks were filled. -/
def scanTable (syms strtab : Buffer) : Loader (ℤ × ℕ) := do
  let gp ← scanSyms syms strtab (syms.size / sizeofSym) 0
  .tell [.kfree syms.block, .kfree strtab.block]
  pure (0, gp)

/-- Reading the symbols and the strings of section `i`, and the scan. -/
def readTable (f : ExecFile) (k : KernelHeap) (shdrs : Buffer) (i link symtblSize strtblSize : ℕ) :
    Loader (ℤ × ℕ) := do
  let freed : List ExecEvent := [.kfree (.syms i), .kfree (.strtab i), .kfree .shdrs]
  let symsOff ← shdrs.field (i * sizeofShdr + 24) 8
  let ret := f.code (.syms i) symsOff symtblSize
  if ret ≠ 0 then do
    .tell freed
    pure (ret, 0)
  else do
    let strOff ← shdrs.field (link * sizeofShdr + 24) 8
    let ret := f.code (.strtab i) strOff strtblSize
    if ret ≠ 0 then do
      .tell freed
      pure (ret, 0)
    else scanTable (f.buffer k (.syms i) symsOff symtblSize) (f.buffer k (.strtab i) strOff strtblSize)

/-- One turn of the loop over the sections. -/
def scanSection (f : ExecFile) (k : KernelHeap) (shdrs : Buffer) (i : ℕ) : Loader (ℤ × ℕ) := do
  let shType ← shdrs.field (i * sizeofShdr + 4) 4
  if shType ≠ shtSymtab then pure (0, 0)
  else do
    let shEntsize ← shdrs.field (i * sizeofShdr + 56) 8
    if shEntsize ≠ sizeofSym then pure (0, 0)
    else do
      let link ← shdrs.field (i * sizeofShdr + 40) 4
      let symtblSize ← shdrs.field (i * sizeofShdr + 32) 8
      let strtblSize ← shdrs.field (link * sizeofShdr + 32) 8
      let hasSyms ← k.kmalloc (.syms i) symtblSize
      if !hasSyms then do
        .tell [.kfree .shdrs]
        pure (-eNoMem, 0)
      else do
        let hasStrtab ← k.kmalloc (.strtab i) strtblSize
        if !hasStrtab then do
          .tell [.kfree (.syms i), .kfree .shdrs]
          pure (-eNoMem, 0)
        else f.readTable k shdrs i link symtblSize strtblSize

/-- The sections from number `i` on. -/
def scanSections (f : ExecFile) (k : KernelHeap) (shdrs : Buffer) : ℕ → ℕ → Loader (ℤ × ℕ)
  | 0, _ => do
    .tell [.kfree .shdrs]
    pure (0, 0)
  | left + 1, i => do
    let (ret, gp) ← f.scanSection k shdrs i
    if ret ≠ 0 then pure (ret, 0)
    else if gp ≠ 0 then do
      .tell [.kfree .shdrs]
      pure (0, gp)
    else scanSections f k shdrs left (i + 1)

/-- The search for `__global_pointer$`: a result and `gp`. -/
def scanSymbols (f : ExecFile) (k : KernelHeap) : Loader (ℤ × ℕ) :=
  if f.eShoff ≠ 0 ∧ f.eShnum ≠ 0 ∧ f.eShentsize = sizeofShdr then do
    let size := f.eShnum * sizeofShdr
    let hasShdrs ← k.kmalloc .shdrs size
    if !hasShdrs then pure (-eNoMem, 0)
    else
      let ret := f.code .shdrs f.eShoff size
      if ret ≠ 0 then do
        .tell [.kfree .shdrs]
        pure (ret, 0)
      else f.scanSections k (f.buffer k .shdrs f.eShoff size) f.eShnum 0
  else pure (0, 0)

end ExecFile

/-- The permissions of the pages of a segment. -/
def userPerm (h : ElfProghdr) : ℕ :=
  pteU ||| (if h.pFlags &&& elfPfX ≠ 0 then pteX ||| pteR else 0) |||
    (if h.pFlags &&& elfPfW ≠ 0 then pteW ||| pteR else 0) |||
    (if h.pFlags &&& elfPfR ≠ 0 then pteR else 0)

/-- Memory, the new address space, and the blocks of its areas. -/
structure ExecState (M : PmmManager) where
  mem : Mem M
  mm : Mm
  vmas : List Block

variable {M : PmmManager}

/-- `mm_map` -/
def ExecState.mmMap (s : ExecState M) (b : Block) (r : MapRequest) : Loader (ℤ × ExecState M) := do
  let (ret, mm) ← .ofOption (s.mm.mapRequest r)
  if ret ≠ 0 then pure (ret, { s with mm := mm })
  else do
    .tell [.kmalloc b]
    pure (0, { s with mm := mm, vmas := b :: s.vmas })

namespace ExecFile

/-- The loop over the pages of segment `i`; the argument that counts down bounds its turns. What a
failing read leaves in the page goes with the page. -/
def loadPages (f : ExecFile) (i : ℕ) (h : ElfProghdr) (pd : ℕ) :
    ℕ → ℕ → Mem M → Loader (ℤ × Mem M)
  | 0, _, m => pure (0, m)
  | left + 1, la, m =>
    if la < h.memEnd then do
      let (page, m) ← .ofOption (m.pgdirAllocPage pd la (userPerm h))
      match page with
      | none => pure (-eNoMem, m)
      | some page =>
        let m := m.clearPage page
        if la < h.fileEnd then
          let off := la - h.pVa
          let copy := min (pgSize - la % pgSize) (h.fileEnd - la)
          let pos := (h.pOffset + off) % wordLimit
          let ret := f.code (.page i off) pos copy
          if ret ≠ 0 then pure (ret, m)
          else do
            let m := m.writePage page (la % pgSize) copy f.bytes pos
            loadPages f i h pd left (la + pgSize) m
        else loadPages f i h pd left (la + pgSize) m
    else pure (0, m)

/-- One turn of the loop over the program headers. -/
def loadSegment (f : ExecFile) (k : KernelHeap) (i : ℕ) (s : ExecState M) :
    Loader (ℤ × ExecState M) :=
  let ret := f.code (.proghdr i) (f.phdrOff i) sizeofProghdr
  let h := f.proghdr i
  if ret ≠ 0 then pure (ret, s)
  else if h.pType ≠ elfPtLoad then pure (0, s)
  else if h.pFilesz > h.pMemsz then pure (-eInval, s)
  else if ¬ userAccess h.pVa h.memEnd then pure (-eInval, s)
  else do
    let (ret, s) ← s.mmMap (.vma i) (h.request (k.has (.vma i)))
    if ret ≠ 0 then pure (ret, s)
    else do
      let (ret, m) ← f.loadPages i h s.mm.pgdir (h.pMemsz / pgSize + 1) h.pVa s.mem
      pure (ret, { s with mem := m })

/-- The program headers from number `i` on. -/
def loadSegments (f : ExecFile) (k : KernelHeap) : ℕ → ℕ → ExecState M → Loader (ℤ × ExecState M)
  | 0, _, s => pure (0, s)
  | left + 1, i, s => do
    let (ret, s) ← f.loadSegment k i s
    if ret ≠ 0 then pure (ret, s) else loadSegments f k left (i + 1) s

end ExecFile

/-- The pages of the stack from `la` on. -/
def mapStackPages (pd : ℕ) : ℕ → ℕ → Mem M → Loader (ℤ × Mem M)
  | 0, _, m => pure (0, m)
  | left + 1, la, m => do
    let (page, m) ← .ofOption (m.pgdirAllocPage pd la (pteU ||| pteR ||| pteW))
    match page with
    | none => pure (-eNoMem, m)
    | some page => mapStackPages pd left (la + pgSize) (m.clearPage page)

def ExecState.mapStack (s : ExecState M) (k : KernelHeap) : Loader (ℤ × ExecState M) := do
  let (ret, s) ← s.mmMap .stackVma (LoadState.stackRequest (k.has .stackVma))
  if ret ≠ 0 then pure (ret, s)
  else do
    let (ret, m) ← mapStackPages s.mm.pgdir uStackPage (uStackTop - uStackSize) s.mem
    pure (ret, { s with mem := m })

/-! The argument block. -/

/-- `memcpy` to the kernel address of a byte of a frame: the bytes go on in the frames that follow
in physical memory. -/
def writeFrames (m : Mem M) (frame off : ℕ) (bytes : List UInt8) : Mem M :=
  { m with data := fun p x =>
      let at' := p * pgSize + x
      let start := frame * pgSize + off
      if x < pgSize ∧ start ≤ at' ∧ at' < start + bytes.length then bytes.getD (at' - start) 0
      else m.data p x }

/-- `get_page(pgdir, la, NULL)` -/
def getPage (m : Mem M) (pd la : ℕ) : Option ℕ :=
  if hasFlag (m.entry pd la) pteV = true then some (ptePpn (m.entry pd la)) else none

/-- Storing bytes at a user address through the kernel address of its page, which must exist;
behind the last frame there is no memory. -/
def storeArg (m : Mem M) (pd dst : ℕ) (bytes : List UInt8) : Loader (Mem M) := do
  let frame ← .ofOption (getPage m pd dst)
  if frame * pgSize + dst % pgSize + bytes.length ≤ M.npage * pgSize then do
    .tell [.store frame (dst % pgSize) bytes.length]
    pure (writeFrames m frame (dst % pgSize) bytes)
  else .ofOption none

/-- The strings and their addresses, from the last string to the first. -/
structure Pushed (M : PmmManager) where
  mem : Mem M
  sp : ℕ
  uargv : List ℕ

def pushStrings (pd : ℕ) : List (List UInt8) → Pushed M → Loader (ℤ × Pushed M)
  | [], p => pure (0, p)
  | s :: rest, p =>
    let len := s.length + 1
    let sp := (p.sp + wordLimit - len) % wordLimit
    if sp < uStackTop - uStackSize then pure (-eNoMem, p)
    else do
      let m ← storeArg p.mem pd sp (s ++ [0])
      pushStrings pd rest ⟨m, sp, sp :: p.uargv⟩

/-- The array of the addresses from `dst` on, with the `NULL` behind it. -/
def storePointers (pd : ℕ) : List ℕ → ℕ → Mem M → Loader (Mem M)
  | [], dst, m => storeArg m pd dst (leBytes 8 0)
  | a :: rest, dst, m => do
    let m ← storeArg m pd dst (leBytes 8 a)
    storePointers pd rest (dst + 8) m

/-- What a program starts with, besides its memory. -/
structure Trapframe where
  sp : ℕ
  a0 : ℕ
  a1 : ℕ
  gp : ℕ
  epc : ℕ

/-- `ROUNDDOWN(sp, sizeof(uintptr_t))`, the alignment to sixteen bytes, and the room for the
addresses. -/
def argvUser (sp argc : ℕ) : ℕ := roundDown (roundDown sp 8) 16 - (argc + 1) * 8

/-- The start of the stack below the argument block. -/
def initialSp (argv : ℕ) : ℕ := roundDown (argv - 4 - 0x80) 16

def setupArgs (m : Mem M) (pd : ℕ) (args : ExecArgs) : Loader (ℤ × Mem M × ℕ) := do
  let (ret, p) ← pushStrings pd args.kargv.reverse ⟨m, uStackTop, []⟩
  if ret ≠ 0 then pure (ret, p.mem, 0)
  else do
    let argc := args.kargv.length
    let argv := argvUser p.sp argc
    let m ← storePointers pd p.uargv argv p.mem
    let m ← storeArg m pd (argv - 4) (leBytes 4 argc)
    pure (0, m, argv)

/-! The whole function. -/

/-- The new address space, and the registers. -/
structure Installed where
  mm : Mm
  tf : Trapframe

/-- Everything from the program headers on. -/
def loadProgram (f : ExecFile) (k : KernelHeap) (args : ExecArgs) (s : ExecState M) :
    Loader (ℤ × ExecState M × ℕ) := do
  let (ret, s) ← f.loadSegments k f.ePhnum 0 s
  if ret ≠ 0 then pure (ret, s, 0)
  else do
    let (ret, s) ← s.mapStack k
    if ret ≠ 0 then pure (ret, s, 0)
    else do
      let (ret, m, argv) ← setupArgs s.mem s.mm.pgdir args
      pure (ret, { s with mem := m }, argv)

/-- `fail_close_fd` -/
def failCloseFd (ret : ℤ) (m : Mem M) : Loader (ℤ × Mem M × Option Installed) := do
  .tell [.close]
  pure (ret, m, none)

/-- Everything behind `setup_pgdir`. -/
def loadInto (m : Mem M) (f : ExecFile) (k : KernelHeap) (args : ExecArgs) (pd : ℕ) :
    Loader (ℤ × Mem M × Option Installed) := do
  let (ret, gp) ← f.scanSymbols k
  if ret ≠ 0 then do
    -- `bad_mm`: the page directory stays
    .tell [.kfree .mm]
    failCloseFd ret m
  else do
    let (ret, s, argv) ← loadProgram f k args ⟨m, mmCreate pd, []⟩
    if ret ≠ 0 then do
      let m ← .ofOption (s.mem.exitMmap s.mm)
      .tell (s.vmas.map .kfree ++ [.kfree .mm])
      failCloseFd ret (m.putPgdir s.mm.pgdir)
    else do
      .tell [.close]
      pure (0, s.mem, some ⟨s.mm, ⟨initialSp argv, args.kargv.length, argv, gp, f.eEntry⟩⟩)

/-- `load_icode(fd, argc, kargv)`: the result, memory, and what was installed for `current`. -/
def loadIcode (m : Mem M) (f : ExecFile) (k : KernelHeap) (args : ExecArgs) :
    Loader (ℤ × Mem M × Option Installed) :=
  let ret := f.code .elfhdr 0 sizeofElfhdr
  if ret ≠ 0 then failCloseFd ret m
  else if f.eMagic ≠ elfMagic then failCloseFd ret m
  else if !k.has .mm then failCloseFd (-eNoMem) m
  else do
    .tell [.kmalloc .mm]
    match m.setupPgdir with
    | (none, m) => do
      .tell [.kfree .mm]
      failCloseFd (-eNoMem) m
    | (some pd, m) => loadInto m f k args pd

/-- What returns zero has passed the check in front of it. -/
theorem passed {α : Type} {c : Prop} [Decidable c] {ret : ℤ} {a b : α} {x : Loader (ℤ × α)}
    (hret : c → ret ≠ 0) (h : (if c then pure (ret, a) else x).result = some (0, b)) :
    ¬ c ∧ x.result = some (0, b) := by
  by_cases hc : c
  · rw [if_pos hc] at h
    exact absurd (Prod.mk.inj (Option.some.inj h)).1 (hret hc)
  · rw [if_neg hc] at h
    exact ⟨hc, h⟩

end Ucore.Exec
