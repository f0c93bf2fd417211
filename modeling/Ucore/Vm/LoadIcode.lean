import Ucore.Vm.CowRefinement
import Ucore.Vm.Teardown
import Ucore.Vm.UserMem

/-!
`load_icode` and `do_execve`: an address space is built from a program, segment by segment,
or taken down again when something fails. While it is built, no other address space changes,
and every mapped page lies in an area and has the permissions of that area.
-/
namespace Ucore.Vm

open Library

def eInvalElf : ℤ := 8

def elfMagic : ℕ := 0x464C457F
def elfPtLoad : ℕ := 1
def elfPfX : ℕ := 1
def elfPfW : ℕ := 2
def elfPfR : ℕ := 4

def uStackTop : ℕ := userTop
def uStackPage : ℕ := 256
def uStackSize : ℕ := uStackPage * pgSize

/-- `struct proghdr`. The programs are linked into the kernel image; the linker makes no
segment that wraps around the address space. -/
structure ProgHdr where
  pType : ℕ
  pFlags : ℕ
  pOffset : ℕ
  pVa : ℕ
  pFilesz : ℕ
  pMemsz : ℕ
  no_wrap : pVa + pMemsz + pgSize ≤ 2 ^ 64

/-- What `load_icode` reads at `binary`: the magic number, the program headers, the bytes. -/
structure Elf where
  eMagic : ℕ
  phdrs : List ProgHdr
  bytes : ℕ → UInt8

namespace ProgHdr

def vmFlags (ph : ProgHdr) : ℕ :=
  (if ph.pFlags &&& elfPfX ≠ 0 then vmExec else 0) |||
    (if ph.pFlags &&& elfPfW ≠ 0 then vmWrite else 0) |||
    (if ph.pFlags &&& elfPfR ≠ 0 then vmRead else 0)

/-- The permissions of the pages; writing implies reading. -/
def perm (ph : ProgHdr) : ℕ :=
  pteU ||| pteV ||| (if ph.vmFlags &&& vmRead ≠ 0 then pteR else 0) |||
    (if ph.vmFlags &&& vmWrite ≠ 0 then pteW ||| pteR else 0) |||
    (if ph.vmFlags &&& vmExec ≠ 0 then pteX else 0)

end ProgHdr

namespace Mem

variable {M : PmmManager}

/-- `memcpy(page2kva(page) + off, src + pos, size)` -/
def writePage (m : Mem M) (page off size : ℕ) (src : ℕ → UInt8) (pos : ℕ) : Mem M :=
  { m with data := Function.update m.data page (fun i =>
      if off ≤ i ∧ i < off + size then src (pos + (i - off)) else m.data page i) }

/-- Where the loops of `load_icode` stopped: `start`, `la` and the page last allocated. -/
structure Filled where
  start : ℕ
  la : ℕ
  page : Option ℕ

/-- The bytes that one turn writes to the page at `la`. -/
def chunk (start la stop : ℕ) : ℕ :=
  let size := pgSize - (start - la)
  if stop < la + pgSize then size - (la + pgSize - stop) else size

theorem chunk_next {start la stop : ℕ} (hla : start < stop → la ≤ start)
    (h : start + chunk start la stop < stop) : la + pgSize ≤ start + chunk start la stop := by
  have hle := hla (by omega)
  unfold chunk at *
  simp only at *
  split at h <;> split <;> omega

/-- A `while (start < end)` loop of `load_icode` that maps the pages from `la` on and writes
to them: the text and data from the binary, or the zeros of the BSS. `none` is `NULL` from
`pgdir_alloc_page`. -/
def fillLoop (m : Mem M) (pd perm : ℕ) (src : ℕ → UInt8) (pos start la stop : ℕ)
    (page : Option ℕ) (hla : start < stop → la ≤ start) : Option (Option Filled × Mem M) :=
  if _h : start < stop then
    match m.pgdirAllocPage pd la perm with
    | none => none
    | some (none, m) => some (none, m)
    | some (some page, m) =>
      let off := start - la
      let size := chunk start la stop
      fillLoop (m.writePage page off size src pos) pd perm src (pos + size) (start + size)
        (la + pgSize) stop (some page) (chunk_next hla)
  else some (some ⟨start, la, page⟩, m)
termination_by stop - la
decreasing_by
  have := hla _h
  unfold pgSize
  omega

theorem le_of_tail {start la stop : ℕ}
    (h : (stop < la ∧ start = stop) ∨ (stop ≥ la ∧ start = la)) : start < stop → la ≤ start := by
  omega

theorem le_of_noTail {f : Filled} {stop : ℕ} (h : ¬ f.start < f.la) :
    f.start < stop → f.la ≤ f.start :=
  fun _ => Nat.le_of_not_lt h

/-- How many zeros go behind the data on the page last allocated. -/
def tailSize (f : Filled) (stop : ℕ) : ℕ :=
  let size := pgSize - (f.start + pgSize - f.la)
  if stop < f.la then size - (f.la - stop) else size

end Mem

/-- Where `load_icode` is: memory, the new address space, and the variable `page`. -/
structure LoadState (M : PmmManager) where
  mem : Mem M
  mm : Mm
  page : Option ℕ

namespace LoadState

variable {M : PmmManager}

/-- The BSS loop, from `start` on. -/
def loadZeros (s : LoadState M) (perm start la stop : ℕ) (hla : start < stop → la ≤ start) :
    Option (ℤ × LoadState M) := do
  let (f, m) ← s.mem.fillLoop s.mm.pgdir perm (fun _ => 0) 0 start la stop s.page hla
  match f with
  | none => some (-eNoMem, ⟨m, s.mm, none⟩)
  | some f => some (0, ⟨m, s.mm, f.page⟩)

/-- The BSS section of a segment, after its text and data. -/
def loadBss (s : LoadState M) (perm : ℕ) (f : Mem.Filled) (stop : ℕ) :
    Option (ℤ × LoadState M) :=
  if hlt : f.start < f.la then
    if f.start = stop then some (0, s)
    else
      match f.page with
      | none => none
      | some page =>
        let m := s.mem.writePage page (f.start + pgSize - f.la) (Mem.tailSize f stop)
          (fun _ => 0) 0
        let start := f.start + Mem.tailSize f stop
        if h : (stop < f.la ∧ start = stop) ∨ (stop ≥ f.la ∧ start = f.la) then
          { s with mem := m }.loadZeros perm start f.la stop (Mem.le_of_tail h)
        else none
  else s.loadZeros perm f.start f.la stop (fun _ => Nat.le_of_not_lt hlt)

/-- One program header. -/
def loadSegment (s : LoadState M) (bytes : ℕ → UInt8) (ph : ProgHdr) :
    Option (ℤ × LoadState M) :=
  if ph.pType ≠ elfPtLoad then some (0, s)
  else if ph.pFilesz > ph.pMemsz then some (-eInvalElf, s)
  else do
    let (r, mm) ← s.mm.mmMap ph.pVa ph.pMemsz ph.vmFlags
    if r ≠ 0 then some (r, { s with mm := mm })
    else do
      let (f, m) ← s.mem.fillLoop mm.pgdir ph.perm bytes ph.pOffset ph.pVa
        (roundDown ph.pVa pgSize) (ph.pVa + ph.pFilesz) s.page (fun _ => roundDown_le _ _)
      match f with
      | none => some (-eNoMem, ⟨m, mm, none⟩)
      | some f => loadBss ⟨m, mm, f.page⟩ ph.perm f (ph.pVa + ph.pMemsz)

/-- The loop over the program headers. -/
def loadSegments (s : LoadState M) (bytes : ℕ → UInt8) : List ProgHdr → Option (ℤ × LoadState M)
  | [] => some (0, s)
  | ph :: phs => do
    let (r, s) ← s.loadSegment bytes ph
    if r ≠ 0 then some (r, s) else loadSegments s bytes phs

/-- `assert(pgdir_alloc_page(mm->pgdir, USTACKTOP - i * PGSIZE, PTE_USER) != NULL)` -/
def stackPage (s : LoadState M) (i : ℕ) : Option (LoadState M) :=
  match s.mem.pgdirAllocPage s.mm.pgdir (uStackTop - i * pgSize) pteUser with
  | some (some _, m) => some { s with mem := m }
  | _ => none

def loadStack (s : LoadState M) : Option (ℤ × LoadState M) := do
  let (r, mm) ← s.mm.mmMap (uStackTop - uStackSize) uStackSize (vmRead ||| vmWrite ||| vmStack)
  if r ≠ 0 then some (r, { s with mm := mm })
  else do
    let s ← { s with mm := mm }.stackPage 1
    let s ← s.stackPage 2
    let s ← s.stackPage 3
    let s ← s.stackPage 4
    some (0, s)

/-- Segments and stack of a program. -/
def loadAll (s : LoadState M) (elf : Elf) : Option (ℤ × LoadState M) := do
  let (r, s) ← s.loadSegments elf.bytes elf.phdrs
  if r ≠ 0 then some (r, s) else s.loadStack

end LoadState

namespace Mem

variable {M : PmmManager}

/-- `load_icode`: the new address space, or an error after cleaning up. -/
def loadIcode (m : Mem M) (elf : Elf) : Option (ℤ × Mem M × Option Mm) :=
  match m.setupPgdir with
  | (none, m) => some (-eNoMem, m, none)
  | (some pd, m) =>
    if elf.eMagic ≠ elfMagic then some (-eInvalElf, m.putPgdir pd, none)
    else do
      let (r, s) ← LoadState.loadAll ⟨m, mmCreate pd, none⟩ elf
      if r ≠ 0 then do
        let m ← s.mem.exitMmap s.mm
        some (r, m.putPgdir s.mm.pgdir, none)
      else some (0, s.mem, some s.mm)

end Mem

namespace ProgHdr

theorem perm_lt (ph : ProgHdr) : ph.perm < 2 ^ 5 := by
  unfold perm
  split <;> split <;> split <;> decide

theorem perm_valid (ph : ProgHdr) : ph.perm.testBit 0 = true := by
  unfold perm
  split <;> split <;> split <;> decide

theorem perm_user (ph : ProgHdr) : hasFlag ph.perm pteU = true := by
  unfold perm
  split <;> split <;> split <;> decide

theorem perm_read (ph : ProgHdr) (h : ph.vmFlags &&& vmWrite ≠ 0) :
    hasFlag ph.perm pteR = true := by
  unfold perm
  rw [if_pos h]
  split <;> split <;> decide

end ProgHdr

namespace Mem

variable {M : PmmManager} {K F : Set ℕ} {m₀ m m' : Mem M} {mm mm' : Mm}

/-- Every mapped page of the address space lies in an area and belongs to the user; in an
area with `VM_WRITE` it is readable. -/
structure AreaPages (m : Mem M) (mm : Mm) : Prop where
  area : ∀ la, la < userTop → (m.view mm.pgdir la).isSome → mm.InArea la
  user : ∀ la, la < userTop → ∀ w, m.view mm.pgdir la = some w → hasFlag w.1 pteU = true
  read : ∀ la, mm.AreaWritable la → ∀ w, m.view mm.pgdir la = some w → hasFlag w.1 pteR = true

/-- Memory `m` while an address space `mm` is built: the directories of `m₀` are as they were. -/
structure Loading (m₀ m : Mem M) (mm : Mm) : Prop where
  ref : m.RefInv ∅ ∅
  new : m₀.pgdir mm.pgdir = none
  pgdir : ∀ pd, (m.pgdir pd).isSome = (decide (pd = mm.pgdir) || (m₀.pgdir pd).isSome)
  sorted : mm.Sorted
  pages : AreaPages m mm
  other : ∀ pd, pd ≠ mm.pgdir → ∀ la, la < userTop → m.view pd la = m₀.view pd la

/-- No other directory maps the page. -/
def Private (m : Mem M) (pd page : ℕ) : Prop :=
  ∀ pd', pd' ≠ pd → ∀ la, la < userTop → hasFlag (m.entry pd' la) pteV = true →
    ptePpn (m.entry pd' la) ≠ page

/-- Writing to a page changes no entry, and what the other directories show. -/
theorem Loading.writePage (h : Loading m₀ m mm) {page : ℕ} (hp : Private m mm.pgdir page)
    (off size : ℕ) (src : ℕ → UInt8) (pos : ℕ) :
    Loading m₀ (m.writePage page off size src pos) mm := by
  have hsome : ∀ pd la, ((m.writePage page off size src pos).view pd la).isSome =
      (m.view pd la).isSome := fun pd la => by
    rw [isSome_view, isSome_view]
    rfl
  have hperm : ∀ pd la w, (m.writePage page off size src pos).view pd la = some w →
      ∃ u, m.view pd la = some u ∧ u.1 = w.1 := by
    intro pd la w hw
    unfold view at hw ⊢
    split at hw
    · rename_i hv
      obtain rfl := Option.some.inj hw
      exact ⟨_, if_pos hv, rfl⟩
    · exact absurd hw (by simp)
  refine ⟨h.ref.of_data _, h.new, h.pgdir, h.sorted, ⟨?_, ?_, ?_⟩, ?_⟩
  · intro la hla hv
    rw [hsome] at hv
    exact h.pages.area la hla hv
  · intro la hla w hw
    obtain ⟨u, hu, heq⟩ := hperm _ _ w hw
    rw [← heq]
    exact h.pages.user la hla u hu
  · intro la hla w hw
    obtain ⟨u, hu, heq⟩ := hperm _ _ w hw
    rw [← heq]
    exact h.pages.read la hla u hu
  · intro pd hpd la hla
    rw [← h.other pd hpd la hla]
    unfold view
    have hentry : (m.writePage page off size src pos).entry pd la = m.entry pd la := rfl
    rw [hentry]
    by_cases hv : hasFlag (m.entry pd la) pteV = true
    · have hne := hp pd hpd la hla hv
      simp [Mem.writePage, Function.update_of_ne hne]
    · simp [hv]

/-- A page mapped in an area with the permissions of the area. -/
theorem Loading.pgdirAllocPage (h : Loading m₀ m mm) {la perm : ℕ} {r : Option ℕ} {v : Vma}
    (hv : v ∈ mm.mmapList) (hla : v.Contains la) (hlt : perm < 2 ^ 5)
    (hbit : perm.testBit 0 = true) (hu : hasFlag perm pteU = true)
    (hr : v.vmFlags &&& vmWrite ≠ 0 → hasFlag perm pteR = true)
    (ha : m.pgdirAllocPage mm.pgdir la perm = some (r, m')) :
    Loading m₀ m' mm ∧ ∀ page, r = some page → Private m' mm.pgdir page := by
  have htop : la < userTop := hla.lt_userTop
  obtain ⟨hi, hcases⟩ := h.ref.pgdirAllocPage_cases htop (lt_pteFlagLimit_of_user hlt) ha
  rcases hcases with ⟨rfl, hs⟩ | ⟨page, rfl, hfree, hc⟩
  · have hview : ∀ pd la, la < userTop → m'.view pd la = m.view pd la :=
      fun pd la hla => h.ref.view_same hs hla
    refine ⟨⟨hi, h.new, fun pd => (hs.pgdir pd).trans (h.pgdir pd), h.sorted, ⟨?_, ?_, ?_⟩, ?_⟩,
      by simp⟩
    · intro la hla hsome
      rw [hview _ la hla] at hsome
      exact h.pages.area la hla hsome
    · intro la hla w hw
      rw [hview _ la hla] at hw
      exact h.pages.user la hla w hw
    · intro la hla w hw
      rw [hview _ la hla.lt_userTop] at hw
      exact h.pages.read la hla w hw
    · intro pd hpd la hla
      rw [hview pd la hla]
      exact h.other pd hpd la hla
  · -- the view of the new page, and all others as they were
    have hself : ∀ la', la' < userTop → la' / pgSize = la / pgSize →
        m'.view mm.pgdir la' = some (perm, m'.data page) :=
      fun la' hla' hpage => hc.view_self hla' hpage hlt hbit
    have hrest : ∀ pd la', la' < userTop → ¬ (pd = mm.pgdir ∧ la' / pgSize = la / pgSize) →
        m'.view pd la' = m.view pd la' :=
      fun pd la' hla' hne => h.ref.view_changed hc hla' hne
    refine ⟨⟨hi, h.new, fun pd => (hc.pgdir pd).trans (h.pgdir pd), h.sorted, ⟨?_, ?_, ?_⟩, ?_⟩, ?_⟩
    · intro la' hla' hsome
      by_cases hpage : la' / pgSize = la / pgSize
      · exact ⟨v, hv, (Mm.contains_congr v hpage).mpr hla⟩
      · rw [hrest _ la' hla' (fun hbad => hpage hbad.2)] at hsome
        exact h.pages.area la' hla' hsome
    · intro la' hla' w hw
      by_cases hpage : la' / pgSize = la / pgSize
      · rw [hself la' hla' hpage] at hw
        obtain rfl := Option.some.inj hw
        exact hu
      · rw [hrest _ la' hla' (fun hbad => hpage hbad.2)] at hw
        exact h.pages.user la' hla' w hw
    · intro la' hwr w hw
      have hla' := hwr.lt_userTop
      by_cases hpage : la' / pgSize = la / pgSize
      · rw [hself la' hla' hpage] at hw
        obtain rfl := Option.some.inj hw
        obtain ⟨u, hu', huc, huw⟩ := hwr
        have heq := h.sorted.unique hu' hv huc ((Mm.contains_congr v hpage).mpr hla)
        exact hr (heq ▸ huw)
      · rw [hrest _ la' hla' (fun hbad => hpage hbad.2)] at hw
        exact h.pages.read la' hwr w hw
    · intro pd hpd la' hla'
      rw [hrest pd la' hla' (fun hbad => hpd hbad.1)]
      exact h.other pd hpd la' hla'
    · intro q hq pd hpd la' hla' hvalid heq
      obtain rfl := Option.some.inj hq
      have hentry := hc.entry pd la' hla'
      rw [if_neg (fun hbad => hpd hbad.1)] at hentry
      rw [hentry] at hvalid heq
      exact h.ref.not_free_of_valid hla' hvalid (heq ▸ hfree)

/-- The loops of `load_icode` in an area. -/
theorem Loading.fillLoop (h : Loading m₀ m mm) {perm pos start la stop : ℕ} {src : ℕ → UInt8}
    {page : Option ℕ} {hle : start < stop → la ≤ start} {f : Option Filled} {v : Vma}
    (hv : v ∈ mm.mmapList) (hbelow : v.vmStart ≤ la) (hstop : stop ≤ v.vmEnd)
    (hlt : perm < 2 ^ 5) (hbit : perm.testBit 0 = true) (hu : hasFlag perm pteU = true)
    (hr : v.vmFlags &&& vmWrite ≠ 0 → hasFlag perm pteR = true)
    (hpage : ∀ p ∈ page, Private m mm.pgdir p)
    (hf : m.fillLoop mm.pgdir perm src pos start la stop page hle = some (f, m')) :
    Loading m₀ m' mm ∧ ∀ g ∈ f, (∀ p ∈ g.page, Private m' mm.pgdir p) ∧ v.vmStart ≤ g.la := by
  fun_induction Mem.fillLoop m mm.pgdir perm src pos start la stop page hle with
  | case1 m pos start la page hle hlt' ha => exact absurd hf (by simp)
  | case2 m pos start la page hle hlt' m₁ ha =>
    simp only [Option.some.injEq, Prod.mk.injEq] at hf
    obtain ⟨rfl, rfl⟩ := hf
    have hc : v.Contains la := ⟨hbelow, ((hle hlt').trans_lt hlt').trans_le hstop⟩
    exact ⟨(h.pgdirAllocPage hv hc hlt hbit hu hr ha).1, by simp⟩
  | case3 m pos start la page hle hlt' p m₁ ha off size ih =>
    have hc : v.Contains la := ⟨hbelow, ((hle hlt').trans_lt hlt').trans_le hstop⟩
    obtain ⟨h₁, hpriv⟩ := h.pgdirAllocPage hv hc hlt hbit hu hr ha
    have h₂ := h₁.writePage (hpriv p rfl) off size src pos
    refine ih h₂ (by omega) ?_ hf
    intro q hq
    obtain rfl := Option.mem_some_iff.mp hq
    exact hpriv p rfl
  | case4 m pos start la page hle hlt' =>
    simp only [Option.some.injEq, Prod.mk.injEq] at hf
    obtain ⟨rfl, rfl⟩ := hf
    refine ⟨h, ?_⟩
    intro g hg
    obtain rfl := Option.mem_some_iff.mp hg
    exact ⟨hpage, hbelow⟩

theorem Loading.sameAreas (h : Loading m₀ m mm) (hs : mm.SameAreas mm') : Loading m₀ m mm' := by
  refine ⟨h.ref, ?_, ?_, hs.sorted h.sorted, ⟨?_, ?_, ?_⟩, ?_⟩
  · rw [hs.pgdir]
    exact h.new
  · rw [hs.pgdir]
    exact h.pgdir
  · intro la hla hv
    rw [hs.pgdir] at hv
    exact (hs.inArea la).mpr (h.pages.area la hla hv)
  · rw [hs.pgdir]
    exact h.pages.user
  · intro la hla
    rw [hs.pgdir]
    exact h.pages.read la ((hs.areaWritable la).mp hla)
  · rw [hs.pgdir]
    exact h.other

/-- A new area contains no mapped page. -/
theorem Loading.mapped (h : Loading m₀ m mm) {v : Vma} (hm : mm.Mapped mm' v) :
    Loading m₀ m mm' := by
  refine ⟨h.ref, ?_, ?_, hm.sorted, ⟨?_, ?_, ?_⟩, ?_⟩
  · rw [hm.pgdir]
    exact h.new
  · rw [hm.pgdir]
    exact h.pgdir
  · intro la hla hv
    rw [hm.pgdir] at hv
    obtain ⟨w, hw, hc⟩ := h.pages.area la hla hv
    exact ⟨w, (hm.areas w).mpr (Or.inr hw), hc⟩
  · rw [hm.pgdir]
    exact h.pages.user
  · intro la hla w hw
    rw [hm.pgdir] at hw
    obtain ⟨u, hu, huc, huw⟩ := hla
    obtain ⟨x, hx, hxc⟩ := h.pages.area la huc.lt_userTop (by rw [hw]; rfl)
    rcases (hm.areas u).mp hu with rfl | hold
    · -- the page would lie in an area that overlaps the new one
      have h1 := huc.1
      have h2 := huc.2
      have h3 := hxc.1
      have h4 := hxc.2
      rcases hm.apart x hx with h5 | h5 <;> omega
    · exact h.pages.read la ⟨u, hold, huc, huw⟩ w hw
  · rw [hm.pgdir]
    exact h.other

end Mem

namespace LoadState

variable {M : PmmManager} {m₀ : Mem M} {s s' : LoadState M} {v : Vma}

/-- `load_icode` is under way, and the page it last allocated is its own. -/
structure Ready (m₀ : Mem M) (s : LoadState M) : Prop where
  loading : Mem.Loading m₀ s.mem s.mm
  page : ∀ p ∈ s.page, Mem.Private s.mem s.mm.pgdir p

/-- The permissions of the pages of an area. -/
structure Suits (perm : ℕ) (v : Vma) : Prop where
  lt : perm < 2 ^ 5
  valid : perm.testBit 0 = true
  user : hasFlag perm pteU = true
  read : v.vmFlags &&& vmWrite ≠ 0 → hasFlag perm pteR = true

theorem Ready.loadZeros (h : s.Ready m₀) {perm start la stop : ℕ} {hla : start < stop → la ≤ start}
    {r : ℤ} (hv : v ∈ s.mm.mmapList) (hbelow : v.vmStart ≤ la) (hstop : stop ≤ v.vmEnd)
    (hperm : Suits perm v) (hs : s.loadZeros perm start la stop hla = some (r, s')) :
    s'.Ready m₀ := by
  unfold LoadState.loadZeros at hs
  rw [Option.bind_eq_bind, Option.bind_eq_some_iff] at hs
  obtain ⟨⟨f, m₁⟩, hf, hs⟩ := hs
  obtain ⟨h₁, hpages⟩ := h.loading.fillLoop hv hbelow hstop hperm.lt hperm.valid hperm.user
    hperm.read h.page hf
  cases f with
  | none =>
    simp only [Option.some.injEq, Prod.mk.injEq] at hs
    obtain ⟨-, rfl⟩ := hs
    exact ⟨h₁, by simp⟩
  | some f =>
    simp only [Option.some.injEq, Prod.mk.injEq] at hs
    obtain ⟨-, rfl⟩ := hs
    exact ⟨h₁, (hpages f rfl).1⟩

theorem Ready.loadBss (h : s.Ready m₀) {perm stop : ℕ} {f : Mem.Filled} {r : ℤ}
    (hv : v ∈ s.mm.mmapList) (hbelow : v.vmStart ≤ f.la) (hstop : stop ≤ v.vmEnd)
    (hperm : Suits perm v) (hf : ∀ p ∈ f.page, Mem.Private s.mem s.mm.pgdir p)
    (hs : s.loadBss perm f stop = some (r, s')) : s'.Ready m₀ := by
  unfold LoadState.loadBss at hs
  split at hs
  · split at hs
    · simp only [Option.some.injEq, Prod.mk.injEq] at hs
      obtain ⟨-, rfl⟩ := hs
      exact h
    · split at hs
      · exact absurd hs (by simp)
      · rename_i page hpage
        simp only at hs
        split at hs
        · have h₁ := h.loading.writePage (hf page hpage) (f.start + pgSize - f.la)
            (Mem.tailSize f stop) (fun _ => 0) 0
          exact Ready.loadZeros (s := ⟨_, s.mm, s.page⟩) ⟨h₁, h.page⟩ hv hbelow hstop hperm hs
        · exact absurd hs (by simp)
  · exact h.loadZeros hv hbelow hstop hperm hs

theorem suits_segment (ph : ProgHdr) {v : Vma} (hv : v.vmFlags = ph.vmFlags) :
    Suits ph.perm v :=
  ⟨ph.perm_lt, ph.perm_valid, ph.perm_user, fun h => ph.perm_read (hv ▸ h)⟩

theorem Ready.loadSegment (h : s.Ready m₀) {bytes : ℕ → UInt8} {ph : ProgHdr} {r : ℤ}
    (hs : s.loadSegment bytes ph = some (r, s')) : s'.Ready m₀ := by
  unfold LoadState.loadSegment at hs
  split at hs
  · simp only [Option.some.injEq, Prod.mk.injEq] at hs
    obtain ⟨-, rfl⟩ := hs
    exact h
  · split at hs
    · simp only [Option.some.injEq, Prod.mk.injEq] at hs
      obtain ⟨-, rfl⟩ := hs
      exact h
    · rename_i hsize
      rw [Option.bind_eq_bind, Option.bind_eq_some_iff] at hs
      obtain ⟨⟨r₁, mm⟩, hmap, hs⟩ := hs
      rcases h.loading.sorted.mmMap hmap with ⟨hr, hsame⟩ | ⟨rfl, v, hstart, hend, hflags, hm⟩
      · simp only [if_pos hr, Option.some.injEq, Prod.mk.injEq] at hs
        obtain ⟨-, rfl⟩ := hs
        refine ⟨h.loading.sameAreas hsame, ?_⟩
        rw [hsame.pgdir]
        exact h.page
      · simp only [ne_eq, not_true_eq_false, if_false] at hs
        rw [Option.bind_eq_bind, Option.bind_eq_some_iff] at hs
        obtain ⟨⟨f, m₁⟩, hf, hs⟩ := hs
        have h₁ := h.loading.mapped hm
        have hv : v ∈ mm.mmapList := (hm.areas v).mpr (Or.inl rfl)
        have hperm := suits_segment ph hflags
        have hup := le_roundUp_page (ph.pVa + ph.pMemsz)
        have hpage : ∀ p ∈ s.page, Mem.Private s.mem mm.pgdir p := by
          rw [hm.pgdir]
          exact h.page
        obtain ⟨h₂, hfilled⟩ := h₁.fillLoop hv hstart.le (by omega) hperm.lt hperm.valid
          hperm.user hperm.read hpage hf
        cases f with
        | none =>
          simp only [Option.some.injEq, Prod.mk.injEq] at hs
          obtain ⟨-, rfl⟩ := hs
          exact ⟨h₂, by simp⟩
        | some f =>
          obtain ⟨hpages, hbelow⟩ := hfilled f rfl
          exact Ready.loadBss (s := ⟨m₁, mm, f.page⟩) ⟨h₂, hpages⟩ hv hbelow (by omega) hperm
            hpages hs

theorem Ready.loadSegments (h : s.Ready m₀) {bytes : ℕ → UInt8} {phs : List ProgHdr} {r : ℤ}
    (hs : s.loadSegments bytes phs = some (r, s')) : s'.Ready m₀ := by
  induction phs generalizing s with
  | nil =>
    simp only [LoadState.loadSegments, Option.some.injEq, Prod.mk.injEq] at hs
    obtain ⟨-, rfl⟩ := hs
    exact h
  | cons ph phs ih =>
    rw [LoadState.loadSegments, Option.bind_eq_bind, Option.bind_eq_some_iff] at hs
    obtain ⟨⟨r₁, s₁⟩, h₁, hs⟩ := hs
    simp only at hs
    split at hs
    · simp only [Option.some.injEq, Prod.mk.injEq] at hs
      obtain ⟨-, rfl⟩ := hs
      exact h.loadSegment h₁
    · exact ih (h.loadSegment h₁) hs

theorem suits_stack (v : Vma) : Suits pteUser v :=
  ⟨by decide, by decide, by decide, fun _ => by decide⟩

/-- One of the four pages below the top of the stack. -/
theorem stackPage_loading (h : Mem.Loading m₀ s.mem s.mm) {i : ℕ} (hv : v ∈ s.mm.mmapList)
    (hstart : v.vmStart = uStackTop - uStackSize) (hend : v.vmEnd = uStackTop) (hi : 1 ≤ i)
    (hle : i ≤ 4) (hs : s.stackPage i = some s') :
    Mem.Loading m₀ s'.mem s'.mm ∧ s'.mm = s.mm := by
  unfold LoadState.stackPage at hs
  split at hs
  · rename_i page m₁ ha
    obtain rfl := Option.some.inj hs
    have hc : v.Contains (uStackTop - i * pgSize) := by
      unfold Vma.Contains
      rw [hstart, hend]
      unfold uStackTop uStackSize uStackPage userTop pgSize
      omega
    have hperm := suits_stack v
    exact ⟨(h.pgdirAllocPage hv hc hperm.lt hperm.valid hperm.user hperm.read ha).1, rfl⟩
  · exact absurd hs (by simp)

theorem loadStack_loading (h : Mem.Loading m₀ s.mem s.mm) {r : ℤ}
    (hs : s.loadStack = some (r, s')) : Mem.Loading m₀ s'.mem s'.mm := by
  unfold LoadState.loadStack at hs
  rw [Option.bind_eq_bind, Option.bind_eq_some_iff] at hs
  obtain ⟨⟨r₁, mm⟩, hmap, hs⟩ := hs
  rcases h.sorted.mmMap hmap with ⟨hr, hsame⟩ | ⟨rfl, v, hstart, hend, -, hm⟩
  · simp only [if_pos hr, Option.some.injEq, Prod.mk.injEq] at hs
    obtain ⟨-, rfl⟩ := hs
    exact h.sameAreas hsame
  · simp only [ne_eq, not_true_eq_false, if_false] at hs
    have hv : v ∈ mm.mmapList := (hm.areas v).mpr (Or.inl rfl)
    have hbot : v.vmStart = uStackTop - uStackSize := hstart.trans (by decide)
    have htop : v.vmEnd = uStackTop := hend.trans (by decide)
    obtain ⟨s₁, h₁, hs⟩ := Option.bind_eq_some_iff.mp hs
    obtain ⟨s₂, h₂, hs⟩ := Option.bind_eq_some_iff.mp hs
    obtain ⟨s₃, h₃, hs⟩ := Option.bind_eq_some_iff.mp hs
    obtain ⟨s₄, h₄, hs⟩ := Option.bind_eq_some_iff.mp hs
    simp only [Option.some.injEq, Prod.mk.injEq] at hs
    obtain ⟨-, rfl⟩ := hs
    obtain ⟨hl₁, hmm₁⟩ := stackPage_loading (s := ⟨s.mem, mm, s.page⟩) (h.mapped hm) hv hbot htop
      (by omega) (by omega) h₁
    obtain ⟨hl₂, hmm₂⟩ := stackPage_loading hl₁ (hmm₁ ▸ hv) hbot htop (by omega) (by omega) h₂
    obtain ⟨hl₃, hmm₃⟩ := stackPage_loading hl₂ (by rw [hmm₂, hmm₁]; exact hv) hbot htop
      (by omega) (by omega) h₃
    exact (stackPage_loading hl₃ (by rw [hmm₃, hmm₂, hmm₁]; exact hv) hbot htop (by omega)
      (by omega) h₄).1

theorem Ready.loadAll (h : s.Ready m₀) {elf : Elf} {r : ℤ} (hs : s.loadAll elf = some (r, s')) :
    Mem.Loading m₀ s'.mem s'.mm := by
  unfold LoadState.loadAll at hs
  rw [Option.bind_eq_bind, Option.bind_eq_some_iff] at hs
  obtain ⟨⟨r₁, s₁⟩, h₁, hs⟩ := hs
  simp only at hs
  split at hs
  · simp only [Option.some.injEq, Prod.mk.injEq] at hs
    obtain ⟨-, rfl⟩ := hs
    exact (h.loadSegments h₁).loading
  · exact loadStack_loading (h.loadSegments h₁).loading hs

end LoadState

namespace Mem

variable {M : PmmManager} {m₀ m m' : Mem M} {mm : Mm}

/-- All address spaces are as they were. -/
structure Untouched (m₀ m : Mem M) : Prop where
  ref : m.RefInv ∅ ∅
  pgdir : ∀ pd, (m.pgdir pd).isSome = (m₀.pgdir pd).isSome
  view : ∀ pd la, la < userTop → m.view pd la = m₀.view pd la

/-- A directory that was added and taken away again. -/
theorem Loading.untouched (h : Loading m₀ m mm) (hd : TornDown ∅ m m' mm.pgdir) :
    Untouched m₀ m' := by
  refine ⟨hd.inv, ?_, ?_⟩
  · intro pd
    by_cases hpd : pd = mm.pgdir
    · rw [hpd, hd.gone, h.new]
    · rw [hd.pgdir pd hpd, h.pgdir]
      simp [hpd]
  · intro pd la hla
    by_cases hpd : pd = mm.pgdir
    · rw [hpd, view_of_no_pgdir hd.gone, view_of_no_pgdir h.new]
    · rw [hd.view pd hpd la hla]
      exact h.other pd hpd la hla

/-- `setup_pgdir` and `mm_create`. -/
theorem RefInv.setupLoading (hi : m₀.RefInv ∅ ∅) {pd : ℕ} (h : m₀.setupPgdir = (some pd, m)) :
    Loading m₀ m (mmCreate pd) ∧ m.Blank pd := by
  obtain ⟨hi₁, hview, hnew⟩ := hi.setupPgdir
  rw [h] at hi₁ hview hnew
  obtain ⟨hnone, hpg⟩ := hnew pd rfl
  have hblank : m.Blank pd := by
    intro la hla
    rw [← isSome_view]
    simp only at hview
    rw [hview pd la hla, view_of_no_pgdir hnone]
    rfl
  have hno : ∀ la, la < userTop → m.view pd la = none := by
    intro la hla
    have hv := hblank la hla
    rw [← isSome_view] at hv
    simpa using hv
  refine ⟨⟨hi₁, hnone, ?_, ⟨List.Pairwise.nil, by simp [mmCreate]⟩, ⟨?_, ?_, ?_⟩, ?_⟩, hblank⟩
  · intro pd'
    simp only at hpg
    rw [hpg]
    by_cases hpd : pd' = pd
    · simp [hpd, mmCreate]
    · simp [hpd, mmCreate]
  · intro la hla hv
    have hv' : (m.view pd la).isSome := hv
    rw [hno la hla] at hv'
    exact absurd hv' (by simp)
  · intro la hla w hw
    have hw' : m.view pd la = some w := hw
    rw [hno la hla] at hw'
    exact absurd hw' (by simp)
  · intro la hla w hw
    obtain ⟨v, hv, -⟩ := hla
    exact absurd hv (by simp [mmCreate])
  · exact fun pd' _ la hla => hview pd' la hla

/-- `load_icode` either fails and leaves every address space alone, or adds one. -/
theorem RefInv.loadIcode (hi : m₀.RefInv ∅ ∅) {elf : Elf} {r : ℤ} {new : Option Mm}
    (h : m₀.loadIcode elf = some (r, m', new)) :
    (r ≠ 0 ∧ new = none ∧ Untouched m₀ m') ∨
      (r = 0 ∧ ∃ mm, new = some mm ∧ Loading m₀ m' mm) := by
  unfold Mem.loadIcode at h
  split at h
  · rename_i m₁ hset
    simp only [Option.some.injEq, Prod.mk.injEq] at h
    obtain ⟨rfl, rfl, rfl⟩ := h
    have heq : m₁ = m₀ := by
      unfold Mem.setupPgdir at hset
      split at hset
      · exact (Prod.mk.inj hset).2.symm
      · exact absurd (Prod.mk.inj hset).1 (by simp)
    subst heq
    exact Or.inl ⟨by decide, rfl, hi, fun _ => rfl, fun _ _ _ => rfl⟩
  · rename_i pd m₁ hset
    obtain ⟨hl, hblank⟩ := hi.setupLoading hset
    have hsome : (m₁.pgdir pd).isSome := by
      rw [hl.pgdir]
      simp [mmCreate]
    split at h
    · simp only [Option.some.injEq, Prod.mk.injEq] at h
      obtain ⟨rfl, rfl, rfl⟩ := h
      have hf := hl.ref.putPgdir hblank hsome
      refine Or.inl ⟨by decide, rfl, hl.untouched ⟨hf.inv, Function.update_self _ _ _, ?_, ?_⟩⟩
      · exact fun pd' hne => by rw [hf.other pd' hne]
      · exact fun pd' hne la _ => hf.view hne la
    · rw [Option.bind_eq_bind, Option.bind_eq_some_iff] at h
      obtain ⟨⟨r₁, s⟩, hall, h⟩ := h
      have hs : Loading m₀ s.mem s.mm :=
        LoadState.Ready.loadAll (s := ⟨m₁, mmCreate pd, none⟩) ⟨hl, by simp⟩ hall
      simp only at h
      split at h
      · rename_i hr
        rw [Option.bind_eq_bind, Option.bind_eq_some_iff] at h
        obtain ⟨m₂, h₂, h⟩ := h
        simp only [Option.some.injEq, Prod.mk.injEq] at h
        obtain ⟨rfl, rfl, rfl⟩ := h
        have hsome' : (s.mem.pgdir s.mm.pgdir).isSome := by
          rw [hs.pgdir]
          simp
        exact Or.inl ⟨hr, rfl, hs.untouched (hs.ref.exitMmap hsome' hs.pages.area h₂)⟩
      · rename_i hr
        simp only [Option.some.injEq, Prod.mk.injEq] at h
        obtain ⟨rfl, rfl, rfl⟩ := h
        exact Or.inr ⟨rfl, s.mm, rfl, hs⟩

end Mem
end Ucore.Vm
