import Ucore.Vm.LoadIcode

/-!
Stores that the kernel makes to user memory for a process: `copy_to_user`, and the exit
code in `do_wait`. The check before them looks at the areas, the store at the page table,
and the handler of store faults does nothing for a fault taken in the kernel.
-/
namespace Ucore.Vm

open Library

namespace Mem

variable {M : PmmManager}

/-- The page table lets the kernel write the address. `SSTATUS_SUM` is set, so that user
pages are no exception. -/
def kernelCanStore (m : Mem M) (pd addr : ℕ) : Bool :=
  decide (addr < userTop) && hasFlag (m.entry pd addr) pteV && hasFlag (m.entry pd addr) pteW

/-- `exception_handler` on `CAUSE_STORE_PAGE_FAULT`. Whatever `do_pgfault` says, the trap
returns to the instruction that faulted. -/
def storePageFault (inKernel : Bool) (m : Mem M) (mm : Mm) (addr : ℕ) : Option (Mem M × Mm) :=
  if !inKernel then (m.doPgfault mm 0 addr).map Prod.snd else some (m, mm)

def storeBytes (m : Mem M) (pd addr : ℕ) : List UInt8 → Mem M
  | [] => m
  | b :: bytes => (m.storeByte pd addr b).storeBytes pd (addr + 1) bytes

/-- The first byte of a store that faults. -/
def faulting (m : Mem M) (pd addr : ℕ) (bytes : List UInt8) : Option ℕ :=
  (List.range bytes.length).find? (fun i => !m.kernelCanStore pd (addr + i))

/-- A store instruction of the kernel, which runs again after each trap; `none` when it is
not done after `fuel` tries. -/
def kernelStore (m : Mem M) (mm : Mm) (addr : ℕ) (bytes : List UInt8) : ℕ → Option (Mem M × Mm)
  | 0 => none
  | fuel + 1 =>
    match m.faulting mm.pgdir addr bytes with
    | none => some (m.storeBytes mm.pgdir addr bytes, mm)
    | some i => (m.storePageFault true mm (addr + i)).bind
        (fun r => kernelStore r.1 r.2 addr bytes fuel)

/-- The loop of `memcpy`, one byte at a time. -/
def memcpyUser (fuel : ℕ) (m : Mem M) (mm : Mm) (dst : ℕ) : List UInt8 → Option (Mem M × Mm)
  | [] => some (m, mm)
  | b :: src => (m.kernelStore mm dst [b] fuel).bind
      (fun r => memcpyUser fuel r.1 r.2 (dst + 1) src)

end Mem

/-- What the kernel stores after `user_mem_check`: the bytes of `copy_to_user`, or the
`int` that `do_wait` stores through `code_store`. -/
inductive KernelWrite where
  | copyToUser (src : List UInt8)
  | codeStore (exitCode : BitVec 32)

namespace KernelWrite

def bytes : KernelWrite → List UInt8
  | copyToUser src => src
  | codeStore exitCode => (List.range 4).map (fun i => UInt8.ofNat (exitCode.toNat >>> (8 * i)))

/-- The store itself: the loop of `memcpy`, or one instruction. -/
def store {M : PmmManager} (fuel : ℕ) (m : Mem M) (mm : Mm) (addr : ℕ) :
    KernelWrite → Option (Mem M × Mm)
  | copyToUser src => m.memcpyUser fuel mm addr src
  | codeStore exitCode => m.kernelStore mm addr (codeStore exitCode).bytes fuel

end KernelWrite

inductive KernelOp where
  | user (op : ProcOp)
  | execve (pid name len : ℕ) (elf : Elf)
  | write (pid addr : ℕ) (w : KernelWrite)

namespace Procs

variable {M : PmmManager}

/-- The second half of `do_execve`, for a process without an address space. When
`load_icode` fails the process exits. -/
def execLoad (s : Procs M) (pid : ℕ) (elf : Elf) : Option (ℤ × Procs M) :=
  (s.mem.loadIcode elf).map (fun r => (r.1, ⟨r.2.1, Function.update s.mm pid r.2.2⟩))

/-- `do_execve`, of a user process or of a kernel thread. -/
def doExecve (s : Procs M) (pid name len : ℕ) (elf : Elf) : Option (ℤ × Procs M) :=
  match s.mm pid with
  | none => if kernAccess name (name + len) then s.execLoad pid elf else some (-eInval, s)
  | some mm =>
    let (ok, mm) := mm.userMemCheck name len false
    if !ok then some (-eInval, ⟨s.mem, Function.update s.mm pid (some mm)⟩)
    else do
      let m ← s.mem.exitMmap mm
      Procs.execLoad ⟨m.putPgdir mm.pgdir, Function.update s.mm pid none⟩ pid elf

/-- The check and the store of `copy_to_user` or of `do_wait`. While `do_wait` sleeps in
between, other processes do not touch the areas of this one. -/
def kernelWrite (fuel : ℕ) (s : Procs M) (pid addr : ℕ) (w : KernelWrite) :
    Option (Bool × Procs M) :=
  match s.mm pid with
  | none => some (false, s)
  | some mm =>
    let (ok, mm) := mm.userMemCheck addr w.bytes.length true
    if !ok then some (false, ⟨s.mem, Function.update s.mm pid (some mm)⟩)
    else (w.store fuel s.mem mm addr).map
      (fun r => (true, ⟨r.1, Function.update s.mm pid (some r.2)⟩))

/-- One operation, with sharing forks. A kernel store that is not done is not followed by
anything. -/
def kernelStep (fuel : ℕ) (s : Procs M) : KernelOp → Option (Procs M)
  | .user op => (s.step true op).map Prod.snd
  | .execve pid name len elf => (s.doExecve pid name len elf).map Prod.snd
  | .write pid addr w => (s.kernelWrite fuel pid addr w).map Prod.snd

end Procs

namespace Mem

variable {M : PmmManager} {K F : Set ℕ} {m m' : Mem M} {mm mm' : Mm} {addr : ℕ}

theorem faulting_eq_none {pd : ℕ} {bytes : List UInt8} :
    m.faulting pd addr bytes = none ↔
      ∀ i < bytes.length, m.kernelCanStore pd (addr + i) = true := by
  unfold faulting
  rw [List.find?_eq_none]
  simp

/-- A fault in the kernel changes nothing, so a store is done at once or never. -/
theorem kernelStore_eq_some {bytes : List UInt8} {fuel : ℕ} {r : Mem M × Mm} :
    m.kernelStore mm addr bytes fuel = some r ↔
      0 < fuel ∧ (∀ i < bytes.length, m.kernelCanStore mm.pgdir (addr + i) = true) ∧
        r = (m.storeBytes mm.pgdir addr bytes, mm) := by
  rw [← faulting_eq_none]
  induction fuel with
  | zero => simp [Mem.kernelStore]
  | succ fuel ih =>
    unfold Mem.kernelStore
    cases hf : m.faulting mm.pgdir addr bytes with
    | none =>
      simp only [Option.some.injEq, Nat.zero_lt_succ, true_and]
      exact eq_comm
    | some i =>
      simp only [storePageFault, Bool.not_true, Bool.false_eq_true, if_false, Option.bind_some]
      rw [ih, hf]
      simp

theorem storeBytes_entry {bytes : List UInt8} {pd : ℕ} (pd' la : ℕ) :
    (m.storeBytes pd addr bytes).entry pd' la = m.entry pd' la := by
  induction bytes generalizing m addr with
  | nil => rfl
  | cons b bytes ih => exact ih

theorem kernelCanStore_storeBytes {bytes : List UInt8} {pd : ℕ} (pd' la : ℕ) :
    (m.storeBytes pd addr bytes).kernelCanStore pd' la = m.kernelCanStore pd' la := by
  unfold kernelCanStore
  rw [storeBytes_entry]

/-- The same for the loop of `memcpy`. -/
theorem memcpyUser_done {src : List UInt8} {fuel : ℕ} {r : Mem M × Mm}
    (h : m.memcpyUser fuel mm addr src = some r) :
    (∀ i < src.length, m.kernelCanStore mm.pgdir (addr + i) = true) ∧
      r = (m.storeBytes mm.pgdir addr src, mm) := by
  induction src generalizing m addr with
  | nil => exact ⟨by simp, (Option.some.inj h).symm⟩
  | cons b src ih =>
    rw [Mem.memcpyUser, Option.bind_eq_some_iff] at h
    obtain ⟨r₁, h₁, h⟩ := h
    obtain ⟨-, hcan, rfl⟩ := kernelStore_eq_some.mp h₁
    obtain ⟨hrest, rfl⟩ := ih h
    refine ⟨?_, rfl⟩
    intro i hi
    cases i with
    | zero => exact hcan 0 (by simp)
    | succ i =>
      have hnext := hrest i (by simpa using hi)
      rw [kernelCanStore_storeBytes] at hnext
      rw [show addr + (i + 1) = addr + 1 + i by omega]
      exact hnext

theorem memcpyUser_of_can {src : List UInt8} {fuel : ℕ} (hfuel : 0 < fuel)
    (hcan : ∀ i < src.length, m.kernelCanStore mm.pgdir (addr + i) = true) :
    m.memcpyUser fuel mm addr src = some (m.storeBytes mm.pgdir addr src, mm) := by
  induction src generalizing m addr with
  | nil => rfl
  | cons b src ih =>
    have hfirst : m.kernelStore mm addr [b] fuel = some (m.storeByte mm.pgdir addr b, mm) := by
      refine kernelStore_eq_some.mpr ⟨hfuel, ?_, rfl⟩
      intro i hi
      have h0 : i = 0 := by simpa using hi
      subst h0
      exact hcan 0 (by simp)
    rw [Mem.memcpyUser, hfirst, Option.bind_some]
    apply ih
    intro i hi
    have hnext := hcan (i + 1) (by simpa using hi)
    rw [show addr + (i + 1) = addr + 1 + i by omega] at hnext
    have hsame : (m.storeBytes mm.pgdir addr [b]).kernelCanStore mm.pgdir (addr + 1 + i) =
        m.kernelCanStore mm.pgdir (addr + 1 + i) := kernelCanStore_storeBytes _ _
    exact hsame.trans hnext

theorem store_done {w : KernelWrite} {fuel : ℕ} {r : Mem M × Mm}
    (h : w.store fuel m mm addr = some r) :
    (∀ i < w.bytes.length, m.kernelCanStore mm.pgdir (addr + i) = true) ∧
      r = (m.storeBytes mm.pgdir addr w.bytes, mm) := by
  cases w with
  | copyToUser src => exact memcpyUser_done h
  | codeStore exitCode => exact (kernelStore_eq_some.mp h).2

theorem store_of_can {w : KernelWrite} {fuel : ℕ} (hfuel : 0 < fuel)
    (hcan : ∀ i < w.bytes.length, m.kernelCanStore mm.pgdir (addr + i) = true) :
    w.store fuel m mm addr = some (m.storeBytes mm.pgdir addr w.bytes, mm) := by
  cases w with
  | copyToUser src => exact memcpyUser_of_can hfuel hcan
  | codeStore exitCode => exact kernelStore_eq_some.mpr ⟨hfuel, hcan, rfl⟩

end Mem

namespace PageView

/-- A page that is mapped afterwards was mapped before, and whether it belongs to the user
and can be read is as before. -/
def SameAccess (v v' : PageView) : Prop :=
  ∀ w', v' = some w' → ∃ w, v = some w ∧ hasFlag w'.1 pteU = hasFlag w.1 pteU ∧
    hasFlag w'.1 pteR = hasFlag w.1 pteR

theorem SameAccess.refl (v : PageView) : SameAccess v v := fun w h => ⟨w, h, rfl, rfl⟩

theorem SameAccess.trans {u v w : PageView} (h : SameAccess u v) (h' : SameAccess v w) :
    SameAccess u w := by
  intro x hx
  obtain ⟨y, hy, hyu, hyr⟩ := h' x hx
  obtain ⟨z, hz, hzu, hzr⟩ := h y hy
  exact ⟨z, hz, hyu.trans hzu, hyr.trans hzr⟩

theorem sameAccess_strip (v : PageView) : SameAccess v v.strip := by
  intro w hw
  obtain ⟨u, hu, rfl⟩ := Option.map_eq_some_iff.mp hw
  exact ⟨u, hu, hasFlag_permNoWrite_user _, hasFlag_permNoWrite_read _⟩

theorem sameAccess_promote (v : PageView) : SameAccess v v.promote := by
  intro w hw
  obtain ⟨u, hu, rfl⟩ := Option.map_eq_some_iff.mp hw
  exact ⟨u, hu, hasFlag_or_pteW_user _, hasFlag_or_pteW_read _⟩

theorem sameAccess_write (v : PageView) (off : ℕ) (b : UInt8) : SameAccess v (v.write off b) := by
  intro w hw
  obtain ⟨u, hu, rfl⟩ := Option.map_eq_some_iff.mp hw
  exact ⟨u, hu, rfl, rfl⟩

end PageView

namespace Procs

variable {M : PmmManager} {s s' : Procs M}

/-- Address spaces as `load_icode` builds them: well formed, with the permissions of their
areas. -/
structure Built (s : Procs M) : Prop where
  ok : s.Ok
  pages : ∀ p mm, s.mm p = some mm → s.mem.AreaPages mm

/-- A process that was there before, with the same areas and the same access. -/
def Kept (s s' : Procs M) (p : ℕ) (a : Mm) : Prop :=
  ∃ b, s.mm p = some b ∧ b.SameAreas a ∧
    (s'.mem.pgdir b.pgdir).isSome = (s.mem.pgdir b.pgdir).isSome ∧
    ∀ la, la < userTop → PageView.SameAccess (s.mem.view b.pgdir la) (s'.mem.view b.pgdir la)

/-- A new address space, in a directory that was not there. -/
structure Fresh (s s' : Procs M) (a : Mm) : Prop where
  new : s.mem.pgdir a.pgdir = none
  pgdir : (s'.mem.pgdir a.pgdir).isSome
  sorted : a.Sorted
  pages : s'.mem.AreaPages a

/-- Every process was kept, but for one new one. -/
theorem Built.of_kept (h : s.Built) (href : s'.mem.RefInv ∅ ∅) {q : ℕ}
    (hall : ∀ p a, s'.mm p = some a → s.Kept s' p a ∨ p = q ∧ s.Fresh s' a) : s'.Built := by
  have hpages : ∀ p a, s'.mm p = some a → s'.mem.AreaPages a := by
    intro p a ha
    rcases hall p a ha with ⟨b, hb, hsame, -, hview⟩ | ⟨-, hf⟩
    · have hold := h.pages p b hb
      refine ⟨?_, ?_, ?_⟩
      · intro la hla hv
        rw [hsame.pgdir] at hv
        obtain ⟨w, hw⟩ := Option.isSome_iff_exists.mp hv
        obtain ⟨u, hu, -⟩ := hview la hla w hw
        exact (hsame.inArea la).mpr (hold.area la hla (by rw [hu]; rfl))
      · intro la hla w hw
        rw [hsame.pgdir] at hw
        obtain ⟨u, hu, hflag, -⟩ := hview la hla w hw
        rw [hflag]
        exact hold.user la hla u hu
      · intro la hla w hw
        rw [hsame.pgdir] at hw
        obtain ⟨u, hu, -, hflag⟩ := hview la hla.lt_userTop w hw
        rw [hflag]
        exact hold.read la ((hsame.areaWritable la).mp hla) u hu
    · exact hf.pages
  refine ⟨⟨href, ?_, ?_, ?_, fun p a ha => (hpages p a ha).area⟩, hpages⟩
  · intro p a ha
    rcases hall p a ha with ⟨b, hb, hsame, hpg, -⟩ | ⟨-, hf⟩
    · rw [hsame.pgdir, hpg]
      exact h.ok.pgdir p b hb
    · exact hf.pgdir
  · intro p p' a a' ha ha' heq
    have hmixed : ∀ {x y : Mm} {r : ℕ}, s.Kept s' r x → s.Fresh s' y → x.pgdir ≠ y.pgdir := by
      intro x y r hx hy hxy
      obtain ⟨b, hb, hsame, -, -⟩ := hx
      have hsome := h.ok.pgdir r b hb
      rw [← hsame.pgdir, hxy, hy.new] at hsome
      exact absurd hsome (by simp)
    rcases hall p a ha with hk | ⟨hp, hf⟩ <;> rcases hall p' a' ha' with hk' | ⟨hp', hf'⟩
    · obtain ⟨b, hb, hsame, -⟩ := hk
      obtain ⟨b', hb', hsame', -⟩ := hk'
      exact h.ok.inj p p' b b' hb hb' (by rw [← hsame.pgdir, ← hsame'.pgdir, heq])
    · exact absurd heq (hmixed hk hf')
    · exact absurd heq.symm (hmixed hk' hf)
    · exact hp.trans hp'.symm
  · intro p a ha
    rcases hall p a ha with ⟨b, hb, hsame, -, -⟩ | ⟨-, hf⟩
    · exact hsame.sorted (h.ok.sorted p b hb)
    · exact hf.sorted

theorem Built.of_all_kept (h : s.Built) (href : s'.mem.RefInv ∅ ∅)
    (hall : ∀ p a, s'.mm p = some a → s.Kept s' p a) : s'.Built :=
  h.of_kept (q := 0) href (fun p a ha => Or.inl (hall p a ha))

/-- The cache of one process moved, and memory changed without touching access. -/
theorem Built.update (h : s.Built) {pid : ℕ} {mm mm' : Mm} {m' : Mem M}
    (hmm : s.mm pid = some mm) (hsame : mm.SameAreas mm') (href : m'.RefInv ∅ ∅)
    (hpg : ∀ pd, (m'.pgdir pd).isSome = (s.mem.pgdir pd).isSome)
    (hview : ∀ pd la, la < userTop → PageView.SameAccess (s.mem.view pd la) (m'.view pd la)) :
    Built ⟨m', Function.update s.mm pid (some mm')⟩ := by
  refine h.of_all_kept href ?_
  intro p a ha
  simp only at ha
  by_cases hp : p = pid
  · subst hp
    rw [Function.update_self] at ha
    obtain rfl := Option.some.inj ha
    exact ⟨mm, hmm, hsame, hpg _, fun la hla => hview _ la hla⟩
  · rw [Function.update_of_ne hp] at ha
    exact ⟨a, ha, Mm.SameAreas.refl a, hpg _, fun la hla => hview _ la hla⟩

theorem sameAccess_of_entry {m m' : Mem M} {pd la : ℕ}
    (h : m'.entry pd la = m.entry pd la) : PageView.SameAccess (m.view pd la) (m'.view pd la) := by
  intro w hw
  unfold Mem.view at hw ⊢
  rw [h] at hw
  split at hw
  · rename_i hv
    obtain rfl := Option.some.inj hw
    exact ⟨_, if_pos hv, rfl, rfl⟩
  · exact absurd hw (by simp)

/-- Whatever comes of a user store, the areas and the access of all pages stay. -/
theorem userStore_access {m m' : Mem M} {mm mm' : Mm} {addr : ℕ} {b : UInt8} {o : Outcome}
    (hi : m.RefInv ∅ ∅) (hs : mm.Sorted) (h : m.userStore mm addr b = some (o, m', mm')) :
    m'.RefInv ∅ ∅ ∧ (∀ pd, (m'.pgdir pd).isSome = (m.pgdir pd).isSome) ∧ mm.SameAreas mm' ∧
      ∀ pd la, la < userTop → PageView.SameAccess (m.view pd la) (m'.view pd la) := by
  by_cases ho : o = .noMem
  · subst ho
    unfold Mem.userStore at h
    split at h
    · simp only [Option.some.injEq, Prod.mk.injEq] at h
      exact absurd h.1 (by simp)
    · rw [Option.bind_eq_bind, Option.bind_eq_some_iff] at h
      obtain ⟨⟨r, m₁, mm₁⟩, h₁, h⟩ := h
      obtain ⟨hi₁, hmm₁, hf⟩ := hi.doPgfault h₁
      simp only at h
      split at h
      · rename_i hr
        simp only [Option.some.injEq, Prod.mk.injEq, true_and] at h
        obtain ⟨rfl, rfl⟩ := h
        refine ⟨hi₁, hf.pgdir, hmm₁ ▸ mm.findVma_sameAreas _, ?_⟩
        intro pd la hla
        rw [hf.kept (hr ▸ by decide) pd la hla]
        exact PageView.SameAccess.refl _
      · split at h
        · simp only [Option.some.injEq, Prod.mk.injEq] at h
          exact absurd h.1 (by simp)
        · simp only [Option.some.injEq, Prod.mk.injEq] at h
          exact absurd h.1 (by simp)
  · obtain ⟨hi₁, hpg, hpd, hl, hs₁, f, hview, hf⟩ := (hi.userStore hs h).resolve_left ho
    refine ⟨hi₁, hpg, ⟨hpd, hl, fun _ => hs₁⟩, ?_⟩
    have haccess : ∀ v, PageView.SameAccess v (f v) := by
      intro v
      rcases hf with ⟨-, -, rfl⟩ | ⟨-, -, -, -, -, rfl⟩ | ⟨-, -, -, rfl⟩ | ⟨-, -, rfl, -⟩
      · exact PageView.sameAccess_write v _ _
      · exact (PageView.sameAccess_promote v).trans (PageView.sameAccess_write _ _ _)
      · exact PageView.sameAccess_promote v
      · exact PageView.SameAccess.refl v
    intro pd la hla
    rw [hview pd la hla]
    split
    · exact haccess _
    · exact PageView.SameAccess.refl _

theorem Built.fork (h : s.Built) {parent child : ℕ} {o : Outcome}
    (hs : s.step true (.fork parent child) = some (o, s')) : s'.Built := by
  by_cases hno : s.mm parent = none ∨ s.mm child ≠ none
  · rw [step_fork_noProc hno] at hs
    obtain ⟨-, rfl⟩ := Prod.mk.inj (Option.some.inj hs)
    exact h
  · obtain ⟨hp, hc⟩ := not_or.mp hno
    obtain ⟨oldmm, hp⟩ := Option.ne_none_iff_exists'.mp hp
    have hc := not_not.mp hc
    rw [step_fork hp hc] at hs
    obtain ⟨⟨r, m', new⟩, hcopy, heq⟩ := Option.map_eq_some_iff.mp hs
    have hsort := h.ok.sorted parent oldmm hp
    have hsome := h.ok.pgdir parent oldmm hp
    rcases h.ok.ref.copyMm hsort hsome hcopy with ⟨-, rfl⟩ | ⟨-, mm, rfl, hf⟩
    · -- out of memory: the parent may have lost write permission
      obtain ⟨-, rfl⟩ := Prod.mk.inj heq
      have hst := h.ok.ref.copyMm_failed hsort hsome hcopy
      refine h.of_all_kept hst.ref ?_
      intro p a ha
      refine ⟨a, ha, Mm.SameAreas.refl a, hst.pgdir _, ?_⟩
      intro la hla
      rcases hst.view a.pgdir la hla with hv | ⟨-, hv⟩
      · simp only [hv]
        exact PageView.SameAccess.refl _
      · simp only [hv]
        exact PageView.sameAccess_strip _
    · obtain ⟨-, rfl⟩ := Prod.mk.inj heq
      refine h.of_kept (q := child) hf.inv ?_
      intro p a ha
      simp only at ha
      by_cases hpc : p = child
      · subst hpc
        rw [Function.update_self] at ha
        obtain rfl := Option.some.inj ha
        have hareas : ∀ la, mm.InArea la ↔ oldmm.InArea la := fun la => by
          unfold Mm.InArea
          rw [hf.areas]
        have hold := h.pages parent oldmm hp
        have hview : ∀ la, la < userTop →
            m'.view mm.pgdir la = (s.mem.view oldmm.pgdir la).strip :=
          fun la hla => hf.view_child hla (hold.area la hla)
        refine Or.inr ⟨rfl, hf.new, ?_, ⟨?_, ?_⟩, ⟨?_, ?_, ?_⟩⟩
        · simp only
          rw [hf.pgdir]
          simp
        · rw [hf.areas]
          exact hsort.apart
        · rw [hf.cache]
          simp
        · intro la hla hv
          simp only [hview la hla, PageView.isSome_strip] at hv
          exact (hareas la).mpr (hold.area la hla hv)
        · intro la hla w hw
          simp only [hview la hla] at hw
          obtain ⟨u, hu, hflag, -⟩ := PageView.sameAccess_strip _ w hw
          rw [hflag]
          exact hold.user la hla u hu
        · intro la hla w hw
          simp only [hview la hla.lt_userTop] at hw
          obtain ⟨u, hu, -, hflag⟩ := PageView.sameAccess_strip _ w hw
          rw [hflag]
          exact hold.read la ((AreaWritable_of_list hf.areas la).mp hla) u hu
      · rw [Function.update_of_ne hpc] at ha
        refine Or.inl ⟨a, ha, Mm.SameAreas.refl a, ?_, ?_⟩
        · simp only
          rw [hf.pgdir, h.ok.pgdir p a ha, Bool.or_true]
        · intro la hla
          have hne := hf.ne_child (h.ok.pgdir p a ha)
          simp only
          by_cases hpar : a.pgdir = oldmm.pgdir
          · rw [hpar, hf.view_parent hla (hpar ▸ hne) ((h.pages parent oldmm hp).area la hla)]
            exact PageView.sameAccess_strip _
          · rw [hf.view_other hla hne (Or.inr hpar)]
            exact PageView.SameAccess.refl _

theorem Built.exit (h : s.Built) {pid : ℕ} {mm : Mm} {m' : Mem M} (hp : s.mm pid = some mm)
    (hd : Mem.TornDown ∅ s.mem m' mm.pgdir) : Built ⟨m', Function.update s.mm pid none⟩ := by
  refine h.of_all_kept hd.inv ?_
  intro p a ha
  simp only at ha
  by_cases hpp : p = pid
  · subst hpp
    rw [Function.update_self] at ha
    exact absurd ha (by simp)
  · rw [Function.update_of_ne hpp] at ha
    have hne : a.pgdir ≠ mm.pgdir := fun heq => hpp (h.ok.inj p pid a mm ha hp heq)
    refine ⟨a, ha, Mm.SameAreas.refl a, hd.pgdir _ hne, ?_⟩
    intro la hla
    simp only [hd.view _ hne la hla]
    exact PageView.SameAccess.refl _

theorem Built.execLoad (h : s.Built) {pid : ℕ} {elf : Elf} {r : ℤ} (hp : s.mm pid = none)
    (hs : s.execLoad pid elf = some (r, s')) : s'.Built := by
  obtain ⟨⟨r₁, m', new⟩, hl, heq⟩ := Option.map_eq_some_iff.mp hs
  obtain ⟨-, rfl⟩ := Prod.mk.inj heq
  have hother : ∀ {p : ℕ} {a : Mm}, Function.update s.mm pid new p = some a →
      p = pid ∧ new = some a ∨ s.mm p = some a := by
    intro p a ha
    by_cases hpp : p = pid
    · subst hpp
      rw [Function.update_self] at ha
      exact Or.inl ⟨rfl, ha⟩
    · rw [Function.update_of_ne hpp] at ha
      exact Or.inr ha
  rcases h.ok.ref.loadIcode hl with ⟨-, rfl, hu⟩ | ⟨-, mm, rfl, hload⟩
  · refine h.of_all_kept hu.ref ?_
    intro p a ha
    rcases hother ha with ⟨-, hbad⟩ | ha
    · exact absurd hbad (by simp)
    · refine ⟨a, ha, Mm.SameAreas.refl a, hu.pgdir _, ?_⟩
      intro la hla
      simp only [hu.view _ la hla]
      exact PageView.SameAccess.refl _
  · refine h.of_kept (q := pid) hload.ref ?_
    intro p a ha
    rcases hother ha with ⟨rfl, hnew⟩ | ha
    · obtain rfl := Option.some.inj hnew
      refine Or.inr ⟨rfl, hload.new, ?_, hload.sorted, hload.pages⟩
      simp only [hload.pgdir]
      simp
    · have hne : a.pgdir ≠ mm.pgdir := by
        intro heq
        have hsome := h.ok.pgdir p a ha
        rw [heq, hload.new] at hsome
        exact absurd hsome (by simp)
      refine Or.inl ⟨a, ha, Mm.SameAreas.refl a, ?_, ?_⟩
      · simp only [hload.pgdir]
        simp [hne]
      · intro la hla
        simp only [hload.other _ hne la hla]
        exact PageView.SameAccess.refl _

theorem Built.doExecve (h : s.Built) {pid name len : ℕ} {elf : Elf} {r : ℤ}
    (hs : s.doExecve pid name len elf = some (r, s')) : s'.Built := by
  unfold Procs.doExecve at hs
  split at hs
  · rename_i hp
    split at hs
    · exact h.execLoad hp hs
    · simp only [Option.some.injEq, Prod.mk.injEq] at hs
      obtain ⟨-, rfl⟩ := hs
      exact h
  · rename_i mm hp
    simp only at hs
    have hsame := mm.userMemCheck_sameAreas name len false
    have h₁ := h.update hp hsame h.ok.ref (fun _ => rfl) (fun _ _ _ => PageView.SameAccess.refl _)
    split at hs
    · simp only [Option.some.injEq, Prod.mk.injEq] at hs
      obtain ⟨-, rfl⟩ := hs
      exact h₁
    · rw [Option.bind_eq_bind, Option.bind_eq_some_iff] at hs
      obtain ⟨m₁, hm₁, hs⟩ := hs
      rw [← Function.update_idem (a := pid) (some (mm.userMemCheck name len false).2) none s.mm] at hs
      have hp₁ : Function.update s.mm pid (some (mm.userMemCheck name len false).2) pid =
          some (mm.userMemCheck name len false).2 := Function.update_self _ _ _
      have htorn := h₁.ok.ref.exitMmap (h₁.ok.pgdir pid _ hp₁) (h₁.ok.area pid _ hp₁) hm₁
      exact (h₁.exit hp₁ htorn).execLoad (Function.update_self _ _ _) hs

theorem refInv_storeBytes {m : Mem M} (hi : m.RefInv ∅ ∅) (pd addr : ℕ) (bytes : List UInt8) :
    (m.storeBytes pd addr bytes).RefInv ∅ ∅ := by
  induction bytes generalizing m addr with
  | nil => exact hi
  | cons b bytes ih => exact ih (hi.of_data _) (addr + 1)

theorem storeBytes_pgdir (m : Mem M) (pd addr : ℕ) (bytes : List UInt8) :
    (m.storeBytes pd addr bytes).pgdir = m.pgdir := by
  induction bytes generalizing m addr with
  | nil => rfl
  | cons b bytes ih => exact ih _ (addr + 1)

/-- A kernel store that is done: the check failed, or every byte could be written. -/
theorem kernelWrite_done {fuel pid addr : ℕ} {w : KernelWrite} {ok : Bool} {mm : Mm}
    (hmm : s.mm pid = some mm) (h : s.kernelWrite fuel pid addr w = some (ok, s')) :
    (ok = true → ∀ i < w.bytes.length, s.mem.kernelCanStore mm.pgdir (addr + i) = true) ∧
      s' = ⟨if ok then s.mem.storeBytes mm.pgdir addr w.bytes else s.mem,
        Function.update s.mm pid (some (mm.userMemCheck addr w.bytes.length true).2)⟩ := by
  unfold Procs.kernelWrite at h
  rw [hmm] at h
  simp only at h
  split at h
  · simp only [Option.some.injEq, Prod.mk.injEq] at h
    obtain ⟨rfl, rfl⟩ := h
    exact ⟨by simp, by simp⟩
  · obtain ⟨r, hr, heq⟩ := Option.map_eq_some_iff.mp h
    obtain ⟨hcan, rfl⟩ := Mem.store_done hr
    obtain ⟨rfl, rfl⟩ := Prod.mk.inj heq
    rw [(mm.userMemCheck_sameAreas addr w.bytes.length true).pgdir] at hcan ⊢
    exact ⟨fun _ => hcan, by simp⟩

theorem kernelWrite_of_can {fuel pid addr : ℕ} {w : KernelWrite} {mm : Mm} (hfuel : 0 < fuel)
    (hmm : s.mm pid = some mm) (hcheck : (mm.userMemCheck addr w.bytes.length true).1 = true)
    (hcan : ∀ i < w.bytes.length, s.mem.kernelCanStore mm.pgdir (addr + i) = true) :
    s.kernelWrite fuel pid addr w = some (true, ⟨s.mem.storeBytes mm.pgdir addr w.bytes,
      Function.update s.mm pid (some (mm.userMemCheck addr w.bytes.length true).2)⟩) := by
  unfold Procs.kernelWrite
  rw [hmm]
  simp only [hcheck, Bool.not_true, Bool.false_eq_true, if_false]
  have hpd := (mm.userMemCheck_sameAreas addr w.bytes.length true).pgdir
  rw [Mem.store_of_can hfuel (by rw [hpd]; exact hcan), Option.map_some, hpd]

theorem Built.kernelWrite (h : s.Built) {fuel pid addr : ℕ} {w : KernelWrite} {ok : Bool}
    (hs : s.kernelWrite fuel pid addr w = some (ok, s')) : s'.Built := by
  cases hmm : s.mm pid with
  | none =>
    unfold Procs.kernelWrite at hs
    rw [hmm] at hs
    obtain ⟨-, rfl⟩ := Prod.mk.inj (Option.some.inj hs)
    exact h
  | some mm =>
    obtain ⟨-, rfl⟩ := kernelWrite_done hmm hs
    have hsame := mm.userMemCheck_sameAreas addr w.bytes.length true
    cases ok with
    | false =>
      exact h.update hmm hsame h.ok.ref (fun _ => rfl) (fun _ _ _ => PageView.SameAccess.refl _)
    | true =>
      refine h.update hmm hsame (refInv_storeBytes h.ok.ref _ _ _) ?_ ?_
      · intro pd
        rw [if_pos rfl, storeBytes_pgdir]
      · intro pd la _
        exact sameAccess_of_entry (Mem.storeBytes_entry pd la)

theorem Built.step (h : s.Built) {op : ProcOp} {o : Outcome}
    (hs : s.step true op = some (o, s')) : s'.Built := by
  cases op with
  | load pid addr =>
    simp only [Procs.step] at hs
    split at hs
    · obtain ⟨-, rfl⟩ := Prod.mk.inj (Option.some.inj hs)
      exact h
    · obtain ⟨-, rfl⟩ := Prod.mk.inj (Option.some.inj hs)
      exact h
  | store pid addr b =>
    cases hmm : s.mm pid with
    | none =>
      rw [step_store_none hmm] at hs
      obtain ⟨-, rfl⟩ := Prod.mk.inj (Option.some.inj hs)
      exact h
    | some mm =>
      rw [step_store_some hmm] at hs
      obtain ⟨⟨o₁, m₁, mm₁⟩, hst, heq⟩ := Option.map_eq_some_iff.mp hs
      obtain ⟨-, rfl⟩ := Prod.mk.inj heq
      obtain ⟨hi, hpg, hsame, hview⟩ :=
        userStore_access h.ok.ref (h.ok.sorted pid mm hmm) hst
      exact h.update hmm hsame hi hpg hview
  | fork parent child => exact h.fork hs
  | exit pid =>
    simp only [Procs.step] at hs
    split at hs
    · obtain ⟨-, rfl⟩ := Prod.mk.inj (Option.some.inj hs)
      exact h
    · rename_i mm hmm
      obtain ⟨m₁, hm₁, heq⟩ := Option.map_eq_some_iff.mp hs
      obtain ⟨-, rfl⟩ := Prod.mk.inj heq
      exact h.exit hmm (h.ok.ref.exitMmap (h.ok.pgdir pid mm hmm) (h.ok.area pid mm hmm) hm₁)

theorem Built.kernelStep (h : s.Built) {fuel : ℕ} {op : KernelOp}
    (hs : s.kernelStep fuel op = some s') : s'.Built := by
  cases op with
  | user op =>
    obtain ⟨⟨o, s₁⟩, h₁, rfl⟩ := Option.map_eq_some_iff.mp hs
    exact h.step h₁
  | execve pid name len elf =>
    obtain ⟨⟨r, s₁⟩, h₁, rfl⟩ := Option.map_eq_some_iff.mp hs
    exact h.doExecve h₁
  | write pid addr w =>
    obtain ⟨⟨ok, s₁⟩, h₁, rfl⟩ := Option.map_eq_some_iff.mp hs
    exact h.kernelWrite h₁

/-- Before any address space is built. -/
theorem built_of_no_pgdir (hempty : ∀ pd, s.mem.pgdir pd = none)
    (hfree : ∀ p, s.mem.IsFree p → s.mem.ref p = 0) (hno : ∀ p, s.mm p = none) : s.Built := by
  have hi := Mem.refInv_of_no_pgdir hempty hfree
  have hnone : ∀ {p : ℕ} {mm : Mm}, s.mm p ≠ some mm := by
    intro p mm hp
    rw [hno p] at hp
    exact absurd hp (by simp)
  exact ⟨⟨{ hi with kept := fun p hp => absurd hp (Set.notMem_empty p) },
    fun p mm hp => absurd hp hnone, fun p q a b hp => absurd hp hnone,
    fun p mm hp => absurd hp hnone, fun p mm hp => absurd hp hnone⟩,
    fun p mm hp => absurd hp hnone⟩

theorem built_run (hempty : ∀ pd, s.mem.pgdir pd = none)
    (hfree : ∀ p, s.mem.IsFree p → s.mem.ref p = 0) (hno : ∀ p, s.mm p = none) {fuel : ℕ}
    {ops : List KernelOp} (h : runOps (kernelStep fuel) s ops = some s') : s'.Built :=
  runOps_invariant (fun _ _ _ hb => hb.kernelStep) (built_of_no_pgdir hempty hfree hno) h

end Procs

namespace Mem

variable {M : PmmManager} {K F : Set ℕ} {m : Mem M} {pd addr : ℕ}

/-- The byte is there for the process that owns the page, and for no other. -/
theorem RefInv.loadByte_storeByte (hi : RefInv K F m) {b : UInt8} (hst : m.canStore pd addr = true)
    (hld : m.canLoad pd addr = true) (pd' a : ℕ) :
    (m.storeByte pd addr b).loadByte pd' a =
      if pd' = pd ∧ a = addr then some b else m.loadByte pd' a := by
  simp only [canStore, Bool.and_eq_true, decide_eq_true_eq] at hst
  obtain ⟨⟨⟨htop, hv⟩, hw⟩, -⟩ := hst
  have hcan : (m.storeByte pd addr b).canLoad pd' a = m.canLoad pd' a := rfl
  have hentry : (m.storeByte pd addr b).entry pd' a = m.entry pd' a := rfl
  unfold loadByte
  rw [hcan, hentry]
  by_cases hin : pd' = pd ∧ a = addr
  · obtain ⟨rfl, rfl⟩ := hin
    rw [if_pos hld, if_pos ⟨rfl, rfl⟩]
    simp [storeByte]
  · rw [if_neg hin]
    cases hl : m.canLoad pd' a with
    | false => rfl
    | true =>
      simp only [canLoad, Bool.and_eq_true, decide_eq_true_eq] at hl
      obtain ⟨⟨⟨hta, hva⟩, -⟩, -⟩ := hl
      simp only [if_true, Option.some.injEq]
      by_cases hpage : ptePpn (m.entry pd' a) = ptePpn (m.entry pd addr)
      · -- the same page at another offset
        obtain ⟨rfl, hsame⟩ := hi.exclusive htop hta hv hw hva hpage
        have hoff : a % pgSize ≠ addr % pgSize := by
          intro heq
          apply hin
          refine ⟨rfl, ?_⟩
          rw [← Nat.div_add_mod a pgSize, ← Nat.div_add_mod addr pgSize, hsame, heq]
        simp [storeByte, hpage, Function.update_of_ne hoff]
      · simp [storeByte, Function.update_of_ne hpage]

theorem RefInv.loadByte_storeBytes (hi : RefInv K F m) {bytes : List UInt8}
    (hst : ∀ i < bytes.length, m.canStore pd (addr + i) = true)
    (hld : ∀ i < bytes.length, m.canLoad pd (addr + i) = true) (pd' a : ℕ) :
    (m.storeBytes pd addr bytes).loadByte pd' a =
      if pd' = pd ∧ addr ≤ a ∧ a < addr + bytes.length then bytes[a - addr]?
      else m.loadByte pd' a := by
  induction bytes generalizing m addr with
  | nil =>
    rw [if_neg (by simp only [List.length_nil]; omega)]
    rfl
  | cons b bytes ih =>
    have hshift : ∀ i, addr + 1 + i = addr + (i + 1) := fun i => by omega
    have hst' : ∀ i < bytes.length, (m.storeByte pd addr b).canStore pd (addr + 1 + i) = true := by
      intro i hi'
      rw [hshift]
      exact hst (i + 1) (by simpa using hi')
    have hld' : ∀ i < bytes.length, (m.storeByte pd addr b).canLoad pd (addr + 1 + i) = true := by
      intro i hi'
      rw [hshift]
      exact hld (i + 1) (by simpa using hi')
    have hfirst := hi.loadByte_storeByte (b := b) (hst 0 (by simp)) (hld 0 (by simp)) pd' a
    have hi' : RefInv K F (m.storeByte pd addr b) := hi.of_data _
    simp only [Nat.add_zero] at hfirst
    rw [storeBytes, ih hi' hst' hld', hfirst, List.length_cons]
    by_cases hpd : pd' = pd
    · by_cases ha : a = addr
      · subst ha
        rw [if_neg (by omega), if_pos ⟨hpd, rfl⟩, if_pos ⟨hpd, le_refl a, by omega⟩]
        simp
      · simp only [hpd, ha, and_false, if_false, true_and]
        by_cases hin : addr + 1 ≤ a ∧ a < addr + 1 + bytes.length
        · rw [if_pos hin, if_pos (by omega), show a - addr = a - (addr + 1) + 1 by omega,
            List.getElem?_cons_succ]
        · rw [if_neg hin, if_neg (by omega)]
    · simp only [hpd, false_and, if_false]

end Mem

namespace Procs

variable {M : PmmManager} {s₀ s s' : Procs M}

/-- The bytes at `addr` are those stored, for the process `pid` and for no other; nothing
else that a process can read has changed. -/
def StoredFor (s s' : Procs M) (pid addr : ℕ) (bytes : List UInt8) : Prop :=
  ∀ p, (s'.mm p).isSome = (s.mm p).isSome ∧
    ∀ mm mm', s.mm p = some mm → s'.mm p = some mm' → ∀ a,
      s'.mem.loadByte mm'.pgdir a =
        if p = pid ∧ addr ≤ a ∧ a < addr + bytes.length then bytes[a - addr]?
        else s.mem.loadByte mm.pgdir a

/-- The kernel may write where the page is mapped with `PTE_W`. -/
theorem kernelCanStore_iff {m : Mem M} {pd la : ℕ} (hla : la < userTop)
    (hv : (m.view pd la).isSome) :
    m.kernelCanStore pd la = true ↔ hasFlag (m.entry pd la) pteW = true := by
  rw [Mem.isSome_view] at hv
  unfold Mem.kernelCanStore
  simp [hla, hv]

/-- In an area with `VM_WRITE`, a page with `PTE_W` can be read and written by the user. -/
theorem Built.canStore (h : s.Built) {pid la : ℕ} {mm : Mm} (hmm : s.mm pid = some mm)
    (ha : mm.AreaWritable la) (hk : s.mem.kernelCanStore mm.pgdir la = true) :
    s.mem.canStore mm.pgdir la = true ∧ s.mem.canLoad mm.pgdir la = true := by
  simp only [Mem.kernelCanStore, Bool.and_eq_true, decide_eq_true_eq] at hk
  obtain ⟨⟨htop, hv⟩, hw⟩ := hk
  have hview : s.mem.view mm.pgdir la = some (s.mem.entry mm.pgdir la &&& pteUser,
      s.mem.data (ptePpn (s.mem.entry mm.pgdir la))) := if_pos hv
  have hu := (h.pages pid mm hmm).user la htop _ hview
  have hr := (h.pages pid mm hmm).read la ha _ hview
  simp only [hasFlag_and_pteUser_user] at hu
  simp only [hasFlag_and_pteUser_read] at hr
  unfold Mem.canStore Mem.canLoad
  simp [htop, hv, hw, hu, hr]

/-- A program with one page of BSS, at the address where user programs are linked. -/
def bssElf : Elf :=
  ⟨elfMagic, [⟨elfPtLoad, elfPfR ||| elfPfW, 0, 0x800000, 0, pgSize, by decide⟩], fun _ => 0⟩

/-- Twenty free pages and no process. -/
def noProcs : Procs (freeListPmm 20) where
  mem := { pmm := ⟨List.range 20, by decide⟩, ref := fun _ => 0, data := fun _ _ => 0,
           pgdir := fun _ => none }
  mm := fun _ => none

/-- Whether an `int` at the address passes the check, is mapped, and has `PTE_W`. -/
def intAt (s : Procs M) (pid addr : ℕ) : Option (Bool × Bool × Bool) :=
  (s.mm pid).map (fun mm => ((mm.userMemCheck addr 4 true).1,
    (List.range 4).all (fun i => hasFlag (s.mem.entry mm.pgdir (addr + i)) pteV),
    (List.range 4).all (fun i => hasFlag (s.mem.entry mm.pgdir (addr + i)) pteW)))

end Procs
end Ucore.Vm
