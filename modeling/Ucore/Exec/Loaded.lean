import Ucore.Exec.ArgBlock
import Ucore.Vm.KernelStore

/-!
What a program finds that `load_icode` has loaded from a file: its segments, and its arguments.
-/
namespace Ucore.Exec

open Library Library.Logged Vm

variable {M : PmmManager} {K F : Set ℕ} {f : ExecFile} {k : KernelHeap} {args : ExecArgs}
  {m m' : Mem M} {s s' : ExecState M} {h : ElfProghdr} {p : Installed} {pd va : ℕ}

/-- The address space before the set-up of the arguments. -/
def ExecFile.beforeArgs (f : ExecFile) (k : KernelHeap) (m : Mem M) : Option (ExecState M) :=
  m.setupPgdir.1.bind fun pd =>
    (f.loadSegments k f.ePhnum 0 ⟨m.setupPgdir.2, mmCreate pd, []⟩).result.bind fun r =>
      (r.2.mapStack k).result.map fun r => r.2

theorem loadProgram_loaded {argv : ℕ}
    (hrun : (loadProgram f k args s).result = some (0, s', argv)) : ∃ s₁ s₂ m₂,
      (f.loadSegments k f.ePhnum 0 s).result = some (0, s₁) ∧
      (s₁.mapStack k).result = some (0, s₂) ∧
      (setupArgs s₂.mem s₂.mm.pgdir args).result = some (0, m₂, argv) ∧
      s' = { s₂ with mem := m₂ } := by
  obtain ⟨⟨ret, s₁⟩, hload, hrun⟩ := result_bind_eq_some hrun
  obtain ⟨hr, hrun⟩ := passed id hrun
  rw [not_not] at hr
  subst hr
  obtain ⟨⟨ret, s₂⟩, hstack, hrun⟩ := result_bind_eq_some hrun
  obtain ⟨hr, hrun⟩ := passed id hrun
  rw [not_not] at hr
  subst hr
  obtain ⟨⟨ret, m₂, argv'⟩, hargs, hrun⟩ := result_bind_eq_some hrun
  simp only [result_pure, Option.some.injEq, Prod.mk.injEq] at hrun
  obtain ⟨rfl, rfl, rfl⟩ := hrun
  exact ⟨s₁, s₂, m₂, hload, hstack, hargs, rfl⟩

/-- The ways out of `load_icode`, each with its result and with what was noted. -/
inductive Exit (m : Mem M) (f : ExecFile) (k : KernelHeap) (args : ExecArgs) :
    ℤ × Mem M × Option Installed → List ExecEvent → Prop where
  | elfhdr {ret : ℤ} (hret : f.code .elfhdr 0 sizeofElfhdr = ret) (hne : ret ≠ 0) :
      Exit m f k args (ret, m, none) [.close]
  | magic (hret : f.code .elfhdr 0 sizeofElfhdr = 0) (hmagic : f.eMagic ≠ elfMagic) :
      Exit m f k args (0, m, none) [.close]
  | mm (hret : f.code .elfhdr 0 sizeofElfhdr = 0) (hmagic : f.eMagic = elfMagic)
      (hmm : k.has .mm = false) : Exit m f k args (-eNoMem, m, none) [.close]
  | pgdir {m₁ : Mem M} (hret : f.code .elfhdr 0 sizeofElfhdr = 0) (hmagic : f.eMagic = elfMagic)
      (hmm : k.has .mm = true) (hpg : m.setupPgdir = (none, m₁)) :
      Exit m f k args (-eNoMem, m₁, none) [.kmalloc .mm, .kfree .mm, .close]
  | symbols {m₁ : Mem M} {pd gp : ℕ} {ret : ℤ} (hret : f.code .elfhdr 0 sizeofElfhdr = 0)
      (hmagic : f.eMagic = elfMagic) (hmm : k.has .mm = true) (hpg : m.setupPgdir = (some pd, m₁))
      (hscan : (f.scanSymbols k).result = some (ret, gp)) (hne : ret ≠ 0) :
      Exit m f k args (ret, m₁, none)
        ([.kmalloc .mm] ++ (f.scanSymbols k).log ++ [.kfree .mm, .close])
  | program {m₁ m₂ : Mem M} {pd gp argv : ℕ} {ret : ℤ} {s : ExecState M}
      (hret : f.code .elfhdr 0 sizeofElfhdr = 0)
      (hmagic : f.eMagic = elfMagic) (hmm : k.has .mm = true) (hpg : m.setupPgdir = (some pd, m₁))
      (hscan : (f.scanSymbols k).result = some (0, gp))
      (hload : (loadProgram f k args ⟨m₁, mmCreate pd, []⟩).result = some (ret, s, argv))
      (hne : ret ≠ 0) (hexit : s.mem.exitMmap s.mm = some m₂) :
      Exit m f k args (ret, m₂.putPgdir s.mm.pgdir, none)
        ([.kmalloc .mm] ++ (f.scanSymbols k).log ++
          (loadProgram f k args ⟨m₁, mmCreate pd, []⟩).log ++ s.vmas.map .kfree ++
          [.kfree .mm, .close])
  | installed {m₁ : Mem M} {pd gp argv : ℕ} {s : ExecState M}
      (hret : f.code .elfhdr 0 sizeofElfhdr = 0)
      (hmagic : f.eMagic = elfMagic) (hmm : k.has .mm = true) (hpg : m.setupPgdir = (some pd, m₁))
      (hscan : (f.scanSymbols k).result = some (0, gp))
      (hload : (loadProgram f k args ⟨m₁, mmCreate pd, []⟩).result = some (0, s, argv)) :
      Exit m f k args
        (0, s.mem, some ⟨s.mm, ⟨initialSp argv, args.kargv.length, argv, gp, f.eEntry⟩⟩)
        ([.kmalloc .mm] ++ (f.scanSymbols k).log ++
          (loadProgram f k args ⟨m₁, mmCreate pd, []⟩).log ++ [.close])

theorem loadInto_exit {m₁ : Mem M} {r : ℤ × Mem M × Option Installed}
    (hret : f.code .elfhdr 0 sizeofElfhdr = 0) (hmagic : f.eMagic = elfMagic)
    (hmm : k.has .mm = true) (hpg : m.setupPgdir = (some pd, m₁))
    (hrun : (loadInto m₁ f k args pd).result = some r) :
    Exit m f k args r (.kmalloc .mm :: (loadInto m₁ f k args pd).log) := by
  unfold loadInto at hrun ⊢
  obtain ⟨⟨ret, gp⟩, hscan, hrun⟩ := result_bind_eq_some hrun
  rw [log_bind_of_result hscan]
  by_cases hne : ret = 0
  · subst hne
    simp only [ne_eq, not_true_eq_false, if_false] at hrun ⊢
    obtain ⟨⟨ret, s, argv⟩, hload, hrun⟩ := result_bind_eq_some hrun
    rw [log_bind_of_result hload]
    by_cases hne : ret = 0
    · subst hne
      simp only [not_true_eq_false, if_false, result_bind, result_tell, result_pure,
        Option.bind_some, Option.some.injEq] at hrun
      simp only [not_true_eq_false, if_false, log_tell_bind, log_pure, List.append_nil]
      subst hrun
      have hexit := Exit.installed hret hmagic hmm hpg hscan hload
      simp only [List.append_assoc, List.singleton_append] at hexit
      exact hexit
    · simp only [hne, not_false_eq_true, if_true] at hrun ⊢
      obtain ⟨m₂, hteardown, hrun⟩ := result_bind_eq_some hrun
      rw [log_bind_of_result hteardown]
      simp only [failCloseFd, result_bind, result_tell, result_pure, Option.bind_some,
        Option.some.injEq] at hrun
      simp only [failCloseFd, log_ofOption, log_tell_bind, log_pure, List.append_nil,
        List.nil_append]
      subst hrun
      have hexit := Exit.program hret hmagic hmm hpg hscan hload hne hteardown
      simp only [List.append_assoc, List.cons_append, List.nil_append] at hexit ⊢
      exact hexit
  · simp only [if_pos hne] at hrun ⊢
    obtain rfl := Option.some.inj hrun
    exact Exit.symbols hret hmagic hmm hpg hscan hne

/-- Every run of `load_icode` that comes to an end takes one of the ways out. -/
theorem loadIcode_exit {r : ℤ × Mem M × Option Installed}
    (hrun : (loadIcode m f k args).result = some r) :
    Exit m f k args r (loadIcode m f k args).log := by
  unfold loadIcode at hrun ⊢
  by_cases hret : f.code .elfhdr 0 sizeofElfhdr = 0
  · rw [if_neg (not_not.mpr hret)] at hrun ⊢
    by_cases hmagic : f.eMagic = elfMagic
    · rw [if_neg (not_not.mpr hmagic)] at hrun ⊢
      by_cases hmm : k.has .mm = true
      · rw [hmm, Bool.not_true, if_neg Bool.false_ne_true] at hrun ⊢
        obtain ⟨-, -, hrun⟩ := result_bind_eq_some hrun
        rw [log_tell_bind]
        cases hpg : m.setupPgdir with
        | mk pd m₁ =>
          rw [hpg] at hrun
          cases pd with
          | none =>
            obtain rfl := Option.some.inj hrun
            exact Exit.pgdir hret hmagic hmm hpg
          | some pd => exact loadInto_exit hret hmagic hmm hpg hrun
      · rw [Bool.not_eq_true] at hmm
        rw [hmm, Bool.not_false, if_pos rfl] at hrun ⊢
        obtain rfl := Option.some.inj hrun
        exact Exit.mm hret hmagic hmm
    · rw [if_pos hmagic] at hrun ⊢
      obtain rfl := Option.some.inj hrun
      rw [hret]
      exact Exit.magic hret hmagic
  · rw [if_pos hret] at hrun ⊢
    obtain rfl := Option.some.inj hrun
    exact Exit.elfhdr rfl hret

/-- Where `load_icode` has installed a program, everything went well before. -/
theorem loadIcode_installed (hrun : (loadIcode m f k args).result = some (0, m', some p)) :
    ∃ pd m₁ gp s argv, m.setupPgdir = (some pd, m₁) ∧
      (f.scanSymbols k).result = some (0, gp) ∧
      (loadProgram f k args ⟨m₁, mmCreate pd, []⟩).result = some (0, s, argv) ∧ m' = s.mem ∧
      p = ⟨s.mm, ⟨initialSp argv, args.kargv.length, argv, gp, f.eEntry⟩⟩ := by
  have hexit := loadIcode_exit hrun
  generalize (loadIcode m f k args).log = log at hexit
  cases hexit with
  | @installed m₁ pd gp argv s hret hmagic hmm hpg hscan hload =>
    exact ⟨pd, m₁, gp, s, argv, hpg, hscan, hload, rfl, rfl⟩

/-- The loadable segments. -/
def ExecFile.segments (f : ExecFile) : List ElfProghdr :=
  LoadState.loadable ((List.range' 0 f.ePhnum).map f.proghdr)

/-- The address space before the set-up of the arguments, and the set-up. -/
structure Prepared (K F : Set ℕ) (m : Mem M) (f : ExecFile) (k : KernelHeap) (args : ExecArgs)
    (m' : Mem M) (p : Installed) (s : ExecState M) (argv : ℕ) : Prop where
  before : f.beforeArgs k m = some s
  placed : Placed K F f f.segments s
  stack : StackReady s.mem s.mm.pgdir
  area : ∃ v ∈ s.mm.mmapList, v.vmStart = uStackTop - uStackSize ∧ v.vmEnd = uStackTop
  below : ∀ h ∈ f.segments, ∀ va, InSegment h va → va < uStackTop - uStackSize
  setup : (setupArgs s.mem s.mm.pgdir args).result = some (0, m', argv)
  mm : p.mm = s.mm
  sp : p.tf.sp = initialSp argv
  a0 : p.tf.a0 = args.kargv.length
  a1 : p.tf.a1 = argv

theorem loadIcode_prepared (hi : m.RefInv K F)
    (hrun : (loadIcode m f k args).result = some (0, m', some p)) :
    ∃ s argv, Prepared K F m f k args m' p s argv := by
  obtain ⟨pd, m₁, gp, s', argv, hpg, -, hload, rfl, rfl⟩ := loadIcode_installed hrun
  obtain ⟨s₁, s₂, m₂, hsegs, hstack, hargs, rfl⟩ := loadProgram_loaded hload
  obtain ⟨hi₁, hview, hnew⟩ := hi.setupPgdir
  rw [hpg] at hi₁ hview hnew
  have hempty : ∀ va, m₁.userByte pd va = none := by
    intro va
    refine if_neg ?_
    rintro ⟨hva, hv⟩
    rw [← Mem.isSome_view, hview pd va hva, Mem.view_of_no_pgdir (hnew pd rfl).1] at hv
    exact absurd hv Bool.false_ne_true
  have hstart : Placed K F f [] ⟨m₁, mmCreate pd, []⟩ :=
    ⟨hi₁, ⟨List.Pairwise.nil, by simp [mmCreate]⟩, fun va _ => hempty va,
      fun x hx => absurd hx List.not_mem_nil⟩
  obtain ⟨hp, hready, harea, hbelow⟩ := (hstart.loadSegments hsegs).mapStack hstack
  have hbefore : f.beforeArgs k m = some s₂ := by
    unfold ExecFile.beforeArgs
    simp only [hpg, hsegs, hstack, Option.bind_some, Option.map_some]
  exact ⟨s₂, argv, hbefore, hp, hready, harea, hbelow, hargs, rfl, rfl, rfl, rfl⟩

/-! A file with one segment, and memories for it. -/

/-- The program header stands behind the ELF header; all other bytes are one. -/
def oneSegmentFile (pOffset pVa pFilesz pMemsz : ℕ) : ExecFile where
  size := 8192
  bytes off := (leBytes 4 elfMagic ++ leBytes 20 0 ++ leBytes 8 0x800000 ++ leBytes 8 64 ++
    leBytes 16 0 ++ leBytes 2 1 ++ leBytes 6 0 ++ leBytes 4 elfPtLoad ++
    leBytes 4 (elfPfR ||| elfPfW) ++ leBytes 8 pOffset ++ leBytes 8 pVa ++ leBytes 8 0 ++
    leBytes 8 pFilesz ++ leBytes 8 pMemsz ++ leBytes 8 0).getD off 1
  code _ off len := if off < 2 ^ 63 ∧ off + len ≤ 8192 then 0 else -1
  size_lt := by decide
  inside := by
    intro p off len h
    by_cases hin : off < 2 ^ 63 ∧ off + len ≤ 8192
    · exact ⟨hin.1, Or.inr hin.2⟩
    · rw [if_neg hin] at h
      exact absurd h (by decide)

def oneArg : ExecArgs := ⟨[[97]], by decide, by decide, by decide, by decide⟩

namespace KernelHeap

def plenty : KernelHeap := ⟨fun _ => true, fun _ _ => 0⟩

end KernelHeap

/-- The pages are given out from the lowest one on. -/
def ascending : Mem (freeListPmm 400) :=
  ⟨⟨List.range 400, by decide +kernel⟩, fun _ => 0, fun _ _ => 0, fun _ => none⟩

/-- The pages are given out from the highest one on. -/
def descending : Mem (freeListPmm 400) :=
  ⟨⟨(List.range 400).reverse, by decide +kernel⟩, fun _ => 0, fun _ _ => 0, fun _ => none⟩

theorem ascending_refInv : ascending.RefInv {q | ascending.IsFree q} ∅ :=
  Mem.refInv_of_no_pgdir (fun _ => rfl) (fun _ _ => rfl)

/-- `load_icode` runs to its end for an aligned segment and a short argument. -/
theorem aligned_run : ∃ m' p,
    (loadIcode ascending (oneSegmentFile 4096 0x800000 8 4096) .plenty oneArg).result =
      some (0, m', some p) := by
  have hres : ((loadIcode ascending (oneSegmentFile 4096 0x800000 8 4096) .plenty oneArg).result.map
      fun r => (r.1, r.2.2.isSome)) = some (0, true) := by decide +kernel
  obtain ⟨⟨r, m', p⟩, hr, heq⟩ := Option.map_eq_some_iff.mp hres
  obtain ⟨rfl, hp⟩ := Prod.mk.inj heq
  obtain ⟨p, rfl⟩ := Option.isSome_iff_exists.mp hp
  exact ⟨m', p, hr⟩

/-! The arguments. -/

/-- The arguments as the program is to find them: `a1` addresses the block, which lies between the
initial `sp` and the end of the stack. -/
structure ArgBlock (m : Mem M) (p : Installed) (kargv : List (List UInt8)) : Prop where
  argc : p.tf.a0 = kargv.length
  block : BlockAt m p.mm.pgdir p.tf.a1 kargv
  above : p.tf.sp < p.tf.a1 - 4
  inside : uStackTop - uStackSize ≤ p.tf.sp
  area : ∃ v ∈ p.mm.mmapList, v.vmStart = uStackTop - uStackSize ∧ v.vmEnd = uStackTop

/-- The program finds its arguments, and nothing but the stack was written, if each string that
crosses a page has the next page of the stack in the next frame; and other frames are written
exactly if some string crosses into a frame that is not one of the stack. -/
theorem argument_block_placed (hi : m.RefInv K F)
    (hrun : (loadIcode m f k args).result = some (0, m', some p)) :
    ∃ s, f.beforeArgs k m = some s ∧
      (StringsGoOn s.mem s.mm.pgdir uStackTop args.kargv → ArgBlock m' p args.kargv ∧
        ∀ e ∈ (setupArgs s.mem s.mm.pgdir args).log, StoresTo (StackFrame m' p.mm.pgdir) e) ∧
      ((∀ e ∈ (setupArgs s.mem s.mm.pgdir args).log, StoresTo (StackFrame m' p.mm.pgdir) e) ↔
        StringsOnStack s.mem s.mm.pgdir args.kargv) := by
  obtain ⟨s, argv, hprep⟩ := loadIcode_prepared hi hrun
  have hst : StackMapped s.mem s.mm.pgdir := hprep.stack.frame
  obtain ⟨-, hargv, htables, hstores, hblock⟩ := setupArgs_run hst hprep.setup
  obtain ⟨-, -, hlow, habove⟩ := argvUser_range args.stringsSize_le args.argc_le
  rw [← hargv] at hlow habove
  have hframes : StackFrame m' p.mm.pgdir = StackFrame s.mem s.mm.pgdir := by
    funext frame
    rw [hprep.mm]
    exact propext htables.stackFrame
  rw [hframes]
  refine ⟨s, hprep.before, ?_, hstores⟩
  intro hon
  refine ⟨⟨hprep.a0, ?_, ?_, ?_, ?_⟩, hstores.mpr (hon.onStack hst)⟩
  · rw [hprep.mm, hprep.a1]
    exact (hblock hon).2
  · rw [hprep.sp, hprep.a1]
    exact habove
  · rw [hprep.sp]
    exact hlow
  · rw [hprep.mm]
    exact hprep.area

/-- A short argument. -/
theorem argument_block_placed_short : ∃ m' p,
    (loadIcode ascending (oneSegmentFile 4096 0x800000 8 4096) .plenty oneArg).result =
      some (0, m', some p) ∧ ArgBlock m' p oneArg.kargv := by
  obtain ⟨m', p, hr⟩ := aligned_run
  obtain ⟨s, -, hblock, -⟩ := argument_block_placed ascending_refInv hr
  refine ⟨m', p, hr, (hblock ?_).1⟩
  exact List.Forall₂.cons (Or.inl (by decide)) List.Forall₂.nil

/-- The first of the strings starts three bytes before the last page of the stack. -/
def crossingArgs : ExecArgs :=
  ⟨[[97, 98, 99, 100, 101, 102, 103, 104], List.replicate 4089 120], by decide, by decide,
    by decide +kernel, by decide +kernel⟩

theorem leBytes_inj {n a b : ℕ} (ha : a < 256 ^ n) (hb : b < 256 ^ n)
    (h : ∀ i < n, (leBytes n a).getD i 0 = (leBytes n b).getD i 0) : a = b := by
  induction n generalizing a b with
  | zero => omega
  | succ n ih =>
    have hlow : a % 256 = b % 256 := by
      have hzero := congrArg UInt8.toNat (h 0 (Nat.succ_pos n))
      simpa [leBytes, Nat.mod_mod] using hzero
    have hhigh := ih (a := a / 256) (b := b / 256) (by rw [Nat.pow_succ] at ha; omega)
      (by rw [Nat.pow_succ] at hb; omega) (fun i hi => h (i + 1) (by omega))
    omega

/-- The frames of the stack go down where its addresses go up. `load_icode` returns 0, and the
string that the first pointer addresses ends where the next page starts. -/
theorem crossing_argument_torn : ∃ m' p,
    (loadIcode descending (oneSegmentFile 4096 0x800000 8 4096) .plenty crossingArgs).result =
      some (0, m', some p) ∧ ¬ ArgBlock m' p crossingArgs.kargv := by
  have hres : ((loadIcode descending (oneSegmentFile 4096 0x800000 8 4096) .plenty
      crossingArgs).result.map fun r => (r.1, r.2.2.map fun p =>
        (List.range 8).all (fun i => r.2.1.userByte p.mm.pgdir (p.tf.a1 + i) ==
          some ((leBytes 8 (uStackTop - 4099)).getD i 0)) &&
        r.2.1.userByte p.mm.pgdir (uStackTop - 4096) == some 0)) = some (0, some true) := by
    decide +kernel
  obtain ⟨⟨r, m', p⟩, hr, heq⟩ := Option.map_eq_some_iff.mp hres
  obtain ⟨rfl, hp⟩ := Prod.mk.inj heq
  obtain ⟨p, rfl, hbytes⟩ := Option.map_eq_some_iff.mp hp
  refine ⟨m', p, hr, ?_⟩
  intro hblock
  obtain ⟨hpointer, hzero⟩ := Bool.and_eq_true_iff.mp hbytes
  obtain ⟨uargv, hptr, hall⟩ := hblock.block.strings
  obtain ⟨x, rest, ⟨-, htop, hstring⟩, -, rfl⟩ := List.forall₂_cons_right_iff.mp hall
  have hlen := length_leBytes 8 x
  have hx : x = uStackTop - 4099 := by
    have hlimit : uStackTop < 256 ^ 8 := by decide
    refine leBytes_inj (n := 8) (by omega) (by omega) ?_
    intro i hi
    have hone := List.all_eq_true.mp hpointer i (List.mem_range.mpr hi)
    have htwo := hptr i (by rw [length_pointers]; omega)
    rw [List.flatMap_cons, List.append_assoc, List.getD_append _ _ _ _ (by omega)] at htwo
    rw [beq_iff_eq, htwo] at hone
    exact Option.some.inj hone
  have hfourth := hstring 3 (by decide)
  rw [hx] at hfourth
  have hseen := hfourth.symm.trans (beq_iff_eq.mp hzero)
  exact absurd hseen (by decide)

/-! The segments. -/

/-- The segments are in memory as the file has them. -/
def SegmentsRight (f : ExecFile) (m : Mem M) (pd : ℕ) : Prop :=
  ∀ h ∈ f.segments, ∀ i < h.pMemsz, m.userByte pd (h.pVa + i) =
    some (if i < h.pFilesz then f.bytes (h.pOffset + i) else 0)

/-- The pages of the segment are as many as its size needs, and what the loop leaves out at the
start of a page is zero in the file. -/
structure Covered (f : ExecFile) (h : ElfProghdr) : Prop where
  pages : 0 < h.pMemsz → h.pVa % pgSize + h.pMemsz ≤ roundUp h.pMemsz pgSize
  zeros : ∀ i < h.pFilesz, (h.pVa + i) % pgSize < h.pVa % pgSize → f.bytes (h.pOffset + i) = 0

theorem hasTurn_iff : (∀ i < h.pMemsz, HasTurn h (h.pVa + i)) ↔
    (0 < h.pMemsz → h.pVa % pgSize + h.pMemsz ≤ roundUp h.pMemsz pgSize) := by
  unfold HasTurn roundUp roundDown
  constructor
  · intro hturn hpos
    have hlast := hturn (h.pMemsz - 1) (by omega)
    unfold pgSize at *
    omega
  · intro hle i hlt
    have hle' := hle (by omega)
    unfold pgSize at *
    omega

/-- A segment that is aligned is covered. -/
theorem Covered.of_aligned (ha : h.pVa % pgSize = 0) : Covered f h := by
  refine ⟨fun _ => ?_, fun i _ hlt => ?_⟩
  · unfold roundUp roundDown
    unfold pgSize at *
    omega
  · rw [ha] at hlt
    exact absurd hlt (Nat.not_lt_zero _)

/-- What the loop leaves in a segment is right if and only if the segment is covered. -/
theorem placed_right_iff (hsize : h.pFilesz ≤ h.pMemsz)
    (hoffset : 0 < h.pFilesz → h.pOffset < 2 ^ 31) (htop : h.pVa + h.pMemsz ≤ userTop) :
    (∀ i < h.pMemsz, placed f h (h.pVa + i) =
      some (if i < h.pFilesz then f.bytes (h.pOffset + i) else 0)) ↔ Covered f h := by
  have hlimit : userTop < wordLimit := by decide
  -- with a turn, the byte is that of the file or zero
  have hbyte : ∀ i < h.pMemsz, HasTurn h (h.pVa + i) → placed f h (h.pVa + i) =
      some (if i < h.pFilesz ∧ h.pVa % pgSize ≤ (h.pVa + i) % pgSize then
        f.bytes (h.pOffset + i) else 0) := by
    intro i hi hturn
    unfold placed loadedByte
    rw [if_pos hturn, Nat.add_sub_cancel_left]
    by_cases hin : i < h.pFilesz ∧ h.pVa % pgSize ≤ (h.pVa + i) % pgSize
    · have hmod : (h.pOffset + i) % wordLimit = h.pOffset + i := by
        refine Nat.mod_eq_of_lt ?_
        have hoff := hoffset (by omega)
        have htop' : userTop = 2 ^ 31 := by decide
        have hword : wordLimit = 2 ^ 64 := by decide
        omega
      rw [if_pos hin, if_pos ⟨hin.2, by omega⟩, hmod]
    · rw [if_neg hin, if_neg (fun hbad => hin ⟨by omega, hbad.1⟩)]
  constructor
  · intro hright
    have hturn : ∀ i < h.pMemsz, HasTurn h (h.pVa + i) := by
      intro i hi
      by_contra hno
      have hnone : placed f h (h.pVa + i) = none := if_neg hno
      rw [hright i hi] at hnone
      exact absurd hnone (Option.some_ne_none _)
    refine ⟨hasTurn_iff.mp hturn, ?_⟩
    intro i hi hlt
    have heq := (hbyte i (by omega) (hturn i (by omega))).symm.trans (hright i (by omega))
    rw [if_neg (fun hbad => absurd hbad.2 (Nat.not_le.mpr hlt)), if_pos hi] at heq
    exact (Option.some.inj heq).symm
  · intro hc i hi
    rw [hbyte i hi (hasTurn_iff.mpr hc.pages i hi)]
    by_cases hfile : i < h.pFilesz
    · rw [if_pos hfile]
      by_cases hle : h.pVa % pgSize ≤ (h.pVa + i) % pgSize
      · rw [if_pos ⟨hfile, hle⟩]
      · rw [if_neg (fun hbad => hle hbad.2), hc.zeros i hfile (Nat.lt_of_not_le hle)]
    · rw [if_neg hfile, if_neg (fun hbad => hfile hbad.1)]

end Ucore.Exec
