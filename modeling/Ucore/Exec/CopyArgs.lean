import Mathlib.Logic.Function.Basic
import Ucore.Exec.Loaded
import Ucore.Library.Call
import Ucore.Library.Terminated
import Ucore.Vm.CopyString

/-!
`do_execve` of lab8 up to `load_icode`. The name and the arguments are copied from the caller, each
argument into a block of its own, before its address space goes away. A block that is given back
must be in use, and so must one that is written or read.
-/
namespace Ucore.Exec

open Library Library.Call Vm

def procNameLen : ℕ := 15

/-- For which of its calls `kmalloc` has memory, and what the blocks hold at first. -/
structure ArgHeap where
  has : ℕ → Bool
  fresh : ℕ → ℕ → UInt8

/-- The address space of the caller and whether its lock is taken, how often `kmalloc` was called,
the blocks in use, what they hold, and the user bytes that were read. -/
structure ArgState where
  mm : Option AreaList
  locked : Bool
  calls : ℕ
  live : List ℕ
  buf : ℕ → ℕ → UInt8
  read : List UInt64

abbrev ArgCall (α : Type) := Call ArgState ℤ α

/-- `lock_mm`, which waits forever where the caller has the lock. -/
def lockMm : ArgCall PUnit := do
  Call.require fun s => s.locked = false
  modify fun s => { s with locked := s.mm.isSome }

/-- `unlock_mm` -/
def unlockMm : ArgCall PUnit := modify fun s => { s with locked := false }

/-- `kmalloc(EXEC_MAX_ARG_LEN + 1)` -/
def kmallocArg (h : ArgHeap) : ArgCall (Option ℕ) := fun s =>
  if h.has s.calls then
    some (.ok (some s.calls), { s with
      calls := s.calls + 1
      live := s.calls :: s.live
      buf := Function.update s.buf s.calls (h.fresh s.calls) })
  else some (.ok none, { s with calls := s.calls + 1 })

/-- `kfree` -/
def kfreeArg (b : ℕ) : ArgCall PUnit := do
  Call.require fun s => b ∈ s.live
  modify fun s => { s with live := s.live.erase b }

/-- `user_mem_check` -/
def checkArgs (addr len : UInt64) : ArgCall Bool := fun s =>
  let (ok, mm) := userMemCheck s.mm addr len false
  some (.ok ok, { s with mm := mm })

/-- The pointer in the memory of the caller. -/
def pointerAt (mem : UInt64 → UInt8) (addr : UInt64) : UInt64 :=
  UInt64.ofNat (leWord (fun i => mem (addr + UInt64.ofNat i)) 0 8)

/-- The address of `argv[i]`. -/
def argvEntry (argv : UInt64) (i : ℕ) : UInt64 := argv + UInt64.ofNat (8 * i)

/-- `argv[i]` -/
def argvAt (mem : UInt64 → UInt8) (argv : UInt64) (i : ℕ) : UInt64 :=
  pointerAt mem (argvEntry argv i)

def readArgv (mem : UInt64 → UInt8) (argv : UInt64) (i : ℕ) : ArgCall UInt64 := fun s =>
  some (.ok (argvAt mem argv i), { s with read := s.read ++ bytesFrom (argvEntry argv i) 8 })

/-- `copy_string` into a block. -/
def copyArg (mem : UInt64 → UInt8) (b : ℕ) (src : UInt64) : ArgCall Bool := do
  Call.require fun s => b ∈ s.live
  fun s =>
    let r := copyString mem s.mm (s.buf b) 0 src (UInt64.ofNat (execMaxArgLen + 1))
    some (.ok r.ret, { s with
      mm := r.mm, buf := Function.update s.buf b r.buf, read := s.read ++ r.read })

/-- `put_kargv`, from the last block on. -/
def putKargv (kargv : List ℕ) : ArgCall PUnit := each kfreeArg kargv.reverse

/-- The loop of `copy_kargv` from `i` on; `kargv` are the blocks so far. -/
def copyKargvLoop (mem : UInt64 → UInt8) (h : ArgHeap) (argv : UInt64) :
    ℕ → ℕ → List ℕ → ArgCall (List ℕ)
  | 0, _, kargv => pure kargv
  | left + 1, i, kargv => do
    match ← kmallocArg h with
    | none => do
      -- `failed_nomem`
      putKargv kargv
      fail (-eNoMem)
    | some buffer => do
      let arg ← readArgv mem argv i
      let copied ← copyArg mem buffer arg
      if copied then copyKargvLoop mem h argv left (i + 1) (kargv ++ [buffer])
      else do
        kfreeArg buffer
        -- `failed_cleanup`
        putKargv kargv
        fail (-eInval)

/-- `copy_kargv` -/
def copyKargv (mem : UInt64 → UInt8) (h : ArgHeap) (argc : ℕ) (argv : UInt64) :
    ArgCall (List ℕ) := do
  let ok ← checkArgs argv (UInt64.ofNat (8 * argc))
  if ok then copyKargvLoop mem h argv argc 0 [] else fail (-eInval)

/-! The strings of the caller. -/

/-- The string at the address ends before the `n`th byte, and the caller may read it. -/
def PassesString (mm : AreaList) (mem : UInt64 → UInt8) (src : UInt64) (n : ℕ) : Prop :=
  ∃ k < n, StringAt mem src k ∧ ∀ i ≤ k, mm.Readable (src.toNat + i)

/-- The string at the address, of at most `n` bytes. -/
def userString (mem : UInt64 → UInt8) (src : UInt64) (n : ℕ) : List UInt8 :=
  stringIn 0 n (fun i => mem (src + UInt64.ofNat i))

variable {mm₀ : AreaList} {mm : Option AreaList} {mem : UInt64 → UInt8} {src argv : UInt64}
  {n argc : ℕ} {h : ArgHeap} {s₀ s s' : ArgState} {kargv L : List ℕ}

theorem length_userString_lt (hpass : PassesString mm₀ mem src n) :
    (userString mem src n).length < n := by
  obtain ⟨k, hk, hstr, -⟩ := hpass
  exact (length_stringIn_le hk hstr.1).trans_lt hk

theorem copyLoop_keeps {buf : ℕ → UInt8} {dst : ℕ} {part maxn : UInt64} {read : List UInt64}
    (hmm : Keeps mm₀ mm) : Keeps mm₀ (copyLoop mem mm buf dst src part maxn read).mm := by
  have hcheck : ∀ {mm mm' : Option AreaList} {src part : UInt64} {ok : Bool}, Keeps mm₀ mm →
      userMemCheck mm src part false = (ok, mm') → Keeps mm₀ mm' := by
    intro mm mm' src part ok hkeeps hrun
    obtain ⟨mm₁, rfl, hlist⟩ := hkeeps
    obtain ⟨mm₂, hmm₂, hlist₂⟩ := userMemCheck_keeps mm₁ src part false
    rw [hrun] at hmm₂
    exact ⟨mm₂, hmm₂, hlist₂.trans hlist⟩
  fun_induction copyLoop mem mm buf dst src part maxn read with
  | case1 mm buf dst src part maxn read mm' hrun => exact hcheck hmm hrun
  | case2 mm buf dst src part maxn read mm' hrun part' alen hlt => exact hcheck hmm hrun
  | case3 mm buf dst src part maxn read mm' hrun part' alen hlt hmax => exact hcheck hmm hrun
  | case4 mm buf dst src part maxn read mm' hrun part' alen hlt hmax ih =>
    exact ih (hcheck hmm hrun)

/-- What `copy_string` leaves of a string of the caller. -/
structure StringCopied (mm₀ : AreaList) (mem : UInt64 → UInt8) (src : UInt64) (n : ℕ) (r : Copied) :
    Prop where
  ret : r.ret = true ↔ PassesString mm₀ mem src n
  copy : r.ret = true → stringIn 0 n r.buf = userString mem src n
  mm : Keeps mm₀ r.mm
  read : ∀ x ∈ r.read, mm₀.Readable x.toNat

theorem copyString_copied (hal : mm₀.Aligned) (hmm : Keeps mm₀ mm) (buf : ℕ → UInt8)
    (maxn : UInt64) : StringCopied mm₀ mem src maxn.toNat (copyString mem mm buf 0 src maxn) := by
  have hfrom : CopiesFrom mm₀ mem buf 0 src maxn.toNat [] (copyString mem mm buf 0 src maxn) :=
    copyLoop_spec hal hmm (toNat_wordRoundDown_sub src)
  refine ⟨hfrom.ret, ?_, copyLoop_keeps hmm, ?_⟩
  · intro hret
    obtain ⟨k, hk, hstr, -⟩ := hfrom.ret.mp hret
    refine stringIn_congr hk hstr.1 ?_
    intro i hi
    rw [hfrom.copy hret k hstr]
    unfold memcpy
    rw [if_pos (by omega), Nat.sub_zero]
  · intro x hx
    exact (hfrom.read x hx).resolve_left List.not_mem_nil

/-! The vector of pointers, and the first argument that does not pass. -/

/-- The caller may read the vector. -/
def VectorReadable (mm : AreaList) (argv : UInt64) (argc : ℕ) : Prop :=
  ∀ j < 8 * argc, mm.Readable (argv.toNat + j)

/-- `copy_kargv` comes to argument `i`: those before it pass, and had their blocks. -/
def Reaches (mm : AreaList) (mem : UInt64 → UInt8) (h : ArgHeap) (argv : UInt64) (c i : ℕ) : Prop :=
  ∀ j < i, PassesString mm mem (argvAt mem argv j) (execMaxArgLen + 1) ∧ h.has (c + j) = true

/-- How `copy_kargv` fails at argument `i`. -/
def FailsAt (mm : AreaList) (mem : UInt64 → UInt8) (h : ArgHeap) (argv : UInt64) (c i : ℕ)
    (ret : ℤ) : Prop :=
  (h.has (c + i) = false ∧ ret = -eNoMem) ∨
    (h.has (c + i) = true ∧ ¬ PassesString mm mem (argvAt mem argv i) (execMaxArgLen + 1) ∧
      ret = -eInval)

/-- How `copy_kargv` fails at the first argument that fails. -/
def Stops (mm : AreaList) (mem : UInt64 → UInt8) (h : ArgHeap) (argv : UInt64) (c argc : ℕ)
    (ret : ℤ) : Prop :=
  ∃ i < argc, Reaches mm mem h argv c i ∧ FailsAt mm mem h argv c i ret

theorem Reaches.succ {c i : ℕ} (hreach : Reaches mm₀ mem h argv c i)
    (hpass : PassesString mm₀ mem (argvAt mem argv i) (execMaxArgLen + 1))
    (hhas : h.has (c + i) = true) : Reaches mm₀ mem h argv c (i + 1) := by
  intro j hj
  rcases Nat.lt_succ_iff_lt_or_eq.mp hj with hlt | rfl
  · exact hreach j hlt
  · exact ⟨hpass, hhas⟩

theorem FailsAt.unique {c i : ℕ} {ret ret' : ℤ} (hfail : FailsAt mm₀ mem h argv c i ret)
    (hfail' : FailsAt mm₀ mem h argv c i ret') : ret = ret' := by
  unfold FailsAt at hfail hfail'
  rcases hfail with ⟨hno, rfl⟩ | ⟨hhas, -, rfl⟩ <;>
    rcases hfail' with ⟨hno', rfl⟩ | ⟨hhas', -, rfl⟩ <;> simp_all

/-- Behind an argument that fails none is reached. -/
theorem FailsAt.le_of_reaches {c i j : ℕ} {ret : ℤ} (hfail : FailsAt mm₀ mem h argv c i ret)
    (hreach : Reaches mm₀ mem h argv c j) : j ≤ i := by
  by_contra hlt
  obtain ⟨hpass, hhas⟩ := hreach i (by omega)
  rcases hfail with ⟨hno, -⟩ | ⟨-, hbad, -⟩
  · rw [hhas] at hno
    exact absurd hno (by simp)
  · exact hbad hpass

theorem Stops.unique {c : ℕ} {ret ret' : ℤ} (hstop : Stops mm₀ mem h argv c argc ret)
    (hstop' : Stops mm₀ mem h argv c argc ret') : ret = ret' := by
  obtain ⟨i, -, hreach, hfail⟩ := hstop
  obtain ⟨j, -, hreach', hfail'⟩ := hstop'
  obtain rfl : i = j := le_antisymm (hfail'.le_of_reaches hreach) (hfail.le_of_reaches hreach')
  exact hfail.unique hfail'

theorem Stops.not_reaches {c : ℕ} {ret : ℤ} (hstop : Stops mm₀ mem h argv c argc ret) :
    ¬ Reaches mm₀ mem h argv c argc := by
  obtain ⟨i, hlt, -, hfail⟩ := hstop
  intro hreach
  exact absurd (hfail.le_of_reaches hreach) (Nat.not_le.mpr hlt)

/-! What stays during the calls. -/

/-- The caller's areas and its lock are as before, and only bytes that it may read were read. -/
structure Kept (mm₀ : AreaList) (s₀ s : ArgState) : Prop where
  mm : Keeps mm₀ s.mm
  locked : s.locked = s₀.locked
  read : ∀ x ∈ s.read, x ∈ s₀.read ∨ mm₀.Readable x.toNat

/-- The blocks of the first `i` arguments. -/
def argBlocks (c i : ℕ) : List ℕ := (List.range i).map (c + ·)

theorem argBlocks_succ (c i : ℕ) : argBlocks c (i + 1) = argBlocks c i ++ [c + i] := by
  unfold argBlocks
  rw [List.range_succ, List.map_append]
  rfl

/-- The first `i` arguments are copied. -/
structure Held (mm₀ : AreaList) (mem : UInt64 → UInt8) (argv : UInt64) (s₀ : ArgState) (i : ℕ)
    (s : ArgState) : Prop where
  kept : Kept mm₀ s₀ s
  calls : s.calls = s₀.calls + i
  live : s.live = (argBlocks s₀.calls i).reverse ++ s₀.live
  strings : ∀ j < i, stringIn 0 (execMaxArgLen + 1) (s.buf (s₀.calls + j)) =
    userString mem (argvAt mem argv j) (execMaxArgLen + 1)

theorem kfreeArg_ends {p : Prop} {b : ℕ} {E : ℤ → ArgState → Prop} (hlive : s.live = b :: L) :
    Ends p (kfreeArg b) s (fun _ s' => s' = { s with live := L }) E := by
  refine Ends.bind (Ends.require ?_ ?_)
  · intro _
    refine Ends.modify ?_
    rw [hlive, List.erase_cons_head]
  · intro hno
    exact absurd (hlive ▸ List.mem_cons_self) hno

/-- Giving back what was taken last is giving back blocks in use. -/
theorem putKargv_ends {p : Prop} {E : ℤ → ArgState → Prop} (hlive : s.live = kargv.reverse ++ L) :
    Ends p (putKargv kargv) s (fun _ s' => s' = { s with live := L }) E := by
  unfold putKargv
  generalize kargv.reverse = blocks at hlive
  induction blocks generalizing s with
  | nil =>
    refine Ends.pure ?_
    rw [List.nil_append] at hlive
    rw [← hlive]
  | cons b blocks ih =>
    refine Ends.bind ((kfreeArg_ends hlive).mono ?_ (fun _ _ he => he))
    rintro _ s' rfl
    exact ih rfl

theorem readArgv_ends {p : Prop} {E : ℤ → ArgState → Prop} {i : ℕ} (hi : i < argc)
    (hargc : argc ≤ execMaxArgNum) (hvec : VectorReadable mm₀ argv argc)
    (hkept : Kept mm₀ s₀ s) :
    Ends p (readArgv mem argv i) s (fun arg s' => arg = argvAt mem argv i ∧
      ∃ read, s' = { s with read := read } ∧ Kept mm₀ s₀ s') E := by
  refine ⟨rfl, _, rfl, hkept.mm, hkept.locked, ?_⟩
  intro x hx
  rcases List.mem_append.mp hx with hx | hx
  · exact hkept.read x hx
  · refine Or.inr ?_
    have hlast := (hvec (8 * i + 7) (by omega)).2.1
    have hoff : (argvEntry argv i).toNat = argv.toNat + 8 * i := by
      unfold argvEntry
      rw [UInt64.toNat_add, UInt64.toNat_ofNat']
      unfold execMaxArgNum at hargc
      unfold userTop at hlast
      omega
    refine mem_bytesFrom ?_ ?_ hx
    · omega
    · intro j hj
      rw [hoff, Nat.add_assoc]
      exact hvec _ (by omega)

theorem copyArg_ends {p : Prop} {E : ℤ → ArgState → Prop} {b : ℕ} (hal : mm₀.Aligned)
    (hb : b ∈ s.live) (hkept : Kept mm₀ s₀ s) :
    Ends p (copyArg mem b src) s (fun ok s' =>
      (ok = true ↔ PassesString mm₀ mem src (execMaxArgLen + 1)) ∧ Kept mm₀ s₀ s' ∧
      s'.calls = s.calls ∧ s'.live = s.live ∧ (∀ x ≠ b, s'.buf x = s.buf x) ∧
      (ok = true → stringIn 0 (execMaxArgLen + 1) (s'.buf b) =
        userString mem src (execMaxArgLen + 1))) E := by
  refine Ends.bind (Ends.require (fun _ => ?_) (fun hno => absurd hb hno))
  have hcopied := @copyString_copied mm₀ s.mm mem src hal hkept.mm (s.buf b)
    (UInt64.ofNat (execMaxArgLen + 1))
  have hn : (UInt64.ofNat (execMaxArgLen + 1)).toNat = execMaxArgLen + 1 := rfl
  rw [hn] at hcopied
  refine ⟨hcopied.ret, ⟨hcopied.mm, hkept.locked, ?_⟩, rfl, rfl, ?_, ?_⟩
  · intro x hx
    rcases List.mem_append.mp hx with hx | hx
    · exact hkept.read x hx
    · exact Or.inr (hcopied.read x hx)
  · intro x hx
    exact Function.update_of_ne hx _ _
  · intro hret
    dsimp only
    rw [Function.update_self]
    exact hcopied.copy hret

theorem kmallocArg_ends {p : Prop} {E : ℤ → ArgState → Prop} :
    Ends p (kmallocArg h) s (fun b s' =>
      (b = none ∧ h.has s.calls = false ∧ s' = { s with calls := s.calls + 1 }) ∨
      (b = some s.calls ∧ h.has s.calls = true ∧ ∃ buf, (∀ x ≠ s.calls, buf x = s.buf x) ∧
        s' = { s with calls := s.calls + 1, live := s.calls :: s.live, buf := buf })) E := by
  unfold Ends kmallocArg
  by_cases hhas : h.has s.calls = true
  · rw [if_pos hhas]
    exact Or.inr ⟨rfl, hhas, _, fun x hx => Function.update_of_ne hx _ _, rfl⟩
  · rw [if_neg hhas]
    exact Or.inl ⟨rfl, Bool.eq_false_iff.mpr hhas, rfl⟩

/-- All that was taken is given back. -/
structure Released (mm₀ : AreaList) (s₀ s : ArgState) : Prop where
  kept : Kept mm₀ s₀ s
  live : s.live = s₀.live

theorem Held.putKargv {p : Prop} {i : ℕ} {ret : ℤ} {P : ℤ → Prop}
    {Q : List ℕ → ArgState → Prop} (hkept : Kept mm₀ s₀ s)
    (hlive : s.live = (argBlocks s₀.calls i).reverse ++ s₀.live) (hret : P ret) :
    Ends p (do putKargv (argBlocks s₀.calls i); fail ret) s Q
      (fun ret s' => P ret ∧ Released mm₀ s₀ s') := by
  refine Ends.bind ((putKargv_ends hlive).mono ?_ (fun _ _ he => he))
  rintro _ s' rfl
  exact Ends.fail ⟨hret, ⟨hkept.mm, hkept.locked, hkept.read⟩, rfl⟩

/-- The loop takes the arguments one after the other, and gives all blocks back when it fails. -/
theorem copyKargvLoop_ends {p : Prop} {i left : ℕ} (hal : mm₀.Aligned)
    (hargc : argc ≤ execMaxArgNum) (hvec : VectorReadable mm₀ argv argc) (hi : i + left = argc)
    (hreach : Reaches mm₀ mem h argv s₀.calls i) (hheld : Held mm₀ mem argv s₀ i s) :
    Ends p (copyKargvLoop mem h argv left i (argBlocks s₀.calls i)) s
      (fun kargv s' => kargv = argBlocks s₀.calls argc ∧ Reaches mm₀ mem h argv s₀.calls argc ∧
        Held mm₀ mem argv s₀ argc s')
      (fun ret s' => Stops mm₀ mem h argv s₀.calls argc ret ∧ Released mm₀ s₀ s') := by
  induction left generalizing i s with
  | zero =>
    obtain rfl : i = argc := hi
    exact Ends.pure ⟨rfl, hreach, hheld⟩
  | succ left ih =>
    unfold copyKargvLoop
    refine Ends.bind (kmallocArg_ends.mono ?_ (fun _ _ he => he))
    rintro b t (⟨rfl, hno, rfl⟩ | ⟨rfl, hhas, buf, hbuf, rfl⟩)
    · rw [hheld.calls] at hno
      exact Held.putKargv ⟨hheld.kept.mm, hheld.kept.locked, hheld.kept.read⟩ hheld.live
        ⟨i, by omega, hreach, Or.inl ⟨hno, rfl⟩⟩
    · rw [hheld.calls] at hhas
      dsimp only
      have hkept : Kept mm₀ s₀ { s with
          calls := s.calls + 1, live := s.calls :: s.live, buf := buf } :=
        ⟨hheld.kept.mm, hheld.kept.locked, hheld.kept.read⟩
      have hlt : i < argc := by omega
      refine Ends.bind ((readArgv_ends hlt hargc hvec hkept).mono ?_ (fun _ _ he => he))
      rintro arg t ⟨rfl, read, rfl, hkept⟩
      refine Ends.bind ((copyArg_ends hal List.mem_cons_self hkept).mono ?_ (fun _ _ he => he))
      rintro ok t ⟨hok, hkept, hcalls, hlive, hother, hcopy⟩
      dsimp only at hcalls hlive hother
      rw [hheld.live] at hlive
      by_cases hpass : ok = true
      · rw [if_pos hpass, hheld.calls, ← argBlocks_succ]
        refine ih (by omega) (hreach.succ (hok.mp hpass) hhas) ⟨hkept, ?_, ?_, ?_⟩
        · rw [hcalls, hheld.calls, Nat.add_assoc]
        · rw [hlive, argBlocks_succ, hheld.calls, List.reverse_append]
          rfl
        · intro j hj
          rcases Nat.lt_succ_iff_lt_or_eq.mp hj with hlt | rfl
          · have hne : s₀.calls + j ≠ s.calls := by
              rw [hheld.calls]
              omega
            rw [hother _ hne, hbuf _ hne]
            exact hheld.strings j hlt
          · rw [← hheld.calls]
            exact hcopy hpass
      · rw [if_neg hpass]
        refine Ends.bind ((kfreeArg_ends hlive).mono ?_ (fun _ _ he => he))
        rintro _ t rfl
        exact Held.putKargv ⟨hkept.mm, hkept.locked, hkept.read⟩ rfl
          ⟨i, by omega, hreach, Or.inr ⟨hhas, fun hp => hpass (hok.mpr hp), rfl⟩⟩

/-- The check of the vector. -/
theorem checkArgs_ends {p : Prop} {E : ℤ → ArgState → Prop} (hpos : 1 ≤ argc)
    (hargc : argc ≤ execMaxArgNum) (hkept : Kept mm₀ s₀ s) :
    Ends p (checkArgs argv (UInt64.ofNat (8 * argc))) s (fun ok s' =>
      (ok = true ↔ VectorReadable mm₀ argv argc) ∧
        ∃ mm, s' = { s with mm := mm } ∧ Kept mm₀ s₀ s') E := by
  have hlen : (UInt64.ofNat (8 * argc)).toNat = 8 * argc := by
    rw [UInt64.toNat_ofNat']
    unfold execMaxArgNum at hargc
    omega
  obtain ⟨mm₁, hmm₁, hlist⟩ := hkept.mm
  have hchecks := userMemCheck_iff_mayAccess s.mm argv (UInt64.ofNat (8 * argc)) false (by omega)
  obtain ⟨mm₂, hmm₂, hlist₂⟩ := userMemCheck_keeps mm₁ argv (UInt64.ofNat (8 * argc)) false
  refine ⟨?_, _, rfl, ⟨mm₂, ?_, hlist₂.trans hlist⟩, hkept.locked, hkept.read⟩
  · refine hchecks.trans ?_
    rw [hlen, hmm₁]
    refine forall₂_congr fun j _ => ?_
    rw [← AreaList.readable_congr hlist]
    unfold MayAccess AreaList.Readable AreaList.Accessible
    simp
  · rw [← hmm₂, ← hmm₁]
    rfl

/-- `copy_kargv` copies each of the strings, or leaves no block behind. -/
theorem copyKargv_ends {p : Prop} (hal : mm₀.Aligned) (hpos : 1 ≤ argc)
    (hargc : argc ≤ execMaxArgNum) (hkept : Kept mm₀ s₀ s) (hcalls : s.calls = s₀.calls)
    (hlive : s.live = s₀.live) :
    Ends p (copyKargv mem h argc argv) s
      (fun kargv s' => kargv = argBlocks s₀.calls argc ∧ VectorReadable mm₀ argv argc ∧
        Reaches mm₀ mem h argv s₀.calls argc ∧ Held mm₀ mem argv s₀ argc s')
      (fun ret s' => ((ret = -eInval ∧ ¬ VectorReadable mm₀ argv argc) ∨
        (VectorReadable mm₀ argv argc ∧ Stops mm₀ mem h argv s₀.calls argc ret)) ∧
        Released mm₀ s₀ s') := by
  refine Ends.bind ((checkArgs_ends hpos hargc hkept).mono ?_ (fun _ _ he => he))
  rintro ok t ⟨hok, mm, rfl, hkept'⟩
  by_cases hvec : ok = true
  · rw [if_pos hvec]
    have hheld : Held mm₀ mem argv s₀ 0 { s with mm := mm } :=
      ⟨hkept', hcalls, hlive, fun j hj => absurd hj (Nat.not_lt_zero j)⟩
    refine (copyKargvLoop_ends hal hargc (hok.mp hvec) (Nat.zero_add argc)
      (fun j hj => absurd hj (Nat.not_lt_zero j)) hheld).mono ?_ ?_
    · intro kargv s' hdone
      exact ⟨hdone.1, hok.mp hvec, hdone.2⟩
    · intro ret s' hfail
      exact ⟨Or.inr ⟨hok.mp hvec, hfail.1⟩, hfail.2⟩
  · rw [if_neg hvec]
    exact Ends.fail ⟨Or.inl ⟨rfl, fun hv => hvec (hok.mpr hv)⟩, hkept', hlive⟩

end Ucore.Exec
