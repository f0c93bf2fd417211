import Ucore.Exec.CopyArgs

/-!
`do_execve` of lab8. All that is needed of the caller is copied while its address space is there;
what `load_icode` finds are the strings of the caller, and no block stays behind whichever way the
call ends.
-/
namespace Ucore.Exec

open Library Library.Call Vm

/-- `snprintf(local_name, sizeof(local_name), "<null> %d", current->pid)` -/
def nullName (pid : ℕ) : ℕ → UInt8 :=
  let digits := (Nat.toDigits 10 pid).map fun c => UInt8.ofNat c.toNat
  let text : List UInt8 := [60, 110, 117, 108, 108, 62, 32] ++ digits
  fun i => (text.take procNameLen).getD i 0

/-- `copy_string` into `local_name`, which is zero before. -/
def copyName (mem : UInt64 → UInt8) (name : UInt64) : ArgCall (Option (ℕ → UInt8)) := fun s =>
  let r := copyString mem s.mm (fun _ => 0) 0 name (UInt64.ofNat (procNameLen + 1))
  some (.ok (if r.ret then some r.buf else none), { s with mm := r.mm, read := s.read ++ r.read })

/-- `local_name`, or nothing where the name cannot be copied. -/
def localName (mem : UInt64 → UInt8) (pid : ℕ) (name : UInt64) :
    ArgCall (Option (ℕ → UInt8)) :=
  if name = 0 then pure (some (nullName pid)) else copyName mem name

/-- Strings that each end in their block. -/
def ExecArgs.of (kargv : List (List UInt8)) : Option ExecArgs :=
  if h : (1 ≤ kargv.length ∧ kargv.length ≤ execMaxArgNum) ∧
      (∀ s ∈ kargv, s.length ≤ execMaxArgLen) ∧ ∀ s ∈ kargv, (0 : UInt8) ∉ s then
    some ⟨kargv, h.1.1, h.1.2, h.2.1, h.2.2⟩
  else none

/-- What the callee finds in the blocks. A string that does not end there goes on behind its
block. -/
def heldArgs (kargv : List ℕ) : ArgCall ExecArgs := do
  Call.require fun s => ∀ b ∈ kargv, b ∈ s.live
  let strings ← read fun s => kargv.map fun b => stringIn 0 (execMaxArgLen + 1) (s.buf b)
  match ExecArgs.of strings with
  | none => panic
  | some args => pure args

/-- How `do_execve` ends: it returns an error to the caller, the caller exits, or it runs the new
program under its name. -/
inductive ExecEnd (β : Type) where
  | returned (ret : ℤ)
  | exited (ret : ℤ)
  | replaced (name : List UInt8) (b : β)

/-- `sysfile_open(path, O_RDONLY)`, and `load_icode`, which may panic. -/
structure ExecEnv (β : Type) where
  sysfileOpen : UInt64 → Except ℤ ExecFile
  loadIcode : ExecFile → ExecArgs → Option (ℤ × β)

variable {β : Type}

/-- `do_execve` from `load_icode` on. -/
def execLoad (e : ExecEnv β) (f : ExecFile) (kargv : List ℕ) (name : ℕ → UInt8) :
    ArgCall (ExecEnd β) := do
  let args ← heldArgs kargv
  match e.loadIcode f args with
  | none => panic
  | some (ret, b) => do
    putKargv kargv
    pure (if ret ≠ 0 then .exited ret else .replaced (stringIn 0 procNameLen name) b)

/-- `do_execve` from `path = argv[0]` on. `sysfile_open` takes the lock as well. -/
def execOpen (e : ExecEnv β) (mem : UInt64 → UInt8) (argv : UInt64) (kargv : List ℕ)
    (name : ℕ → UInt8) : ArgCall (ExecEnd β) := do
  let path ← readArgv mem argv 0
  unlockMm
  Call.require fun s => s.locked = false
  match e.sysfileOpen path with
  | .error ret => do
    putKargv kargv
    pure (.exited ret)
  | .ok f => execLoad e f kargv name

/-- `do_execve` -/
def doExecve (e : ExecEnv β) (mem : UInt64 → UInt8) (h : ArgHeap) (pid : ℕ) (name : UInt64)
    (argc : ℤ) (argv : UInt64) : ArgCall (ExecEnd β) :=
  if ¬ (1 ≤ argc ∧ argc ≤ execMaxArgNum) then pure (.returned (-eInval))
  else do
    lockMm
    match ← localName mem pid name with
    | none => do
      unlockMm
      pure (.returned (-eInval))
    | some buf =>
      branch (copyKargv mem h argc.toNat argv)
        (fun kargv => execOpen e mem argv kargv buf)
        (fun ret => do
          unlockMm
          pure (.returned ret))


/-! The endings. -/

/-- The number of the arguments is in range, and the caller may pass its name and its vector. -/
structure Entered (mm : AreaList) (mem : UInt64 → UInt8) (name : UInt64) (argc : ℤ)
    (argv : UInt64) : Prop where
  pos : 1 ≤ argc
  le : argc ≤ execMaxArgNum
  name : name = 0 ∨ PassesString mm mem name (procNameLen + 1)
  vector : VectorReadable mm argv argc.toNat

/-- The arguments, and the new name, as the memory of the caller has them. -/
def userArgs (mem : UInt64 → UInt8) (argv : UInt64) (argc : ℕ) : List (List UInt8) :=
  (List.range argc).map fun i => userString mem (argvAt mem argv i) (execMaxArgLen + 1)

def execName (mem : UInt64 → UInt8) (pid : ℕ) (name : UInt64) : List UInt8 :=
  if name = 0 then stringIn 0 procNameLen (nullName pid)
  else userString mem name (procNameLen + 1)

/-- A call, with the areas of its caller and the number of its first `kmalloc`. -/
structure ExecCall (β : Type) where
  env : ExecEnv β
  mm : AreaList
  mem : UInt64 → UInt8
  heap : ArgHeap
  first : ℕ
  pid : ℕ
  name : UInt64
  argc : ℤ
  argv : UInt64

namespace ExecCall

/-- All arguments are copied. -/
structure Copied (x : ExecCall β) : Prop where
  entered : Entered x.mm x.mem x.name x.argc x.argv
  args : Reaches x.mm x.mem x.heap x.argv x.first x.argc.toNat

/-- The file behind the first argument is loaded with the arguments of the caller. -/
structure Loads (x : ExecCall β) (r : Option (ℤ × β)) : Prop where
  copied : x.Copied
  loaded : ∃ f args, x.env.sysfileOpen (argvAt x.mem x.argv 0) = .ok f ∧
    args.kargv = userArgs x.mem x.argv x.argc.toNat ∧ x.env.loadIcode f args = r

/-- How a call ends. -/
inductive EndsIn (x : ExecCall β) : ExecEnd β → Prop
  | refused (hno : ¬ Entered x.mm x.mem x.name x.argc x.argv) : EndsIn x (.returned (-eInval))
  | stopped (ret : ℤ) (hin : Entered x.mm x.mem x.name x.argc x.argv)
      (hstop : Stops x.mm x.mem x.heap x.argv x.first x.argc.toNat ret) : EndsIn x (.returned ret)
  | notOpened (ret : ℤ) (hcopied : x.Copied)
      (hopen : x.env.sysfileOpen (argvAt x.mem x.argv 0) = .error ret) : EndsIn x (.exited ret)
  | notLoaded (ret : ℤ) (b : β) (hload : x.Loads (some (ret, b))) (hret : ret ≠ 0) :
      EndsIn x (.exited ret)
  | replaced (b : β) (hload : x.Loads (some (0, b))) :
      EndsIn x (.replaced (execName x.mem x.pid x.name) b)

end ExecCall

variable {x : ExecCall β} {s₀ s : ArgState} {buf : ℕ → UInt8} {f : ExecFile}
  {E : ℤ → ArgState → Prop}

theorem mem_userArgs {mem : UInt64 → UInt8} {argv : UInt64} {argc : ℕ} {str : List UInt8} :
    str ∈ userArgs mem argv argc ↔
      ∃ i < argc, userString mem (argvAt mem argv i) (execMaxArgLen + 1) = str := by
  unfold userArgs
  simp only [List.mem_map, List.mem_range]

/-- Strings that passed are arguments for `load_icode`. -/
theorem ExecCall.Copied.execArgs (hcopied : x.Copied) :
    ∃ args, ExecArgs.of (userArgs x.mem x.argv x.argc.toNat) = some args ∧
      args.kargv = userArgs x.mem x.argv x.argc.toNat := by
  have hpos := hcopied.entered.pos
  have hle := hcopied.entered.le
  have hlen : (userArgs x.mem x.argv x.argc.toNat).length = x.argc.toNat := by
    unfold userArgs
    rw [List.length_map, List.length_range]
  have hcount : 1 ≤ (userArgs x.mem x.argv x.argc.toNat).length ∧
      (userArgs x.mem x.argv x.argc.toNat).length ≤ execMaxArgNum := by omega
  have hshort : ∀ str ∈ userArgs x.mem x.argv x.argc.toNat, str.length ≤ execMaxArgLen := by
    intro str hstr
    obtain ⟨i, hi, rfl⟩ := mem_userArgs.mp hstr
    exact Nat.le_of_lt_succ (length_userString_lt (hcopied.args i hi).1)
  have hnul : ∀ str ∈ userArgs x.mem x.argv x.argc.toNat, (0 : UInt8) ∉ str := by
    intro str hstr
    obtain ⟨i, hi, rfl⟩ := mem_userArgs.mp hstr
    exact not_mem_stringIn
  exact ⟨_, dif_pos ⟨hcount, hshort, hnul⟩, rfl⟩

/-- The callee finds the strings of the caller in the blocks. -/
theorem heldArgs_ends {p : Prop} (hcopied : x.Copied)
    (hheld : Held x.mm x.mem x.argv s₀ x.argc.toNat s) :
    Ends p (heldArgs (argBlocks s₀.calls x.argc.toNat)) s (fun args s' =>
      s' = s ∧ args.kargv = userArgs x.mem x.argv x.argc.toNat) E := by
  refine Ends.bind (Ends.require ?_ ?_)
  · intro _
    refine Ends.bind (Ends.read ?_)
    have hstrings : (argBlocks s₀.calls x.argc.toNat).map
        (fun b => stringIn 0 (execMaxArgLen + 1) (s.buf b)) =
          userArgs x.mem x.argv x.argc.toNat := by
      unfold argBlocks userArgs
      rw [List.map_map]
      refine List.map_congr_left ?_
      intro i hi
      rw [Function.comp_apply]
      exact hheld.strings i (List.mem_range.mp hi)
    obtain ⟨args, hargs, hkargv⟩ := hcopied.execArgs
    rw [hstrings, hargs]
    exact ⟨rfl, hkargv⟩
  · intro hno
    refine absurd ?_ hno
    intro b hb
    rw [hheld.live]
    exact List.mem_append_left _ (List.mem_reverse.mpr hb)

theorem execLoad_ends (hcopied : x.Copied) (hheld : Held x.mm x.mem x.argv s₀ x.argc.toNat s)
    (hopen : x.env.sysfileOpen (argvAt x.mem x.argv 0) = .ok f)
    (hname : stringIn 0 procNameLen buf = execName x.mem x.pid x.name) :
    Ends (x.Loads none) (execLoad x.env f (argBlocks s₀.calls x.argc.toNat) buf) s
      (fun r s' => x.EndsIn r ∧ s' = { s with live := s₀.live }) E := by
  refine Ends.bind ((heldArgs_ends hcopied hheld).mono ?_ (fun _ _ he => he))
  rintro args s' ⟨rfl, hargs⟩
  cases hload : x.env.loadIcode f args with
  | none => exact Ends.panic ⟨hcopied, f, args, hopen, hargs, hload⟩
  | some r =>
    obtain ⟨ret, b⟩ := r
    have hloads : x.Loads (some (ret, b)) := ⟨hcopied, f, args, hopen, hargs, hload⟩
    refine Ends.bind ((putKargv_ends hheld.live).mono ?_ (fun _ _ he => he))
    rintro _ t rfl
    refine Ends.pure ⟨?_, rfl⟩
    by_cases hret : ret = 0
    · subst hret
      rw [if_neg (not_not.mpr rfl), hname]
      exact ExecCall.EndsIn.replaced b hloads
    · rw [if_pos hret]
      exact ExecCall.EndsIn.notLoaded ret b hloads hret

theorem execOpen_ends (hcopied : x.Copied) (hheld : Held x.mm x.mem x.argv s₀ x.argc.toNat s)
    (hname : stringIn 0 procNameLen buf = execName x.mem x.pid x.name) :
    Ends (x.Loads none) (execOpen x.env x.mem x.argv (argBlocks s₀.calls x.argc.toNat) buf) s
      (fun r s' => x.EndsIn r ∧ Released x.mm { s₀ with locked := false } s') E := by
  have hpos := hcopied.entered.pos
  have hle := hcopied.entered.le
  have hread := @readArgv_ends x.mm x.mem x.argv x.argc.toNat s₀ s (x.Loads none) E 0 (by omega)
    (by omega) hcopied.entered.vector hheld.kept
  refine Ends.bind (hread.mono ?_ (fun _ _ he => he))
  rintro path t ⟨rfl, read, rfl, hkept⟩
  refine Ends.bind (Ends.modify (Ends.bind (Ends.require ?_ (fun hno => absurd rfl hno))))
  intro _
  have hheld' : Held x.mm x.mem x.argv { s₀ with locked := false } x.argc.toNat
      { s with read := read, locked := false } :=
    ⟨⟨hkept.mm, rfl, hkept.read⟩, hheld.calls, hheld.live, hheld.strings⟩
  cases hopen : x.env.sysfileOpen (argvAt x.mem x.argv 0) with
  | error ret =>
    refine Ends.bind ((putKargv_ends hheld'.live).mono ?_ (fun _ _ he => he))
    rintro _ t rfl
    refine Ends.pure ⟨ExecCall.EndsIn.notOpened ret hcopied hopen, ?_, rfl⟩
    exact ⟨hkept.mm, rfl, hkept.read⟩
  | ok f =>
    refine (execLoad_ends hcopied hheld' hopen hname).mono ?_ (fun _ _ he => he)
    rintro r t ⟨hends, rfl⟩
    exact ⟨hends, ⟨hkept.mm, rfl, hkept.read⟩, rfl⟩

/-- The name that a process gets is the one that was copied. -/
theorem copyName_ends {p : Prop} (hal : x.mm.Aligned) (hkept : Kept x.mm s₀ s) :
    Ends p (copyName x.mem x.name) s (fun buf s' => (∃ mm read, s' = { s with
        mm := mm, read := read } ∧ Kept x.mm s₀ s') ∧
      ((buf = none ∧ ¬ PassesString x.mm x.mem x.name (procNameLen + 1)) ∨
        ∃ name, buf = some name ∧ PassesString x.mm x.mem x.name (procNameLen + 1) ∧
          stringIn 0 procNameLen name = userString x.mem x.name (procNameLen + 1))) E := by
  have hcopied := @copyString_copied x.mm s.mm x.mem x.name hal hkept.mm (fun _ => 0)
    (UInt64.ofNat (procNameLen + 1))
  have hn : (UInt64.ofNat (procNameLen + 1)).toNat = procNameLen + 1 := rfl
  rw [hn] at hcopied
  refine ⟨⟨_, _, rfl, hcopied.mm, hkept.locked, ?_⟩, ?_⟩
  · intro b hb
    rcases List.mem_append.mp hb with hb | hb
    · exact hkept.read b hb
    · exact Or.inr (hcopied.read b hb)
  · by_cases hret : (copyString x.mem s.mm (fun _ => 0) 0 x.name
        (UInt64.ofNat (procNameLen + 1))).ret = true
    · have hpass := hcopied.ret.mp hret
      refine Or.inr ⟨_, if_pos hret, hpass, ?_⟩
      rw [← take_stringIn (Nat.le_succ procNameLen), hcopied.copy hret]
      exact List.take_of_length_le (Nat.le_of_lt_succ (length_userString_lt hpass))
    · exact Or.inl ⟨if_neg hret, fun hpass => hret (hcopied.ret.mpr hpass)⟩

theorem localName_ends {p : Prop} (hal : x.mm.Aligned) (hkept : Kept x.mm s₀ s) :
    Ends p (localName x.mem x.pid x.name) s (fun buf s' => (∃ mm read, s' = { s with
        mm := mm, read := read } ∧ Kept x.mm s₀ s') ∧
      ((buf = none ∧ ¬ (x.name = 0 ∨ PassesString x.mm x.mem x.name (procNameLen + 1))) ∨
        ∃ name, buf = some name ∧
          (x.name = 0 ∨ PassesString x.mm x.mem x.name (procNameLen + 1)) ∧
          stringIn 0 procNameLen name = execName x.mem x.pid x.name)) E := by
  unfold localName execName
  by_cases hzero : x.name = 0
  · rw [if_pos hzero, if_pos hzero]
    exact Ends.pure ⟨⟨s.mm, s.read, rfl, hkept⟩, Or.inr ⟨_, rfl, Or.inl hzero, rfl⟩⟩
  · rw [if_neg hzero, if_neg hzero]
    refine (copyName_ends hal hkept).mono ?_ (fun _ _ he => he)
    rintro buf t ⟨hkeep, ⟨rfl, hno⟩ | ⟨name, rfl, hpass, hname⟩⟩
    · exact ⟨hkeep, Or.inl ⟨rfl, fun h => h.elim hzero hno⟩⟩
    · exact ⟨hkeep, Or.inr ⟨name, rfl, Or.inr hpass, hname⟩⟩

/-- Every call that comes to an end does so in one of these ways, and gives back all it took. -/
theorem doExecve_ends (hal : x.mm.Aligned) (hmm : Keeps x.mm s₀.mm) (hunlocked : s₀.locked = false)
    (hfirst : x.first = s₀.calls) :
    Ends (x.Loads none) (doExecve x.env x.mem x.heap x.pid x.name x.argc x.argv) s₀
      (fun r s => x.EndsIn r ∧ Released x.mm s₀ s) E := by
  unfold doExecve
  by_cases hcount : 1 ≤ x.argc ∧ x.argc ≤ execMaxArgNum
  · rw [if_neg (not_not.mpr hcount)]
    obtain ⟨mm₁, hmm₁, hlist⟩ := hmm
    refine Ends.bind (Ends.bind (Ends.require ?_ (fun hno => absurd hunlocked hno)))
    intro _
    refine Ends.modify ?_
    have hkept : Kept x.mm { s₀ with locked := true } { s₀ with locked := true } :=
      ⟨⟨mm₁, hmm₁, hlist⟩, rfl, fun b hb => Or.inl hb⟩
    have hsome : s₀.mm.isSome = true := by
      rw [hmm₁]
      rfl
    rw [hsome]
    refine Ends.bind ((localName_ends hal hkept).mono ?_ (fun _ _ he => he))
    rintro buf t ⟨⟨mm, read, rfl, hkept'⟩, ⟨rfl, hno⟩ | ⟨name, rfl, hpass, hname⟩⟩
    · refine Ends.bind (Ends.modify (Ends.pure ?_))
      refine ⟨ExecCall.EndsIn.refused (fun hin => hno hin.name), ?_, rfl⟩
      exact ⟨hkept'.mm, hunlocked.symm, hkept'.read⟩
    · refine Ends.branch ((copyKargv_ends hal ?_ ?_ hkept' rfl rfl).mono ?_ ?_)
      · omega
      · omega
      · rintro kargv t ⟨rfl, hvec, hreach, hheld⟩
        have hcopied : x.Copied := ⟨⟨hcount.1, hcount.2, hpass, hvec⟩, hfirst ▸ hreach⟩
        refine (execOpen_ends hcopied hheld hname).mono ?_ (fun _ _ he => he)
        rintro r t ⟨hends, hkept, hlive⟩
        exact ⟨hends, ⟨hkept.mm, hkept.locked.trans hunlocked.symm, hkept.read⟩, hlive⟩
      · rintro ret t ⟨hfail, hkept, hlive⟩
        refine Ends.bind (Ends.modify (Ends.pure ⟨?_, ?_, hlive⟩))
        · rcases hfail with ⟨rfl, hno⟩ | ⟨hvec, hstop⟩
          · exact ExecCall.EndsIn.refused (fun hin => hno hin.vector)
          · rw [← hfirst] at hstop
            exact ExecCall.EndsIn.stopped ret ⟨hcount.1, hcount.2, hpass, hvec⟩ hstop
        · exact ⟨hkept.mm, hunlocked.symm, hkept.read⟩
  · rw [if_pos hcount]
    refine Ends.pure ⟨ExecCall.EndsIn.refused (fun hin => hcount ⟨hin.pos, hin.le⟩), ?_, rfl⟩
    exact ⟨hmm, rfl, fun b hb => Or.inl hb⟩

/-! The ending is determined. -/

namespace ExecCall

theorem Copied.not_stops (hcopied : x.Copied) {ret : ℤ} :
    ¬ Stops x.mm x.mem x.heap x.argv x.first x.argc.toNat ret :=
  fun hstop => hstop.not_reaches hcopied.args

theorem Loads.not_error {r : Option (ℤ × β)} (hload : x.Loads r) {ret : ℤ} :
    x.env.sysfileOpen (argvAt x.mem x.argv 0) ≠ .error ret := by
  obtain ⟨f, args, hopen, -, -⟩ := hload.loaded
  rw [hopen]
  exact fun heq => absurd heq (by simp)

theorem Loads.unique {r r' : Option (ℤ × β)} (hload : x.Loads r) (hload' : x.Loads r') :
    r = r' := by
  obtain ⟨f, args, hopen, hargs, hrun⟩ := hload.loaded
  obtain ⟨f', args', hopen', hargs', hrun'⟩ := hload'.loaded
  obtain rfl : f = f' := Except.ok.inj (hopen.symm.trans hopen')
  obtain rfl : args = args' := by
    cases args
    cases args'
    obtain rfl := hargs.trans hargs'.symm
    rfl
  exact hrun.symm.trans hrun'

/-- What a call does behind the copying is determined. -/
theorem EndsIn.unique {r r' : ExecEnd β} (hends : x.EndsIn r) (hends' : x.EndsIn r') : r = r' := by
  cases hends with
  | refused hno =>
    cases hends' with
    | refused _ => rfl
    | stopped ret hin _ => exact absurd hin hno
    | notOpened ret hcopied _ => exact absurd hcopied.entered hno
    | notLoaded ret b hload _ => exact absurd hload.copied.entered hno
    | replaced b hload => exact absurd hload.copied.entered hno
  | stopped ret hin hstop =>
    cases hends' with
    | refused hno => exact absurd hin hno
    | stopped ret' _ hstop' => rw [hstop.unique hstop']
    | notOpened ret' hcopied _ => exact absurd hstop hcopied.not_stops
    | notLoaded ret' b hload _ => exact absurd hstop hload.copied.not_stops
    | replaced b hload => exact absurd hstop hload.copied.not_stops
  | notOpened ret hcopied hopen =>
    cases hends' with
    | refused hno => exact absurd hcopied.entered hno
    | stopped ret' _ hstop => exact absurd hstop hcopied.not_stops
    | notOpened ret' _ hopen' => rw [Except.error.inj (hopen.symm.trans hopen')]
    | notLoaded ret' b hload _ => exact absurd hopen hload.not_error
    | replaced b hload => exact absurd hopen hload.not_error
  | notLoaded ret b hload hret =>
    cases hends' with
    | refused hno => exact absurd hload.copied.entered hno
    | stopped ret' _ hstop => exact absurd hstop hload.copied.not_stops
    | notOpened ret' _ hopen => exact absurd hopen hload.not_error
    | notLoaded ret' b' hload' _ =>
      rw [(Prod.mk.inj (Option.some.inj (hload.unique hload'))).1]
    | replaced b' hload' =>
      exact absurd (Prod.mk.inj (Option.some.inj (hload.unique hload'))).1 hret
  | replaced b hload =>
    cases hends' with
    | refused hno => exact absurd hload.copied.entered hno
    | stopped ret' _ hstop => exact absurd hstop hload.copied.not_stops
    | notOpened ret' _ hopen => exact absurd hopen hload.not_error
    | notLoaded ret' b' hload' hret' =>
      exact absurd (Prod.mk.inj (Option.some.inj (hload'.unique hload))).1 hret'
    | replaced b' hload' =>
      rw [(Prod.mk.inj (Option.some.inj (hload.unique hload'))).2]

/-- A call that panics in `load_icode` has no other ending. -/
theorem EndsIn.not_loads_none {r : ExecEnd β} (hends : x.EndsIn r) : ¬ x.Loads none := by
  intro hload
  cases hends with
  | refused hno => exact hno hload.copied.entered
  | stopped ret _ hstop => exact hload.copied.not_stops hstop
  | notOpened ret _ hopen => exact hload.not_error hopen
  | notLoaded ret b hload' _ => exact absurd (hload.unique hload') (by simp)
  | replaced b hload' => exact absurd (hload.unique hload') (by simp)

/-- The call. -/
def run (x : ExecCall β) : ArgCall (ExecEnd β) :=
  doExecve x.env x.mem x.heap x.pid x.name x.argc x.argv

/-- The call starts in such a state: the areas are those of the caller, which does not hold its
lock. -/
structure Starts (x : ExecCall β) (s₀ : ArgState) : Prop where
  aligned : x.mm.Aligned
  mm : Keeps x.mm s₀.mm
  unlocked : s₀.locked = false
  first : x.first = s₀.calls

theorem run_cases (hstart : x.Starts s₀) :
    (x.run s₀ = none ∧ x.Loads none) ∨
      ∃ r s, x.run s₀ = some (.ok r, s) ∧ x.EndsIn r ∧ Released x.mm s₀ s := by
  have hends : Call.Ends (x.Loads none) x.run s₀
      (fun r s => x.EndsIn r ∧ Released x.mm s₀ s) (fun _ _ => False) :=
    doExecve_ends hstart.aligned hstart.mm hstart.unlocked hstart.first
  rcases hrun : x.run s₀ with _ | ⟨e | r, s⟩
  · unfold Call.Ends at hends
    rw [hrun] at hends
    exact Or.inl ⟨rfl, hends⟩
  · exact (hends.of_error hrun).elim
  · exact Or.inr ⟨r, s, rfl, hends.of_ok hrun⟩

theorem run_of_endsIn (hstart : x.Starts s₀) {r : ExecEnd β} (hends : x.EndsIn r) :
    ∃ s, x.run s₀ = some (.ok r, s) := by
  rcases run_cases hstart with ⟨-, hload⟩ | ⟨r', s, hrun, hends', -⟩
  · exact absurd hload hends.not_loads_none
  · obtain rfl := hends.unique hends'
    exact ⟨s, hrun⟩

end ExecCall

/-! A call with the argument "a". -/

/-- The vector is at the start of the area, and its only string behind it. -/
def oneArgMem : UInt64 → UInt8 := fun a =>
  if a = 0x200000 then 0x10 else if a = 0x200002 then 0x20 else if a = 0x200010 then 97 else 0

/-- The caller passes no name. -/
def oneArgCall (e : ExecEnv β) : ExecCall β :=
  ⟨e, twoPages, oneArgMem, ⟨fun _ => true, fun _ _ => 0⟩, 0, 3, 0, 1, 0x200000⟩

def freshState : ArgState := ⟨some twoPages, false, 0, [], fun _ _ => 0, []⟩

theorem oneArgCall_starts (e : ExecEnv β) : (oneArgCall e).Starts freshState :=
  ⟨twoPages_aligned, ⟨twoPages, rfl, rfl⟩, rfl, rfl⟩

theorem oneArgCall_copied (e : ExecEnv β) : (oneArgCall e).Copied := by
  have hread : ∀ i < 4096, twoPages.Readable (0x200000 + i) := by
    intro i hi
    refine ⟨?_, ?_, _, List.mem_cons_self, ⟨?_, ?_⟩, by decide⟩
    · exact Nat.le_add_right _ _
    · unfold userTop
      omega
    · exact Nat.le_add_right _ _
    · change 0x200000 + i < 0x201000
      omega
  refine ⟨⟨le_rfl, ?_, Or.inl rfl, fun j hj => hread j ?_⟩, ?_⟩
  · change (1 : ℤ) ≤ (32 : ℕ)
    decide
  · change j < 8 at hj
    omega
  · intro j hj
    obtain rfl : j = 0 := Nat.lt_one_iff.mp hj
    have hptr : argvAt oneArgMem 0x200000 0 = 0x200010 := by decide
    refine ⟨?_, rfl⟩
    change PassesString twoPages oneArgMem (argvAt oneArgMem 0x200000 0) _
    rw [hptr]
    refine ⟨1, by decide, ⟨by decide, ?_⟩, ?_⟩
    · intro i hi
      obtain rfl : i = 0 := Nat.lt_one_iff.mp hi
      decide
    · intro i hi
      have hat := hread (0x10 + i) (by omega)
      rwa [← Nat.add_assoc] at hat

theorem oneArg_userArgs : userArgs oneArgMem 0x200000 1 = [[97]] := by decide +kernel

theorem oneArgCall_loads {e : ExecEnv β} {f : ExecFile} {r : Option (ℤ × β)}
    (hopen : ∀ path, e.sysfileOpen path = .ok f) (hload : e.loadIcode f oneArg = r) :
    (oneArgCall e).Loads r :=
  ⟨oneArgCall_copied e, f, oneArg, hopen _, oneArg_userArgs.symm, hload⟩

namespace ExecCall

end ExecCall

/-! The arguments on their way from the caller to the new program. -/

variable {M : PmmManager} {K F : Set ℕ} {m m' : Mem M} {k : KernelHeap} {args : ExecArgs}
  {p : Installed} {sysfileOpen : UInt64 → Except ℤ ExecFile} {name : List UInt8}
  {found : Option Installed}

/-- The new program is loaded into this memory. -/
def loadEnv (m : Mem M) (k : KernelHeap) (sysfileOpen : UInt64 → Except ℤ ExecFile) :
    ExecEnv (Mem M × Option Installed) :=
  ⟨sysfileOpen, fun f args => (loadIcode m f k args).result⟩

theorem loadEnv_loadIcode {f : ExecFile} :
    (loadEnv m k sysfileOpen).loadIcode f args = (loadIcode m f k args).result := rfl

/-- Where `load_icode` returns zero it has installed a program, or found no ELF file. -/
theorem loadIcode_zero (hrun : (loadIcode m f k args).result = some (0, m', found)) :
    (f.eMagic ≠ elfMagic ∧ m' = m ∧ found = none) ∨ ∃ p, found = some p := by
  have hexit := loadIcode_exit hrun
  generalize (loadIcode m f k args).log = log at hexit
  cases hexit with
  | elfhdr hret hne => exact absurd rfl hne
  | magic hret hmagic => exact Or.inl ⟨hmagic, rfl, rfl⟩
  | symbols hret hmagic hmm hpg hscan hne => exact absurd rfl hne
  | program hret hmagic hmm hpg hscan hload hne hexit => exact absurd rfl hne
  | installed hret hmagic hmm hpg hscan hload => exact Or.inr ⟨_, rfl⟩

theorem loadIcode_argBlock (hi : m.RefInv K F)
    (hrun : (loadIcode m f k args).result = some (0, m', some p)) :
    ∃ s, f.beforeArgs k m = some s ∧
      (StringsGoOn s.mem s.mm.pgdir uStackTop args.kargv → ArgBlock m' p args.kargv) := by
  obtain ⟨s, argv, hprep⟩ := loadIcode_prepared hi hrun
  obtain ⟨-, hargv, -, -, hblock⟩ := setupArgs_run hprep.stack.frame hprep.setup
  obtain ⟨-, -, hlow, habove⟩ := argvUser_range args.stringsSize_le args.argc_le
  rw [← hargv] at hlow habove
  refine ⟨s, hprep.before, ?_⟩
  intro hon
  refine ⟨hprep.a0, ?_, ?_, ?_, ?_⟩
  · rw [hprep.mm, hprep.a1]
    exact (hblock hon).2
  · rw [hprep.sp, hprep.a1]
    exact habove
  · rw [hprep.sp]
    exact hlow
  · rw [hprep.mm]
    exact hprep.area

/-- A call that returns zero has found no ELF file and installed nothing, or its new program finds
the strings that the caller had in its memory. -/
theorem execve_passes_args {x : ExecCall (Mem M × Option Installed)} {s₀ s : ArgState}
    (hi : m.RefInv K F) (hstart : x.Starts s₀) (henv : x.env = loadEnv m k sysfileOpen)
    (hrun : x.run s₀ = some (.ok (.replaced name (m', found)), s)) :
    name = execName x.mem x.pid x.name ∧
      ∃ f, sysfileOpen (argvAt x.mem x.argv 0) = .ok f ∧
        ((f.eMagic ≠ elfMagic ∧ m' = m ∧ found = none) ∨
          ∃ p before, found = some p ∧ f.beforeArgs k m = some before ∧
            (StringsGoOn before.mem before.mm.pgdir uStackTop
                (userArgs x.mem x.argv x.argc.toNat) →
              ArgBlock m' p (userArgs x.mem x.argv x.argc.toNat))) := by
  have hends : x.EndsIn (.replaced name (m', found)) := by
    rcases ExecCall.run_cases hstart with ⟨hnone, -⟩ | ⟨r, t, hrun', hends, -⟩
    · rw [hnone] at hrun
      exact absurd hrun (by simp)
    · rw [hrun] at hrun'
      obtain ⟨hr, -⟩ := Prod.mk.inj (Option.some.inj hrun')
      rw [Except.ok.inj hr]
      exact hends
  cases hends with
  | replaced _ hload =>
    obtain ⟨f, args, hopen, hargs, hres⟩ := hload.loaded
    rw [henv] at hopen hres
    refine ⟨rfl, f, hopen, ?_⟩
    rcases loadIcode_zero hres with hno | ⟨p, rfl⟩
    · exact Or.inl hno
    · obtain ⟨before, hbefore, hblock⟩ := loadIcode_argBlock hi hres
      rw [hargs] at hblock
      exact Or.inr ⟨p, before, rfl, hbefore, hblock⟩

/-- The new program finds the argument. -/
theorem execve_passes_args_oneArg : ∃ m' p s,
    (oneArgCall (loadEnv ascending .plenty fun _ =>
      .ok (oneSegmentFile 4096 0x800000 8 4096))).run freshState =
        some (.ok (.replaced (execName oneArgMem 3 0) (m', some p)), s) ∧
      ArgBlock m' p [[97]] := by
  obtain ⟨m', p, hres⟩ := aligned_run
  have hload : (oneArgCall (loadEnv ascending .plenty fun _ =>
      .ok (oneSegmentFile 4096 0x800000 8 4096))).Loads (some (0, m', some p)) := by
    refine oneArgCall_loads (fun _ => rfl) ?_
    rw [loadEnv_loadIcode]
    exact hres
  obtain ⟨s, hrun⟩ := ExecCall.run_of_endsIn (oneArgCall_starts _)
    (ExecCall.EndsIn.replaced _ hload)
  obtain ⟨-, f, hopen, hno | ⟨p', before, hp, -, hblock⟩⟩ :=
    execve_passes_args ascending_refInv (oneArgCall_starts _) rfl hrun
  · exact absurd hno.2.2 (by simp)
  · obtain rfl := Option.some.inj hp
    refine ⟨m', p, s, hrun, ?_⟩
    change StringsGoOn _ _ _ (userArgs oneArgMem 0x200000 1) →
      ArgBlock _ _ (userArgs oneArgMem 0x200000 1) at hblock
    rw [oneArg_userArgs] at hblock
    exact hblock (List.Forall₂.cons (Or.inl (by decide)) List.Forall₂.nil)

end Ucore.Exec
