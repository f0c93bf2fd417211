import Ucore.Exec.Loaded

/-!
The search of `load_icode` for `__global_pointer$`. The indices of the symbol table and of the
names come from the file, and `load_icode` compares none of them with the size of its table.
-/
namespace Ucore.Exec

open Library Library.Logged Vm

variable {M : PmmManager} {f : ExecFile} {k : KernelHeap} {args : ExecArgs} {m : Mem M}
  {α β : Type} {b syms strtab shdrs : Buffer} {off len size name i j left : ℕ} {l : List UInt8}

/-- What is looked at lies in the block. -/
def ExecEvent.Inside : ExecEvent → Prop
  | .look _ size off len => off + len ≤ size
  | _ => True

def ReadsInside (x : Loader α) : Prop := ∀ e ∈ x.log, e.Inside

theorem readsInside_pure (a : α) : ReadsInside (pure a : Loader α) := by
  intro e he
  exact absurd he List.not_mem_nil

theorem readsInside_bind {x : Loader α} {g : α → Loader β} {a : α} (h : x.result = some a) :
    ReadsInside (x >>= g) ↔ ReadsInside x ∧ ReadsInside (g a) := forall_log_bind_iff h

theorem readsInside_of_bind {x : Loader α} {g : α → Loader β} (hx : ReadsInside x)
    (hg : ∀ a, ReadsInside (g a)) : ReadsInside (x >>= g) := forall_log_bind hx fun a _ => hg a

theorem readsInside_ofOption (r : Option α) : ReadsInside (ofOption r : Loader α) := by
  intro e he
  exact absurd he List.not_mem_nil

theorem readsInside_tell_bind {es : List ExecEvent} {g : Unit → Loader β} :
    ReadsInside (tell es >>= g) ↔ (∀ e ∈ es, e.Inside) ∧ ReadsInside (g ()) :=
  forall_log_tell_bind

theorem readsInside_field :
    ReadsInside (b.field off len) ↔ off + len ≤ usable b.size := by
  change (∀ e ∈ [ExecEvent.look b.block (usable b.size) off len], e.Inside) ↔ _
  rw [List.forall_mem_singleton]
  rfl

theorem readsInside_field_bind {g : ℕ → Loader β} : ReadsInside (b.field off len >>= g) ↔
    off + len ≤ usable b.size ∧ ReadsInside (g (leWord b.bytes off len)) := by
  rw [readsInside_bind (a := leWord b.bytes off len) rfl, readsInside_field]

theorem readsInside_kmalloc_bind {x : Block} {g : Bool → Loader β} :
    ReadsInside (k.kmalloc x size >>= g) ↔
      (¬ KernelHeap.asserts size → ReadsInside (g (k.has x))) := by
  unfold KernelHeap.kmalloc
  by_cases ha : KernelHeap.asserts size
  · rw [if_pos ha]
    constructor
    · exact fun _ hno => absurd ha hno
    · exact fun _ e he => absurd he List.not_mem_nil
  · rw [if_neg ha, readsInside_bind (a := k.has x) rfl, readsInside_tell_bind]
    have htell : ∀ e ∈ (if k.has x then [ExecEvent.kmalloc x] else []), e.Inside := by
      intro e he
      by_cases hx : k.has x = true
      · rw [if_pos hx, List.mem_singleton] at he
        rw [he]
        trivial
      · rw [if_neg hx] at he
        exact absurd he List.not_mem_nil
    constructor
    · exact fun h _ => h.2
    · exact fun h => ⟨⟨htell, readsInside_pure _⟩, h ha⟩

theorem result_kmalloc_bind {x : Block} {g : Bool → Loader β} :
    (k.kmalloc x size >>= g).result =
      if KernelHeap.asserts size then none else (g (k.has x)).result := by
  unfold KernelHeap.kmalloc
  by_cases ha : KernelHeap.asserts size
  · rw [if_pos ha, if_pos ha]
    rfl
  · rw [if_neg ha, if_neg ha]
    rfl

theorem result_field_bind {g : ℕ → Loader β} :
    (b.field off len >>= g).result = (g (leWord b.bytes off len)).result := rfl

/-! `strcmp` -/

/-- The string at `name`, with its NUL. -/
def Buffer.HasString (b : Buffer) (name : ℕ) (l : List UInt8) : Prop :=
  ∀ n ≤ l.length, b.bytes (name + n) = (l ++ [0]).getD n 0

/-- The comparison comes to an end inside of the block: at a byte that differs, or at the NUL. -/
def Buffer.StringFits (b : Buffer) (name : ℕ) (l : List UInt8) : Prop :=
  ∃ n ≤ l.length, name + n < usable b.size ∧
    (n = l.length ∨ b.bytes (name + n) ≠ (l ++ [0]).getD n 0)

theorem hasString_cons {c : UInt8} : b.HasString name (c :: l) ↔
    b.bytes name = c ∧ b.HasString (name + 1) l := by
  unfold Buffer.HasString
  constructor
  · intro h
    refine ⟨h 0 (Nat.zero_le _), ?_⟩
    intro n hn
    have hone := h (n + 1) (Nat.succ_le_succ hn)
    rwa [Nat.add_comm n 1, ← Nat.add_assoc, Nat.add_comm 1 n] at hone
  · rintro ⟨hzero, hrest⟩ n hn
    cases n with
    | zero => exact hzero
    | succ n =>
      have hone := hrest n (Nat.le_of_succ_le_succ hn)
      rwa [Nat.add_assoc, Nat.add_comm 1 n] at hone

theorem strcmp_result (b : Buffer) (name : ℕ) (hl : (0 : UInt8) ∉ l) :
    ∃ same, (b.strcmp name l).result = some same ∧ (same = true ↔ b.HasString name l) := by
  induction l generalizing name with
  | nil =>
    refine ⟨decide (b.bytes name = 0), rfl, ?_⟩
    rw [decide_eq_true_iff]
    constructor
    · intro h n hn
      rw [Nat.le_zero.mp hn]
      exact h
    · exact fun h => h 0 le_rfl
  | cons c l ih =>
    rw [List.mem_cons, not_or] at hl
    obtain ⟨hc, hl⟩ := hl
    obtain ⟨same, hsame, hiff⟩ := ih (name + 1) hl
    by_cases hbyte : b.bytes name ≠ 0 ∧ b.bytes name = c
    · refine ⟨same, ?_, ?_⟩
      · rw [Buffer.strcmp]
        simp only [result_bind, result_tell, Option.bind_some, if_pos hbyte]
        exact hsame
      · rw [hiff, hasString_cons]
        exact ⟨fun h => ⟨hbyte.2, h⟩, fun h => h.2⟩
    · refine ⟨false, ?_, ?_⟩
      · rw [Buffer.strcmp]
        simp only [result_bind, result_tell, Option.bind_some, if_neg hbyte, result_pure]
      · rw [hasString_cons]
        refine ⟨fun h => absurd h Bool.false_ne_true, fun h => absurd ?_ hbyte⟩
        exact ⟨fun hzero => hc (hzero.symm.trans h.1), h.1⟩

theorem stringFits_cons {c : UInt8} : b.StringFits name (c :: l) ↔
    (name < usable b.size ∧ b.bytes name ≠ c) ∨ b.StringFits (name + 1) l := by
  unfold Buffer.StringFits
  constructor
  · rintro ⟨n, hn, hlt, hend⟩
    cases n with
    | zero => exact Or.inl ⟨hlt, hend.resolve_left (Nat.succ_ne_zero _).symm⟩
    | succ n =>
      have hshift : name + (n + 1) = name + 1 + n := by omega
      rw [hshift] at hlt hend
      exact Or.inr ⟨n, Nat.le_of_succ_le_succ hn, hlt, hend.imp_left Nat.succ.inj⟩
  · rintro (⟨hlt, hne⟩ | ⟨n, hn, hlt, hend⟩)
    · exact ⟨0, Nat.zero_le _, hlt, Or.inr hne⟩
    · refine ⟨n + 1, Nat.succ_le_succ hn, ?_, ?_⟩
      · omega
      · have hshift : name + (n + 1) = name + 1 + n := by omega
        rw [hshift]
        exact hend.imp_left (congrArg Nat.succ)

theorem strcmp_inside (hl : (0 : UInt8) ∉ l) :
    ReadsInside (b.strcmp name l) ↔ b.StringFits name l := by
  induction l generalizing name with
  | nil =>
    rw [Buffer.strcmp, readsInside_tell_bind, List.forall_mem_singleton]
    constructor
    · exact fun h => ⟨0, le_rfl, h.1, Or.inl rfl⟩
    · rintro ⟨n, hn, hlt, -⟩
      rw [Nat.le_zero.mp hn] at hlt
      exact ⟨hlt, readsInside_pure _⟩
  | cons c l ih =>
    rw [List.mem_cons, not_or] at hl
    obtain ⟨hc, hl⟩ := hl
    rw [Buffer.strcmp, readsInside_tell_bind, List.forall_mem_singleton, stringFits_cons]
    have hfirst : ExecEvent.Inside (.look b.block (usable b.size) name 1) ↔
        name < usable b.size := Iff.rfl
    rw [hfirst]
    by_cases hbyte : b.bytes name ≠ 0 ∧ b.bytes name = c
    · rw [if_pos hbyte, ih hl]
      constructor
      · exact fun h => Or.inr h.2
      · rintro (⟨-, hne⟩ | hfits)
        · exact absurd hbyte.2 hne
        · obtain ⟨n, hn, hlt, hend⟩ := hfits
          exact ⟨by omega, n, hn, hlt, hend⟩
    · rw [if_neg hbyte]
      have hne : b.bytes name ≠ c := by
        intro heq
        exact hbyte ⟨fun hzero => hc (hzero.symm.trans heq), heq⟩
      constructor
      · exact fun h => Or.inl ⟨h.1, hne⟩
      · rintro (⟨hlt, -⟩ | ⟨n, hn, hlt, -⟩)
        · exact ⟨hlt, readsInside_pure _⟩
        · exact ⟨by omega, readsInside_pure _⟩

/-! The symbols. -/

namespace Buffer

def stName (syms : Buffer) (j : ℕ) : ℕ := leWord syms.bytes (j * sizeofSym) 4
def stValue (syms : Buffer) (j : ℕ) : ℕ := leWord syms.bytes (j * sizeofSym + 8) 8

end Buffer

/-- The symbol is `__global_pointer$`. -/
def IsPointer (syms strtab : Buffer) (j : ℕ) : Prop :=
  strtab.HasString (syms.stName j) globalPointer

/-- What is read of a symbol lies in its block, and its name comes to an end in the string table. -/
structure SymbolFits (syms strtab : Buffer) (j : ℕ) : Prop where
  symbol : j * sizeofSym + 4 ≤ usable syms.size
  string : strtab.StringFits (syms.stName j) globalPointer
  value : IsPointer syms strtab j → j * sizeofSym + 16 ≤ usable syms.size

/-- None of the symbols from `j` on comes before `i` that is `__global_pointer$`. -/
def NoneBefore (syms strtab : Buffer) (j i : ℕ) : Prop :=
  ∀ x, j ≤ x → x < i → ¬ IsPointer syms strtab x

theorem scanSyms_succ (syms strtab : Buffer) (left j : ℕ) : ∃ same, (same = true ↔ IsPointer syms strtab j) ∧
    (ExecFile.scanSyms syms strtab (left + 1) j).result =
      (if same then some (syms.stValue j)
        else (ExecFile.scanSyms syms strtab left (j + 1)).result) ∧
    (ReadsInside (ExecFile.scanSyms syms strtab (left + 1) j) ↔ SymbolFits syms strtab j ∧
      (same = false → ReadsInside (ExecFile.scanSyms syms strtab left (j + 1)))) := by
  have hnul : (0 : UInt8) ∉ globalPointer := by decide
  obtain ⟨same, hsame, hiff⟩ := strcmp_result strtab (syms.stName j) hnul
  refine ⟨same, hiff, ?_, ?_⟩
  · rw [ExecFile.scanSyms, result_field_bind]
    change ((strtab.strcmp (syms.stName j) globalPointer).result.bind _) = _
    rw [hsame, Option.bind_some]
    cases same
    · rfl
    · rfl
  · rw [ExecFile.scanSyms, readsInside_field_bind]
    have hbind := readsInside_bind (g := fun same => if same = true then
      syms.field (j * sizeofSym + 8) 8 else ExecFile.scanSyms syms strtab left (j + 1)) hsame
    rw [strcmp_inside hnul] at hbind
    refine (and_congr_right' hbind).trans ?_
    have hvalue : ReadsInside (syms.field (j * sizeofSym + 8) 8) ↔
        j * sizeofSym + 16 ≤ usable syms.size := readsInside_field
    cases same with
    | false =>
      constructor
      · rintro ⟨h1, h2, h3⟩
        exact ⟨⟨h1, h2, fun hp => absurd (hiff.mpr hp) Bool.false_ne_true⟩, fun _ => h3⟩
      · rintro ⟨hfits, hrest⟩
        exact ⟨hfits.symbol, hfits.string, hrest rfl⟩
    | true =>
      constructor
      · rintro ⟨h1, h2, h3⟩
        exact ⟨⟨h1, h2, fun _ => hvalue.mp h3⟩, fun h => absurd h.symm Bool.false_ne_true⟩
      · rintro ⟨hfits, -⟩
        exact ⟨hfits.symbol, hfits.string, hvalue.mpr (hfits.value (hiff.mp rfl))⟩

/-- A property of everything that a search from `j` on comes to holds of `j`, and, if the search
goes on, of everything that it comes to from the next one on. -/
theorem forall_reached_succ (j left : ℕ) (P Q : ℕ → Prop) :
    (∀ i, j ≤ i → i < j + (left + 1) → (∀ x, j ≤ x → x < i → Q x) → P i) ↔
      P j ∧ (Q j → ∀ i, j + 1 ≤ i → i < j + 1 + left → (∀ x, j + 1 ≤ x → x < i → Q x) → P i) := by
  constructor
  · intro h
    refine ⟨h j le_rfl (by omega) (fun x h1 h2 => absurd h1 (by omega)), ?_⟩
    intro hj i h1 h2 hall
    refine h i (by omega) (by omega) ?_
    intro x hx1 hx2
    by_cases hx : x = j
    · rwa [hx]
    · exact hall x (by omega) hx2
  · rintro ⟨hj, hrest⟩ i h1 h2 hall
    by_cases hi : i = j
    · rwa [hi]
    · exact hrest (hall j le_rfl (by omega)) i (by omega) (by omega)
        (fun x hx1 hx2 => hall x (by omega) hx2)

theorem scanSyms_inside : ReadsInside (ExecFile.scanSyms syms strtab left j) ↔
    ∀ i, j ≤ i → i < j + left → NoneBefore syms strtab j i → SymbolFits syms strtab i := by
  induction left generalizing j with
  | zero =>
    constructor
    · exact fun _ i h1 h2 => absurd h1 (by omega)
    · exact fun _ => readsInside_pure _
  | succ left ih =>
    obtain ⟨same, hsame, -, hinside⟩ := scanSyms_succ syms strtab left j
    have hnext := forall_reached_succ j left (SymbolFits syms strtab)
      fun x => ¬ IsPointer syms strtab x
    rw [← hsame, Bool.not_eq_true] at hnext
    rw [hinside, ih]
    exact hnext.symm

theorem scanSyms_result (syms strtab : Buffer) (left j : ℕ) : ∃ gp, (ExecFile.scanSyms syms strtab left j).result = some gp ∧
    (gp = 0 ↔ ∀ i, j ≤ i → i < j + left → NoneBefore syms strtab j i → IsPointer syms strtab i →
      syms.stValue i = 0) := by
  induction left generalizing j with
  | zero => exact ⟨0, rfl, fun _ i h1 h2 => absurd h1 (by omega), fun _ => rfl⟩
  | succ left ih =>
    obtain ⟨same, hsame, hres, -⟩ := scanSyms_succ syms strtab left j
    have hnext := forall_reached_succ j left
      (fun x => IsPointer syms strtab x → syms.stValue x = 0) fun x => ¬ IsPointer syms strtab x
    rw [← hsame, Bool.not_eq_true] at hnext
    rw [hres]
    cases same with
    | false =>
      obtain ⟨gp, hgp, hiff⟩ := ih (j + 1)
      refine ⟨gp, hgp, ?_⟩
      refine Iff.trans ?_ hnext.symm
      rw [hiff]
      exact ⟨fun h => ⟨fun hbad => absurd hbad Bool.false_ne_true, fun _ => h⟩, fun h => h.2 rfl⟩
    | true =>
      refine ⟨syms.stValue j, rfl, Iff.trans ?_ hnext.symm⟩
      exact ⟨fun h => ⟨fun _ => h, fun hbad => absurd hbad.symm Bool.false_ne_true⟩, fun h => h.1 rfl⟩

/-! The sections. -/

namespace Buffer

def shType (shdrs : Buffer) (i : ℕ) : ℕ := leWord shdrs.bytes (i * sizeofShdr + 4) 4
def shOffset (shdrs : Buffer) (i : ℕ) : ℕ := leWord shdrs.bytes (i * sizeofShdr + 24) 8
def shSize (shdrs : Buffer) (i : ℕ) : ℕ := leWord shdrs.bytes (i * sizeofShdr + 32) 8
def shLink (shdrs : Buffer) (i : ℕ) : ℕ := leWord shdrs.bytes (i * sizeofShdr + 40) 4
def shEntsize (shdrs : Buffer) (i : ℕ) : ℕ := leWord shdrs.bytes (i * sizeofShdr + 56) 8

/-- The section is a symbol table. -/
def IsTable (shdrs : Buffer) (i : ℕ) : Prop :=
  shdrs.shType i = shtSymtab ∧ shdrs.shEntsize i = sizeofSym

end Buffer

namespace KernelHeap

/-- `kmalloc` returns a block. -/
def Gives (k : KernelHeap) (x : Block) (size : ℕ) : Prop := ¬ asserts size ∧ k.has x = true

end KernelHeap

namespace ExecFile

def symsOf (f : ExecFile) (k : KernelHeap) (shdrs : Buffer) (i : ℕ) : Buffer :=
  f.buffer k (.syms i) (shdrs.shOffset i) (shdrs.shSize i)

def strtabOf (f : ExecFile) (k : KernelHeap) (shdrs : Buffer) (i : ℕ) : Buffer :=
  f.buffer k (.strtab i) (shdrs.shOffset (shdrs.shLink i)) (shdrs.shSize (shdrs.shLink i))

/-- Both reads of a table go well. -/
def TableRead (f : ExecFile) (shdrs : Buffer) (i : ℕ) : Prop :=
  f.code (.syms i) (shdrs.shOffset i) (shdrs.shSize i) = 0 ∧
    f.code (.strtab i) (shdrs.shOffset (shdrs.shLink i)) (shdrs.shSize (shdrs.shLink i)) = 0

/-- There are blocks for the symbols and the strings of the section, and both can be read. -/
structure Filled (f : ExecFile) (k : KernelHeap) (shdrs : Buffer) (i : ℕ) : Prop where
  syms : k.Gives (.syms i) (shdrs.shSize i)
  strtab : k.Gives (.strtab i) (shdrs.shSize (shdrs.shLink i))
  read : f.TableRead shdrs i

/-- A property of all symbols of the section up to `__global_pointer$`. -/
def ForSymbols (f : ExecFile) (k : KernelHeap) (shdrs : Buffer) (i : ℕ) (P : ℕ → Prop) : Prop :=
  ∀ j < shdrs.shSize i / sizeofSym,
    NoneBefore (f.symsOf k shdrs i) (f.strtabOf k shdrs i) 0 j → P j

/-- The search goes on behind the section. -/
def Passes (f : ExecFile) (k : KernelHeap) (shdrs : Buffer) (i : ℕ) : Prop :=
  shdrs.IsTable i → f.Filled k shdrs i ∧ f.ForSymbols k shdrs i fun j =>
    IsPointer (f.symsOf k shdrs i) (f.strtabOf k shdrs i) j → (f.symsOf k shdrs i).stValue j = 0

/-- What is read for the section lies in its blocks. -/
structure SectionFits (f : ExecFile) (k : KernelHeap) (shdrs : Buffer) (i : ℕ) : Prop where
  header : i * sizeofShdr < usable shdrs.size
  link : shdrs.IsTable i → shdrs.shLink i * sizeofShdr < usable shdrs.size
  symbols : shdrs.IsTable i → f.Filled k shdrs i → f.ForSymbols k shdrs i fun j =>
    SymbolFits (f.symsOf k shdrs i) (f.strtabOf k shdrs i) j

theorem scanTable_ends (syms strtab : Buffer) : (ReadsInside (scanTable syms strtab) ↔
      ∀ j < syms.size / sizeofSym, NoneBefore syms strtab 0 j → SymbolFits syms strtab j) ∧
    ((scanTable syms strtab).result = some (0, 0) ↔ ∀ j < syms.size / sizeofSym,
      NoneBefore syms strtab 0 j → IsPointer syms strtab j → syms.stValue j = 0) := by
  obtain ⟨gp, hgp, hiff⟩ := scanSyms_result syms strtab (syms.size / sizeofSym) 0
  constructor
  · rw [scanTable, readsInside_bind hgp, scanSyms_inside, readsInside_tell_bind]
    simp only [Nat.zero_add, Nat.zero_le, true_imp_iff]
    constructor
    · exact fun h => h.1
    · exact fun h => ⟨h, by simp [ExecEvent.Inside], readsInside_pure _⟩
  · change ((scanSyms syms strtab _ 0).result.bind _) = _ ↔ _
    rw [hgp, Option.bind_some]
    simp only [result_bind, result_tell, Option.bind_some, result_pure, Option.some.injEq,
      Prod.mk.injEq, true_and]
    rw [hiff]
    simp only [Nat.zero_add, Nat.zero_le, true_imp_iff]

theorem inside_freed (i : ℕ) (ret : ℤ × ℕ) : ReadsInside (do
    tell [.kfree (.syms i), .kfree (.strtab i), .kfree .shdrs]
    pure ret) := by
  rw [readsInside_tell_bind]
  exact ⟨by simp [ExecEvent.Inside], readsInside_pure ret⟩

theorem readTable_inside (hlink : shdrs.shLink i * sizeofShdr + 64 ≤ usable shdrs.size)
    (hheader : i * sizeofShdr + 64 ≤ usable shdrs.size) :
    ReadsInside (f.readTable k shdrs i (shdrs.shLink i) (shdrs.shSize i)
      (shdrs.shSize (shdrs.shLink i))) ↔ (f.TableRead shdrs i → f.ForSymbols k shdrs i fun j =>
        SymbolFits (f.symsOf k shdrs i) (f.strtabOf k shdrs i) j) := by
  rw [readTable, readsInside_field_bind]
  change _ ∧ ReadsInside (if f.code (.syms i) (shdrs.shOffset i) (shdrs.shSize i) ≠ 0 then _ else _) ↔ _
  by_cases hsyms : f.code (.syms i) (shdrs.shOffset i) (shdrs.shSize i) = 0
  · rw [if_neg (not_not.mpr hsyms), readsInside_field_bind]
    change _ ∧ _ ∧ ReadsInside (if f.code (.strtab i) (shdrs.shOffset (shdrs.shLink i))
      (shdrs.shSize (shdrs.shLink i)) ≠ 0 then _ else _) ↔ _
    by_cases hstr : f.code (.strtab i) (shdrs.shOffset (shdrs.shLink i))
      (shdrs.shSize (shdrs.shLink i)) = 0
    · rw [if_neg (not_not.mpr hstr)]
      have hends := (scanTable_ends (f.symsOf k shdrs i) (f.strtabOf k shdrs i)).1
      constructor
      · exact fun h _ => hends.mp h.2.2
      · exact fun h => ⟨by omega, by omega, hends.mpr (h ⟨hsyms, hstr⟩)⟩
    · rw [if_pos hstr]
      constructor
      · exact fun _ hread => absurd hread.2 hstr
      · exact fun _ => ⟨by omega, by omega, inside_freed i _⟩
  · rw [if_pos hsyms]
    constructor
    · exact fun _ hread => absurd hread.1 hsyms
    · exact fun _ => ⟨by omega, inside_freed i _⟩

theorem readTable_passes : (f.readTable k shdrs i (shdrs.shLink i) (shdrs.shSize i)
      (shdrs.shSize (shdrs.shLink i))).result = some (0, 0) ↔
    f.TableRead shdrs i ∧ f.ForSymbols k shdrs i fun j =>
      IsPointer (f.symsOf k shdrs i) (f.strtabOf k shdrs i) j →
        (f.symsOf k shdrs i).stValue j = 0 := by
  rw [readTable, result_field_bind]
  change (if f.code (.syms i) (shdrs.shOffset i) (shdrs.shSize i) ≠ 0 then _ else _ :
    Loader (ℤ × ℕ)).result = _ ↔ _
  by_cases hsyms : f.code (.syms i) (shdrs.shOffset i) (shdrs.shSize i) = 0
  · rw [if_neg (not_not.mpr hsyms), result_field_bind]
    change (if f.code (.strtab i) (shdrs.shOffset (shdrs.shLink i))
      (shdrs.shSize (shdrs.shLink i)) ≠ 0 then _ else _ : Loader (ℤ × ℕ)).result = _ ↔ _
    by_cases hstr : f.code (.strtab i) (shdrs.shOffset (shdrs.shLink i))
      (shdrs.shSize (shdrs.shLink i)) = 0
    · rw [if_neg (not_not.mpr hstr)]
      have hends := (scanTable_ends (f.symsOf k shdrs i) (f.strtabOf k shdrs i)).2
      constructor
      · exact fun h => ⟨⟨hsyms, hstr⟩, hends.mp h⟩
      · exact fun h => hends.mpr h.2
    · rw [if_pos hstr]
      constructor
      · exact fun h => absurd (Prod.mk.inj (Option.some.inj h)).1 hstr
      · exact fun h => absurd h.1.2 hstr
  · rw [if_pos hsyms]
    constructor
    · exact fun h => absurd (Prod.mk.inj (Option.some.inj h)).1 hsyms
    · exact fun h => absurd h.1.1 hsyms

/-- The two blocks, and what is done with them. -/
def fillTable (f : ExecFile) (k : KernelHeap) (shdrs : Buffer) (i : ℕ) : Loader (ℤ × ℕ) := do
  let hasSyms ← k.kmalloc (.syms i) (shdrs.shSize i)
  if !hasSyms then do
    tell [.kfree .shdrs]
    pure (-eNoMem, 0)
  else do
    let hasStrtab ← k.kmalloc (.strtab i) (shdrs.shSize (shdrs.shLink i))
    if !hasStrtab then do
      tell [.kfree (.syms i), .kfree .shdrs]
      pure (-eNoMem, 0)
    else f.readTable k shdrs i (shdrs.shLink i) (shdrs.shSize i) (shdrs.shSize (shdrs.shLink i))

theorem fillTable_inside : ReadsInside (f.fillTable k shdrs i) ↔
    (k.Gives (.syms i) (shdrs.shSize i) → k.Gives (.strtab i) (shdrs.shSize (shdrs.shLink i)) →
      ReadsInside (f.readTable k shdrs i (shdrs.shLink i) (shdrs.shSize i)
        (shdrs.shSize (shdrs.shLink i)))) := by
  rw [fillTable, readsInside_kmalloc_bind]
  unfold KernelHeap.Gives
  cases hsyms : k.has (.syms i) with
  | false =>
    constructor
    · exact fun _ h => absurd h.2 Bool.false_ne_true
    · intro _ _
      rw [Bool.not_false, if_pos rfl, readsInside_tell_bind]
      exact ⟨by simp [ExecEvent.Inside], readsInside_pure _⟩
  | true =>
    rw [Bool.not_true, if_neg Bool.false_ne_true, readsInside_kmalloc_bind]
    cases hstr : k.has (.strtab i) with
    | false =>
      constructor
      · exact fun _ _ h => absurd h.2 Bool.false_ne_true
      · intro _ _ _
        rw [Bool.not_false, if_pos rfl, readsInside_tell_bind]
        exact ⟨by simp [ExecEvent.Inside], readsInside_pure _⟩
    | true =>
      rw [Bool.not_true, if_neg Bool.false_ne_true]
      exact ⟨fun h h1 h2 => h h1.1 h2.1, fun h h1 h2 => h ⟨h1, rfl⟩ ⟨h2, rfl⟩⟩

theorem fillTable_passes : (f.fillTable k shdrs i).result = some (0, 0) ↔
    k.Gives (.syms i) (shdrs.shSize i) ∧ k.Gives (.strtab i) (shdrs.shSize (shdrs.shLink i)) ∧
      (f.readTable k shdrs i (shdrs.shLink i) (shdrs.shSize i)
        (shdrs.shSize (shdrs.shLink i))).result = some (0, 0) := by
  rw [fillTable, result_kmalloc_bind]
  unfold KernelHeap.Gives
  by_cases hbig : KernelHeap.asserts (shdrs.shSize i)
  · rw [if_pos hbig]
    exact ⟨fun h => absurd h.symm (Option.some_ne_none _), fun h => absurd hbig h.1.1⟩
  · rw [if_neg hbig]
    cases hsyms : k.has (.syms i) with
    | false =>
      constructor
      · intro h
        exact absurd (Prod.mk.inj (Option.some.inj h)).1 (by decide)
      · exact fun h => absurd h.1.2 Bool.false_ne_true
    | true =>
      rw [Bool.not_true, if_neg Bool.false_ne_true, result_kmalloc_bind]
      by_cases hbig' : KernelHeap.asserts (shdrs.shSize (shdrs.shLink i))
      · rw [if_pos hbig']
        exact ⟨fun h => absurd h.symm (Option.some_ne_none _), fun h => absurd hbig' h.2.1.1⟩
      · rw [if_neg hbig']
        cases hstr : k.has (.strtab i) with
        | false =>
          constructor
          · intro h
            exact absurd (Prod.mk.inj (Option.some.inj h)).1 (by decide)
          · exact fun h => absurd h.2.1.2 Bool.false_ne_true
        | true =>
          rw [Bool.not_true, if_neg Bool.false_ne_true]
          exact ⟨fun h => ⟨⟨hbig, rfl⟩, ⟨hbig', rfl⟩, h⟩, fun h => h.2.2⟩

theorem scanSection_inside
    (hrow : ∀ x, x * sizeofShdr < usable shdrs.size → x * sizeofShdr + 64 ≤ usable shdrs.size) :
    ReadsInside (f.scanSection k shdrs i) ↔ f.SectionFits k shdrs i := by
  rw [scanSection, readsInside_field_bind]
  change _ ∧ ReadsInside (if shdrs.shType i ≠ shtSymtab then _ else _) ↔ _
  by_cases htype : shdrs.shType i = shtSymtab
  · rw [if_neg (not_not.mpr htype), readsInside_field_bind]
    change _ ∧ _ ∧ ReadsInside (if shdrs.shEntsize i ≠ sizeofSym then _ else _) ↔ _
    by_cases hent : shdrs.shEntsize i = sizeofSym
    · rw [if_neg (not_not.mpr hent), readsInside_field_bind, readsInside_field_bind,
        readsInside_field_bind]
      change i * sizeofShdr + 4 + 4 ≤ _ ∧ i * sizeofShdr + 56 + 8 ≤ _ ∧ i * sizeofShdr + 40 + 4 ≤ _ ∧
        i * sizeofShdr + 32 + 8 ≤ _ ∧ shdrs.shLink i * sizeofShdr + 32 + 8 ≤ _ ∧
        ReadsInside (f.fillTable k shdrs i) ↔ _
      have htable : shdrs.IsTable i := ⟨htype, hent⟩
      rw [fillTable_inside]
      constructor
      · rintro ⟨h1, -, -, -, h2, hfill⟩
        have hheader := hrow i (by omega)
        have hlink := hrow (shdrs.shLink i) (by omega)
        refine ⟨by omega, fun _ => by omega, fun _ hfilled => ?_⟩
        exact (readTable_inside hlink hheader).mp (hfill hfilled.syms hfilled.strtab) hfilled.read
      · intro hfits
        have hheader := hrow i hfits.header
        have hlink := hrow (shdrs.shLink i) (hfits.link htable)
        refine ⟨by omega, by omega, by omega, by omega, by omega, fun hsyms hstr => ?_⟩
        exact (readTable_inside hlink hheader).mpr
          fun hread => hfits.symbols htable ⟨hsyms, hstr, hread⟩
    · rw [if_pos hent]
      constructor
      · rintro ⟨h1, -, -⟩
        exact ⟨by omega, fun ht => absurd ht.2 hent, fun ht => absurd ht.2 hent⟩
      · intro hfits
        have hheader := hrow i hfits.header
        exact ⟨by omega, by omega, readsInside_pure _⟩
  · rw [if_pos htype]
    constructor
    · rintro ⟨h1, -⟩
      exact ⟨by omega, fun ht => absurd ht.1 htype, fun ht => absurd ht.1 htype⟩
    · intro hfits
      have hheader := hrow i hfits.header
      exact ⟨by omega, readsInside_pure _⟩

theorem scanSection_passes :
    (f.scanSection k shdrs i).result = some (0, 0) ↔ f.Passes k shdrs i := by
  rw [scanSection, result_field_bind]
  change (if shdrs.shType i ≠ shtSymtab then _ else _ : Loader (ℤ × ℕ)).result = _ ↔ _
  by_cases htype : shdrs.shType i = shtSymtab
  · rw [if_neg (not_not.mpr htype), result_field_bind]
    change (if shdrs.shEntsize i ≠ sizeofSym then _ else _ : Loader (ℤ × ℕ)).result = _ ↔ _
    by_cases hent : shdrs.shEntsize i = sizeofSym
    · rw [if_neg (not_not.mpr hent), result_field_bind, result_field_bind, result_field_bind]
      change (f.fillTable k shdrs i).result = _ ↔ _
      rw [fillTable_passes, readTable_passes]
      constructor
      · exact fun h _ => ⟨⟨h.1, h.2.1, h.2.2.1⟩, h.2.2.2⟩
      · intro h
        obtain ⟨hfilled, hzero⟩ := h ⟨htype, hent⟩
        exact ⟨hfilled.syms, hfilled.strtab, hfilled.read, hzero⟩
    · rw [if_pos hent]
      exact ⟨fun _ ht => absurd ht.2 hent, fun _ => rfl⟩
  · rw [if_pos htype]
    exact ⟨fun _ ht => absurd ht.1 htype, fun _ => rfl⟩

/-- Every section that the search comes to is read inside of its blocks. -/
theorem scanSections_inside
    (hrow : ∀ x, x * sizeofShdr < usable shdrs.size → x * sizeofShdr + 64 ≤ usable shdrs.size) :
    ReadsInside (f.scanSections k shdrs left i) ↔ ∀ x, i ≤ x → x < i + left →
      (∀ y, i ≤ y → y < x → f.Passes k shdrs y) → f.SectionFits k shdrs x := by
  induction left generalizing i with
  | zero =>
    constructor
    · exact fun _ x h1 h2 => absurd h1 (by omega)
    · intro _
      rw [scanSections, readsInside_tell_bind]
      exact ⟨by simp [ExecEvent.Inside], readsInside_pure _⟩
  | succ left ih =>
    rw [forall_reached_succ i left (f.SectionFits k shdrs) (f.Passes k shdrs), ← scanSection_inside hrow,
      ← scanSection_passes, ← ih, scanSections]
    cases hres : (f.scanSection k shdrs i).result with
    | none =>
      unfold ReadsInside
      rw [log_bind_of_stop hres]
      exact ⟨fun h => ⟨h, fun hbad => absurd hbad.symm (Option.some_ne_none _)⟩, fun h => h.1⟩
    | some r =>
      obtain ⟨ret, gp⟩ := r
      rw [readsInside_bind hres]
      refine and_congr_right' ?_
      simp only [Option.some.injEq, Prod.mk.injEq]
      by_cases hret : ret = 0
      · rw [if_neg (not_not.mpr hret)]
        by_cases hgp : gp = 0
        · rw [if_neg (not_not.mpr hgp)]
          exact ⟨fun h _ => h, fun h => h ⟨hret, hgp⟩⟩
        · rw [if_pos hgp, readsInside_tell_bind]
          refine ⟨fun _ hbad => absurd hbad.2 hgp, fun _ => ⟨?_, readsInside_pure _⟩⟩
          simp [ExecEvent.Inside]
      · rw [if_pos hret]
        exact ⟨fun _ hbad => absurd hbad.1 hret, fun _ => readsInside_pure _⟩

/-- `load_icode` has a block for the section headers and reads them. -/
structure HasSections (f : ExecFile) (k : KernelHeap) : Prop where
  header : f.eShoff ≠ 0 ∧ f.eShnum ≠ 0 ∧ f.eShentsize = sizeofShdr
  block : k.Gives .shdrs (f.eShnum * sizeofShdr)
  read : f.code .shdrs f.eShoff (f.eShnum * sizeofShdr) = 0

def shdrsOf (f : ExecFile) (k : KernelHeap) : Buffer :=
  f.buffer k .shdrs f.eShoff (f.eShnum * sizeofShdr)

/-- What is read for each section that the search comes to lies in its blocks. -/
def ScanFits (f : ExecFile) (k : KernelHeap) : Prop :=
  f.HasSections k → ∀ x < f.eShnum, (∀ y < x, f.Passes k (f.shdrsOf k) y) →
    f.SectionFits k (f.shdrsOf k) x

/-- The usable part of a table of section headers ends with one of them. -/
theorem usable_rows {n x : ℕ} (h : x * sizeofShdr < usable (n * sizeofShdr)) :
    x * sizeofShdr + 64 ≤ usable (n * sizeofShdr) := by
  unfold usable at h ⊢
  by_cases hsmall : n * sizeofShdr < 4080
  · rw [if_pos hsmall] at h ⊢
    unfold sizeofShdr at *
    omega
  · rw [if_neg hsmall] at h ⊢
    generalize 2 ^ findOrder (n * sizeofShdr) = pages at h ⊢
    unfold sizeofShdr pgSize at *
    omega

theorem scanSymbols_inside : ReadsInside (f.scanSymbols k) ↔ f.ScanFits k := by
  unfold scanSymbols
  by_cases hheader : f.eShoff ≠ 0 ∧ f.eShnum ≠ 0 ∧ f.eShentsize = sizeofShdr
  · rw [if_pos hheader, readsInside_kmalloc_bind]
    cases hshdrs : k.has .shdrs with
    | false =>
      constructor
      · intro _ hsections
        rw [hsections.block.2] at hshdrs
        exact absurd hshdrs.symm Bool.false_ne_true
      · exact fun _ _ => readsInside_pure _
    | true =>
      rw [Bool.not_true, if_neg Bool.false_ne_true]
      by_cases hread : f.code .shdrs f.eShoff (f.eShnum * sizeofShdr) = 0
      · rw [if_neg (not_not.mpr hread), scanSections_inside (fun x hx => usable_rows hx)]
        constructor
        · intro h hsections x hx hall
          exact h hsections.block.1 x (Nat.zero_le x) (by omega) (fun y _ hy => hall y hy)
        · intro h hbig x _ hx hall
          exact h ⟨hheader, ⟨hbig, hshdrs⟩, hread⟩ x (by omega) (fun y hy => hall y (Nat.zero_le y) hy)
      · rw [if_pos hread]
        constructor
        · exact fun _ hsections => absurd hsections.read hread
        · intro _ _
          rw [readsInside_tell_bind]
          exact ⟨by simp [ExecEvent.Inside], readsInside_pure _⟩
  · rw [if_neg hheader]
    exact ⟨fun _ hsections => absurd hsections.header hheader, fun _ => readsInside_pure _⟩

end ExecFile

/-! The rest of `load_icode` reads none of these blocks. -/

/-- What is noted from the program headers on. -/
def ExecEvent.OfProgram : ExecEvent → Prop
  | .kmalloc (.vma _) => True
  | .kmalloc .stackVma => True
  | .store _ _ _ => True
  | _ => False

def NotesProgram (x : Loader α) : Prop := ∀ e ∈ x.log, e.OfProgram

theorem notesProgram_bind {x : Loader α} {g : α → Loader β} (hx : NotesProgram x)
    (hg : ∀ a, NotesProgram (g a)) : NotesProgram (x >>= g) :=
  forall_log_bind hx fun a _ => hg a

theorem notesProgram_nil {x : Loader α} (h : x.log = []) : NotesProgram x := by
  intro e he
  rw [h] at he
  exact absurd he List.not_mem_nil

theorem notesProgram_ite {c : Prop} [Decidable c] {x y : Loader α} (hx : NotesProgram x)
    (hy : NotesProgram y) : NotesProgram (if c then x else y) := by
  by_cases hc : c
  · rwa [if_pos hc]
  · rwa [if_neg hc]

theorem notesProgram_tell {e : ExecEvent} (h : e.OfProgram) : NotesProgram (tell [e]) := by
  intro e' he
  rwa [List.mem_singleton.mp he]

theorem mmMap_notes {s : ExecState M} {x : Block} {r : MapRequest}
    (hx : ExecEvent.OfProgram (.kmalloc x)) : NotesProgram (s.mmMap x r) := by
  refine notesProgram_bind (notesProgram_nil rfl) fun _ => notesProgram_ite (notesProgram_nil rfl) ?_
  exact notesProgram_bind (notesProgram_tell hx) fun _ => notesProgram_nil rfl

theorem loadPages_notes {h : ElfProghdr} {pd la : ℕ} {m : Mem M} :
    NotesProgram (f.loadPages i h pd left la m) := by
  induction left generalizing la m with
  | zero => exact notesProgram_nil rfl
  | succ left ih =>
    rw [ExecFile.loadPages]
    refine notesProgram_ite (notesProgram_bind (notesProgram_nil rfl) ?_) (notesProgram_nil rfl)
    rintro ⟨page, m₁⟩
    cases page with
    | none => exact notesProgram_nil rfl
    | some page =>
      exact notesProgram_ite (notesProgram_ite (notesProgram_nil rfl) ih) ih

theorem loadSegment_notes {s : ExecState M} : NotesProgram (f.loadSegment k i s) := by
  unfold ExecFile.loadSegment
  refine notesProgram_ite (notesProgram_nil rfl) (notesProgram_ite (notesProgram_nil rfl)
    (notesProgram_ite (notesProgram_nil rfl) (notesProgram_ite (notesProgram_nil rfl) ?_)))
  refine notesProgram_bind (mmMap_notes trivial) fun _ => notesProgram_ite (notesProgram_nil rfl) ?_
  exact notesProgram_bind loadPages_notes fun _ => notesProgram_nil rfl

theorem loadSegments_notes {s : ExecState M} : NotesProgram (f.loadSegments k left i s) := by
  induction left generalizing i s with
  | zero => exact notesProgram_nil rfl
  | succ left ih =>
    exact notesProgram_bind loadSegment_notes fun _ => notesProgram_ite (notesProgram_nil rfl) ih

theorem mapStackPages_notes {pd la : ℕ} {m : Mem M} :
    NotesProgram (mapStackPages pd left la m) := by
  induction left generalizing la m with
  | zero => exact notesProgram_nil rfl
  | succ left ih =>
    refine notesProgram_bind (notesProgram_nil rfl) ?_
    rintro ⟨page, m₁⟩
    cases page with
    | none => exact notesProgram_nil rfl
    | some page => exact ih

theorem mapStack_notes {s : ExecState M} : NotesProgram (s.mapStack k) := by
  refine notesProgram_bind (mmMap_notes trivial) fun _ => notesProgram_ite (notesProgram_nil rfl) ?_
  exact notesProgram_bind mapStackPages_notes fun _ => notesProgram_nil rfl

theorem storeArg_notes {pd dst : ℕ} {bytes : List UInt8} {m : Mem M} :
    NotesProgram (storeArg m pd dst bytes) := by
  refine notesProgram_bind (notesProgram_nil rfl) fun _ => notesProgram_ite ?_ (notesProgram_nil rfl)
  exact notesProgram_bind (notesProgram_tell trivial) fun _ => notesProgram_nil rfl

theorem pushStrings_notes {pd : ℕ} {strings : List (List UInt8)} {p : Pushed M} :
    NotesProgram (pushStrings pd strings p) := by
  induction strings generalizing p with
  | nil => exact notesProgram_nil rfl
  | cons s strings ih =>
    exact notesProgram_ite (notesProgram_nil rfl) (notesProgram_bind storeArg_notes fun _ => ih)

theorem storePointers_notes {pd dst : ℕ} {addrs : List ℕ} {m : Mem M} :
    NotesProgram (storePointers pd addrs dst m) := by
  induction addrs generalizing dst m with
  | nil => exact storeArg_notes
  | cons a addrs ih => exact notesProgram_bind storeArg_notes fun _ => ih

theorem setupArgs_notes {pd : ℕ} {m : Mem M} : NotesProgram (setupArgs m pd args) := by
  refine notesProgram_bind pushStrings_notes fun _ => notesProgram_ite (notesProgram_nil rfl) ?_
  refine notesProgram_bind storePointers_notes fun _ => ?_
  exact notesProgram_bind storeArg_notes fun _ => notesProgram_nil rfl

theorem loadProgram_notes {s : ExecState M} : NotesProgram (loadProgram f k args s) := by
  refine notesProgram_bind loadSegments_notes fun _ => notesProgram_ite (notesProgram_nil rfl) ?_
  refine notesProgram_bind mapStack_notes fun _ => notesProgram_ite (notesProgram_nil rfl) ?_
  exact notesProgram_bind setupArgs_notes fun _ => notesProgram_nil rfl

theorem NotesProgram.inside {x : Loader α} (h : NotesProgram x) : ReadsInside x := by
  intro e he
  have hof := h e he
  cases e with
  | look b size off len => exact absurd hof id
  | kmalloc b => trivial
  | kfree b => trivial
  | store frame off len => trivial
  | close => trivial

theorem failCloseFd_inside (ret : ℤ) (m : Mem M) : ReadsInside (failCloseFd ret m) := by
  unfold failCloseFd
  rw [readsInside_tell_bind]
  exact ⟨by simp [ExecEvent.Inside], readsInside_pure _⟩

theorem loadInto_inside {pd : ℕ} : ReadsInside (loadInto m f k args pd) ↔ f.ScanFits k := by
  rw [← ExecFile.scanSymbols_inside]
  unfold loadInto
  constructor
  · intro h e he
    exact h e (mem_log_bind.mpr (Or.inl he))
  · intro h
    refine readsInside_of_bind h ?_
    rintro ⟨ret, gp⟩
    by_cases hret : ret ≠ 0
    · simp only [if_pos hret]
      rw [readsInside_tell_bind]
      exact ⟨by simp [ExecEvent.Inside], failCloseFd_inside _ _⟩
    · simp only [if_neg hret]
      refine readsInside_of_bind loadProgram_notes.inside ?_
      rintro ⟨ret, s, argv⟩
      by_cases hret : ret ≠ 0
      · simp only [if_pos hret]
        refine readsInside_of_bind (readsInside_ofOption _) fun _ => ?_
        rw [readsInside_tell_bind]
        refine ⟨?_, failCloseFd_inside _ _⟩
        intro e he
        rcases List.mem_append.mp he with he | he
        · obtain ⟨x, -, rfl⟩ := List.mem_map.mp he
          trivial
        · rw [List.mem_singleton.mp he]
          trivial
      · simp only [if_neg hret]
        rw [readsInside_tell_bind]
        exact ⟨by simp [ExecEvent.Inside], readsInside_pure _⟩

/-- `load_icode` comes to the search: the ELF header is accepted, and there is memory for the
address space. -/
structure Searches (m : Mem M) (f : ExecFile) (k : KernelHeap) : Prop where
  elfhdr : f.code .elfhdr 0 sizeofElfhdr = 0
  magic : f.eMagic = elfMagic
  mm : k.has .mm = true
  pgdir : m.setupPgdir.1 ≠ none

/-- All reads of the section headers, the symbols and the strings lie in their blocks if and only
if that is so for each section that the search comes to. -/
theorem symbol_reads_inside_iff :
    ReadsInside (loadIcode m f k args) ↔ (Searches m f k → f.ScanFits k) := by
  unfold loadIcode
  by_cases hret : f.code .elfhdr 0 sizeofElfhdr = 0
  · rw [if_neg (not_not.mpr hret)]
    by_cases hmagic : f.eMagic = elfMagic
    · rw [if_neg (not_not.mpr hmagic)]
      cases hmm : k.has .mm with
      | false =>
        exact ⟨fun _ h => absurd (hmm.symm.trans h.mm) Bool.false_ne_true,
          fun _ => failCloseFd_inside _ _⟩
      | true =>
        rw [Bool.not_true, if_neg Bool.false_ne_true, readsInside_tell_bind,
          List.forall_mem_singleton]
        cases hpg : m.setupPgdir with
        | mk pd m₁ =>
          cases pd with
          | none =>
            constructor
            · exact fun _ h => absurd (congrArg Prod.fst hpg) h.pgdir
            · intro _
              refine ⟨trivial, ?_⟩
              simp only
              rw [readsInside_tell_bind]
              exact ⟨by simp [ExecEvent.Inside], failCloseFd_inside _ _⟩
          | some pd =>
            simp only
            rw [loadInto_inside]
            constructor
            · exact fun h _ => h.2
            · refine fun h => ⟨trivial, h ⟨hret, hmagic, hmm, ?_⟩⟩
              rw [hpg]
              exact Option.some_ne_none pd
    · rw [if_pos hmagic]
      exact ⟨fun _ h => absurd h.magic hmagic, fun _ => failCloseFd_inside _ _⟩
  · rw [if_pos hret]
    exact ⟨fun _ h => absurd h.elfhdr hret, fun _ => failCloseFd_inside _ _⟩

/-- A file without segments and with one section header, a symbol table with one symbol whose
`sh_link` is as given. -/
def oneTableFile (link : ℕ) : ExecFile where
  size := 4096
  bytes off := (leBytes 4 elfMagic ++ leBytes 36 0 ++ leBytes 8 64 ++ leBytes 10 0 ++ leBytes 2 64 ++
    leBytes 2 1 ++ leBytes 2 0 ++ leBytes 4 0 ++ leBytes 4 shtSymtab ++ leBytes 16 0 ++
    leBytes 8 128 ++ leBytes 8 24 ++ leBytes 4 link ++ leBytes 12 0 ++ leBytes 8 24 ++
    leBytes 24 0).getD off 0
  code _ off len := if off < 2 ^ 63 ∧ off + len ≤ 4096 then 0 else -1
  size_lt := by decide
  inside := by
    intro p off len h
    by_cases hin : off < 2 ^ 63 ∧ off + len ≤ 4096
    · exact ⟨hin.1, Or.inr hin.2⟩
    · rw [if_neg hin] at h
      exact absurd h (by decide)

/-- The string table would be the section behind the last one: `load_icode` looks for its size
behind the block of the section headers. -/
theorem link_read_outside : Searches Procs.noProcs.mem (oneTableFile 1) .plenty ∧
    .look .shdrs 64 96 8 ∈ (loadIcode Procs.noProcs.mem (oneTableFile 1) .plenty oneArg).log ∧
    ¬ ReadsInside (loadIcode Procs.noProcs.mem (oneTableFile 1) .plenty oneArg) := by
  have hlook : ExecEvent.look .shdrs 64 96 8 ∈
      (loadIcode Procs.noProcs.mem (oneTableFile 1) .plenty oneArg).log := by decide +kernel
  refine ⟨⟨by decide +kernel, by decide +kernel, rfl, by decide +kernel⟩, hlook, ?_⟩
  intro hinside
  exact absurd (hinside _ hlook) (by simp [ExecEvent.Inside])

end Ucore.Exec
