import Ucore.Library.Holders
import Ucore.Vm.PageTable
import Mathlib.Data.Finset.Prod
import Mathlib.Data.Set.Insert

/-!
Page directories read as slots. The entries of the user part of all directories
are slots that hold pages, a valid entry with `PTE_W` is an exclusive slot, and
the pages occupied by the directories themselves sit at positions of their own.
The lemmas say which slots and positions each elementary write changes.
-/
namespace Ucore.Vm

open Library

/-- Places that refer to a table page: a directory itself, one of its entries, or
an entry of a middle-level table. -/
inductive TablePos where
  | root (pd : ℕ)
  | middle (pd i : ℕ)
  | last (pd i j : ℕ)
  deriving DecidableEq

namespace Pgdir

/-- The page of a middle-level table. -/
def middlePage (d : Pgdir) (i : ℕ) : Option ℕ := (d.pde1 i).map PageDirectory.page

/-- The page of a last-level table. -/
def lastPage (d : Pgdir) (i j : ℕ) : Option ℕ :=
  (d.pde1 i).bind (fun t => (t.pde0 j).map PageTable.page)

end Pgdir

namespace Mem

variable {M : PmmManager}

/-- The user entries of all possible directories: directory page, page of the address. -/
def slots (M : PmmManager) : Finset (ℕ × ℕ) :=
  Finset.range M.npage ×ˢ Finset.range userPages

def slotEntry (m : Mem M) (k : ℕ × ℕ) : ℕ := m.entry k.1 (k.2 * pgSize)

/-- The page a valid entry points to. -/
def holds (m : Mem M) (k : ℕ × ℕ) : Option ℕ :=
  if hasFlag (m.slotEntry k) pteV then some (ptePpn (m.slotEntry k)) else none

/-- A valid entry with `PTE_W`. -/
def Writable (m : Mem M) (k : ℕ × ℕ) : Prop :=
  hasFlag (m.slotEntry k) pteV ∧ hasFlag (m.slotEntry k) pteW

/-- The number of valid user entries that point to a page. -/
def mapCount (m : Mem M) (p : ℕ) : ℕ := holders (slots M) m.holds p

def tableAt (m : Mem M) : TablePos → Option ℕ
  | .root pd => (m.pgdir pd).map (fun _ => pd)
  | .middle pd i => (m.pgdir pd).bind (fun d => d.middlePage i)
  | .last pd i j => (m.pgdir pd).bind (fun d => d.lastPage i j)

/-- The page is taken by a directory. -/
def IsTable (m : Mem M) (p : ℕ) : Prop := ∃ t, m.tableAt t = some p

/-- A last-level table exists for the address. -/
def HasTable (m : Mem M) (pd la : ℕ) : Prop :=
  ∃ d, m.pgdir pd = some d ∧ ∃ t, d.table la = some t

theorem mem_slots {pd la : ℕ} (hpd : pd < M.npage) (hla : la < userTop) :
    (pd, la / pgSize) ∈ slots M := by
  unfold slots
  rw [Finset.mem_product, Finset.mem_range, Finset.mem_range]
  exact ⟨hpd, page_lt_userPages hla⟩

theorem lt_of_mem_slots {k : ℕ × ℕ} (hk : k ∈ slots M) :
    k.1 < M.npage ∧ k.2 * pgSize < userTop := by
  unfold slots at hk
  rw [Finset.mem_product, Finset.mem_range, Finset.mem_range] at hk
  exact ⟨hk.1, mul_page_lt_userTop hk.2⟩

end Mem

namespace Pgdir

/-- A new middle-level table has no entries yet. -/
theorem entry_setPde1_new {d : Pgdir} {la : ℕ} (hnone : d.pde1 (pdx1 la) = none) (page la' : ℕ) :
    (d.setPde1 la ⟨page, fun _ => none⟩).entry la' = d.entry la' := by
  unfold entry table setPde1
  by_cases h : pdx1 la' = pdx1 la
  · simp [h, hnone]
  · simp [h]

theorem entry_setPde0_new {d : Pgdir} {la : ℕ} (hnone : d.table la = none) (page la' : ℕ) :
    (d.setPde0 la ⟨page, fun _ => 0⟩).entry la' = d.entry la' := by
  unfold setPde0
  unfold table at hnone
  cases hd : d.pde1 (pdx1 la) with
  | none => rfl
  | some dir =>
    rw [hd, Option.bind_some] at hnone
    unfold entry table setPde1
    by_cases h : pdx1 la' = pdx1 la
    · by_cases h0 : pdx0 la' = pdx0 la
      · simp [h, h0, hd, hnone]
      · simp [h, hd, Function.update_of_ne h0]
    · simp [h]

theorem middlePage_setPde1_new (d : Pgdir) (la page i : ℕ) :
    (d.setPde1 la ⟨page, fun _ => none⟩).middlePage i =
      if i = pdx1 la then some page else d.middlePage i := by
  unfold middlePage setPde1
  by_cases h : i = pdx1 la
  · simp [h]
  · simp [h]

theorem lastPage_setPde1_new {d : Pgdir} {la : ℕ} (hnone : d.pde1 (pdx1 la) = none)
    (page i j : ℕ) : (d.setPde1 la ⟨page, fun _ => none⟩).lastPage i j = d.lastPage i j := by
  unfold lastPage setPde1
  by_cases h : i = pdx1 la
  · simp [h, hnone]
  · simp [h]

/-- Replacing a last-level table changes at most the page at its own position. -/
theorem pages_setPde0 {d : Pgdir} {la : ℕ} {dir : PageDirectory}
    (hd : d.pde1 (pdx1 la) = some dir) (t : PageTable) :
    (∀ i, (d.setPde0 la t).middlePage i = d.middlePage i) ∧
      ∀ i j, (d.setPde0 la t).lastPage i j =
        if i = pdx1 la ∧ j = pdx0 la then some t.page else d.lastPage i j := by
  have hset : d.setPde0 la t =
      d.setPde1 la { dir with pde0 := Function.update dir.pde0 (pdx0 la) (some t) } := by
    simp only [setPde0, hd]
  rw [hset]
  constructor
  · intro i
    unfold middlePage setPde1
    by_cases h : i = pdx1 la
    · simp [h, hd]
    · simp [h]
  · intro i j
    unfold lastPage setPde1
    by_cases h : i = pdx1 la
    · by_cases hj : j = pdx0 la
      · simp [h, hj]
      · simp [h, hj, hd]
    · simp [h]

/-- Writing an entry moves no table. -/
theorem pages_setEntry (d : Pgdir) (la v : ℕ) :
    (∀ i, (d.setEntry la v).middlePage i = d.middlePage i) ∧
      ∀ i j, (d.setEntry la v).lastPage i j = d.lastPage i j := by
  unfold setEntry
  cases ht : d.table la with
  | none => exact ⟨fun _ => rfl, fun _ _ => rfl⟩
  | some t =>
    unfold table at ht
    rw [Option.bind_eq_some_iff] at ht
    obtain ⟨dir, hdir, ht⟩ := ht
    obtain ⟨hm, hl⟩ := pages_setPde0 hdir { t with pte := Function.update t.pte (ptx la) v }
    refine ⟨hm, ?_⟩
    intro i j
    rw [hl]
    split
    · rename_i hij
      simp [lastPage, hij.1, hij.2, hdir, ht]
    · rfl

/-- After a write, the entry of the page has the new value and all others their old one. -/
theorem entry_setEntry {d : Pgdir} {la la' : ℕ} {t : PageTable} (ht : d.table la = some t)
    (hla : la < userTop) (hla' : la' < userTop) (v : ℕ) :
    (d.setEntry la v).entry la' = if la' / pgSize = la / pgSize then v else d.entry la' := by
  have htab := ht
  unfold table at ht
  rw [Option.bind_eq_some_iff] at ht
  obtain ⟨dir, hdir, ht⟩ := ht
  have hset : d.setEntry la v = d.setPde1 la { dir with
      pde0 := Function.update dir.pde0 (pdx0 la)
        (some { t with pte := Function.update t.pte (ptx la) v }) } := by
    simp only [setEntry, htab, setPde0, hdir]
  rw [hset]
  by_cases hpage : la' / pgSize = la / pgSize
  · obtain ⟨h1, h0, hx⟩ := index_of_page_eq hpage
    simp [hpage, entry, table, setPde1, h1, h0, hx]
  · rw [if_neg hpage]
    unfold entry table setPde1
    by_cases h1 : pdx1 la' = pdx1 la
    · by_cases h0 : pdx0 la' = pdx0 la
      · have hx : ptx la' ≠ ptx la := fun hx =>
          hpage (page_eq_of_index hla' hla h1 h0 hx)
        simp [h1, h0, hdir, ht, Function.update_of_ne hx]
      · simp [h1, hdir, Function.update_of_ne h0]
    · simp [Function.update_of_ne h1]

end Pgdir

namespace Mem

variable {M : PmmManager}

theorem entry_of_pgdir {m : Mem M} {pd : ℕ} {d : Pgdir} (h : m.pgdir pd = some d) (la : ℕ) :
    m.entry pd la = d.entry la := by simp [entry, h]

theorem entry_setPgdir (m : Mem M) (pd pd' la : ℕ) (d : Pgdir) :
    (m.setPgdir pd d).entry pd' la = if pd' = pd then d.entry la else m.entry pd' la := by
  unfold entry setPgdir
  by_cases h : pd' = pd
  · simp [h]
  · simp [h]

/-- `*ptep = v` for an entry whose table exists. -/
theorem entry_setEntry {m : Mem M} {pd la : ℕ} (ht : m.HasTable pd la) (hla : la < userTop)
    (v pd' la' : ℕ) (hla' : la' < userTop) :
    (m.setEntry pd la v).entry pd' la' =
      if pd' = pd ∧ la' / pgSize = la / pgSize then v else m.entry pd' la' := by
  obtain ⟨d, hd, t, ht⟩ := ht
  unfold setEntry
  rw [hd]
  simp only
  rw [entry_setPgdir]
  by_cases hpd : pd' = pd
  · subst hpd
    rw [if_pos rfl, Pgdir.entry_setEntry ht hla hla', entry_of_pgdir hd]
    simp
  · simp [hpd]

theorem setEntry_pmm (m : Mem M) (pd la v : ℕ) : (m.setEntry pd la v).pmm = m.pmm := by
  unfold setEntry
  cases m.pgdir pd <;> rfl

@[simp] theorem setEntry_ref (m : Mem M) (pd la v : ℕ) : (m.setEntry pd la v).ref = m.ref := by
  unfold setEntry
  cases m.pgdir pd <;> rfl

@[simp] theorem setEntry_data (m : Mem M) (pd la v : ℕ) : (m.setEntry pd la v).data = m.data := by
  unfold setEntry
  cases m.pgdir pd <;> rfl

@[simp] theorem setEntry_isFree (m : Mem M) (pd la v p : ℕ) :
    (m.setEntry pd la v).IsFree p ↔ m.IsFree p := by
  unfold IsFree
  rw [setEntry_pmm]

theorem setEntry_pgdir_isSome (m : Mem M) (pd la v pd' : ℕ) :
    ((m.setEntry pd la v).pgdir pd').isSome = (m.pgdir pd').isSome := by
  unfold setEntry
  cases hd : m.pgdir pd with
  | none => rfl
  | some d =>
    by_cases h : pd' = pd
    · simp [setPgdir, h, hd]
    · simp [setPgdir, Function.update_of_ne h]

/-- The memory differs from `m` in the entry of one page only. -/
def EntrySet (m m' : Mem M) (pd la v : ℕ) : Prop :=
  ∀ pd' la', la' < userTop → m'.entry pd' la' =
    if pd' = pd ∧ la' / pgSize = la / pgSize then v else m.entry pd' la'

theorem EntrySet.slotEntry {m m' : Mem M} {pd la v : ℕ} (h : EntrySet m m' pd la v)
    {k : ℕ × ℕ} (hk : k ∈ slots M) :
    m'.slotEntry k = if k = (pd, la / pgSize) then v else m.slotEntry k := by
  obtain ⟨a, b⟩ := k
  have hset := h a (b * pgSize) (lt_of_mem_slots hk).2
  rw [page_mul_div] at hset
  simp only [Prod.mk.injEq]
  exact hset

/-- A valid entry makes its slot hold the page. -/
theorem EntrySet.holds_create {m m' : Mem M} {pd la page perm : ℕ}
    (h : EntrySet m m' pd la (pteCreate page perm)) (hperm : perm < pteFlagLimit) :
    ∀ k ∈ slots M, m'.holds k = Function.update m.holds (pd, la / pgSize) (some page) k := by
  intro k hk
  unfold holds
  rw [h.slotEntry hk]
  by_cases hk' : k = (pd, la / pgSize)
  · simp [hk', ptePpn_create hperm]
  · simp only [hk', if_false, Function.update_of_ne, ne_eq, not_false_eq_true]

theorem EntrySet.writable_create {m m' : Mem M} {pd la page perm : ℕ}
    (h : EntrySet m m' pd la (pteCreate page perm)) :
    ∀ k ∈ slots M, m'.Writable k →
      Function.update m.Writable (pd, la / pgSize) (hasFlag perm pteW) k := by
  intro k hk hw
  unfold Writable at hw
  rw [h.slotEntry hk] at hw
  by_cases hk' : k = (pd, la / pgSize)
  · rw [if_pos hk'] at hw
    rw [hk', Function.update_self]
    simpa using hw.2
  · rw [if_neg hk'] at hw
    rw [Function.update_of_ne hk']
    exact hw

/-- A zero entry empties its slot. -/
theorem EntrySet.holds_zero {m m' : Mem M} {pd la : ℕ} (h : EntrySet m m' pd la 0) :
    ∀ k ∈ slots M, m'.holds k = Function.update m.holds (pd, la / pgSize) none k := by
  intro k hk
  unfold holds
  rw [h.slotEntry hk]
  by_cases hk' : k = (pd, la / pgSize)
  · simp [hk']
  · simp only [hk', if_false, Function.update_of_ne, ne_eq, not_false_eq_true]

theorem EntrySet.writable_zero {m m' : Mem M} {pd la : ℕ} (h : EntrySet m m' pd la 0) :
    ∀ k ∈ slots M, m'.Writable k →
      Function.update m.Writable (pd, la / pgSize) False k := by
  intro k hk hw
  unfold Writable at hw
  rw [h.slotEntry hk] at hw
  by_cases hk' : k = (pd, la / pgSize)
  · rw [if_pos hk'] at hw
    simp at hw
  · rw [if_neg hk'] at hw
    rw [Function.update_of_ne hk']
    exact hw

theorem EntrySet.trans {m m' m'' : Mem M} {pd la v w : ℕ} (h : EntrySet m m' pd la v)
    (h' : EntrySet m' m'' pd la w) : EntrySet m m'' pd la w := by
  intro pd' la' hla'
  rw [h' pd' la' hla']
  split
  · rfl
  · rename_i hne
    rw [h pd' la' hla', if_neg hne]

theorem EntrySet.of_entry_eq {m₀ m m' : Mem M} {pd la v : ℕ} (h : EntrySet m m' pd la v)
    (heq : ∀ pd la, m.entry pd la = m₀.entry pd la) : EntrySet m₀ m' pd la v := by
  intro pd' la' hla'
  rw [h pd' la' hla', heq]

theorem entrySet_setEntry {m : Mem M} {pd la : ℕ} (ht : m.HasTable pd la) (hla : la < userTop)
    (v : ℕ) : EntrySet m (m.setEntry pd la v) pd la v :=
  fun pd' la' hla' => entry_setEntry ht hla v pd' la' hla'

theorem tableAt_congr {m m' : Mem M} (h : m'.pgdir = m.pgdir) (t : TablePos) :
    m'.tableAt t = m.tableAt t := by
  cases t <;> simp only [tableAt, h]

/-- A directory is replaced by one with the same tables. -/
theorem tableAt_setPgdir {m : Mem M} {pd : ℕ} {d d' : Pgdir} (hd : m.pgdir pd = some d)
    (hm : ∀ i, d'.middlePage i = d.middlePage i)
    (hl : ∀ i j, d'.lastPage i j = d.lastPage i j) (t : TablePos) :
    (m.setPgdir pd d').tableAt t = m.tableAt t := by
  cases t with
  | root pd' =>
    by_cases h : pd' = pd
    · simp [tableAt, setPgdir, h, hd]
    · simp [tableAt, setPgdir, h]
  | middle pd' i =>
    by_cases h : pd' = pd
    · simp [tableAt, setPgdir, h, hd, hm]
    · simp [tableAt, setPgdir, h]
  | last pd' i j =>
    by_cases h : pd' = pd
    · simp [tableAt, setPgdir, h, hd, hl]
    · simp [tableAt, setPgdir, h]

theorem hasTable_setEntry {m : Mem M} {pd la : ℕ} (ht : m.HasTable pd la) (v : ℕ) :
    (m.setEntry pd la v).HasTable pd la := by
  obtain ⟨d, hd, t, ht⟩ := ht
  unfold Pgdir.table at ht
  rw [Option.bind_eq_some_iff] at ht
  obtain ⟨dir, hdir, ht⟩ := ht
  refine ⟨d.setEntry la v, by simp [setEntry, hd, setPgdir],
    { t with pte := Function.update t.pte (ptx la) v }, ?_⟩
  simp [Pgdir.setEntry, Pgdir.setPde0, hdir, Pgdir.setPde1, Pgdir.table, ht]

theorem tableAt_setEntry (m : Mem M) (pd la v : ℕ) (t : TablePos) :
    (m.setEntry pd la v).tableAt t = m.tableAt t := by
  unfold setEntry
  cases hd : m.pgdir pd with
  | none => rfl
  | some d =>
    obtain ⟨hm, hl⟩ := Pgdir.pages_setEntry d la v
    exact tableAt_setPgdir hd hm hl t

/-- A table that is entered at position `t₀` appears there and nowhere else. -/
theorem tableAt_setPde1_new {m : Mem M} {pd la : ℕ} {d : Pgdir} (hd : m.pgdir pd = some d)
    (hnone : d.pde1 (pdx1 la) = none) (page : ℕ) (t : TablePos) :
    (m.setPgdir pd (d.setPde1 la ⟨page, fun _ => none⟩)).tableAt t =
      if t = .middle pd (pdx1 la) then some page else m.tableAt t := by
  cases t with
  | root pd' =>
    by_cases h : pd' = pd
    · simp [tableAt, setPgdir, h, hd]
    · simp [tableAt, setPgdir, h]
  | middle pd' i =>
    by_cases h : pd' = pd
    · subst h
      simp [tableAt, setPgdir, hd, Pgdir.middlePage_setPde1_new]
    · simp [tableAt, setPgdir, h]
  | last pd' i j =>
    by_cases h : pd' = pd
    · simp [tableAt, setPgdir, h, hd, Pgdir.lastPage_setPde1_new hnone]
    · simp [tableAt, setPgdir, h]

theorem tableAt_setPde0_new {m : Mem M} {pd la : ℕ} {d : Pgdir} {dir : PageDirectory}
    (hd : m.pgdir pd = some d) (hdir : d.pde1 (pdx1 la) = some dir) (tab : PageTable)
    (t : TablePos) :
    (m.setPgdir pd (d.setPde0 la tab)).tableAt t =
      if t = .last pd (pdx1 la) (pdx0 la) then some tab.page else m.tableAt t := by
  obtain ⟨hm, hl⟩ := Pgdir.pages_setPde0 hdir tab
  cases t with
  | root pd' =>
    by_cases h : pd' = pd
    · simp [tableAt, setPgdir, h, hd]
    · simp [tableAt, setPgdir, h]
  | middle pd' i =>
    by_cases h : pd' = pd
    · simp [tableAt, setPgdir, h, hd, hm]
    · simp [tableAt, setPgdir, h]
  | last pd' i j =>
    by_cases h : pd' = pd
    · subst h
      simp [tableAt, setPgdir, hd, hl]
    · simp [tableAt, setPgdir, h]

end Mem
end Ucore.Vm
