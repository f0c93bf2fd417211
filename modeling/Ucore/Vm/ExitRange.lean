import Ucore.Vm.RangeOps

/-!
`exit_range` of `pmm.c` frees the tables of an address range, and `put_pgdir` the
directory itself. They run after all pages were unmapped; a table that is cut off
may leave tables below it behind, but no mapping.
-/
namespace Ucore.Vm

open Library

/-- No entry of the table is valid. -/
def PageTable.allInvalid (t : PageTable) : Bool :=
  (List.range 512).all (fun i => !hasFlag (t.pte i) pteV)

namespace Pgdir

/-- `pd0[PDX0(la)] = 0` -/
def clearPde0 (d : Pgdir) (la : ℕ) : Pgdir :=
  match d.pde1 (pdx1 la) with
  | none => d
  | some dir =>
    d.setPde1 la { dir with pde0 := Function.update dir.pde0 (pdx0 la) none }

/-- `pgdir[PDX1(la)] = 0` -/
def clearPde1 (d : Pgdir) (la : ℕ) : Pgdir := ⟨Function.update d.pde1 (pdx1 la) none⟩

theorem entry_clearPde0 (d : Pgdir) (la la' : ℕ) :
    (d.clearPde0 la).entry la' = 0 ∨ (d.clearPde0 la).entry la' = d.entry la' := by
  unfold clearPde0
  cases hd : d.pde1 (pdx1 la) with
  | none => exact Or.inr rfl
  | some dir =>
    unfold entry table setPde1
    by_cases h : pdx1 la' = pdx1 la
    · by_cases h0 : pdx0 la' = pdx0 la
      · left
        simp [h, h0]
      · right
        simp [h, hd, Function.update_of_ne h0]
    · right
      simp [h]

theorem entry_clearPde1 (d : Pgdir) (la la' : ℕ) :
    (d.clearPde1 la).entry la' = 0 ∨ (d.clearPde1 la).entry la' = d.entry la' := by
  unfold entry table clearPde1
  by_cases h : pdx1 la' = pdx1 la
  · left
    simp [h]
  · right
    simp [h]

theorem pages_clearPde0 (d : Pgdir) (la : ℕ) :
    (∀ i, (d.clearPde0 la).middlePage i = d.middlePage i) ∧
      ∀ i j q, (d.clearPde0 la).lastPage i j = some q →
        d.lastPage i j = some q ∧ ¬ (i = pdx1 la ∧ j = pdx0 la) := by
  unfold clearPde0
  cases hd : d.pde1 (pdx1 la) with
  | none =>
    refine ⟨fun _ => rfl, fun i j q hq => ⟨hq, ?_⟩⟩
    rintro ⟨rfl, -⟩
    simp [lastPage, hd] at hq
  | some dir =>
    unfold middlePage lastPage setPde1
    constructor
    · intro i
      by_cases h : i = pdx1 la
      · simp [h, hd]
      · simp [h]
    · intro i j q hq
      by_cases h : i = pdx1 la
      · by_cases hj : j = pdx0 la
        · simp [h, hj] at hq
        · simp only [h, Function.update_self, Option.bind_some, Function.update_of_ne hj] at hq
          simp only [h, hd, Option.bind_some]
          exact ⟨hq, fun hbad => hj hbad.2⟩
      · simp only [Function.update_of_ne h] at hq
        exact ⟨hq, fun hbad => h hbad.1⟩

theorem pages_clearPde1 (d : Pgdir) (la : ℕ) :
    (∀ i q, (d.clearPde1 la).middlePage i = some q → d.middlePage i = some q ∧ i ≠ pdx1 la) ∧
      ∀ i j q, (d.clearPde1 la).lastPage i j = some q → d.lastPage i j = some q := by
  unfold middlePage lastPage clearPde1
  constructor
  · intro i q hq
    by_cases h : i = pdx1 la
    · simp [h] at hq
    · simp only [Function.update_of_ne h] at hq
      exact ⟨hq, h⟩
  · intro i j q hq
    by_cases h : i = pdx1 la
    · simp [h] at hq
    · simp only [Function.update_of_ne h] at hq
      exact hq

end Pgdir

namespace Mem

variable {M : PmmManager} {K F : Set ℕ} {m m' : Mem M}

/-- The body of the inner loop of `exit_range`; the result is false if there is no
table, which keeps the middle-level table from being freed. -/
def exitPde0 (m : Mem M) (pd la : ℕ) : Option (Bool × Mem M) := do
  let d ← m.pgdir pd
  match d.table la with
  | none => some (false, m)
  | some t =>
    if t.allInvalid then some (true, (m.freePage t.page).setPgdir pd (d.clearPde0 la))
    else some (true, m)

/-- The inner loop, over the last-level tables below `d1start`. -/
def exitPde0Loop (m : Mem M) (pd d1start d0start stop : ℕ) (freePd0 : Bool) :
    Option (Bool × Mem M) :=
  match m.exitPde0 pd d0start with
  | none => none
  | some (valid, m') =>
    let next := d0start + ptSize
    if next ≠ 0 ∧ next < d1start + pdSize ∧ next < stop then
      exitPde0Loop m' pd d1start next stop (freePd0 && valid)
    else some (freePd0 && valid, m')
termination_by stop - d0start
decreasing_by
  have hp : 0 < ptSize := by unfold ptSize pgSize; omega
  omega

/-- The body of the outer loop. -/
def exitPde1 (m : Mem M) (pd d1start d0start stop : ℕ) : Option (Mem M) := do
  let d ← m.pgdir pd
  match d.pde1 (pdx1 d1start) with
  | none => some m
  | some dir =>
    let (freePd0, m) ← m.exitPde0Loop pd d1start d0start stop true
    if freePd0 then
      let d ← m.pgdir pd
      some ((m.freePage dir.page).setPgdir pd (d.clearPde1 d1start))
    else some m

def exitLoop (m : Mem M) (pd d1start d0start stop : ℕ) : Option (Mem M) :=
  match m.exitPde1 pd d1start d0start stop with
  | none => none
  | some m' =>
    let next := d1start + pdSize
    if next ≠ 0 ∧ next < stop then exitLoop m' pd next next stop else some m'
termination_by stop - d1start
decreasing_by
  have hp : 0 < pdSize := by unfold pdSize ptSize pgSize; omega
  omega

def exitRange (m : Mem M) (pd start stop : ℕ) : Option (Mem M) :=
  if start % pgSize = 0 ∧ stop % pgSize = 0 ∧ userAccess start stop then
    m.exitLoop pd (roundDown start pdSize) (roundDown start ptSize) stop
  else none

/-- `put_pgdir` frees the page of the directory, which is then gone. -/
def putPgdir (m : Mem M) (pd : ℕ) : Mem M :=
  { m.freePage pd with pgdir := Function.update m.pgdir pd none }

@[simp] theorem freePage_pgdir (m : Mem M) (p : ℕ) : (m.freePage p).pgdir = m.pgdir := rfl

/-- No user address of the directory is mapped. -/
def Blank (m : Mem M) (pd : ℕ) : Prop :=
  ∀ la, la < userTop → hasFlag (m.entry pd la) pteV = false

/-- A table page is given back together with everything below it; no mapping is lost. -/
theorem RefInv.dropTables (hi : RefInv ∅ F m) {p : ℕ} {t₀ : TablePos}
    (ht : m.tableAt t₀ = some p) (hpmm : m'.pmm = M.freePage m.pmm p)
    (href : m'.ref = Function.update m.ref p 0)
    (hslots : ∀ k ∈ slots M, m'.holds k = m.holds k ∧ (m'.Writable k → m.Writable k))
    (htab : ∀ t q, m'.tableAt t = some q → m.tableAt t = some q ∧ t ≠ t₀) : RefInv ∅ F m' := by
  obtain ⟨hnf, hlt, hcount⟩ := hi.table p ⟨t₀, ht⟩
  have hiff : ∀ q, m'.IsFree q ↔ m.IsFree q ∨ q = p := by
    intro q
    unfold IsFree
    rw [hpmm]
    exact M.free_iff _ _ hnf hlt q
  have hrq : ∀ q, q ≠ p → m'.ref q = m.ref q := by
    intro q hq
    rw [href]
    exact Function.update_of_ne hq _ _
  have hmap : ∀ q, m'.mapCount q = m.mapCount q := holders_congr (fun k hk => (hslots k hk).1)
  have hmapped : ∀ q, 0 < holders (slots M) m.holds q → q ≠ p := by
    rintro q hq rfl
    exact absurd hcount hq.ne'
  refine ⟨⟨?_, ?_, ?_⟩, ?_, ?_, ?_, ?_, fun q hq => absurd hq (Set.notMem_empty q)⟩
  · intro q hq
    have hq' : 0 < m'.mapCount q := hq
    rw [hmap] at hq'
    rw [hrq q (hmapped q hq')]
    exact (hi.counted.ref_eq q hq').trans (congrArg Nat.cast (hmap q).symm)
  · intro k hk hw q hq
    rw [(hslots k hk).1] at hq
    exact (hmap q).trans (hi.counted.alone k hk ((hslots k hk).2 hw) q hq)
  · intro q hq
    by_cases hqp : q = p
    · subst hqp
      exact ⟨(hmap q).trans hcount, by rw [href, Function.update_self]⟩
    · obtain ⟨hc, hr⟩ := hi.counted.unused q (((hiff q).mp hq).resolve_right hqp)
      exact ⟨(hmap q).trans hc, by rw [hrq q hqp, hr]⟩
  · intro k hk q hq
    exact hi.held_lt k hk q ((hslots k hk).1 ▸ hq)
  · intro q hq
    obtain ⟨hnfq, hltq, hcq, hrefq, htq⟩ := hi.fresh q hq
    have hqp : q ≠ p := by
      rintro rfl
      exact htq ⟨t₀, ht⟩
    refine ⟨fun hf => ((hiff q).mp hf).elim hnfq hqp, hltq, (hmap q).trans hcq,
      (hrq q hqp).trans hrefq, ?_⟩
    rintro ⟨t, htt⟩
    exact htq ⟨t, (htab t q htt).1⟩
  · rintro q ⟨t, htt⟩
    obtain ⟨hold, hne⟩ := htab t q htt
    obtain ⟨hnfq, hltq, hcq⟩ := hi.table q ⟨t, hold⟩
    refine ⟨fun hf => ?_, hltq, (hmap q).trans hcq⟩
    rcases (hiff q).mp hf with hf | rfl
    · exact hnfq hf
    · exact hne (hi.table_inj t t₀ q hold ht)
  · intro a b q ha hb
    exact hi.table_inj a b q (htab a q ha).1 (htab b q hb).1

/-- What giving back tables of a blank directory leaves: other directories, and bytes. -/
structure TablesFreed (F : Set ℕ) (m m' : Mem M) (pd : ℕ) : Prop where
  inv : RefInv ∅ F m'
  blank : m'.Blank pd
  other : ∀ pd', pd' ≠ pd → m'.pgdir pd' = m.pgdir pd'
  data : m'.data = m.data

theorem TablesFreed.refl {pd : ℕ} (hi : RefInv ∅ F m) (hb : m.Blank pd) :
    TablesFreed F m m pd := ⟨hi, hb, fun _ _ => rfl, rfl⟩

theorem TablesFreed.trans {m'' : Mem M} {pd : ℕ} (h : TablesFreed F m m' pd)
    (h' : TablesFreed F m' m'' pd) : TablesFreed F m m'' pd :=
  ⟨h'.inv, h'.blank, fun pd' hne => (h'.other pd' hne).trans (h.other pd' hne),
    h'.data.trans h.data⟩

theorem TablesFreed.view {pd pd' : ℕ} (h : TablesFreed F m m' pd) (hne : pd' ≠ pd) (la : ℕ) :
    m'.view pd' la = m.view pd' la := by
  unfold Mem.view entry
  rw [h.other pd' hne, h.data]

/-- Tables of a blank directory are cut off and one page is given back. -/
theorem RefInv.tablesFreed (hi : RefInv ∅ F m) (m' : Mem M) {pd p : ℕ} {t₀ : TablePos} (hb : m.Blank pd)
    (ht : m.tableAt t₀ = some p) (hpmm : m'.pmm = M.freePage m.pmm p)
    (href : m'.ref = Function.update m.ref p 0) (hdata : m'.data = m.data)
    (hother : ∀ pd', pd' ≠ pd → m'.pgdir pd' = m.pgdir pd')
    (hentry : ∀ la, m'.entry pd la = 0 ∨ m'.entry pd la = m.entry pd la)
    (htab : ∀ t q, m'.tableAt t = some q → m.tableAt t = some q ∧ t ≠ t₀) :
    TablesFreed F m m' pd := by
  have hb' : m'.Blank pd := by
    intro la hla
    rcases hentry la with h | h
    · rw [h]
      simp
    · rw [h]
      exact hb la hla
  refine ⟨hi.dropTables ht hpmm href ?_ htab, hb', hother, hdata⟩
  rintro ⟨a, b⟩ hk
  have htop := (lt_of_mem_slots hk).2
  by_cases ha : a = pd
  · subst ha
    have h1 := hb' (b * pgSize) htop
    have h2 := hb (b * pgSize) htop
    constructor
    · unfold holds slotEntry
      simp [h1, h2]
    · rintro ⟨hv, -⟩
      unfold slotEntry at hv
      rw [h1] at hv
      exact absurd hv (by simp)
  · have hsame : m'.slotEntry (a, b) = m.slotEntry (a, b) := by
      unfold slotEntry entry
      rw [hother a ha]
    refine ⟨holds_congr hsame, fun hw => ?_⟩
    unfold Writable at *
    rwa [hsame] at hw

theorem RefInv.exitPde0 (hi : RefInv ∅ F m) {pd la : ℕ} {valid : Bool} (hb : m.Blank pd)
    (h : m.exitPde0 pd la = some (valid, m')) :
    TablesFreed F m m' pd ∧ ∀ i, m'.tableAt (.middle pd i) = m.tableAt (.middle pd i) := by
  unfold Mem.exitPde0 at h
  rw [Option.bind_eq_bind, Option.bind_eq_some_iff] at h
  obtain ⟨d, hd, h⟩ := h
  split at h
  · obtain ⟨-, rfl⟩ := Prod.mk.inj (Option.some.inj h)
    exact ⟨TablesFreed.refl hi hb, fun _ => rfl⟩
  · rename_i t ht
    split at h
    · obtain ⟨-, rfl⟩ := Prod.mk.inj (Option.some.inj h)
      obtain ⟨hm, hl⟩ := Pgdir.pages_clearPde0 d la
      have hpos : m.tableAt (.last pd (pdx1 la) (pdx0 la)) = some t.page := by
        unfold Pgdir.table at ht
        rw [Option.bind_eq_some_iff] at ht
        obtain ⟨dir, hdir, ht⟩ := ht
        simp [tableAt, hd, Pgdir.lastPage, hdir, ht]
      constructor
      · refine hi.tablesFreed ((m.freePage t.page).setPgdir pd (d.clearPde0 la)) hb hpos
          rfl rfl rfl ?_ ?_ ?_
        · exact fun pd' hne => Function.update_of_ne hne _ _
        · intro la'
          rw [entry_setPgdir, if_pos rfl, entry_of_pgdir hd]
          exact d.entry_clearPde0 la la'
        · intro t' q hq
          cases t' with
          | root pd' =>
            by_cases hpd : pd' = pd
            · simpa [tableAt, setPgdir, hpd, hd] using hq
            · simpa [tableAt, setPgdir, hpd] using hq
          | middle pd' i =>
            by_cases hpd : pd' = pd
            · simpa [tableAt, setPgdir, hpd, hd, hm] using hq
            · simpa [tableAt, setPgdir, hpd] using hq
          | last pd' i j =>
            by_cases hpd : pd' = pd
            · simp only [tableAt, setPgdir, hpd, Function.update_self, Option.bind_some] at hq
              obtain ⟨hq', hne⟩ := hl i j q hq
              simp only [tableAt, hpd, hd, Option.bind_some, ne_eq, TablePos.last.injEq, true_and]
              exact ⟨hq', hne⟩
            · simpa [tableAt, setPgdir, hpd] using hq
      · intro i
        simp [tableAt, setPgdir, hd, hm]
    · obtain ⟨-, rfl⟩ := Prod.mk.inj (Option.some.inj h)
      exact ⟨TablesFreed.refl hi hb, fun _ => rfl⟩

theorem RefInv.exitPde0Loop (hi : RefInv ∅ F m) {pd d1start d0start stop : ℕ}
    {freePd0 free : Bool} (hb : m.Blank pd)
    (h : m.exitPde0Loop pd d1start d0start stop freePd0 = some (free, m')) :
    TablesFreed F m m' pd ∧ ∀ i, m'.tableAt (.middle pd i) = m.tableAt (.middle pd i) := by
  fun_induction Mem.exitPde0Loop m pd d1start d0start stop freePd0 with
  | case1 => exact absurd h (by simp)
  | case2 m d0start freePd0 valid m₁ hs next hcond ih =>
    obtain ⟨h₁, hm₁⟩ := hi.exitPde0 hb hs
    obtain ⟨h₂, hm₂⟩ := ih h₁.inv h₁.blank h
    exact ⟨h₁.trans h₂, fun i => (hm₂ i).trans (hm₁ i)⟩
  | case3 m d0start freePd0 valid m₁ hs next hcond =>
    obtain ⟨-, rfl⟩ := Prod.mk.inj (Option.some.inj h)
    exact hi.exitPde0 hb hs

/-- A middle-level table of a blank directory is given back. -/
theorem RefInv.freePde1 (hi : RefInv ∅ F m) {pd la p : ℕ} {d : Pgdir} (hb : m.Blank pd)
    (hd : m.pgdir pd = some d) (hpos : m.tableAt (.middle pd (pdx1 la)) = some p) :
    TablesFreed F m ((m.freePage p).setPgdir pd (d.clearPde1 la)) pd := by
  obtain ⟨hm, hl⟩ := Pgdir.pages_clearPde1 d la
  refine hi.tablesFreed ((m.freePage p).setPgdir pd (d.clearPde1 la)) hb hpos rfl rfl rfl ?_ ?_ ?_
  · exact fun pd' hne => Function.update_of_ne hne _ _
  · intro la'
    rw [entry_setPgdir, if_pos rfl, entry_of_pgdir hd]
    exact d.entry_clearPde1 la la'
  · intro t' q hq
    cases t' with
    | root pd' =>
      by_cases hpd : pd' = pd
      · simpa [tableAt, setPgdir, hpd, hd] using hq
      · simpa [tableAt, setPgdir, hpd] using hq
    | middle pd' i =>
      by_cases hpd : pd' = pd
      · simp only [tableAt, setPgdir, hpd, Function.update_self, Option.bind_some] at hq
        obtain ⟨hq', hne⟩ := hm i q hq
        simp only [tableAt, hpd, hd, Option.bind_some, ne_eq, TablePos.middle.injEq, true_and]
        exact ⟨hq', hne⟩
      · simpa [tableAt, setPgdir, hpd] using hq
    | last pd' i j =>
      by_cases hpd : pd' = pd
      · simp only [tableAt, setPgdir, hpd, Function.update_self, Option.bind_some] at hq
        simpa [tableAt, hpd, hd] using hl i j q hq
      · simpa [tableAt, setPgdir, hpd] using hq

theorem RefInv.exitPde1 (hi : RefInv ∅ F m) {pd d1start d0start stop : ℕ} (hb : m.Blank pd)
    (h : m.exitPde1 pd d1start d0start stop = some m') : TablesFreed F m m' pd := by
  unfold Mem.exitPde1 at h
  rw [Option.bind_eq_bind, Option.bind_eq_some_iff] at h
  obtain ⟨d, hd, h⟩ := h
  split at h
  · exact Option.some.inj h ▸ TablesFreed.refl hi hb
  · rename_i dir hdir
    rw [Option.bind_eq_bind, Option.bind_eq_some_iff] at h
    obtain ⟨⟨free, m₁⟩, h₁, h⟩ := h
    obtain ⟨hf₁, hm₁⟩ := hi.exitPde0Loop hb h₁
    simp only at h
    split at h
    · rw [Option.bind_eq_some_iff] at h
      obtain ⟨d₁, hd₁, h⟩ := h
      obtain rfl := Option.some.inj h
      have hpos : m₁.tableAt (.middle pd (pdx1 d1start)) = some dir.page := by
        rw [hm₁]
        simp [tableAt, hd, Pgdir.middlePage, hdir]
      exact hf₁.trans (hf₁.inv.freePde1 hf₁.blank hd₁ hpos)
    · exact Option.some.inj h ▸ hf₁

theorem RefInv.exitLoop (hi : RefInv ∅ F m) {pd d1start d0start stop : ℕ} (hb : m.Blank pd)
    (h : m.exitLoop pd d1start d0start stop = some m') : TablesFreed F m m' pd := by
  fun_induction Mem.exitLoop m pd d1start d0start stop with
  | case1 => exact absurd h (by simp)
  | case2 m d1start d0start m₁ hs next hcond ih =>
    have h₁ := hi.exitPde1 hb hs
    exact h₁.trans (ih h₁.inv h₁.blank h)
  | case3 m d1start d0start m₁ hs next hcond =>
    exact Option.some.inj h ▸ hi.exitPde1 hb hs

theorem RefInv.exitRange (hi : RefInv ∅ F m) {pd start stop : ℕ} (hb : m.Blank pd)
    (h : m.exitRange pd start stop = some m') : TablesFreed F m m' pd := by
  unfold Mem.exitRange at h
  split at h
  · exact hi.exitLoop hb h
  · exact absurd h (by simp)

/-- The page of a blank directory goes back to the allocator. -/
theorem RefInv.putPgdir (hi : RefInv ∅ F m) {pd : ℕ} (hb : m.Blank pd)
    (hsome : (m.pgdir pd).isSome) : TablesFreed F m (m.putPgdir pd) pd := by
  obtain ⟨d, hd⟩ := Option.isSome_iff_exists.mp hsome
  have hpos : m.tableAt (.root pd) = some pd := by simp [tableAt, hd]
  refine hi.tablesFreed (m.putPgdir pd) hb hpos rfl rfl rfl ?_ ?_ ?_
  · exact fun pd' hne => Function.update_of_ne hne _ _
  · intro la
    left
    simp [entry, Mem.putPgdir]
  · intro t q hq
    cases t with
    | root pd' =>
      by_cases hpd : pd' = pd
      · simp [tableAt, Mem.putPgdir, hpd] at hq
      · simpa [tableAt, Mem.putPgdir, hpd] using hq
    | middle pd' i =>
      by_cases hpd : pd' = pd
      · simp [tableAt, Mem.putPgdir, hpd] at hq
      · simpa [tableAt, Mem.putPgdir, hpd] using hq
    | last pd' i j =>
      by_cases hpd : pd' = pd
      · simp [tableAt, Mem.putPgdir, hpd] at hq
      · simpa [tableAt, Mem.putPgdir, hpd] using hq

end Mem
end Ucore.Vm
