import Ucore.Library.Sweep
import Ucore.Vm.Fork

/-!
Which table pages `exit_range` gives back. The manager keeps a log of the pages it
gets; in the directory of an address space without mappings a scan frees the last-level
tables of its range, and the middle-level table when every entry it met was present.
-/
namespace Ucore.Vm

open Library

/-- The same manager with a log of the pages that were given back. -/
def PmmManager.recording (M : PmmManager) : PmmManager where
  State := M.State × List ℕ
  npage := M.npage
  allocPage s := (M.allocPage s.1).map (fun r => (r.1, (r.2, s.2)))
  freePage s p := (M.freePage s.1 p, s.2 ++ [p])
  IsFree s p := M.IsFree s.1 p
  lt_npage s p h := M.lt_npage s.1 p h
  alloc_isFree s p s' h := by
    obtain ⟨⟨q, t⟩, ht, heq⟩ := Option.map_eq_some_iff.mp h
    obtain ⟨rfl, rfl⟩ := Prod.mk.inj heq
    exact M.alloc_isFree _ _ _ ht
  alloc_iff s p s' h := by
    obtain ⟨⟨q, t⟩, ht, heq⟩ := Option.map_eq_some_iff.mp h
    obtain ⟨rfl, rfl⟩ := Prod.mk.inj heq
    exact M.alloc_iff _ _ _ ht
  free_iff s p hp hlt := M.free_iff s.1 p hp hlt

namespace Pgdir

theorem lastPage_clearPde0 (d : Pgdir) (la i j : ℕ) :
    (d.clearPde0 la).lastPage i j =
      if i = pdx1 la ∧ j = pdx0 la then none else d.lastPage i j := by
  unfold clearPde0
  cases hd : d.pde1 (pdx1 la) with
  | none =>
    by_cases h : i = pdx1 la ∧ j = pdx0 la
    · simp [lastPage, h.1, hd]
    · rw [if_neg h]
  | some dir =>
    unfold lastPage setPde1
    by_cases h : i = pdx1 la
    · by_cases hj : j = pdx0 la
      · simp [h, hj]
      · simp [h, hj, hd]
    · simp [h]

theorem pages_clearPde1_eq (d : Pgdir) (la i j : ℕ) :
    (d.clearPde1 la).middlePage i = (if i = pdx1 la then none else d.middlePage i) ∧
      (d.clearPde1 la).lastPage i j = if i = pdx1 la then none else d.lastPage i j := by
  unfold clearPde1 middlePage lastPage
  by_cases h : i = pdx1 la
  · simp [h]
  · simp [h]

end Pgdir

/-- The 2 MB slots of a 1 GB chunk that hold an address of the set. -/
def slotsOf (A : Set ℕ) (i : ℕ) : Set ℕ := {j | ∃ a ∈ A, pdx1 a = i ∧ pdx0 a = j}

theorem slotsOf_union (A B : Set ℕ) (i : ℕ) : slotsOf (A ∪ B) i = slotsOf A i ∪ slotsOf B i := by
  ext j
  simp only [slotsOf, Set.mem_ofPred_eq, Set.mem_union]
  constructor
  · rintro ⟨a, ha | ha, h⟩
    · exact Or.inl ⟨a, ha, h⟩
    · exact Or.inr ⟨a, ha, h⟩
  · rintro (⟨a, ha, h⟩ | ⟨a, ha, h⟩)
    · exact ⟨a, Or.inl ha, h⟩
    · exact ⟨a, Or.inr ha, h⟩

namespace Mem

variable {M : PmmManager} {F : Set ℕ}

/-- The pages given back so far, in order. -/
def freed (m : Mem M.recording) : List ℕ := m.pmm.2

/-- The slots of a chunk that have a table. -/
def tablesOf (m : Mem M) (pd i : ℕ) : Set ℕ := {j | (m.tableAt (.last pd i j)).isSome}

def HasDir (m : Mem M) (pd i : ℕ) : Prop := (m.tableAt (.middle pd i)).isSome

/-- Below a missing middle-level table there are no tables. -/
theorem hasDir_of_tablesOf {m : Mem M} {pd i j : ℕ} (h : j ∈ m.tablesOf pd i) : m.HasDir pd i := by
  have hj : (m.tableAt (.last pd i j)).isSome := h
  unfold HasDir
  cases hd : m.pgdir pd with
  | none => simp [tableAt, hd] at hj
  | some d =>
    cases hdir : d.pde1 i with
    | none => simp [tableAt, hd, Pgdir.lastPage, hdir] at hj
    | some dir => simp [tableAt, hd, Pgdir.middlePage, hdir]

theorem tablesOf_of_table {m : Mem M} {pd la : ℕ} {d : Pgdir} (hd : m.pgdir pd = some d) :
    pdx0 la ∈ m.tablesOf pd (pdx1 la) ↔ (d.table la).isSome := by
  have hlast : (m.tableAt (.last pd (pdx1 la) (pdx0 la))).isSome = (d.table la).isSome := by
    simp only [tableAt, hd, Option.bind_some, Pgdir.lastPage, Pgdir.table]
    cases d.pde1 (pdx1 la) with
    | none => rfl
    | some dir => simp
  unfold tablesOf
  rw [Set.mem_ofPred_eq, hlast]

/-- The page of the table at a position. -/
def pageAt (m : Mem M) (t : TablePos) : ℕ := (m.tableAt t).getD 0

theorem pageAt_of_eq {m : Mem M} {t : TablePos} {q : ℕ} (h : m.tableAt t = some q) :
    m.pageAt t = q := by
  unfold pageAt
  rw [h]
  rfl

variable {m m' m'' : Mem M.recording} {pd : ℕ} {ps ps' : List TablePos} {A B : Set ℕ}

/-- Table pages of a blank directory were given back, those at the positions `ps`; a
middle-level table after the tables below it. -/
structure Cut (F : Set ℕ) (m m' : Mem M.recording) (pd : ℕ) (ps : List TablePos) : Prop where
  rest : TablesFreed F m m' pd
  freed : m'.freed = m.freed ++ ps.map m.pageAt
  present : ∀ t ∈ ps, (m.tableAt t).isSome
  nodup : ps.Nodup
  gone : ∀ t q, m'.tableAt t = some q → m.tableAt t = some q ∧ t ∉ ps
  orphan : ∀ i, .middle pd i ∈ ps → m'.tablesOf pd i = ∅
  ordered : ∀ i j, ps.Pairwise (fun a b => ¬ (a = .middle pd i ∧ b = .last pd i j))
  ref : ∀ q, (∀ t ∈ ps, m.pageAt t ≠ q) → m'.ref q = m.ref q

theorem Cut.refl (hi : RefInv ∅ F m) (hb : m.Blank pd) : Cut F m m pd [] where
  rest := TablesFreed.refl hi hb
  freed := by simp
  present _ h := by simp at h
  nodup := List.nodup_nil
  gone _ _ h := ⟨h, by simp⟩
  orphan _ h := by simp at h
  ordered _ _ := List.Pairwise.nil
  ref _ _ := rfl

theorem Cut.of_isSome (h : Cut F m m' pd ps) {t : TablePos} (ht : (m'.tableAt t).isSome) :
    (m.tableAt t).isSome ∧ t ∉ ps ∧ m'.pageAt t = m.pageAt t := by
  obtain ⟨q, hq⟩ := Option.isSome_iff_exists.mp ht
  obtain ⟨hold, hnot⟩ := h.gone t q hq
  exact ⟨Option.isSome_iff_exists.mpr ⟨q, hold⟩, hnot,
    (pageAt_of_eq hq).trans (pageAt_of_eq hold).symm⟩

theorem Cut.trans (h : Cut F m m' pd ps) (h' : Cut F m' m'' pd ps') :
    Cut F m m'' pd (ps ++ ps') where
  rest := h.rest.trans h'.rest
  freed := by
    rw [h'.freed, h.freed, List.map_append, List.append_assoc]
    congr 2
    apply List.map_congr_left
    intro t ht
    exact (h.of_isSome (h'.present t ht)).2.2
  present t ht := by
    rcases List.mem_append.mp ht with ht | ht
    · exact h.present t ht
    · exact (h.of_isSome (h'.present t ht)).1
  nodup := by
    refine List.nodup_append.mpr ⟨h.nodup, h'.nodup, ?_⟩
    intro t ht t' ht' heq
    exact (h.of_isSome (h'.present t' ht')).2.1 (heq ▸ ht)
  gone t q ht := by
    obtain ⟨h₁, hnot'⟩ := h'.gone t q ht
    obtain ⟨h₀, hnot⟩ := h.gone t q h₁
    exact ⟨h₀, fun hmem => (List.mem_append.mp hmem).elim hnot hnot'⟩
  orphan i hi := by
    rcases List.mem_append.mp hi with hi | hi
    · apply Set.eq_empty_of_forall_notMem
      intro j hj
      have hj' : j ∈ m'.tablesOf pd i := (h'.of_isSome hj).1
      rw [h.orphan i hi] at hj'
      exact hj'
    · exact h'.orphan i hi
  ordered i j := by
    refine List.pairwise_append.mpr ⟨h.ordered i j, h'.ordered i j, ?_⟩
    rintro a ha b hb ⟨rfl, rfl⟩
    have hj : j ∈ m'.tablesOf pd i := h'.present _ hb
    rw [h.orphan i ha] at hj
    exact hj
  ref q hq := by
    rw [h'.ref q, h.ref q]
    · intro t ht
      exact hq t (List.mem_append_left _ ht)
    · intro t ht
      rw [(h.of_isSome (h'.present t ht)).2.2]
      exact hq t (List.mem_append_right _ ht)

/-- The inner loop of a scan: the last-level tables at the addresses `A` are gone. -/
structure Struck (F : Set ℕ) (m m' : Mem M.recording) (pd : ℕ) (A : Set ℕ)
    (ps : List TablePos) : Prop extends Cut F m m' pd ps where
  child : ∀ t, t ∈ ps ↔ ∃ i j, t = .last pd i j ∧ j ∈ m.tablesOf pd i ∧ j ∈ slotsOf A i
  middle : ∀ i, m'.tableAt (.middle pd i) = m.tableAt (.middle pd i)
  left : ∀ i, m'.tablesOf pd i = m.tablesOf pd i \ slotsOf A i

theorem Struck.trans (h : Struck F m m' pd A ps) (h' : Struck F m' m'' pd B ps') :
    Struck F m m'' pd (A ∪ B) (ps ++ ps') where
  toCut := h.toCut.trans h'.toCut
  child t := by
    rw [List.mem_append, h.child, h'.child]
    constructor
    · rintro (⟨i, j, rfl, hj, hA⟩ | ⟨i, j, rfl, hj, hB⟩)
      · exact ⟨i, j, rfl, hj, by rw [slotsOf_union]; exact Or.inl hA⟩
      · rw [h.left] at hj
        exact ⟨i, j, rfl, hj.1, by rw [slotsOf_union]; exact Or.inr hB⟩
    · rintro ⟨i, j, rfl, hj, hAB⟩
      rw [slotsOf_union] at hAB
      by_cases hA : j ∈ slotsOf A i
      · exact Or.inl ⟨i, j, rfl, hj, hA⟩
      · refine Or.inr ⟨i, j, rfl, ?_, hAB.resolve_left hA⟩
        rw [h.left]
        exact ⟨hj, hA⟩
  middle i := (h'.middle i).trans (h.middle i)
  left i := by
    rw [h'.left, h.left, slotsOf_union, Set.sdiff_sdiff]

/-- A whole scan: where it met a table in every slot, the middle-level table is gone too,
and with it every table below. -/
structure Scanned (F : Set ℕ) (m m' : Mem M.recording) (pd : ℕ) (A : Set ℕ)
    (ps : List TablePos) : Prop extends Cut F m m' pd ps where
  node : ∀ i, .middle pd i ∈ ps ↔ FullScan (m.tablesOf pd i) (slotsOf A i)
  child : ∀ i j, .last pd i j ∈ ps ↔ j ∈ m.tablesOf pd i ∧ j ∈ slotsOf A i
  below : ∀ t ∈ ps, (∃ i, t = .middle pd i) ∨ ∃ i j, t = .last pd i j
  left : ∀ i j, j ∈ m'.tablesOf pd i ↔ j ∈ m.tablesOf pd i \ slotsOf A i ∧
    ¬ FullScan (m.tablesOf pd i) (slotsOf A i)

/-- Scans of address sets that meet no chunk in common. -/
theorem Scanned.trans (h : Scanned F m m' pd A ps) (h' : Scanned F m' m'' pd B ps')
    (hdisj : ∀ i, slotsOf A i = ∅ ∨ slotsOf B i = ∅) :
    Scanned F m m'' pd (A ∪ B) (ps ++ ps') := by
  have hA : ∀ i, slotsOf A i = ∅ → m'.tablesOf pd i = m.tablesOf pd i := by
    intro i hA
    ext j
    rw [h.left, hA, Set.sdiff_empty]
    exact ⟨fun hj => hj.1, fun hj => ⟨hj, not_fullScan_empty⟩⟩
  refine ⟨h.toCut.trans h'.toCut, ?_, ?_, ?_, ?_⟩
  · intro i
    rw [List.mem_append, h.node, h'.node, slotsOf_union]
    rcases hdisj i with hi | hi
    · rw [hA i hi, hi, Set.empty_union]
      simp [not_fullScan_empty]
    · rw [hi, Set.union_empty]
      simp [not_fullScan_empty]
  · intro i j
    rw [List.mem_append, h.child, h'.child, slotsOf_union]
    rcases hdisj i with hi | hi
    · rw [hA i hi, hi, Set.empty_union]
      simp
    · rw [hi, Set.union_empty]
      simp
  · intro t ht
    rcases List.mem_append.mp ht with ht | ht
    · exact h.below t ht
    · exact h'.below t ht
  · intro i j
    rw [h'.left, slotsOf_union]
    rcases hdisj i with hi | hi
    · rw [hA i hi, hi, Set.empty_union]
    · rw [hi, Set.union_empty, Set.sdiff_empty, h.left]
      exact ⟨fun hj => hj.1, fun hj => ⟨hj, not_fullScan_empty⟩⟩

theorem mem_slotsOf_singleton {la i j : ℕ} :
    j ∈ slotsOf {la} i ↔ i = pdx1 la ∧ j = pdx0 la := by
  unfold slotsOf
  simp only [Set.mem_singleton_iff, exists_eq_left, Set.mem_ofPred_eq]
  exact ⟨fun h => ⟨h.1.symm, h.2.symm⟩, fun h => ⟨h.1.symm, h.2.symm⟩⟩

theorem tableAt_clearPde0 {m : Mem M} {d : Pgdir} (hd : m.pgdir pd = some d) (la : ℕ)
    (t : TablePos) : (m.setPgdir pd (d.clearPde0 la)).tableAt t =
      if t = .last pd (pdx1 la) (pdx0 la) then none else m.tableAt t := by
  cases t with
  | root pd' =>
    by_cases h : pd' = pd
    · simp [tableAt, setPgdir, h, hd]
    · simp [tableAt, setPgdir, h]
  | middle pd' i =>
    by_cases h : pd' = pd
    · simp [tableAt, setPgdir, h, hd, (d.pages_clearPde0 la).1]
    · simp [tableAt, setPgdir, h]
  | last pd' i j =>
    by_cases h : pd' = pd
    · simp [tableAt, setPgdir, h, hd, Pgdir.lastPage_clearPde0]
    · simp [tableAt, setPgdir, h]

theorem tableAt_clearPde1 {m : Mem M} {d : Pgdir} (hd : m.pgdir pd = some d) (la : ℕ) :
    (∀ pd', (m.setPgdir pd (d.clearPde1 la)).tableAt (.root pd') = m.tableAt (.root pd')) ∧
    (∀ pd' i, (m.setPgdir pd (d.clearPde1 la)).tableAt (.middle pd' i) =
      if pd' = pd ∧ i = pdx1 la then none else m.tableAt (.middle pd' i)) ∧
    ∀ pd' i j, (m.setPgdir pd (d.clearPde1 la)).tableAt (.last pd' i j) =
      if pd' = pd ∧ i = pdx1 la then none else m.tableAt (.last pd' i j) := by
  refine ⟨?_, ?_, ?_⟩
  · intro pd'
    by_cases h : pd' = pd
    · simp [tableAt, setPgdir, h, hd]
    · simp [tableAt, setPgdir, h]
  · intro pd' i
    by_cases h : pd' = pd
    · simp [tableAt, setPgdir, h, hd, (d.pages_clearPde1_eq la i 0).1]
    · simp [tableAt, setPgdir, h]
  · intro pd' i j
    by_cases h : pd' = pd
    · simp [tableAt, setPgdir, h, hd, (d.pages_clearPde1_eq la i j).2]
    · simp [tableAt, setPgdir, h]

/-- In a blank directory no table of a user address has a valid entry. -/
theorem allInvalid_of_blank {m : Mem M} {d : Pgdir} {t : PageTable} {la : ℕ}
    (hd : m.pgdir pd = some d) (hb : m.Blank pd) (hla : la < userTop)
    (ht : d.table la = some t) : t.allInvalid = true := by
  unfold PageTable.allInvalid
  rw [List.all_eq_true]
  intro k hk
  rw [List.mem_range] at hk
  -- the address of entry `k` in the slot of `la`
  obtain ⟨a, ha⟩ : ∃ a, a = la / 2097152 * 2097152 + k * 4096 := ⟨_, rfl⟩
  have htop : a < userTop := by
    unfold userTop at *
    omega
  have h1 : pdx1 a = pdx1 la := by
    rw [pdx1_eq, pdx1_eq]
    omega
  have h0 : pdx0 a = pdx0 la := by
    rw [pdx0_eq, pdx0_eq]
    omega
  have hx : ptx a = k := by
    rw [ptx_eq]
    omega
  have hentry : m.entry pd a = t.pte k := by
    rw [entry_of_pgdir hd]
    unfold Pgdir.entry
    have htab : d.table a = some t := by
      unfold Pgdir.table at *
      rw [h1, h0]
      exact ht
    rw [htab, hx]
    rfl
  have hv := hb a htop
  rw [hentry] at hv
  rw [hv]
  rfl

/-- One turn of the inner loop. -/
theorem RefInv.exitPde0_struck (hi : RefInv ∅ F m) (hb : m.Blank pd) {la : ℕ}
    (hla : la < userTop) (hsome : (m.pgdir pd).isSome) :
    ∃ ok m' ps, m.exitPde0 pd la = some (ok, m') ∧ Struck F m m' pd {la} ps ∧
      (m'.pgdir pd).isSome ∧ (ok = true ↔ pdx0 la ∈ m.tablesOf pd (pdx1 la)) := by
  obtain ⟨d, hd⟩ := Option.isSome_iff_exists.mp hsome
  have hmem : pdx0 la ∈ m.tablesOf pd (pdx1 la) ↔ (d.table la).isSome := tablesOf_of_table hd
  cases ht : d.table la with
  | none =>
    have hnot : pdx0 la ∉ m.tablesOf pd (pdx1 la) := by
      rw [hmem, ht]
      simp
    refine ⟨false, m, [], ?_, ⟨Cut.refl hi hb, ?_, fun _ => rfl, ?_⟩, hsome, ?_⟩
    · simp only [Mem.exitPde0, hd, Option.bind_eq_bind, Option.bind_some, ht]
    · intro t
      simp only [List.not_mem_nil, false_iff]
      rintro ⟨i, j, -, hj, hs⟩
      obtain ⟨rfl, rfl⟩ := mem_slotsOf_singleton.mp hs
      exact hnot hj
    · intro i
      ext j
      constructor
      · intro hj
        refine ⟨hj, fun hs => ?_⟩
        obtain ⟨rfl, rfl⟩ := mem_slotsOf_singleton.mp hs
        exact hnot hj
      · intro hj
        exact hj.1
    · simp [hnot]
  | some t =>
    have hpos : m.tableAt (.last pd (pdx1 la) (pdx0 la)) = some t.page := by
      have ht' := ht
      unfold Pgdir.table at ht'
      rw [Option.bind_eq_some_iff] at ht'
      obtain ⟨dir, hdir, ht'⟩ := ht'
      simp [tableAt, hd, Pgdir.lastPage, hdir, ht']
    have hin : pdx0 la ∈ m.tablesOf pd (pdx1 la) := by
      rw [hmem, ht]
      rfl
    have heq : m.exitPde0 pd la =
        some (true, (m.freePage t.page).setPgdir pd (d.clearPde0 la)) := by
      simp only [Mem.exitPde0, hd, Option.bind_eq_bind, Option.bind_some, ht,
        allInvalid_of_blank hd hb hla ht, if_true]
    have hd' : (m.freePage t.page).pgdir pd = some d := hd
    have htab := tableAt_clearPde0 hd' la
    have hleft : ∀ i, ((m.freePage t.page).setPgdir pd (d.clearPde0 la)).tablesOf pd i =
        m.tablesOf pd i \ slotsOf {la} i := by
      intro i
      ext j
      unfold tablesOf
      rw [Set.mem_ofPred_eq, htab, Set.mem_sdiff, mem_slotsOf_singleton]
      by_cases hij : i = pdx1 la ∧ j = pdx0 la
      · simp [hij]
      · have hne : ¬ TablePos.last pd i j = .last pd (pdx1 la) (pdx0 la) := by
          intro hbad
          injection hbad with _ h1 h2
          exact hij ⟨h1, h2⟩
        rw [if_neg hne]
        exact ⟨fun h => ⟨h, hij⟩, fun h => h.1⟩
    refine ⟨true, _, [.last pd (pdx1 la) (pdx0 la)], heq, ⟨⟨?_, ?_, ?_, ?_, ?_, ?_, ?_, ?_⟩, ?_, ?_,
      hleft⟩, ?_, ?_⟩
    · exact (hi.exitPde0 hb heq).1
    · simp only [List.map_cons, List.map_nil, pageAt_of_eq hpos]
      rfl
    · intro t' ht'
      rw [List.mem_singleton.mp ht', hpos]
      rfl
    · exact List.nodup_singleton _
    · intro t' q hq
      rw [htab] at hq
      split at hq
      · exact absurd hq (by simp)
      · rename_i hne
        exact ⟨hq, fun hmem => hne (List.mem_singleton.mp hmem)⟩
    · intro i hmem
      simp at hmem
    · exact fun _ _ => List.pairwise_singleton _ _
    · intro q hq
      have hne : q ≠ t.page := by
        rintro rfl
        exact hq _ (List.mem_singleton_self _) (pageAt_of_eq hpos)
      exact Function.update_of_ne hne _ _
    · intro t'
      rw [List.mem_singleton]
      constructor
      · rintro rfl
        exact ⟨_, _, rfl, hin, mem_slotsOf_singleton.mpr ⟨rfl, rfl⟩⟩
      · rintro ⟨i, j, rfl, -, hs⟩
        obtain ⟨rfl, rfl⟩ := mem_slotsOf_singleton.mp hs
        rfl
    · intro i
      rw [htab, if_neg (by simp)]
      rfl
    · simp [setPgdir]
    · simp [hin]

theorem Struck.congr (h : Struck F m m' pd A ps) (heq : ∀ i, slotsOf A i = slotsOf B i) :
    Struck F m m' pd B ps where
  toCut := h.toCut
  child t := by
    rw [h.child]
    simp only [heq]
  middle := h.middle
  left i := by rw [h.left, heq]

theorem Scanned.congr (h : Scanned F m m' pd A ps) (heq : ∀ i, slotsOf A i = slotsOf B i) :
    Scanned F m m' pd B ps where
  toCut := h.toCut
  node i := by rw [h.node, heq]
  child i j := by rw [h.child, heq]
  below := h.below
  left i j := by rw [h.left, heq]

/-- The addresses from one slot on are those of the slot and those from the next one on. -/
theorem slotsOf_Ico_step {d0start lim : ℕ} (halign : d0start % ptSize = 0) (hlt : d0start < lim)
    (i : ℕ) : slotsOf (Set.Ico d0start lim) i =
      slotsOf {d0start} i ∪ slotsOf (Set.Ico (d0start + ptSize) lim) i := by
  rw [← slotsOf_union]
  unfold ptSize pgSize at *
  ext j
  constructor
  · rintro ⟨a, ⟨hle, ha⟩, h1, h0⟩
    by_cases hnear : a < d0start + 4096 * 512
    · refine ⟨d0start, Or.inl rfl, ?_, ?_⟩
      · rw [← h1, pdx1_eq, pdx1_eq]
        omega
      · rw [← h0, pdx0_eq, pdx0_eq]
        omega
    · exact ⟨a, Or.inr ⟨by omega, ha⟩, h1, h0⟩
  · rintro ⟨a, ha, h⟩
    rcases ha with rfl | ⟨hle, ha⟩
    · exact ⟨a, ⟨le_refl a, hlt⟩, h⟩
    · exact ⟨a, ⟨by omega, ha⟩, h⟩

/-- Later slots of a chunk are other slots. -/
theorem pdx0_notMem {d1start d0start lim : ℕ} (h1 : d1start % pdSize = 0)
    (h0 : d0start % ptSize = 0) (hle : d1start ≤ d0start) (hlim : lim ≤ d1start + pdSize) (i : ℕ) :
    pdx0 d0start ∉ slotsOf (Set.Ico (d0start + ptSize) lim) i := by
  unfold pdSize ptSize pgSize at *
  rintro ⟨a, ⟨ha, hlt⟩, -, heq⟩
  rw [pdx0_eq, pdx0_eq] at heq
  omega

theorem RefInv.exitPde0Loop_struck (hi : RefInv ∅ F m) (hb : m.Blank pd)
    (hsome : (m.pgdir pd).isSome) {d1start d0start stop : ℕ} {freePd0 free : Bool}
    (h1 : d1start % pdSize = 0) (h0 : d0start % ptSize = 0) (hle : d1start ≤ d0start)
    (hlt : d0start < d1start + pdSize) (hstop : d0start < stop) (htop : stop ≤ userTop)
    (h : m.exitPde0Loop pd d1start d0start stop freePd0 = some (free, m')) :
    ∃ ps, Struck F m m' pd (Set.Ico d0start (min (d1start + pdSize) stop)) ps ∧
      (m'.pgdir pd).isSome ∧ (free = true ↔ freePd0 = true ∧
        slotsOf (Set.Ico d0start (min (d1start + pdSize) stop)) (pdx1 d0start) ⊆
          m.tablesOf pd (pdx1 d0start)) := by
  have hlim : d0start < min (d1start + pdSize) stop := lt_min hlt hstop
  fun_induction Mem.exitPde0Loop m pd d1start d0start stop freePd0 with
  | case1 => exact absurd h (by simp)
  | case2 m d0start freePd0 valid m₁ hs next hcond ih =>
    obtain ⟨ok, m₂, ps, hex, hstr, hsome₁, hok⟩ := hi.exitPde0_struck hb (hstop.trans_le htop) hsome
    rw [hs] at hex
    obtain ⟨rfl, rfl⟩ := Prod.mk.inj (Option.some.inj hex)
    obtain ⟨hchunk, hal, hge⟩ : pdx1 next = pdx1 d0start ∧ next % ptSize = 0 ∧ d1start ≤ next := by
      have hnext := hcond.2.1
      rw [pdx1_eq, pdx1_eq]
      simp only [next] at *
      unfold pdSize ptSize pgSize at *
      omega
    obtain ⟨ps', hstr', hsome', hfree⟩ := ih hstr.rest.inv hstr.rest.blank hsome₁ hal hge
      hcond.2.1 hcond.2.2 h (lt_min hcond.2.1 hcond.2.2)
    have hsplit := slotsOf_Ico_step h0 hlim
    refine ⟨ps ++ ps', (hstr.trans hstr').congr ?_, hsome', ?_⟩
    · intro i
      rw [slotsOf_union, hsplit]
    · rw [hfree, hchunk, hstr.left, Bool.and_eq_true, hok, hsplit]
      have hne := pdx0_notMem h1 h0 hle (min_le_left _ stop) (pdx1 d0start)
      constructor
      · rintro ⟨⟨hflag, hin⟩, hsub⟩
        refine ⟨hflag, Set.union_subset ?_ (fun j hj => (hsub hj).1)⟩
        intro j hj
        obtain ⟨-, rfl⟩ := mem_slotsOf_singleton.mp hj
        exact hin
      · rintro ⟨hflag, hsub⟩
        refine ⟨⟨hflag, hsub (Or.inl (mem_slotsOf_singleton.mpr ⟨rfl, rfl⟩))⟩, ?_⟩
        intro j hj
        refine ⟨hsub (Or.inr hj), fun hs => ?_⟩
        obtain ⟨-, rfl⟩ := mem_slotsOf_singleton.mp hs
        exact hne hj
  | case3 m d0start freePd0 valid m₁ hs next hcond =>
    obtain ⟨ok, m₂, ps, hex, hstr, hsome₁, hok⟩ := hi.exitPde0_struck hb (hstop.trans_le htop) hsome
    rw [hs] at hex
    obtain ⟨rfl, rfl⟩ := Prod.mk.inj (Option.some.inj hex)
    obtain ⟨rfl, rfl⟩ := Prod.mk.inj (Option.some.inj h)
    have hempty : Set.Ico (d0start + ptSize) (min (d1start + pdSize) stop) = ∅ := by
      apply Set.Ico_eq_empty
      intro hbad
      obtain ⟨ha, hb⟩ := lt_min_iff.mp hbad
      exact hcond ⟨by simp only [next]; unfold ptSize pgSize; omega, ha, hb⟩
    have hsplit : ∀ i, slotsOf (Set.Ico d0start (min (d1start + pdSize) stop)) i =
        slotsOf {d0start} i := by
      intro i
      rw [slotsOf_Ico_step h0 hlim, hempty]
      ext j
      simp [slotsOf]
    refine ⟨ps, hstr.congr (fun i => (hsplit i).symm), hsome₁, ?_⟩
    rw [hsplit, Bool.and_eq_true, hok]
    constructor
    · rintro ⟨hflag, hin⟩
      refine ⟨hflag, fun j hj => ?_⟩
      obtain ⟨-, rfl⟩ := mem_slotsOf_singleton.mp hj
      exact hin
    · rintro ⟨hflag, hsub⟩
      exact ⟨hflag, hsub (mem_slotsOf_singleton.mpr ⟨rfl, rfl⟩)⟩

/-- A middle-level table is given back after the scan of its chunk. -/
theorem Struck.withNode (h : Struck F m m' pd A ps) {la : ℕ} {d : Pgdir} {p : ℕ}
    (hd : m'.pgdir pd = some d) (hp : m'.tableAt (.middle pd (pdx1 la)) = some p) :
    Cut F m ((m'.freePage p).setPgdir pd (d.clearPde1 la)) pd
      (ps ++ [.middle pd (pdx1 la)]) := by
  have hd' : (m'.freePage p).pgdir pd = some d := hd
  obtain ⟨hroot, hmid, hlast⟩ := tableAt_clearPde1 hd' la
  refine h.toCut.trans ⟨h.rest.inv.freePde1 h.rest.blank hd hp, ?_, ?_, ?_, ?_, ?_, ?_, ?_⟩
  · simp only [List.map_cons, List.map_nil, pageAt_of_eq hp]
    rfl
  · intro t ht
    rw [List.mem_singleton.mp ht, hp]
    rfl
  · exact List.nodup_singleton _
  · intro t q hq
    rw [List.mem_singleton]
    cases t with
    | root pd' =>
      rw [hroot] at hq
      exact ⟨hq, by simp⟩
    | middle pd' i =>
      rw [hmid] at hq
      split at hq
      · exact absurd hq (by simp)
      · rename_i hne
        refine ⟨hq, fun heq => ?_⟩
        injection heq with h1 h2
        exact hne ⟨h1, h2⟩
    | last pd' i j =>
      rw [hlast] at hq
      split at hq
      · exact absurd hq (by simp)
      · exact ⟨hq, by simp⟩
  · intro i hi
    rw [List.mem_singleton] at hi
    injection hi with _ hi
    apply Set.eq_empty_of_forall_notMem
    intro j hj
    unfold tablesOf at hj
    rw [Set.mem_ofPred_eq, hlast, if_pos ⟨rfl, hi⟩] at hj
    exact absurd hj (by simp)
  · exact fun _ _ => List.pairwise_singleton _ _
  · intro q hq
    have hne : q ≠ p := by
      rintro rfl
      exact hq _ (List.mem_singleton_self _) (pageAt_of_eq hp)
    exact Function.update_of_ne hne _ _

/-- One turn of the outer loop scans one chunk. -/
theorem RefInv.exitPde1_scanned (hi : RefInv ∅ F m) (hb : m.Blank pd)
    (hsome : (m.pgdir pd).isSome) {d1start d0start stop : ℕ} (h1 : d1start % pdSize = 0)
    (h0 : d0start % ptSize = 0) (hle : d1start ≤ d0start) (hlt : d0start < d1start + pdSize)
    (hstop : d0start < stop) (htop : stop ≤ userTop)
    (h : m.exitPde1 pd d1start d0start stop = some m') :
    ∃ ps, Scanned F m m' pd (Set.Ico d0start (min (d1start + pdSize) stop)) ps ∧
      (m'.pgdir pd).isSome := by
  set A := Set.Ico d0start (min (d1start + pdSize) stop) with hA
  have hchunk : ∀ a ∈ A, pdx1 a = pdx1 d1start := by
    intro a ha
    obtain ⟨hle', hlt'⟩ := ha
    have h2 := (lt_min_iff.mp hlt').1
    rw [pdx1_eq, pdx1_eq]
    unfold pdSize ptSize pgSize at *
    omega
  have hd0 : d0start ∈ A := ⟨le_refl d0start, lt_min hlt hstop⟩
  have hother : ∀ i, i ≠ pdx1 d1start → slotsOf A i = ∅ := by
    intro i hne
    apply Set.eq_empty_of_forall_notMem
    rintro j ⟨a, ha, h1, -⟩
    exact hne (h1.symm.trans (hchunk a ha))
  have hnonempty : (slotsOf A (pdx1 d1start)).Nonempty :=
    ⟨pdx0 d0start, d0start, hd0, hchunk d0start hd0, rfl⟩
  unfold Mem.exitPde1 at h
  rw [Option.bind_eq_bind, Option.bind_eq_some_iff] at h
  obtain ⟨d, hd, h⟩ := h
  split at h
  · rename_i hnone
    obtain rfl := Option.some.inj h
    have hno : m.tablesOf pd (pdx1 d1start) = ∅ := by
      apply Set.eq_empty_of_forall_notMem
      intro j hj
      have hdir := hasDir_of_tablesOf hj
      unfold HasDir at hdir
      simp [tableAt, hd, Pgdir.middlePage, hnone] at hdir
    have hfull : ∀ i, ¬ FullScan (m.tablesOf pd i) (slotsOf A i) := by
      intro i hfull
      by_cases hi' : i = pdx1 d1start
      · obtain ⟨j, hj⟩ := hfull.1
        have hj' := hfull.2 hj
        rw [hi', hno] at hj'
        exact hj'
      · rw [hother i hi'] at hfull
        exact not_fullScan_empty hfull
    have hmiss : ∀ i j, j ∈ slotsOf A i → j ∉ m.tablesOf pd i := by
      intro i j hj hT
      by_cases hi' : i = pdx1 d1start
      · rw [hi', hno] at hT
        exact hT
      · rw [hother i hi'] at hj
        exact hj
    refine ⟨[], ⟨Cut.refl hi hb, ?_, ?_, by simp, ?_⟩, hsome⟩
    · intro i
      simp [hfull i]
    · intro i j
      simp only [List.not_mem_nil, false_iff]
      exact fun hj => hmiss i j hj.2 hj.1
    · intro i j
      exact ⟨fun hj => ⟨⟨hj, fun hs => hmiss i j hs hj⟩, hfull i⟩, fun hj => hj.1.1⟩
  · rename_i dir hdir
    rw [Option.bind_eq_bind, Option.bind_eq_some_iff] at h
    obtain ⟨⟨free, m₁⟩, h₁, h⟩ := h
    obtain ⟨ps, hstr, hsome₁, hfree⟩ :=
      hi.exitPde0Loop_struck hb hsome h1 h0 hle hlt hstop htop h₁
    rw [← hA, hchunk d0start hd0] at hfree
    have hfull : free = true ↔ FullScan (m.tablesOf pd (pdx1 d1start))
        (slotsOf A (pdx1 d1start)) := by
      rw [hfree]
      exact ⟨fun hx => ⟨hnonempty, hx.2⟩, fun hx => ⟨rfl, hx.2⟩⟩
    have hpos : m₁.tableAt (.middle pd (pdx1 d1start)) = some dir.page := by
      rw [hstr.middle]
      simp [tableAt, hd, Pgdir.middlePage, hdir]
    have hlast : ∀ i, .middle pd i ∉ ps := by
      intro i hmem
      obtain ⟨_, _, hbad, -⟩ := (hstr.child _).mp hmem
      exact absurd hbad (by simp)
    have hchild : ∀ i j, .last pd i j ∈ ps ↔ j ∈ m.tablesOf pd i ∧ j ∈ slotsOf A i := by
      intro i j
      rw [hstr.child]
      constructor
      · rintro ⟨i', j', heq, hj⟩
        injection heq with _ h1 h2
        rw [h1, h2]
        exact hj
      · intro hj
        exact ⟨i, j, rfl, hj⟩
    have hbelow : ∀ t ∈ ps, (∃ i, t = .middle pd i) ∨ ∃ i j, t = .last pd i j := by
      intro t ht
      obtain ⟨i, j, rfl, -⟩ := (hstr.child t).mp ht
      exact Or.inr ⟨i, j, rfl⟩
    simp only at h
    split at h
    · rename_i hf
      have hfullT := hfull.mp hf
      rw [Option.bind_eq_some_iff] at h
      obtain ⟨d₁, hd₁, h⟩ := h
      obtain rfl := Option.some.inj h
      have hcut := hstr.withNode hd₁ hpos
      have hd' : (m₁.freePage dir.page).pgdir pd = some d₁ := hd₁
      obtain ⟨-, -, htab⟩ := tableAt_clearPde1 hd' d1start
      refine ⟨_, ⟨hcut, ?_, ?_, ?_, ?_⟩, by simp [setPgdir]⟩
      · intro i
        rw [List.mem_append, List.mem_singleton]
        constructor
        · rintro (hmem | heq)
          · exact absurd hmem (hlast i)
          · injection heq with _ hi'
            rw [hi']
            exact hfullT
        · intro hx
          by_cases hi' : i = pdx1 d1start
          · exact Or.inr (by rw [hi'])
          · rw [hother i hi'] at hx
            exact absurd hx not_fullScan_empty
      · intro i j
        rw [List.mem_append, hchild]
        simp
      · intro t ht
        rcases List.mem_append.mp ht with ht | ht
        · exact hbelow t ht
        · exact Or.inl ⟨_, List.mem_singleton.mp ht⟩
      · intro i j
        unfold tablesOf
        rw [Set.mem_ofPred_eq, htab]
        by_cases hi' : i = pdx1 d1start
        · rw [if_pos ⟨rfl, hi'⟩, hi']
          constructor
          · intro hbad
            exact absurd hbad (by simp)
          · intro hx
            exact absurd hfullT hx.2
        · rw [if_neg (fun hx => hi' hx.2)]
          have hl : j ∈ m₁.tablesOf pd i ↔ j ∈ m.tablesOf pd i \ slotsOf A i := by
            rw [hstr.left]
          rw [hother i hi'] at hl ⊢
          exact ⟨fun hj => ⟨hl.mp hj, not_fullScan_empty⟩, fun hj => hl.mpr hj.1⟩
    · rename_i hf
      obtain rfl := Option.some.inj h
      have hnot : ∀ i, ¬ FullScan (m.tablesOf pd i) (slotsOf A i) := by
        intro i hx
        by_cases hi' : i = pdx1 d1start
        · rw [hi'] at hx
          exact hf (hfull.mpr hx)
        · rw [hother i hi'] at hx
          exact not_fullScan_empty hx
      refine ⟨ps, ⟨hstr.toCut, ?_, hchild, hbelow, ?_⟩, hsome₁⟩
      · intro i
        exact ⟨fun hmem => absurd hmem (hlast i), fun hx => absurd hx (hnot i)⟩
      · intro i j
        rw [hstr.left]
        exact ⟨fun hj => ⟨hj, hnot i⟩, fun hj => hj.1⟩

theorem RefInv.exitLoop_scanned (hi : RefInv ∅ F m) (hb : m.Blank pd)
    (hsome : (m.pgdir pd).isSome) {d1start d0start stop : ℕ} (h1 : d1start % pdSize = 0)
    (h0 : d0start % ptSize = 0) (hle : d1start ≤ d0start) (hlt : d0start < d1start + pdSize)
    (hstop : d0start < stop) (htop : stop ≤ userTop)
    (h : m.exitLoop pd d1start d0start stop = some m') :
    ∃ ps, Scanned F m m' pd (Set.Ico d0start stop) ps ∧ (m'.pgdir pd).isSome := by
  fun_induction Mem.exitLoop m pd d1start d0start stop with
  | case1 => exact absurd h (by simp)
  | case2 m d1start d0start m₁ hs next hcond ih =>
    obtain ⟨ps, hsc, hsome₁⟩ := hi.exitPde1_scanned hb hsome h1 h0 hle hlt hstop htop hs
    have hnext : next = d1start + pdSize := rfl
    obtain ⟨hn1, hn0, hnlt⟩ : next % pdSize = 0 ∧ next % ptSize = 0 ∧ next < next + pdSize := by
      rw [hnext]
      unfold pdSize ptSize pgSize at *
      omega
    obtain ⟨ps', hsc', hsome'⟩ := ih hsc.rest.inv hsc.rest.blank hsome₁ hn1 hn0 (le_refl next)
      hnlt hcond.2 h
    rw [← hnext, min_eq_left hcond.2.le] at hsc
    have hdisj : ∀ i, slotsOf (Set.Ico d0start next) i = ∅ ∨ slotsOf (Set.Ico next stop) i = ∅ := by
      intro i
      by_cases hlow : i = pdx1 d1start
      · right
        apply Set.eq_empty_of_forall_notMem
        rintro j ⟨a, ⟨ha, ha'⟩, hx, -⟩
        rw [hlow, pdx1_eq, pdx1_eq] at hx
        rw [hnext] at ha hcond
        unfold userTop at htop
        unfold pdSize ptSize pgSize at *
        omega
      · left
        apply Set.eq_empty_of_forall_notMem
        rintro j ⟨a, ⟨ha, ha'⟩, hx, -⟩
        apply hlow
        rw [← hx, pdx1_eq, pdx1_eq]
        rw [hnext] at ha'
        unfold pdSize ptSize pgSize at *
        omega
    have hunion : Set.Ico d0start next ∪ Set.Ico next stop = Set.Ico d0start stop :=
      Set.Ico_union_Ico_eq_Ico hlt.le hcond.2.le
    refine ⟨ps ++ ps', ?_, hsome'⟩
    rw [← hunion]
    exact hsc.trans hsc' hdisj
  | case3 m d1start d0start m₁ hs next hcond =>
    obtain ⟨ps, hsc, hsome₁⟩ := hi.exitPde1_scanned hb hsome h1 h0 hle hlt hstop htop hs
    obtain rfl := Option.some.inj h
    have hge : stop ≤ d1start + pdSize := by
      by_contra hlt'
      exact hcond ⟨by simp only [next]; unfold pdSize ptSize pgSize; omega, by omega⟩
    rw [min_eq_right hge] at hsc
    exact ⟨ps, hsc, hsome₁⟩

end Mem

namespace Vma

/-- The slots of a chunk that the area meets. -/
def slots (v : Vma) (i : ℕ) : Set ℕ := slotsOf (Set.Ico v.vmStart v.vmEnd) i

/-- A scan begins at a slot boundary, which brings in no other slot. -/
theorem slots_roundDown (v : Vma) (i : ℕ) :
    slotsOf (Set.Ico (roundDown v.vmStart ptSize) v.vmEnd) i = v.slots i := by
  have hlt := v.user.2.1
  ext j
  constructor
  · rintro ⟨a, ⟨ha, ha'⟩, h1, h0⟩
    by_cases hlow : a < v.vmStart
    · refine ⟨v.vmStart, ⟨le_refl _, hlt⟩, ?_, ?_⟩
      · rw [← h1, pdx1_eq, pdx1_eq]
        unfold roundDown ptSize pgSize at ha
        omega
      · rw [← h0, pdx0_eq, pdx0_eq]
        unfold roundDown ptSize pgSize at ha
        omega
    · exact ⟨a, ⟨by omega, ha'⟩, h1, h0⟩
  · rintro ⟨a, ⟨ha, ha'⟩, h⟩
    refine ⟨a, ⟨?_, ha'⟩, h⟩
    unfold roundDown
    omega

end Vma

namespace Mem

variable {M : PmmManager} {F : Set ℕ} {m m' : Mem M.recording} {pd : ℕ}

theorem RefInv.exitRange_scanned (hi : RefInv ∅ F m) (hb : m.Blank pd)
    (hsome : (m.pgdir pd).isSome) {v : Vma} (h : m.exitRange pd v.vmStart v.vmEnd = some m') :
    ∃ ps, Scanned F m m' pd (Set.Ico v.vmStart v.vmEnd) ps ∧ (m'.pgdir pd).isSome := by
  unfold Mem.exitRange at h
  rw [if_pos ⟨v.start_aligned, v.end_aligned, v.user⟩] at h
  obtain ⟨hd1, hd0, hle, hlt, hstop⟩ : roundDown v.vmStart pdSize % pdSize = 0 ∧
      roundDown v.vmStart ptSize % ptSize = 0 ∧
      roundDown v.vmStart pdSize ≤ roundDown v.vmStart ptSize ∧
      roundDown v.vmStart ptSize < roundDown v.vmStart pdSize + pdSize ∧
      roundDown v.vmStart ptSize < v.vmEnd := by
    have hlt := v.user.2.1
    unfold roundDown pdSize ptSize pgSize
    omega
  obtain ⟨ps, hsc, hsome'⟩ := hi.exitLoop_scanned hb hsome hd1 hd0 hle hlt hstop v.user.2.2 h
  exact ⟨ps, hsc.congr v.slots_roundDown, hsome'⟩

/-- The second loop of `exit_mmap`: the scans of all areas, one after the other. -/
structure Swept (F : Set ℕ) (m m' : Mem M.recording) (pd : ℕ) (vs : List Vma)
    (ps : List TablePos) : Prop extends Cut F m m' pd ps where
  node : ∀ i, .middle pd i ∈ ps ↔ NodeSwept (m.tablesOf pd i) (vs.map (fun v => v.slots i))
  child : ∀ i j, .last pd i j ∈ ps ↔
    ChildSwept (m.tablesOf pd i) j (vs.map (fun v => v.slots i))
  below : ∀ t ∈ ps, (∃ i, t = .middle pd i) ∨ ∃ i j, t = .last pd i j

theorem Scanned.swept {ps ps' : List TablePos} {v : Vma} {vs : List Vma} {m'' : Mem M.recording}
    (h : Scanned F m m' pd (Set.Ico v.vmStart v.vmEnd) ps) (h' : Swept F m' m'' pd vs ps') :
    Swept F m m'' pd (v :: vs) (ps ++ ps') := by
  have hslots : ∀ i, slotsOf (Set.Ico v.vmStart v.vmEnd) i = v.slots i := fun _ => rfl
  have hgone : ∀ i, FullScan (m.tablesOf pd i) (v.slots i) → m'.tablesOf pd i = ∅ := by
    intro i hf
    apply Set.eq_empty_of_forall_notMem
    intro j hj
    exact ((h.left i j).mp hj).2 hf
  have hleft : ∀ i, ¬ FullScan (m.tablesOf pd i) (v.slots i) →
      m'.tablesOf pd i = m.tablesOf pd i \ v.slots i := by
    intro i hf
    ext j
    rw [h.left]
    exact ⟨fun hj => hj.1, fun hj => ⟨hj, hf⟩⟩
  refine ⟨h.toCut.trans h'.toCut, ?_, ?_, ?_⟩
  · intro i
    rw [List.mem_append, h.node, h'.node, List.map_cons, hslots]
    by_cases hf : FullScan (m.tablesOf pd i) (v.slots i)
    · exact ⟨fun _ => Or.inl hf, fun _ => Or.inl hf⟩
    · rw [hleft i hf]
      exact Iff.rfl
  · intro i j
    rw [List.mem_append, h.child, h'.child, List.map_cons, hslots]
    by_cases hf : FullScan (m.tablesOf pd i) (v.slots i)
    · rw [hgone i hf]
      constructor
      · rintro (hj | hj)
        · exact Or.inl hj
        · exact absurd hj.mem (Set.notMem_empty j)
      · rintro (hj | hj)
        · exact Or.inl hj
        · exact absurd hf hj.1
    · rw [hleft i hf]
      exact or_congr Iff.rfl ⟨fun hj => ⟨hf, hj⟩, fun hj => hj.2⟩
  · intro t ht
    rcases List.mem_append.mp ht with ht | ht
    · exact h.below t ht
    · exact h'.below t ht

theorem RefInv.exitAreas_swept (hi : RefInv ∅ F m) (hb : m.Blank pd)
    (hsome : (m.pgdir pd).isSome) {vs : List Vma} (h : m.exitAreas pd vs = some m') :
    ∃ ps, Swept F m m' pd vs ps ∧ (m'.pgdir pd).isSome := by
  induction vs generalizing m with
  | nil =>
    obtain rfl := Option.some.inj h
    refine ⟨[], ⟨Cut.refl hi hb, ?_, ?_, by simp⟩, hsome⟩
    · intro i
      simp [NodeSwept]
    · intro i j
      simp [ChildSwept]
  | cons v vs ih =>
    rw [Mem.exitAreas, Option.bind_eq_some_iff] at h
    obtain ⟨m₁, h₁, h⟩ := h
    obtain ⟨ps, hsc, hsome₁⟩ := hi.exitRange_scanned hb hsome h₁
    obtain ⟨ps', hsw, hsome'⟩ := ih hsc.rest.inv hsc.rest.blank hsome₁ h
    exact ⟨ps ++ ps', hsc.swept hsw, hsome'⟩

end Mem
end Ucore.Vm
