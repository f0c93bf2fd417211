import Ucore.Vm.CowRefinement
import Ucore.Vm.PartialFork
import Ucore.Vm.TableScan

/-!
Taking down an address space: `exit_mmap` and `put_pgdir`. Unmapping takes one
reference for each mapping and gives back user pages only; the scans that follow give
back every table page exactly once if and only if they sweep each middle-level table
clean.
-/
namespace Ucore.Vm

open Library

/-- The directory that a position belongs to. -/
def TablePos.pgdir : TablePos → ℕ
  | .root pd => pd
  | .middle pd _ => pd
  | .last pd _ _ => pd

namespace Mem

variable {M : PmmManager} {K F : Set ℕ}

/-- The number of user addresses of a directory that map a page. -/
def mappings (m : Mem M) (pd q : ℕ) : ℕ :=
  holders ((slots M).filter (fun k => k.1 = pd)) m.holds q

/-- Unmapping one address space removes its mappings of a page from the count. -/
theorem mapCount_unmapped {m m' : Mem M} {pd : ℕ} (hb : m'.Blank pd)
    (hother : ∀ k ∈ slots M, k.1 ≠ pd → m'.holds k = m.holds k) (q : ℕ) :
    m'.mapCount q + m.mappings pd q = m.mapCount q := by
  have hnone : ∀ k ∈ slots M, k.1 = pd → m'.holds k = none := by
    rintro ⟨a, v⟩ hk rfl
    have hv := hb (v * pgSize) (lt_of_mem_slots hk).2
    unfold holds slotEntry
    simp [hv]
  unfold mapCount mappings holders
  rw [Finset.filter_filter]
  rw [← Finset.card_filter_add_card_filter_not (s := (slots M).filter (fun k => m.holds k = some q))
    (fun k => k.1 = pd), Finset.filter_filter, Finset.filter_filter, Nat.add_comm]
  congr 1
  · congr 1
    apply Finset.filter_congr
    intro k _
    exact and_comm
  · congr 1
    apply Finset.filter_congr
    intro k hk
    by_cases hpd : k.1 = pd
    · simp [hnone k hk hpd, hpd]
    · simp [hother k hk hpd, hpd]

variable {m m' m'' : Mem M.recording} {pd : ℕ} {us us' : List ℕ}

/-- Entries of one directory were cleared and the pages `us` given back. -/
structure Unmapped (m m' : Mem M.recording) (pd : ℕ) (us : List ℕ) : Prop where
  table : ∀ t, m'.tableAt t = m.tableAt t
  freed : m'.freed = m.freed ++ us
  user : ∀ q ∈ us, 0 < m.mappings pd q
  fewer : ∀ q, m'.mappings pd q ≤ m.mappings pd q
  other : ∀ k ∈ slots M.recording, k.1 ≠ pd → m'.holds k = m.holds k

theorem Unmapped.refl (m : Mem M.recording) (pd : ℕ) : Unmapped m m pd [] :=
  ⟨fun _ => rfl, by simp, by simp, fun _ => le_refl _, fun _ _ _ => rfl⟩

theorem Unmapped.trans (h : Unmapped m m' pd us) (h' : Unmapped m' m'' pd us') :
    Unmapped m m'' pd (us ++ us') where
  table t := (h'.table t).trans (h.table t)
  freed := by rw [h'.freed, h.freed, List.append_assoc]
  user q hq := by
    rcases List.mem_append.mp hq with hq | hq
    · exact h.user q hq
    · exact lt_of_lt_of_le (h'.user q hq) (h.fewer q)
  fewer q := (h'.fewer q).trans (h.fewer q)
  other k hk hne := (h'.other k hk hne).trans (h.other k hk hne)

theorem freed_pageRemovePte (m : Mem M.recording) (pd la : ℕ) :
    ∃ us, (m.pageRemovePte pd la).freed = m.freed ++ us ∧
      ∀ q ∈ us, hasFlag (m.entry pd la) pteV = true ∧ q = ptePpn (m.entry pd la) := by
  unfold pageRemovePte
  split
  · rename_i hv
    simp only
    split
    · refine ⟨[ptePpn (m.entry pd la)], ?_, ?_⟩
      · unfold freed
        rw [setEntry_pmm]
        rfl
      · intro q hq
        exact ⟨hv, List.mem_singleton.mp hq⟩
    · refine ⟨[], ?_, by simp⟩
      unfold freed
      rw [setEntry_pmm, List.append_nil]
      rfl
  · exact ⟨[], by simp, by simp⟩

theorem RefInv.pageRemovePte_unmapped (hi : RefInv K F m) {la : ℕ} (ht : m.HasTable pd la)
    (hla : la < userTop) : ∃ us, Unmapped m (m.pageRemovePte pd la) pd us := by
  by_cases hv : hasFlag (m.entry pd la) pteV = true
  · have hp := holds_of_valid hv
    have hk := hi.mem_slots_of_valid hla hv
    obtain ⟨-, hrem⟩ := hi.pageRemovePte ht hla hp
    obtain ⟨us, hfreed, hus⟩ := freed_pageRemovePte m pd la
    refine ⟨us, hrem.table, hfreed, ?_, ?_, ?_⟩
    · intro q hq
      rw [(hus q hq).2]
      exact holders_pos_iff.mpr ⟨_, Finset.mem_filter.mpr ⟨hk, rfl⟩, hp⟩
    · intro q
      unfold mappings holders
      apply Finset.card_le_card
      intro k hk'
      rw [Finset.mem_filter] at hk' ⊢
      refine ⟨hk'.1, ?_⟩
      have hslot := hrem.changed.entry.holds_zero k (Finset.mem_filter.mp hk'.1).1
      rw [hk'.2] at hslot
      by_cases hkk : k = (pd, la / pgSize)
      · rw [hkk, Function.update_self] at hslot
        exact absurd hslot (by simp)
      · rw [Function.update_of_ne hkk] at hslot
        exact hslot.symm
    · intro k hk' hne
      rw [hrem.changed.entry.holds_zero k hk', Function.update_of_ne]
      rintro rfl
      exact hne rfl
  · refine ⟨[], ?_⟩
    unfold Mem.pageRemovePte
    rw [if_neg hv]
    exact Unmapped.refl m pd

theorem RefInv.unmapStep_unmapped (hi : RefInv K F m) {start next : ℕ} (hla : start < userTop)
    (h : m.unmapStep pd start = some (next, m')) : ∃ us, Unmapped m m' pd us := by
  unfold Mem.unmapStep at h
  rw [Option.bind_eq_bind, Option.bind_eq_some_iff] at h
  obtain ⟨⟨ok, m₁⟩, h₁, h⟩ := h
  obtain ⟨hw, htab, -⟩ := hi.getPte h₁
  obtain rfl := hw.lookup rfl
  cases ok with
  | false =>
    simp only [Bool.not_false, if_true, Option.some.injEq, Prod.mk.injEq] at h
    exact ⟨[], h.2 ▸ Unmapped.refl m₁ pd⟩
  | true =>
    simp only [Bool.not_true, Bool.false_eq_true, if_false, Option.some.injEq,
      Prod.mk.injEq] at h
    rw [← h.2]
    split
    · exact hi.pageRemovePte_unmapped (htab rfl) hla
    · exact ⟨[], Unmapped.refl m₁ pd⟩

theorem RefInv.unmapLoop_unmapped (hi : RefInv K F m) {start stop : ℕ}
    (halign : start % pgSize = 0) (hstop : stop % pgSize = 0) (hlt : start < stop)
    (htop : stop ≤ userTop) (h : m.unmapLoop pd start stop = some m') :
    ∃ us, Unmapped m m' pd us := by
  fun_induction Mem.unmapLoop m pd start stop with
  | case1 m start hs => exact absurd h (by simp)
  | case2 m start next m₁ hs hcond ih =>
    obtain ⟨us, hun⟩ := hi.unmapStep_unmapped (hlt.trans_le htop) hs
    obtain ⟨hi₁, -, halign₁, -⟩ := hi.unmapStep halign hstop hlt (by omega) hs
    obtain ⟨us', hun'⟩ := ih hi₁ halign₁ hcond.2 h
    exact ⟨us ++ us', hun.trans hun'⟩
  | case3 m start next m₁ hs hcond =>
    obtain rfl := Option.some.inj h
    exact hi.unmapStep_unmapped (hlt.trans_le htop) hs

theorem RefInv.unmapAreas_unmapped (hi : RefInv K F m) {vs : List Vma}
    (h : m.unmapAreas pd vs = some m') : ∃ us, Unmapped m m' pd us := by
  induction vs generalizing m with
  | nil =>
    obtain rfl := Option.some.inj h
    exact ⟨[], Unmapped.refl m pd⟩
  | cons v vs ih =>
    rw [Mem.unmapAreas, Option.bind_eq_some_iff] at h
    obtain ⟨m₁, h₁, h⟩ := h
    have hloop := h₁
    unfold Mem.unmapRange at hloop
    rw [if_pos ⟨v.start_aligned, v.end_aligned, v.user⟩] at hloop
    obtain ⟨us, hun⟩ :=
      hi.unmapLoop_unmapped v.start_aligned v.end_aligned v.user.2.1 v.user.2.2 hloop
    obtain ⟨us', hun'⟩ := ih (hi.unmapRange h₁).1 h
    exact ⟨us ++ us', hun.trans hun'⟩

/-! Pages are only mapped inside the areas. -/

/-- Every mapped page of the directory of `mm` lies in an area. -/
def MappedIn (m : Mem M) (mm : Mm) : Prop :=
  ∀ la, la < userTop → (m.view mm.pgdir la).isSome → mm.InArea la

end Mem

/-- The operation maps pages of the directory of `mm` in its areas only. -/
def UserOp.Inside (mm : Mm) : UserOp → Prop
  | .pgdirAllocPage pd la _ => pd = mm.pgdir → mm.InArea la
  | .copyRange _ dst _ start stop _ =>
    dst = mm.pgdir → ∀ la, start ≤ la → la < stop → mm.InArea la
  | _ => True

namespace Mem

variable {M : PmmManager} {K F : Set ℕ} {m m' : Mem M} {mm : Mm}

theorem inArea_congr (mm : Mm) {la la' : ℕ} (h : la / pgSize = la' / pgSize) :
    mm.InArea la ↔ mm.InArea la' := by
  unfold Mm.InArea
  simp only [Mm.contains_congr _ h]

theorem RefInv.pgdirAllocPage_isSome (hi : RefInv K F m) {pd la perm : ℕ} {r : Option ℕ}
    (hla : la < userTop) (hperm : perm < pteFlagLimit)
    (h : m.pgdirAllocPage pd la perm = some (r, m')) {pd' la' : ℕ} (hla' : la' < userTop)
    (hv : (m'.view pd' la').isSome) :
    (m.view pd' la').isSome ∨ pd' = pd ∧ la' / pgSize = la / pgSize := by
  obtain ⟨-, ⟨-, hs⟩ | ⟨page, -, -, hc⟩⟩ := hi.pgdirAllocPage_cases hla hperm h
  · left
    rwa [hi.view_same hs hla'] at hv
  · by_cases hin : pd' = pd ∧ la' / pgSize = la / pgSize
    · exact Or.inr hin
    · left
      rwa [hi.view_changed hc hla' hin] at hv

theorem RefInv.pageRemove_isSome (hi : RefInv K F m) {pd la : ℕ} (hla : la < userTop)
    (h : m.pageRemove pd la = some m') {pd' la' : ℕ} (hla' : la' < userTop)
    (hv : (m'.view pd' la').isSome) : (m.view pd' la').isSome := by
  unfold Mem.pageRemove at h
  rw [Option.bind_eq_bind, Option.bind_eq_some_iff] at h
  obtain ⟨⟨ok, m₁⟩, h₁, h⟩ := h
  obtain ⟨hw, htab, -⟩ := hi.getPte h₁
  obtain rfl := hw.lookup rfl
  cases ok with
  | false =>
    simp only [Bool.false_eq_true, if_false, Option.some.injEq] at h
    rwa [← h] at hv
  | true =>
    simp only [if_true, Option.some.injEq] at h
    subst h
    by_cases hvalid : hasFlag (m₁.entry pd la) pteV
    · obtain ⟨-, hrem⟩ := hi.pageRemovePte (htab rfl) hla (holds_of_valid hvalid)
      by_cases hin : pd' = pd ∧ la' / pgSize = la / pgSize
      · obtain ⟨rfl, hin⟩ := hin
        rw [hrem.changed.view_zero hla' hin] at hv
        exact absurd hv (by simp)
      · rwa [hi.view_changed hrem.changed hla' hin] at hv
    · unfold Mem.pageRemovePte at hv
      rwa [if_neg hvalid] at hv

/-- One operation keeps every mapped page in the areas. -/
theorem RefInv.mappedIn_step (hi : RefInv K F m) (hin : MappedIn m mm) {op : UserOp}
    (hop : op.Inside mm) (h : m.userStep op = some m') : MappedIn m' mm := by
  intro la hla hv
  cases op with
  | setupPgdir =>
    obtain rfl := Option.some.inj h
    rw [hi.setupPgdir.2.1 _ _ hla] at hv
    exact hin la hla hv
  | pgdirAllocPage pd la₀ perm =>
    obtain ⟨⟨r, m₁⟩, hstep, rfl⟩ := Option.map_eq_some_iff.mp h
    rcases hi.pgdirAllocPage_isSome la₀.isLt perm.isLt hstep hla hv with hold | ⟨hpd, hpage⟩
    · exact hin la hla hold
    · exact (inArea_congr mm hpage).mpr (hop hpd.symm)
  | pageRemove pd la₀ => exact hin la hla (hi.pageRemove_isSome la₀.isLt h hla hv)
  | copyRange share dst src start stop apart =>
    obtain ⟨⟨r, m₁⟩, hstep, rfl⟩ := Option.map_eq_some_iff.mp h
    by_cases hr : r = 0
    · by_cases hpd : mm.pgdir = dst
      · by_cases hP : start ≤ la ∧ la < stop
        · exact hop hpd.symm la hP.1 hP.2
        · rw [((hi.copyRange apart hstep).2.2.2 hr mm.pgdir la hla).2 hP] at hv
          exact hin la hla hv
      · apply hin la hla
        have hf := (hi.copyRange apart hstep).2.2.2 hr mm.pgdir la hla
        by_cases hP : start ≤ la ∧ la < stop
        · rw [hf.1 hP] at hv
          exact isSome_forkedView hpd hv
        · rwa [hf.2 hP] at hv
    · rcases (hi.copyRange_failed apart hstep hr).isSome hla hv with hold | ⟨hpd, hP⟩
      · exact hin la hla hold
      · exact hop hpd.symm la hP.1 hP.2
  | doPgfault mm₀ errorCode addr =>
    obtain ⟨⟨r, m₁, mm₁⟩, hstep, rfl⟩ := Option.map_eq_some_iff.mp h
    obtain ⟨-, -, hf⟩ := hi.doPgfault hstep
    apply hin la hla
    by_cases hr : r = 0
    · rw [(hf.repaired hr).2 mm.pgdir la hla] at hv
      split at hv
      · simpa [PageView.promote] using hv
      · exact hv
    · rwa [hf.kept hr mm.pgdir la hla] at hv
  | unmapRange pd start stop =>
    obtain ⟨-, -, hun⟩ := hi.unmapRange h
    apply hin la hla
    by_cases hP : mm.pgdir = pd ∧ start ≤ la ∧ la < stop
    · rw [(hun mm.pgdir la hla).1 hP] at hv
      exact absurd hv (by simp)
    · rwa [(hun mm.pgdir la hla).2 hP] at hv

end Mem

namespace Mm

/-- For each middle-level table: the first area that meets a table in each of its 2 MB
slots, none of them met by an area before it, comes after no table that only later
areas meet. -/
def SweepsTables {M : PmmManager} (mm : Mm) (m : Mem M) : Prop :=
  ∀ i, m.HasDir mm.pgdir i →
    SweptClean (m.tablesOf mm.pgdir i) (mm.mmapList.map (fun v => v.slots i))

end Mm

namespace Mem

variable {M : PmmManager} {F : Set ℕ} {m m₁ m' : Mem M.recording} {mm : Mm} {pd : ℕ}
  {ps : List TablePos} {vs : List Vma} {ts : List ℕ}

/-- The pages `ts` are those of the tables of a directory, each once, a table before the
table above it. -/
structure TablesOnce (m : Mem M.recording) (pd : ℕ) (ts : List ℕ) : Prop where
  once : ∀ t q, t.pgdir = pd → m.tableAt t = some q → ts.count q = 1
  below : ∀ i j p q, m.tableAt (.middle pd i) = some p → m.tableAt (.last pd i j) = some q →
    [q, p].Sublist ts
  root : ∀ i p, m.tableAt (.middle pd i) = some p → [p, pd].Sublist ts
  user : ∀ q ∈ ts, q = pd ∨ ∃ la < userTop, m.tableAt (.middle pd (pdx1 la)) = some q ∨
    m.tableAt (.last pd (pdx1 la) (pdx0 la)) = some q

/-- An address space is taken down exactly: unmapping clears all entries, takes one
reference for each mapping and gives back mapped pages only, and then each table page
is given back once. -/
structure TakenDown (m m₁ m' : Mem M.recording) (pd : ℕ) : Prop where
  blank : m₁.Blank pd
  table : ∀ t, m₁.tableAt t = m.tableAt t
  users : ∃ us, m₁.freed = m.freed ++ us ∧ ∀ q ∈ us, 0 < m.mappings pd q
  tables : ∃ ts, m'.freed = m₁.freed ++ ts ∧ TablesOnce m pd ts
  counts : ∀ q, 0 < m.mappings pd q → m'.ref q = m.ref q - m.mappings pd q

/-- Two positions of a list in the order that excludes the other one. -/
theorem sublist_of_ordered {α : Type*} {l : List α} {a b : α} (ha : a ∈ l) (hb : b ∈ l)
    (hne : a ≠ b) (hord : l.Pairwise (fun x y => ¬ (x = b ∧ y = a))) : [a, b].Sublist l := by
  obtain ⟨pre, post, rfl⟩ := List.append_of_mem hb
  rw [List.pairwise_append, List.pairwise_cons] at hord
  have hpre : a ∈ pre := by
    rcases List.mem_append.mp ha with h | h
    · exact h
    · rcases List.mem_cons.mp h with h | h
      · exact absurd h hne
      · exact absurd ⟨rfl, rfl⟩ (hord.2.1.1 a h)
  exact (List.singleton_sublist.mpr hpre).append
    (List.singleton_sublist.mpr List.mem_cons_self)

theorem Swept.pgdir_eq (h : Swept F m m' pd vs ps) {t : TablePos} (ht : t ∈ ps) :
    t.pgdir = pd ∧ t ≠ .root pd := by
  rcases h.below t ht with ⟨i, rfl⟩ | ⟨i, j, rfl⟩
  · exact ⟨rfl, by simp⟩
  · exact ⟨rfl, by simp⟩

/-- A table page is given back once exactly when its position was swept, or it is the
page of the directory. -/
theorem Swept.count_eq_one (h : Swept F m m' pd vs ps) (hi : RefInv ∅ F m)
    (hsome : (m.pgdir pd).isSome) {t : TablePos} {q : ℕ} (htpd : t.pgdir = pd)
    (ht : m.tableAt t = some q) :
    (ps.map m.pageAt ++ [pd]).count q = 1 ↔ t = .root pd ∨ t ∈ ps := by
  obtain ⟨d, hd⟩ := Option.isSome_iff_exists.mp hsome
  have hroot : m.tableAt (.root pd) = some pd := by simp [tableAt, hd]
  have hpage : ∀ t' ∈ ps, m.tableAt t' = some (m.pageAt t') := by
    intro t' ht'
    obtain ⟨q', hq'⟩ := Option.isSome_iff_exists.mp (h.present t' ht')
    rw [pageAt_of_eq hq', hq']
  have hmem : q ∈ ps.map m.pageAt ↔ t ∈ ps := by
    rw [List.mem_map]
    constructor
    · rintro ⟨t', ht', heq⟩
      have hsame := hi.table_inj t' t q (heq ▸ hpage t' ht') ht
      exact hsame ▸ ht'
    · intro hmem
      exact ⟨t, hmem, pageAt_of_eq ht⟩
  have hnodup : (ps.map m.pageAt).Nodup := by
    apply List.Nodup.map_on _ h.nodup
    intro a ha b hb heq
    exact hi.table_inj a b _ (hpage a ha) (heq ▸ hpage b hb)
  rw [List.count_append]
  by_cases hq : t = .root pd
  · subst hq
    obtain rfl := Option.some.inj (hroot.symm.trans ht)
    have hnot : pd ∉ ps.map m.pageAt := by
      rw [hmem]
      exact fun hbad => (h.pgdir_eq hbad).2 rfl
    rw [List.count_eq_zero_of_not_mem hnot]
    simp
  · have hne : q ≠ pd := by
      rintro rfl
      exact hq (hi.table_inj t _ _ ht hroot)
    have hzero : [pd].count q = 0 := by
      apply List.count_eq_zero_of_not_mem
      rw [List.mem_singleton]
      exact hne
    rw [hzero, Nat.add_zero]
    constructor
    · intro hone
      right
      rw [← hmem]
      exact List.count_pos_iff.mp (by omega)
    · intro hmem'
      exact List.count_eq_one_of_mem hnodup (hmem.mpr (hmem'.resolve_left hq))

/-- The scans and `put_pgdir` give back all tables, each once, exactly when each
middle-level table is swept clean. -/
theorem Swept.tablesOnce_iff (h : Swept F m m' pd vs ps) (hi : RefInv ∅ F m)
    (hsome : (m.pgdir pd).isSome) : TablesOnce m pd (ps.map m.pageAt ++ [pd]) ↔
      ∀ i, m.HasDir pd i → SweptClean (m.tablesOf pd i) (vs.map (fun v => v.slots i)) := by
  have hone : ∀ {t : TablePos} {q : ℕ}, t.pgdir = pd → t ≠ .root pd → m.tableAt t = some q →
      ((ps.map m.pageAt ++ [pd]).count q = 1 ↔ t ∈ ps) := by
    intro t q htpd hne ht
    rw [h.count_eq_one hi hsome htpd ht]
    exact ⟨fun hx => hx.resolve_left hne, Or.inr⟩
  constructor
  · intro hall i hdir
    rw [← sweptClean_iff]
    obtain ⟨p, hp⟩ := Option.isSome_iff_exists.mp hdir
    refine ⟨(h.node i).mp ((hone rfl (by simp) hp).mp (hall.once _ p rfl hp)), ?_⟩
    intro j hj
    obtain ⟨q, hq⟩ := Option.isSome_iff_exists.mp hj
    exact (h.child i j).mp ((hone rfl (by simp) hq).mp (hall.once _ q rfl hq))
  · intro hclean
    have hmiddle : ∀ i p, m.tableAt (.middle pd i) = some p → .middle pd i ∈ ps := by
      intro i p hp
      have hdir : m.HasDir pd i := Option.isSome_iff_exists.mpr ⟨p, hp⟩
      exact (h.node i).mpr (sweptClean_iff.mpr (hclean i hdir)).1
    have hlast : ∀ i j q, m.tableAt (.last pd i j) = some q → .last pd i j ∈ ps := by
      intro i j q hq
      have hj : j ∈ m.tablesOf pd i := Option.isSome_iff_exists.mpr ⟨q, hq⟩
      exact (h.child i j).mpr ((sweptClean_iff.mpr (hclean i (hasDir_of_tablesOf hj))).2 j hj)
    refine ⟨?_, ?_, ?_, ?_⟩
    · intro t q htpd ht
      rw [h.count_eq_one hi hsome htpd ht]
      cases t with
      | root a => exact Or.inl (congrArg TablePos.root htpd)
      | middle a i =>
        obtain rfl : a = pd := htpd
        exact Or.inr (hmiddle i q ht)
      | last a i j =>
        obtain rfl : a = pd := htpd
        exact Or.inr (hlast i j q ht)
    · intro i j p q hp hq
      have hsub := sublist_of_ordered (hlast i j q hq) (hmiddle i p hp) (by simp)
        (h.ordered i j)
      have hmap := hsub.map m.pageAt
      simp only [List.map_cons, List.map_nil, pageAt_of_eq hp, pageAt_of_eq hq] at hmap
      exact hmap.trans (List.sublist_append_left _ _)
    · intro i p hp
      have hmem : p ∈ ps.map m.pageAt :=
        List.mem_map.mpr ⟨_, hmiddle i p hp, pageAt_of_eq hp⟩
      exact (List.singleton_sublist.mpr hmem).append (List.Sublist.refl [pd])
    · intro q hq
      rcases List.mem_append.mp hq with hq | hq
      · right
        obtain ⟨t, ht, rfl⟩ := List.mem_map.mp hq
        obtain ⟨q, hq⟩ := Option.isSome_iff_exists.mp (h.present t ht)
        rw [pageAt_of_eq hq]
        rcases h.below t ht with ⟨i, rfl⟩ | ⟨i, j, rfl⟩
        · obtain ⟨J, hJ, j, hj⟩ := ((h.node i).mp ht).looked
          obtain ⟨v, -, rfl⟩ := List.mem_map.mp hJ
          obtain ⟨a, ⟨-, ha⟩, rfl, -⟩ := hj
          exact ⟨a, ha.trans_le v.user.2.2, Or.inl hq⟩
        · obtain ⟨J, hJ, hj⟩ := ((h.child i j).mp ht).looked
          obtain ⟨v, -, rfl⟩ := List.mem_map.mp hJ
          obtain ⟨a, ⟨-, ha⟩, rfl, rfl⟩ := hj
          exact ⟨a, ha.trans_le v.user.2.2, Or.inr hq⟩
      · exact Or.inl (List.mem_singleton.mp hq)

/-- What is to be kept may be any pages that are free, mapped or tables. -/
theorem RefInv.keep {m : Mem M} {K : Set ℕ} (hi : RefInv K F m) {K' : Set ℕ}
    (h : ∀ p ∈ K', m.IsFree p ∨ 0 < m.mapCount p ∨ m.IsTable p ∨ p ∈ F) : RefInv K' F m :=
  { hi with kept := h }

/-- `exit_mmap` and `put_pgdir` return, and take the address space down exactly if and
only if the scans sweep its middle-level tables. -/
theorem RefInv.exitMmap_takenDown (hi : RefInv ∅ ∅ m) (hin : MappedIn m mm)
    (hsome : (m.pgdir mm.pgdir).isSome) :
    ∃ m₁ m₂, m.unmapAreas mm.pgdir mm.mmapList = some m₁ ∧ m.exitMmap mm = some m₂ ∧
      (TakenDown m m₁ (m₂.putPgdir mm.pgdir) mm.pgdir ↔ mm.SweepsTables m) := by
  obtain ⟨m₁, h₁⟩ := hi.unmapAreas_exists hsome mm.mmapList
  have hiK : RefInv {q | 0 < m.mapCount q} ∅ m := hi.keep (fun p hp => Or.inr (Or.inl hp))
  obtain ⟨hi₁, hpg₁, hun⟩ := hiK.unmapAreas h₁
  obtain ⟨us, hus⟩ := hi.unmapAreas_unmapped h₁
  have hsome₁ : (m₁.pgdir mm.pgdir).isSome := (hpg₁ mm.pgdir).trans hsome
  have hblank : m₁.Blank mm.pgdir := by
    intro la hla
    rw [← isSome_view]
    by_cases harea : mm.InArea la
    · rw [(hun mm.pgdir la hla).1 ⟨rfl, harea⟩]
      rfl
    · rw [(hun mm.pgdir la hla).2 (fun hbad => harea hbad.2)]
      by_contra hv
      exact harea (hin la hla (Bool.not_eq_false _ ▸ hv))
  have hi₁' : RefInv ∅ ∅ m₁ := hi₁.keep (fun p hp => absurd hp (Set.notMem_empty p))
  obtain ⟨m₂, h₂, -⟩ := exitAreas_exists hsome₁ mm.mmapList
  obtain ⟨ps, hsw, hsome₂⟩ := hi₁'.exitAreas_swept hblank hsome₁ h₂
  refine ⟨m₁, m₂, h₁, by rw [Mem.exitMmap, h₁]; exact h₂, ?_⟩
  have hdir : ∀ i, m₁.HasDir mm.pgdir i = m.HasDir mm.pgdir i := by
    intro i
    unfold HasDir
    rw [hus.table]
  have htabs : ∀ i, m₁.tablesOf mm.pgdir i = m.tablesOf mm.pgdir i := by
    intro i
    unfold tablesOf
    simp only [hus.table]
  have hsweep : mm.SweepsTables m ↔ TablesOnce m mm.pgdir (ps.map m₁.pageAt ++ [mm.pgdir]) := by
    have hiff := hsw.tablesOnce_iff hi₁' hsome₁
    simp only [hdir, htabs] at hiff
    refine hiff.symm.trans ⟨fun hx => ⟨?_, ?_, ?_, ?_⟩, fun hx => ⟨?_, ?_, ?_, ?_⟩⟩
    · exact fun t q htpd ht => hx.once t q htpd ((hus.table t).trans ht)
    · exact fun i j p q hp hq => hx.below i j p q ((hus.table _).trans hp) ((hus.table _).trans hq)
    · exact fun i p hp => hx.root i p ((hus.table _).trans hp)
    · simpa only [hus.table] using hx.user
    · exact fun t q htpd ht => hx.once t q htpd ((hus.table t).symm.trans ht)
    · exact fun i j p q hp hq =>
        hx.below i j p q ((hus.table _).symm.trans hp) ((hus.table _).symm.trans hq)
    · exact fun i p hp => hx.root i p ((hus.table _).symm.trans hp)
    · simpa only [hus.table] using hx.user
  have hfreed : (m₂.putPgdir mm.pgdir).freed =
      m₁.freed ++ (ps.map m₁.pageAt ++ [mm.pgdir]) := by
    rw [← List.append_assoc, ← hsw.freed]
    rfl
  constructor
  · rintro ⟨-, -, -, ⟨ts, hts, hall⟩, -⟩
    rw [hfreed] at hts
    rw [hsweep, List.append_cancel_left hts]
    exact hall
  · intro hclean
    refine ⟨hblank, hus.table, ⟨us, hus.freed, hus.user⟩, ⟨_, hfreed, hsweep.mp hclean⟩, ?_⟩
    intro q hq
    have hmapped : 0 < m.mapCount q := by
      obtain ⟨k, hk, hkq⟩ := holders_pos_iff.mp hq
      exact holders_pos_iff.mpr ⟨k, (Finset.mem_filter.mp hk).1, hkq⟩
    have hnt : ¬ m₁.IsTable q := by
      rintro ⟨t, ht⟩
      exact (hi.busy_of_mapped hmapped).2.1 ⟨t, (hus.table t).symm.trans ht⟩
    have hcount := mapCount_unmapped hblank hus.other q
    have href₁ := (hi₁.count_eq hmapped hnt).1
    have href := hi.counted.ref_eq q hmapped
    have hne : q ≠ mm.pgdir := by
      rintro rfl
      exact hnt ⟨.root mm.pgdir, by
        obtain ⟨d, hd⟩ := Option.isSome_iff_exists.mp hsome₁
        simp [tableAt, hd]⟩
    have hput : (m₂.putPgdir mm.pgdir).ref q = m₂.ref q := Function.update_of_ne hne _ _
    rw [hput, hsw.ref q, href₁]
    · have hrefm : m.ref q = m.mapCount q := href
      rw [hrefm]
      omega
    · intro t ht heq
      obtain ⟨p, hp⟩ := Option.isSome_iff_exists.mp (hsw.present t ht)
      rw [pageAt_of_eq hp] at heq
      exact hnt ⟨t, heq ▸ hp⟩

end Mem

/-- What fills page tables: the operations on user page tables, and `page_insert` of a
page that is mapped elsewhere. -/
inductive FillOp where
  | user (op : UserOp)
  | pageInsert (pd page : ℕ) (la : Fin userTop) (perm : Fin pteFlagLimit)

namespace Mem

variable {M : PmmManager} {m m' : Mem M} {mm : Mm}

def fillStep (m : Mem M) : FillOp → Option (Mem M)
  | .user op => m.userStep op
  | .pageInsert pd page la perm => (m.pageInsert pd page la perm).map Prod.snd

/-- The operation maps in the areas only, and shares pages without write permission. -/
def FillAllowed (mm : Mm) (m : Mem M) : FillOp → Prop
  | .user op => op.Inside mm
  | .pageInsert pd page la perm =>
    Insertable ∅ m page perm ∧ (pd = mm.pgdir → mm.InArea la)

theorem fillStep_inv {op : FillOp} (hinv : RefInv ∅ ∅ m ∧ MappedIn m mm)
    (hop : FillAllowed mm m op) (h : m.fillStep op = some m') :
    RefInv ∅ ∅ m' ∧ MappedIn m' mm := by
  obtain ⟨hi, hin⟩ := hinv
  cases op with
  | user op => exact ⟨hi.userStep h, hi.mappedIn_step hin hop h⟩
  | pageInsert pd page la perm =>
    obtain ⟨⟨r, m₁⟩, hstep, rfl⟩ := Option.map_eq_some_iff.mp h
    rcases hi.pageInsert la.isLt perm.isLt hop.1 hstep with ⟨-, hi', hs⟩ | ⟨-, hi', hc⟩
    · refine ⟨hi', fun a ha hv => hin a ha ?_⟩
      rwa [hi.view_same hs ha] at hv
    · rw [Set.empty_sdiff] at hi'
      refine ⟨hi', fun a ha hv => ?_⟩
      by_cases hat : mm.pgdir = pd ∧ a / pgSize = la / pgSize
      · exact (inArea_congr mm hat.2).mpr (hop.2 hat.1.symm)
      · rw [hi.view_changed hc ha hat] at hv
        exact hin a ha hv

/-- Before any directory exists. -/
theorem mappedIn_of_no_pgdir (hempty : ∀ pd, m.pgdir pd = none) (mm : Mm) : MappedIn m mm := by
  intro la _ hv
  rw [isSome_view] at hv
  simp [entry, hempty] at hv

theorem fill_run (hempty : ∀ pd, m.pgdir pd = none) (hfree : ∀ p, m.IsFree p → m.ref p = 0)
    {ops : List FillOp} (hops : RunMeets fillStep (FillAllowed mm) m ops)
    (h : runOps fillStep m ops = some m') : RefInv ∅ ∅ m' ∧ MappedIn m' mm := by
  have hi := (refInv_of_no_pgdir hempty hfree).keep
    (fun p hp => absurd hp (Set.notMem_empty p))
  exact runOps_invariant_of_meets (fun _ _ _ hinv hop hstep => fillStep_inv hinv hop hstep)
    ⟨hi, mappedIn_of_no_pgdir hempty mm⟩ hops h

/-- In every state reached by filling page tables inside the areas: `exit_mmap` and
`put_pgdir` take the address space down exactly if and only if the scans of its areas
sweep each middle-level table clean. -/
theorem exit_mmap_exact {m₀ m : Mem M.recording} (hempty : ∀ pd, m₀.pgdir pd = none)
    (hfree : ∀ p, m₀.IsFree p → m₀.ref p = 0) {ops : List FillOp}
    (hops : RunMeets fillStep (FillAllowed mm) m₀ ops)
    (h : runOps fillStep m₀ ops = some m) (hsome : (m.pgdir mm.pgdir).isSome) :
    ∃ m₁ m₂, m.unmapAreas mm.pgdir mm.mmapList = some m₁ ∧ m.exitMmap mm = some m₂ ∧
      (TakenDown m m₁ (m₂.putPgdir mm.pgdir) mm.pgdir ↔ mm.SweepsTables m) := by
  obtain ⟨hi, hin⟩ := fill_run hempty hfree hops h
  exact hi.exitMmap_takenDown hin hsome

open Procs

/-- Eight free pages, no page table, and an empty log. -/
def smallRecorded : Mem (freeListPmm 8).recording where
  pmm := (smallMem.pmm, [])
  ref := fun _ => 0
  data := fun _ _ => 0
  pgdir := fun _ => none

theorem userBase_lt_userTop : userBase < userTop := by decide

theorem rwFlags_lt : 0x17 < pteFlagLimit := by decide

/-- A directory with one page at the start of the user range. -/
def onePage : List FillOp :=
  [.user .setupPgdir, .user (.pgdirAllocPage 0 ⟨userBase, userBase_lt_userTop⟩ ⟨0x17, rwFlags_lt⟩)]

theorem smallVma_slots {j : ℕ} (h : j ∈ smallVma.slots 0) : j = 1 := by
  obtain ⟨a, ⟨hle, hlt⟩, -, rfl⟩ := h
  have hle' : 0x200000 ≤ a := hle
  have hlt' : a < 0x201000 := hlt
  rw [pdx0_eq]
  omega

theorem mem_smallVma_slots : 1 ∈ smallVma.slots 0 := ⟨userBase, by decide, rfl, rfl⟩

theorem exit_mmap_exact_small : ∃ m m₁ m₂ : Mem (freeListPmm 8).recording,
    runOps fillStep smallRecorded onePage = some m ∧ m.exitMmap ⟨[smallVma], none, 0, 1⟩ = some m₂ ∧
      TakenDown m m₁ (m₂.putPgdir 0) 0 := by
  have hops : RunMeets fillStep (FillAllowed ⟨[smallVma], none, 0, 1⟩) smallRecorded onePage := by
    apply RunMeets.of_forall
    intro s op hop
    rcases List.mem_pair.mp hop with rfl | rfl
    · trivial
    · exact fun _ => ⟨smallVma, List.mem_singleton_self _, by decide⟩
  obtain ⟨m, hm⟩ : ∃ m, runOps fillStep smallRecorded onePage = some m := ⟨_, rfl⟩
  have hd : m.pgdir 0 = some (((Pgdir.empty.setPde1 userBase ⟨2, fun _ => none⟩).setPde0
      userBase ⟨3, fun _ => 0⟩).setEntry userBase (pteCreate 1 (pteV ||| 0x17))) := by
    rw [← Option.some.inj hm]
    rfl
  obtain ⟨m₁, m₂, -, h₂, hiff⟩ := exit_mmap_exact (fun _ => rfl) (fun _ _ => rfl) hops hm
    (by rw [hd]; rfl)
  refine ⟨m, m₁, m₂, hm, h₂, hiff.mpr ?_⟩
  have hdir : (Pgdir.empty.setPde1 userBase ⟨2, fun _ => none⟩).pde1 (pdx1 userBase) =
      some ⟨2, fun _ => none⟩ := rfl
  obtain ⟨hmid, hlast⟩ := Pgdir.pages_setPde0 hdir ⟨3, fun _ => 0⟩
  intro i hi
  -- the only middle-level table is that of the first chunk
  have hzero : i = 0 := by
    by_contra hne
    unfold HasDir at hi
    simp only [tableAt, hd, Option.bind_some, (Pgdir.pages_setEntry _ _ _).1, hmid] at hi
    rw [Pgdir.middlePage_setPde1_new, if_neg (show ¬ i = pdx1 userBase from hne)] at hi
    exact Bool.false_ne_true hi
  subst hzero
  have htab : ∀ j, j ∈ m.tablesOf 0 0 ↔ j = 1 := by
    intro j
    have hj : m.tableAt (.last 0 0 j) = if j = 1 then some 3 else none := by
      simp only [tableAt, hd, Option.bind_some, (Pgdir.pages_setEntry _ _ _).2, hlast]
      by_cases hj : j = 1
      · rw [if_pos hj, if_pos ⟨rfl, hj⟩]
      · rw [if_neg hj, if_neg (fun hbad => hj hbad.2), Pgdir.lastPage_setPde1_new rfl]
        rfl
    unfold tablesOf
    rw [Set.mem_ofPred_eq, hj]
    by_cases hj : j = 1
    · simp [hj]
    · simp [hj]
  refine ⟨[], smallVma.slots 0, [], rfl, ⟨⟨1, mem_smallVma_slots⟩, ?_⟩, by simp, ?_⟩
  · intro j hj
    rw [seen_nil, Set.sdiff_empty]
    exact (htab j).mpr (smallVma_slots hj)
  · intro j hj
    refine ⟨smallVma.slots 0, List.mem_singleton_self _, ?_⟩
    rw [(htab j).mp hj]
    exact mem_smallVma_slots

/-- The area at the start of the next 2 MB slot. -/
def nextVma : Vma where
  vmStart := userBase + ptSize
  vmEnd := userBase + ptSize + pgSize
  vmFlags := vmWrite
  start_aligned := by decide
  end_aligned := by decide
  user := by decide

theorem nextArea_lt_userTop : userBase + ptSize < userTop := by decide

/-- One page in each of two areas that share a middle-level table. -/
def twoPages : List FillOp :=
  onePage ++ [.user (.pgdirAllocPage 0 ⟨userBase + ptSize, nextArea_lt_userTop⟩ ⟨0x17, rwFlags_lt⟩)]

/-- The scan of the first area gives back the middle-level table, and the table of the
second area is never given back. -/
theorem shared_directory_leaks_table : ∃ m m₁ m₂ : Mem (freeListPmm 8).recording,
    RunMeets fillStep (FillAllowed ⟨[smallVma, nextVma], none, 0, 2⟩) smallRecorded twoPages ∧
      runOps fillStep smallRecorded twoPages = some m ∧
      m.unmapAreas 0 [smallVma, nextVma] = some m₁ ∧
      m.exitMmap ⟨[smallVma, nextVma], none, 0, 2⟩ = some m₂ ∧
      ¬ TakenDown m m₁ (m₂.putPgdir 0) 0 := by
  have hops : RunMeets fillStep (FillAllowed ⟨[smallVma, nextVma], none, 0, 2⟩) smallRecorded
      twoPages := by
    apply RunMeets.of_forall
    intro s op hop
    rcases List.mem_append.mp hop with hop | hop
    · rcases List.mem_pair.mp hop with rfl | rfl
      · trivial
      · exact fun _ => ⟨smallVma, List.mem_cons_self, by decide⟩
    · obtain rfl := List.mem_singleton.mp hop
      exact fun _ => ⟨nextVma, List.mem_cons_of_mem _ (List.mem_singleton_self _), by decide⟩
  obtain ⟨m, hm⟩ : ∃ m, runOps fillStep smallRecorded twoPages = some m := ⟨_, rfl⟩
  have heq := Option.some.inj hm
  obtain ⟨hi, hin⟩ := fill_run (fun _ => rfl) (fun _ _ => rfl) hops hm
  have hsome : (m.pgdir 0).isSome := by
    rw [← heq]
    rfl
  obtain ⟨m₁, m₂, h₁, h₂, hiff⟩ := hi.exitMmap_takenDown hin hsome
  refine ⟨m, m₁, m₂, hops, hm, h₁, h₂, ?_⟩
  intro hdown
  have hdir : m.HasDir 0 0 := by
    rw [← heq]
    rfl
  have hfirst : 1 ∈ m.tablesOf 0 0 := by
    rw [← heq]
    rfl
  have hsecond : 2 ∈ m.tablesOf 0 0 := by
    rw [← heq]
    rfl
  have hfull : FullScan (m.tablesOf 0 0) (smallVma.slots 0) := by
    refine ⟨⟨1, mem_smallVma_slots⟩, fun j hj => ?_⟩
    rw [smallVma_slots hj]
    exact hfirst
  rcases (sweptClean_iff.mpr (hiff.mp hdown 0 hdir)).2 2 hsecond with h | h
  · exact absurd (smallVma_slots h.2) (by decide)
  · exact h.1 hfull

end Mem
end Ucore.Vm
