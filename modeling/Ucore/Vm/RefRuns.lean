import Ucore.Library.Run
import Ucore.Vm.Vma

/-!
Runs of the operations that change user page tables, in any order and over any
number of directories.
-/
namespace Ucore.Vm

open Library

/-- The operations on user page tables, with arguments as their callers pass them:
user addresses, and permissions that are flag bits. -/
inductive UserOp where
  | setupPgdir
  | pgdirAllocPage (pd : ℕ) (la : Fin userTop) (perm : Fin pteFlagLimit)
  | pageRemove (pd : ℕ) (la : Fin userTop)
  | copyRange (share : Bool) (dst src start stop : ℕ) (apart : dst ≠ src)
  | doPgfault (mm : Mm) (errorCode addr : ℕ)
  | unmapRange (pd start stop : ℕ)

namespace Mem

variable {M : PmmManager} {K F : Set ℕ} {m m' : Mem M}

def userStep (m : Mem M) : UserOp → Option (Mem M)
  | .setupPgdir => some m.setupPgdir.2
  | .pgdirAllocPage pd la perm => (m.pgdirAllocPage pd la perm).map Prod.snd
  | .pageRemove pd la => m.pageRemove pd la
  | .copyRange share dst src start stop _ => (m.copyRange share dst src start stop).map Prod.snd
  | .doPgfault mm errorCode addr => (m.doPgfault mm errorCode addr).map (fun r => r.2.1)
  | .unmapRange pd start stop => m.unmapRange pd start stop

/-- Every operation keeps the reference-count invariant. -/
theorem RefInv.userStep (hi : RefInv K F m) {op : UserOp} (h : m.userStep op = some m') :
    RefInv K F m' := by
  cases op with
  | setupPgdir => exact Option.some.inj h ▸ hi.setupPgdir.1
  | pgdirAllocPage pd la perm =>
    obtain ⟨⟨r, m₁⟩, hop, rfl⟩ := Option.map_eq_some_iff.mp h
    exact (hi.pgdirAllocPage la.isLt perm.isLt hop).1
  | pageRemove pd la => exact hi.pageRemove la.isLt h
  | copyRange share dst src start stop apart =>
    obtain ⟨⟨r, m₁⟩, hop, rfl⟩ := Option.map_eq_some_iff.mp h
    exact (hi.copyRange apart hop).1
  | doPgfault mm errorCode addr =>
    obtain ⟨⟨r, m₁, mm₁⟩, hop, rfl⟩ := Option.map_eq_some_iff.mp h
    exact (hi.doPgfault hop).1
  | unmapRange pd start stop => exact (hi.unmapRange h).1

/-- Before any directory exists, every free page is kept. -/
theorem refInv_of_no_pgdir (hempty : ∀ pd, m.pgdir pd = none)
    (hfree : ∀ p, m.IsFree p → m.ref p = 0) : RefInv {p | m.IsFree p} ∅ m := by
  have hentry : ∀ pd la, m.entry pd la = 0 := fun pd la => by simp [entry, hempty]
  have hholds : ∀ k, m.holds k = none := fun k => by simp [holds, slotEntry, hentry]
  have hcount : ∀ p, holders (slots M) m.holds p = 0 := by
    intro p
    by_contra hne
    obtain ⟨k, -, hk⟩ := holders_pos_iff.mp (Nat.pos_of_ne_zero hne)
    rw [hholds] at hk
    exact absurd hk (by simp)
  have htab : ∀ t, m.tableAt t = none := fun t => by cases t <;> simp [tableAt, hempty]
  refine ⟨⟨?_, ?_, ?_⟩, ?_, ?_, ?_, ?_, ?_⟩
  · intro p hp
    rw [hcount] at hp
    exact absurd hp (lt_irrefl 0)
  · intro k _ hw
    simp [Writable, slotEntry, hentry] at hw
  · exact fun p hp => ⟨hcount p, hfree p hp⟩
  · intro k _ p hp
    rw [hholds] at hp
    exact absurd hp (by simp)
  · exact fun p hp => absurd hp (Set.notMem_empty p)
  · rintro p ⟨t, ht⟩
    rw [htab] at ht
    exact absurd ht (by simp)
  · intro a b p ha
    rw [htab] at ha
    exact absurd ha (by simp)
  · exact fun p hp => Or.inl hp

/-- The run of a list of operations keeps the invariant. -/
theorem refInv_run (hempty : ∀ pd, m.pgdir pd = none) (hfree : ∀ p, m.IsFree p → m.ref p = 0)
    {ops : List UserOp} (h : runOps userStep m ops = some m') :
    RefInv {p | m.IsFree p} ∅ m' :=
  runOps_invariant (fun _ _ _ hi => hi.userStep) (refInv_of_no_pgdir hempty hfree) h

/-- A page that was free at first and holds no table: its count is the number of
entries that point to it, and it is free exactly when there are none. -/
theorem RefInv.count_eq (hi : RefInv K ∅ m) {p : ℕ} (hp : p ∈ K) (hnt : ¬ m.IsTable p) :
    m.ref p = m.mapCount p ∧ (m.IsFree p ↔ m.mapCount p = 0) := by
  rcases hi.kept p hp with hf | hm | ht | hF
  · obtain ⟨hc, hr⟩ := hi.counted.unused p hf
    have hc' : m.mapCount p = 0 := hc
    exact ⟨by rw [hr, hc']; rfl, fun _ => hc', fun _ => hf⟩
  · refine ⟨hi.counted.ref_eq p hm, fun hf => (hi.counted.unused p hf).1, fun h0 => ?_⟩
    omega
  · exact absurd ht hnt
  · exact absurd hF (Set.notMem_empty p)

/-- A writable entry points to a page with one reference. -/
theorem RefInv.ref_of_writable (hi : RefInv K F m) {pd la : ℕ} (hla : la < userTop)
    (hv : hasFlag (m.entry pd la) pteV = true) (hw : hasFlag (m.entry pd la) pteW = true) :
    m.ref (ptePpn (m.entry pd la)) = 1 := by
  have hk := hi.mem_slots_of_valid hla hv
  have hwrite : m.Writable (pd, la / pgSize) := by
    unfold Writable slotEntry
    rw [entry_page]
    exact ⟨hv, hw⟩
  have hone := hi.counted.alone _ hk hwrite _ (holds_of_valid hv)
  rw [hi.counted.ref_eq _ (hi.mapCount_pos_of_valid hla hv), hone]
  rfl

/-- In every state reached from an empty set of page tables: the count of a page of
user memory is the number of entries that point to it, writable entries point to
pages with one reference, pages without entries are exactly the free ones, and
removing an entry frees its page exactly when it was the last. -/
theorem user_pages_counted {m₀ : Mem M} (hempty : ∀ pd, m₀.pgdir pd = none)
    (hfree : ∀ p, m₀.IsFree p → m₀.ref p = 0) {ops : List UserOp}
    (h : runOps userStep m₀ ops = some m) :
    (∀ p, m₀.IsFree p → ¬ m.IsTable p →
      m.ref p = m.mapCount p ∧ (m.IsFree p ↔ m.mapCount p = 0)) ∧
    (∀ pd la, la < userTop → hasFlag (m.entry pd la) pteV = true →
      m.ref (ptePpn (m.entry pd la)) = m.mapCount (ptePpn (m.entry pd la)) ∧
      ¬ m.IsFree (ptePpn (m.entry pd la)) ∧
      (hasFlag (m.entry pd la) pteW = true → m.ref (ptePpn (m.entry pd la)) = 1) ∧
      ∀ q, (m.pageRemovePte pd la).IsFree q ↔
        m.IsFree q ∨ q = ptePpn (m.entry pd la) ∧ m.mapCount q = 1) := by
  have hi := refInv_run hempty hfree h
  constructor
  · intro p hp hnt
    exact hi.count_eq hp hnt
  · intro pd la hla hv
    have hpos := hi.mapCount_pos_of_valid hla hv
    refine ⟨hi.counted.ref_eq _ hpos, hi.not_free_of_valid hla hv,
      hi.ref_of_writable hla hv, ?_⟩
    intro q
    have hrem := (hi.pageRemovePte (hasTable_of_valid hv) hla (holds_of_valid hv)).2
    rw [hrem.free]
    constructor
    · rintro (hf | ⟨rfl, hone⟩)
      · exact Or.inl hf
      · exact Or.inr ⟨rfl, hone⟩
    · rintro (hf | ⟨rfl, hone⟩)
      · exact Or.inl hf
      · exact Or.inr ⟨rfl, hone⟩

end Mem

/-- A manager that keeps the free pages in a list. -/
def freeListPmm (n : ℕ) : PmmManager where
  State := { l : List ℕ // l.Nodup ∧ ∀ p ∈ l, p < n }
  npage := n
  allocPage s :=
    match s with
    | ⟨[], _⟩ => none
    | ⟨p :: l, h⟩ => some (p, ⟨l, h.1.of_cons, fun q hq => h.2 q (List.mem_cons_of_mem p hq)⟩)
  freePage s p :=
    if h : p ∉ s.1 ∧ p < n then
      ⟨p :: s.1, List.nodup_cons.mpr ⟨h.1, s.2.1⟩, fun q hq =>
        (List.mem_cons.mp hq).elim (fun e => e ▸ h.2) (s.2.2 q)⟩
    else s
  IsFree s p := p ∈ s.1
  lt_npage s p h := s.2.2 p h
  alloc_isFree := by
    rintro ⟨l, hl⟩ p s' h
    cases l with
    | nil => exact absurd h (by simp)
    | cons q l =>
      obtain ⟨rfl, -⟩ := Prod.mk.inj (Option.some.inj h)
      exact List.mem_cons_self
  alloc_iff := by
    rintro ⟨l, hl⟩ p s' h q
    cases l with
    | nil => exact absurd h (by simp)
    | cons a l =>
      obtain ⟨rfl, rfl⟩ := Prod.mk.inj (Option.some.inj h)
      have hnotin := (List.nodup_cons.mp hl.1).1
      simp only [List.mem_cons]
      constructor
      · intro hq
        exact ⟨Or.inr hq, fun heq => hnotin (heq ▸ hq)⟩
      · rintro ⟨hq | hq, hne⟩
        · exact absurd hq hne
        · exact hq
  free_iff := by
    intro s p hnotin hlt q
    rw [dif_pos ⟨hnotin, hlt⟩]
    simp only [List.mem_cons]
    tauto

namespace Mem

/-- Eight free pages and no page table. -/
def smallMem : Mem (freeListPmm 8) where
  pmm := ⟨[0, 1, 2, 3, 4, 5, 6, 7], by decide⟩
  ref := fun _ => 0
  data := fun _ _ => 0
  pgdir := fun _ => none

/-- A page is mapped, replaced at the same address, and removed again. -/
def smallOps : List UserOp :=
  [.setupPgdir, .pgdirAllocPage 0 ⟨userBase, by decide⟩ ⟨0x17, by decide⟩,
    .pgdirAllocPage 0 ⟨userBase, by decide⟩ ⟨0x13, by decide⟩,
    .pageRemove 0 ⟨userBase, by decide⟩]

theorem user_pages_counted_small : ∃ m, runOps userStep smallMem smallOps = some m ∧
    ∀ p, smallMem.IsFree p → ¬ m.IsTable p →
      m.ref p = m.mapCount p ∧ (m.IsFree p ↔ m.mapCount p = 0) := by
  obtain ⟨m, hm⟩ := Option.isSome_iff_exists.mp
    (show (runOps userStep smallMem smallOps).isSome = true from by decide)
  exact ⟨m, hm, (user_pages_counted (fun _ => rfl) (fun _ _ => rfl) hm).1⟩

end Mem
end Ucore.Vm
