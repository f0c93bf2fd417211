import Ucore.Vm.ElfBinary
import Ucore.Vm.UserBytes
import Ucore.Vm.KernelStore

/-!
What is in the segments of a program that `load_icode` loaded. The loops over the pages of a
segment fill it from `p_va` on without a gap, each page once, unless the end of the segment is a
sum that wraps around.
-/
namespace Ucore.Vm

open Library Library.Logged

/-- The page that an event maps. -/
def LoadEvent.mapped : LoadEvent → Option ℕ
  | .alloc la => some la
  | _ => none

namespace Logged

/-- The addresses at which pages were mapped, in this order. -/
def pages {α : Type} (r : Library.Logged LoadEvent α) : List ℕ := r.log.filterMap LoadEvent.mapped

theorem pages_bind {α β : Type} {x : Library.Logged LoadEvent α} {a : α}
    (h : x.result = some a) (f : α → Library.Logged LoadEvent β) :
    pages (x >>= f) = pages x ++ pages (f a) := by
  unfold pages
  rw [log_bind_of_result h, List.filterMap_append]

theorem pages_tell_bind {β : Type} (es : List LoadEvent)
    (f : Unit → Library.Logged LoadEvent β) :
    pages (tell es >>= f) = es.filterMap LoadEvent.mapped ++ pages (f ()) := by
  unfold pages
  rw [log_tell_bind, List.filterMap_append]

end Logged

/-- `n` pages from `la` on. -/
def pagesFrom (la n : ℕ) : List ℕ := (List.range n).map fun i => la + i * pgSize

theorem pagesFrom_succ (la n : ℕ) : pagesFrom la (n + 1) = la :: pagesFrom (la + pgSize) n := by
  unfold pagesFrom
  rw [List.range_succ_eq_map, List.map_cons, List.map_map, Nat.zero_mul, Nat.add_zero]
  congr 1
  refine List.map_congr_left fun i _ => ?_
  change la + (i + 1) * pgSize = la + pgSize + i * pgSize
  rw [Nat.add_one_mul]
  omega

theorem mem_pagesFrom {la n x : ℕ} : x ∈ pagesFrom la n ↔ ∃ i < n, la + i * pgSize = x := by
  unfold pagesFrom
  rw [List.mem_map]
  simp only [List.mem_range]

theorem nodup_pagesFrom (la n : ℕ) : (pagesFrom la n).Nodup := by
  refine List.Nodup.map ?_ List.nodup_range
  intro i j hij
  have hij : la + i * pgSize = la + j * pgSize := hij
  unfold pgSize at hij
  omega

theorem pagesFrom_append (la n k : ℕ) :
    pagesFrom la n ++ pagesFrom (la + n * pgSize) k = pagesFrom la (n + k) := by
  induction n generalizing la with
  | zero =>
    rw [Nat.zero_mul, Nat.add_zero, Nat.zero_add]
    rfl
  | succ n ih =>
    have hla : la + (n + 1) * pgSize = la + pgSize + n * pgSize := by
      rw [Nat.add_one_mul]
      omega
    have hn : n + 1 + k = n + k + 1 := by omega
    rw [pagesFrom_succ, List.cons_append, hla, ih, hn, pagesFrom_succ]

namespace Mem

variable {M : PmmManager} {K F : Set ℕ} {m m' : Mem M} {copy : Bool}
  {pd perm pos start la stop : ℕ} {src : ℕ → UInt8} {page : Option ℕ}
  {hla : start < stop → la ≤ start}

/-- What a loop does that comes to its end: the bytes from `start` to `stop` are those of the
source, on pages of which only the last one is left over in part. -/
structure Fills (K F : Set ℕ) (m m' : Mem M) (pd : ℕ) (src : ℕ → UInt8)
    (pos start la stop : ℕ) (page : Option ℕ) (f : Filled) : Prop where
  ref : m'.RefInv K F
  start_eq : f.start = max start stop
  la_le : la ≤ f.la
  aligned : pgSize ∣ f.la
  ran : start < stop → stop ≤ f.la ∧ f.la < stop + pgSize ∧
    ∃ p, f.page = some p ∧ m'.PageAt pd (f.la - pgSize) p
  idle : ¬ start < stop → f.la = la ∧ f.page = page ∧ m' = m
  bytes : ∀ i, start + i < stop → m'.userByte pd (start + i) = some (src (pos + i))
  others : ∀ va, va < la ∨ f.la ≤ va → m'.userByte pd va = m.userByte pd va

theorem chunk_eq (hle : la ≤ start) (hnear : start < la + pgSize) : chunk start la stop =
    if stop < la + pgSize then stop - start else la + pgSize - start := by
  unfold chunk
  simp only
  split <;> omega

variable (pos src) in
/-- A page that the loop has mapped and written to. -/
theorem turn_bytes (hi : m.RefInv K F) {new : ℕ} {m₁ : Mem M} (hperm : perm < pteFlagLimit)
    (hlt : start < stop) (hle : la ≤ start) (halign : pgSize ∣ la) (hnear : start < la + pgSize)
    (htop : stop ≤ userTop) (ha : m.pgdirAllocPage pd la perm = some (some new, m₁)) :
    (m₁.writePage new (start - la) (chunk start la stop) src pos).RefInv K F ∧
    (m₁.writePage new (start - la) (chunk start la stop) src pos).PageAt pd la new ∧
    (∀ i, i < chunk start la stop →
      (m₁.writePage new (start - la) (chunk start la stop) src pos).userByte pd (start + i) =
        some (src (pos + i))) ∧
    ∀ va, va < la ∨ la + pgSize ≤ va →
      (m₁.writePage new (start - la) (chunk start la stop) src pos).userByte pd va =
        m.userByte pd va := by
  obtain ⟨hi₁, hat, hrest⟩ := hi.pgdirAllocPage_bytes (by omega) hperm ha
  refine ⟨hi₁.of_data _, hat.writePage _ _ _ _ _, ?_, ?_⟩
  · intro i hlt'
    have hin : start + i < la + pgSize := by
      rw [chunk_eq hle hnear] at hlt'
      split at hlt' <;> omega
    have hmod : (start + i) % pgSize = start + i - la := by
      unfold pgSize at *
      omega
    rw [hat.userByte_writePage, if_pos, hmod]
    · congr 2
      omega
    · rw [hmod]
      refine ⟨?_, by omega, by omega⟩
      unfold pgSize at *
      omega
  · intro va hva
    have hne : va / pgSize ≠ la / pgSize := by
      unfold pgSize at *
      omega
    rw [hat.userByte_writePage, if_neg fun hbad => hne hbad.1]
    exact hrest va hne

/-- A `while (start < end)` loop that comes to its end. -/
theorem RefInv.fillPages (hi : m.RefInv K F) (hperm : perm < pteFlagLimit) (halign : pgSize ∣ la)
    (hnear : start < la + pgSize) (htop : stop ≤ userTop) {f : Filled}
    (hf : (m.fillPages copy pd perm src pos start la stop page hla).result = some (some f, m')) :
    Fills K F m m' pd src pos start la stop page f ∧
      ∃ n, f.la = la + n * pgSize ∧
        Logged.pages (m.fillPages copy pd perm src pos start la stop page hla) =
          pagesFrom la n := by
  revert hf
  refine fillPages_induct (motive := fun m pos start la page r => m.RefInv K F → pgSize ∣ la →
    start < la + pgSize → r.result = some (some f, m') →
    Fills K F m m' pd src pos start la stop page f ∧
      ∃ n, f.la = la + n * pgSize ∧ Logged.pages r = pagesFrom la n) ?_ ?_ ?_ hi halign hnear
  · intro m pos start la page hlt hi halign hnear hres
    simp only [result_pure, Option.some.injEq, Prod.mk.injEq] at hres
    obtain ⟨rfl, rfl⟩ := hres
    refine ⟨⟨hi, (Nat.max_eq_left (Nat.le_of_not_lt hlt)).symm, le_rfl, halign,
      fun hbad => absurd hbad hlt, fun _ => ⟨rfl, rfl, rfl⟩, fun i hi => ?_, fun _ _ => rfl⟩,
      0, ?_, rfl⟩
    · omega
    · rw [Nat.zero_mul, Nat.add_zero]
  · exact fun m pos start la page r hlt hlog hstop _ _ _ hres => absurd hres (hstop f m')
  · intro m pos start la page new m₁ r hlt hle ha ih hi halign hnear hres
    obtain ⟨hi₂, hat, hbytes, hrest⟩ :=
      turn_bytes pos src hi hperm hlt hle halign hnear htop ha
    have hchunk : chunk start la stop = _ := chunk_eq hle hnear
    have hnear₂ : start + chunk start la stop < la + pgSize + pgSize := by
      unfold pgSize at *
      split at hchunk <;> omega
    obtain ⟨-, -, hres⟩ := result_bind_eq_some hres
    obtain ⟨hfill, n, hn, hpages⟩ := ih hi₂ (Nat.dvd_add halign (dvd_refl pgSize)) hnear₂ hres
    have hsum : la + pgSize + n * pgSize = la + (n + 1) * pgSize := by
      rw [Nat.add_one_mul]
      omega
    have hlale := hfill.la_le
    refine ⟨⟨hfill.ref, ?_, by omega, hfill.aligned, ?_, fun hbad => absurd hlt hbad, ?_, ?_⟩,
      n + 1, hn.trans hsum, ?_⟩
    · rw [hfill.start_eq]
      unfold pgSize at *
      split at hchunk <;> omega
    · intro _
      by_cases hmore : start + chunk start la stop < stop
      · exact hfill.ran hmore
      · obtain ⟨hla, hpage, hm⟩ := hfill.idle hmore
        refine ⟨?_, ?_, new, hpage, ?_⟩
        · split at hchunk <;> omega
        · split at hchunk <;> omega
        · rw [hla, Nat.add_sub_cancel, hm]
          exact hat
    · intro i hlt'
      by_cases hin : i < chunk start la stop
      · rw [hfill.others (start + i) (Or.inl (by split at hchunk <;> omega))]
        exact hbytes i hin
      · have hlater := hfill.bytes (i - chunk start la stop) (by omega)
        have hstart : start + chunk start la stop + (i - chunk start la stop) = start + i := by
          omega
        have hpos : pos + chunk start la stop + (i - chunk start la stop) = pos + i := by omega
        rwa [hstart, hpos] at hlater
    · intro va hva
      rw [hfill.others va (by omega)]
      exact hrest va (by omega)
    · rw [Logged.pages_tell_bind, hpages, pagesFrom_succ]
      cases copy <;> rfl

/-- The zeros on the last page of the data. -/
theorem PageAt.tail_bytes {p : ℕ} (h : m.PageAt pd (la - pgSize) p) (size : ℕ) (halign : pgSize ∣ la)
    (hpage : la ≤ start + pgSize) (hlt : start < la) (hsize : start + size ≤ la) (va : ℕ) :
    (m.writePage p (start + pgSize - la) size (fun _ => 0) 0).userByte pd va =
      if start ≤ va ∧ va < start + size then some 0 else m.userByte pd va := by
  rw [h.userByte_writePage]
  have hiff : (va / pgSize = (la - pgSize) / pgSize ∧ start + pgSize - la ≤ va % pgSize ∧
      va % pgSize < start + pgSize - la + size) ↔ start ≤ va ∧ va < start + size := by
    unfold pgSize at *
    omega
  simp only [hiff]

theorem tailWord_eq {f : Filled} (hpage : f.la ≤ f.start + pgSize) (hlt : f.start < f.la)
    (hla : f.la < wordLimit) (hstop : f.start ≤ stop) :
    tailWord f stop = min stop f.la - f.start := by
  unfold tailWord wordLimit pgSize at *
  simp only
  split <;> omega

end Mem

namespace Mm

variable {mm mm' : Mm} {r : MapRequest}

theorem createVma_accepted (hu : userAccess r.start r.stop) (h : mm.createVma r hu = some (0, mm')) :
    mm.insertVmaStruct (r.vma hu) = some mm' := by
  unfold createVma at h
  split at h
  · obtain ⟨mm₁, hmm₁, heq⟩ := Option.map_eq_some_iff.mp h
    rw [hmm₁, (Prod.mk.inj heq).2]
  · exact absurd (Option.some.inj h) (by simp [eNoMem])

/-- A request that `mm_map` accepts adds an area apart from all others. -/
theorem Sorted.mapRequest_accepted (hs : mm.Sorted) (h : mm.mapRequest r = some (0, mm')) :
    userAccess r.start r.stop ∧
      ∃ v : Vma, v.vmStart = r.start ∧ v.vmEnd = r.stop ∧ Mapped mm mm' v := by
  unfold mapRequest at h
  split at h
  · rename_i hu
    have hmapped : ∀ {mm₁ : Mm}, SameAreas mm mm₁ → mm₁.createVma r hu = some (0, mm') →
        Mapped mm mm' (r.vma hu) := by
      intro mm₁ hsame hcreate
      obtain ⟨hsort, hpg, hareas, hapart⟩ :=
        (hsame.sorted hs).insertVmaStruct (createVma_accepted hu hcreate)
      rw [hsame.mmapList] at hareas hapart
      exact ⟨hsort, hpg.trans hsame.pgdir, hareas, hapart⟩
    refine ⟨hu, r.vma hu, rfl, rfl, ?_⟩
    have hfound := mm.findVma_sameAreas r.start
    split at h
    · rename_i v mm₁ hfind
      rw [hfind] at hfound
      split at h
      · exact absurd (Option.some.inj h) (by simp [eInval])
      · exact hmapped hfound h
    · rename_i mm₁ hfind
      rw [hfind] at hfound
      exact hmapped hfound h
  · exact absurd (Option.some.inj h) (by simp [eInval])

end Mm

/-- The byte that a segment asks for at an address: from the file, or a zero of the BSS. -/
def ElfProghdr.content (h : ElfProghdr) (b : Binary) (va : ℕ) : UInt8 :=
  if va < h.pVa + h.pFilesz then b.bytes (h.pOffset + (va - h.pVa)) else 0

theorem ElfProghdr.perm_lt (h : ElfProghdr) : h.perm < 2 ^ 5 := by
  unfold perm
  split <;> split <;> split <;> decide

namespace LoadState

variable {M : PmmManager} {K F : Set ℕ} {s s' : LoadState M} {b : Binary}

/-- What was done by a piece of `load_icode` that fills the addresses from `start` to `stop`: the
bytes there are `want`, all others outside of the pages from `la` on are as before, and each of
these pages was mapped once. -/
structure Loads {α : Type} (K F : Set ℕ) (s s' : LoadState M) (r : Library.Logged LoadEvent α)
    (want : ℕ → UInt8) (start la stop n : ℕ) : Prop where
  ref : s'.mem.RefInv K F
  mm : s'.mm = s.mm
  bytes : ∀ va, start ≤ va → va < stop → s'.mem.userByte s.mm.pgdir va = some (want va)
  others : ∀ va, va < start ∨ stop ≤ va → va < la ∨ la + n * pgSize ≤ va →
    s'.mem.userByte s.mm.pgdir va = s.mem.userByte s.mm.pgdir va
  pages : Logged.pages r = pagesFrom la n
  checks : LoadEvent.check false ∉ r.log

theorem fillPages_no_check {m : Mem M} {copy : Bool} {pd perm pos start la stop : ℕ}
    {src : ℕ → UInt8} {page : Option ℕ} {hla : start < stop → la ≤ start} {ok : Bool} :
    LoadEvent.check ok ∉ (m.fillPages copy pd perm src pos start la stop page hla).log := by
  refine Mem.fillPages_induct (motive := fun _ _ _ _ _ r => LoadEvent.check ok ∉ r.log) ?_ ?_ ?_
  · exact fun _ _ _ _ _ _ => List.not_mem_nil
  · intro m pos start la page r hlt hlog hres
    rw [hlog]
    exact List.not_mem_nil
  · intro m pos start la page new m₁ r hlt hle ha ih hmem
    rcases List.mem_append.mp (by rwa [log_tell_bind] at hmem) with hmem | hmem
    · cases copy <;> simp at hmem
    · exact ih hmem

/-- The BSS loop. -/
theorem zeroPages_loads (hi : s.mem.RefInv K F) {perm start la stop : ℕ}
    {hla : start < stop → la ≤ start} (hperm : perm < pteFlagLimit) (halign : pgSize ∣ la)
    (hnear : start < la + pgSize) (htop : stop ≤ userTop)
    (h : (s.zeroPages perm start la stop hla).result = some (0, s')) :
    ∃ n, Loads K F s s' (s.zeroPages perm start la stop hla) (fun _ => 0) start la stop n ∧
      (start < stop → stop ≤ la + n * pgSize ∧ la + n * pgSize < stop + pgSize) ∧
      (¬ start < stop → n = 0) := by
  unfold LoadState.zeroPages at h ⊢
  obtain ⟨⟨f, m₁⟩, hf, h⟩ := result_bind_eq_some h
  cases f with
  | none => exact absurd (Option.some.inj h) (by simp [eNoMem])
  | some f =>
    simp only [result_pure, Option.some.injEq, Prod.mk.injEq, true_and] at h
    subst h
    obtain ⟨hfill, n, hn, hpages⟩ := hi.fillPages hperm halign hnear htop hf
    refine ⟨n, ⟨hfill.ref, rfl, ?_, ?_, ?_, ?_⟩, ?_, ?_⟩
    · intro va hge hlt
      have hbyte := hfill.bytes (va - start) (by omega)
      rwa [Nat.add_sub_cancel' hge] at hbyte
    · intro va _ hva
      exact hfill.others va (hn ▸ hva)
    · rw [Logged.pages_bind hf, hpages]
      exact List.append_nil _
    · rw [log_bind_of_result hf, List.mem_append]
      exact fun hbad => hbad.elim fillPages_no_check List.not_mem_nil
    · intro hlt
      obtain ⟨h1, h2, -⟩ := hfill.ran hlt
      exact ⟨hn ▸ h1, hn ▸ h2⟩
    · intro hlt
      have hla' := (hfill.idle hlt).1
      unfold pgSize at *
      omega

/-- The BSS of a segment whose data ends at `f.start`, with the page in which it ends. -/
theorem loadTail_loads (hi : s.mem.RefInv K F) {perm stop : ℕ} {f : Mem.Filled}
    (hperm : perm < pteFlagLimit) (halign : pgSize ∣ f.la) (hnear : f.start < f.la + pgSize)
    (hpage : f.start < f.la → f.la < f.start + pgSize ∧
      ∃ p, f.page = some p ∧ s.mem.PageAt s.mm.pgdir (f.la - pgSize) p)
    (hle : f.start ≤ stop) (htop : stop ≤ userTop)
    (h : (s.loadTail perm f stop).result = some (0, s')) :
    ∃ n, Loads K F s s' (s.loadTail perm f stop) (fun _ => 0) f.start f.la stop n ∧
      (f.start < stop → stop ≤ f.la + n * pgSize ∧ f.la + n * pgSize < stop + pgSize) ∧
      (¬ f.start < stop → n = 0) := by
  unfold LoadState.loadTail at h ⊢
  by_cases hlt : f.start < f.la
  · obtain ⟨hroom, p, hp, hat⟩ := hpage hlt
    have hla : f.la < wordLimit := by
      unfold wordLimit userTop pgSize at *
      omega
    have hsize : Mem.tailWord f stop = _ := Mem.tailWord_eq hroom.le hlt hla hle
    rw [dif_pos hlt] at h ⊢
    by_cases heq : f.start = stop
    · -- there is no BSS
      rw [if_pos heq] at h ⊢
      simp only [result_pure, Option.some.injEq, Prod.mk.injEq, true_and] at h
      subst h
      refine ⟨0, ⟨hi, rfl, fun va h1 h2 => ?_, fun _ _ _ => rfl, rfl, List.not_mem_nil⟩, ?_, ?_⟩
      · omega
      · exact fun hbad => absurd heq hbad.ne
      · exact fun _ => rfl
    · rw [if_neg heq] at h ⊢
      simp only [hp] at h ⊢
      have hfits : ¬ pgSize < f.start + pgSize - f.la + Mem.tailWord f stop := by
        rw [hsize]
        omega
      rw [if_neg hfits] at h ⊢
      have hsum : (f.start + Mem.tailWord f stop) % wordLimit = min stop f.la := by
        rw [hsize, Nat.mod_eq_of_lt] <;> omega
      have hcheck : (stop < f.la ∧ (f.start + Mem.tailWord f stop) % wordLimit = stop) ∨
          (stop ≥ f.la ∧ (f.start + Mem.tailWord f stop) % wordLimit = f.la) := by
        rw [hsum]
        omega
      rw [dif_pos hcheck] at h ⊢
      obtain ⟨-, -, h⟩ := result_bind_eq_some h
      have hnear' : (f.start + Mem.tailWord f stop) % wordLimit < f.la + pgSize := by
        rw [hsum]
        unfold pgSize
        omega
      obtain ⟨n, hz, hran, hidle⟩ := zeroPages_loads (s := ⟨s.mem.writePage p _ _ _ _, s.mm, s.page⟩)
        (hi.of_data _) hperm halign hnear' htop h
      have htail := hat.tail_bytes (Mem.tailWord f stop) halign hroom.le hlt
        (by rw [hsize]; omega)
      refine ⟨n, ⟨hz.ref, hz.mm, ?_, ?_, ?_, ?_⟩, ?_, ?_⟩
      · intro va hge hva
        by_cases hin : va < (f.start + Mem.tailWord f stop) % wordLimit
        · rw [hz.others va (Or.inl hin) (Or.inl (by rw [hsum] at hin; omega)), htail, if_pos]
          rw [hsum] at hin
          omega
        · exact hz.bytes va (Nat.le_of_not_lt hin) hva
      · intro va hout hpages
        rw [hz.others va (by rw [hsum]; omega) hpages, htail, if_neg]
        omega
      · rw [Logged.pages_tell_bind]
        exact hz.pages
      · rw [log_tell_bind, List.mem_append, List.mem_singleton, decide_eq_true hcheck]
        exact fun hbad => hbad.elim (by simp) hz.checks
      · intro _
        by_cases hmore : (f.start + Mem.tailWord f stop) % wordLimit < stop
        · exact hran hmore
        · rw [hidle hmore, Nat.zero_mul, Nat.add_zero]
          rw [hsum] at hmore
          omega
      · exact fun hbad => absurd (Nat.le_antisymm hle (Nat.le_of_not_lt hbad)) heq
  · rw [dif_neg hlt] at h ⊢
    exact zeroPages_loads hi hperm halign hnear htop h

/-- A segment that was loaded: text and data from the file, then zeros. -/
theorem loadData_loads (hi : s.mem.RefInv K F) {ph : ℕ} {hd : ElfProghdr}
    (hsize : hd.pFilesz ≤ hd.pMemsz) (htop : hd.pVa + hd.pMemsz ≤ userTop)
    (h : (s.loadData b ph hd).result = some (0, s')) :
    ∃ n, Loads K F s s' (s.loadData b ph hd) (hd.content b) hd.pVa (roundDown hd.pVa pgSize)
        (hd.pVa + hd.pMemsz) n ∧
      (0 < hd.pMemsz → hd.pVa + hd.pMemsz ≤ roundDown hd.pVa pgSize + n * pgSize ∧
        roundDown hd.pVa pgSize + n * pgSize < hd.pVa + hd.pMemsz + pgSize) ∧
      (¬ 0 < hd.pMemsz → n = 0) := by
  unfold LoadState.loadData at h ⊢
  obtain ⟨-, -, h⟩ := result_bind_eq_some h
  obtain ⟨⟨f, m₁⟩, hf, h⟩ := result_bind_eq_some h
  have hlimit : userTop < wordLimit := by decide
  have hfile : hd.fileEnd = hd.pVa + hd.pFilesz := Nat.mod_eq_of_lt (by omega)
  have hmem : hd.memEnd = hd.pVa + hd.pMemsz := Nat.mod_eq_of_lt (by omega)
  cases f with
  | none => exact absurd (Option.some.inj h) (by simp [eNoMem])
  | some f =>
    have hperm := lt_pteFlagLimit_of_user hd.perm_lt
    have hnear := lt_roundDown_page hd.pVa
    have hdown := roundDown_le hd.pVa pgSize
    obtain ⟨hfill, n₁, hn₁, hpages₁⟩ := hi.fillPages hperm (Nat.dvd_of_mod_eq_zero
      (roundDown_aligned hd.pVa pgSize)) hnear (by omega) hf
    have hstart : f.start = hd.pVa + hd.pFilesz := by
      rw [hfill.start_eq, hfile]
      omega
    have hran := hfill.ran
    have hidle := hfill.idle
    rw [hfile] at hran hidle
    have hnear₁ : f.start < f.la + pgSize := by
      by_cases hpos : hd.pVa < hd.pVa + hd.pFilesz
      · have := hran hpos
        unfold pgSize
        omega
      · rw [(hidle hpos).1]
        omega
    have hlast : f.start < f.la → f.la < f.start + pgSize ∧
        ∃ p, f.page = some p ∧ m₁.PageAt s.mm.pgdir (f.la - pgSize) p := by
      intro hlt
      by_cases hpos : hd.pVa < hd.pVa + hd.pFilesz
      · rw [hstart]
        exact (hran hpos).2
      · rw [(hidle hpos).1] at hlt
        omega
    simp only at h
    obtain ⟨n₂, htail, hran₂, hidle₂⟩ := loadTail_loads (s := ⟨m₁, s.mm, f.page⟩) hfill.ref hperm
      hfill.aligned hnear₁ hlast (by omega) (by omega) h
    have hsum : f.la + n₂ * pgSize = roundDown hd.pVa pgSize + (n₁ + n₂) * pgSize := by
      rw [Nat.add_mul]
      omega
    refine ⟨n₁ + n₂, ⟨htail.ref, htail.mm, ?_, ?_, ?_, ?_⟩, ?_, ?_⟩
    · intro va hge hlt
      unfold ElfProghdr.content
      by_cases hin : va < hd.pVa + hd.pFilesz
      · have hla := (hran (by omega)).1
        have hbyte := hfill.bytes (va - hd.pVa) (by omega)
        rw [Nat.add_sub_cancel' hge] at hbyte
        rw [if_pos hin, htail.others va (by omega) (by omega)]
        exact hbyte
      · rw [if_neg hin]
        exact htail.bytes va (by omega) (by omega)
    · intro va hout hpages
      rw [htail.others va (by omega) (by omega)]
      exact hfill.others va (by omega)
    · rw [Logged.pages_tell_bind, Logged.pages_bind hf, hpages₁]
      change [] ++ (_ ++ Logged.pages (loadTail _ _ _ _)) = _
      rw [htail.pages, hn₁, pagesFrom_append, List.nil_append]
    · rw [log_tell_bind, log_bind_of_result hf, List.mem_append, List.mem_append]
      rintro (hbad | hbad | hbad)
      · simp at hbad
      · exact fillPages_no_check hbad
      · exact htail.checks hbad
    · intro hpos
      by_cases hmore : f.start < hd.memEnd
      · have := hran₂ hmore
        omega
      · rw [hidle₂ hmore, Nat.zero_mul, Nat.add_zero] at hsum
        have := hran (by omega)
        rw [hidle₂ hmore]
        omega
    · intro hzero
      have hla := (hidle (by omega)).1
      have hn₂ := hidle₂ (by omega)
      unfold pgSize at *
      omega

/-- The ranges of the segments `hs` that are loaded hold what they ask for, each in an area, and
their pages were mapped once. -/
structure Contents (K F : Set ℕ) (b : Binary) (hs : List ElfProghdr) (s : LoadState M)
    (ps : List ℕ) : Prop where
  ref : s.mem.RefInv K F
  sorted : s.mm.Sorted
  bytes : ∀ h ∈ hs, ∀ va, h.pVa ≤ va → va < h.pVa + h.pMemsz →
    s.mem.userByte s.mm.pgdir va = some (h.content b va)
  inside : ∀ h ∈ hs, ∀ va, h.pVa ≤ va → va < h.pVa + h.pMemsz →
    s.mm.InArea va ∧ roundDown va pgSize ∈ ps
  nodup : ps.Nodup
  areas : ∀ x ∈ ps, pgSize ∣ x ∧ s.mm.InArea x

/-- Pages from the start of an area on. -/
theorem mem_pagesFrom_area {v : Vma} {n x : ℕ} (hend : v.vmStart + n * pgSize ≤ v.vmEnd)
    (hx : x ∈ pagesFrom v.vmStart n) : pgSize ∣ x ∧ v.Contains x := by
  obtain ⟨i, hi, rfl⟩ := mem_pagesFrom.mp hx
  have haligned := v.start_aligned
  refine ⟨?_, ?_, ?_⟩
  · unfold pgSize at *
    omega
  · omega
  · unfold pgSize at *
    omega

/-- A new area, whose bytes are written to and whose pages are mapped. -/
theorem Contents.extend {hs : List ElfProghdr} {ps : List ℕ} {s₁ : LoadState M}
    (h : Contents K F b hs s ps) {v : Vma} (hm : s.mm.Mapped s₁.mm v) (hmm : s'.mm = s₁.mm)
    (href : s'.mem.RefInv K F) {qs : List ℕ} (hnodup : qs.Nodup)
    (hin : ∀ x ∈ qs, pgSize ∣ x ∧ v.Contains x)
    (hothers : ∀ va, va < v.vmStart ∨ v.vmEnd ≤ va →
      s'.mem.userByte s.mm.pgdir va = s.mem.userByte s.mm.pgdir va) :
    Contents K F b hs s' (ps ++ qs) := by
  have hnew : ∀ {x : ℕ}, s.mm.InArea x → s'.mm.InArea x := by
    intro x hx
    obtain ⟨w, hw, hc⟩ := hx
    rw [hmm]
    exact ⟨w, (hm.areas w).mpr (Or.inr hw), hc⟩
  have hapart : ∀ {x : ℕ}, s.mm.InArea x → x < v.vmStart ∨ v.vmEnd ≤ x := by
    intro x hx
    obtain ⟨w, hw, hc⟩ := hx
    have h1 := hc.1
    have h2 := hc.2
    rcases hm.apart w hw with h3 | h3 <;> omega
  have hpg : s'.mm.pgdir = s.mm.pgdir := by rw [hmm, hm.pgdir]
  refine ⟨href, hmm ▸ hm.sorted, ?_, ?_, ?_, ?_⟩
  · intro hd hhd va hge hlt
    rw [hpg, hothers va (hapart (h.inside hd hhd va hge hlt).1)]
    exact h.bytes hd hhd va hge hlt
  · intro hd hhd va hge hlt
    obtain ⟨harea, hpage⟩ := h.inside hd hhd va hge hlt
    exact ⟨hnew harea, List.mem_append_left _ hpage⟩
  · refine List.nodup_append.mpr ⟨h.nodup, hnodup, ?_⟩
    intro x hx y hy heq
    have hc := (hin y hy).2
    rcases hapart (h.areas x hx).2 with h1 | h1
    · exact absurd hc.1 (by omega)
    · exact absurd hc.2 (by omega)
  · intro x hx
    rcases List.mem_append.mp hx with hx | hx
    · exact ⟨(h.areas x hx).1, hnew (h.areas x hx).2⟩
    · exact ⟨(hin x hx).1, v, hmm ▸ (hm.areas v).mpr (Or.inl rfl), (hin x hx).2⟩

theorem Contents.add {hs : List ElfProghdr} {ps : List ℕ} (h : Contents K F b hs s ps)
    {hd : ElfProghdr} (hbytes : ∀ va, hd.pVa ≤ va → va < hd.pVa + hd.pMemsz →
      s.mem.userByte s.mm.pgdir va = some (hd.content b va))
    (hinside : ∀ va, hd.pVa ≤ va → va < hd.pVa + hd.pMemsz →
      s.mm.InArea va ∧ roundDown va pgSize ∈ ps) : Contents K F b (hs ++ [hd]) s ps := by
  refine ⟨h.ref, h.sorted, ?_, ?_, h.nodup, h.areas⟩
  · intro x hx
    rcases List.mem_append.mp hx with hx | hx
    · exact h.bytes x hx
    · rw [List.mem_singleton.mp hx]
      exact hbytes
  · intro x hx
    rcases List.mem_append.mp hx with hx | hx
    · exact h.inside x hx
    · rw [List.mem_singleton.mp hx]
      exact hinside

/-- The segments among some program headers. -/
def loadable (hs : List ElfProghdr) : List ElfProghdr :=
  hs.filter fun h => decide (h.pType = elfPtLoad)

/-- A segment for which `mm_map` made room. -/
theorem Contents.loadSegment {hs : List ElfProghdr} {ps : List ℕ} (hc : Contents K F b hs s ps)
    {kmem : Bool} {ph : ℕ} (hd : ElfProghdr) {mm : Mm} (hsize : hd.pFilesz ≤ hd.pMemsz)
    (hwrap : hd.pVa + hd.pMemsz < wordLimit)
    (hmap : s.mm.mapRequest (hd.request kmem) = some (0, mm))
    (h : (loadData { s with mm := mm } b ph hd).result = some (0, s')) :
    LoadEvent.check false ∉ (loadData { s with mm := mm } b ph hd).log ∧
      Contents K F b (hs ++ [hd]) s' (ps ++ Logged.pages (loadData { s with mm := mm } b ph hd)) := by
  obtain ⟨huser, v, hstart, hend, hm⟩ := hc.sorted.mapRequest_accepted hmap
  rw [(hd.request kmem).stop_eq huser hwrap] at hend huser
  have htop := huser.2.2
  have hup := le_roundUp_page (hd.pVa + hd.pMemsz)
  change v.vmStart = roundDown hd.pVa pgSize at hstart
  change v.vmEnd = roundUp (hd.pVa + hd.pMemsz) pgSize at hend
  change roundUp (hd.pVa + hd.pMemsz) pgSize ≤ userTop at htop
  have hdown := roundDown_le hd.pVa pgSize
  obtain ⟨n, hl, hran, hidle⟩ := loadData_loads (s := { s with mm := mm }) hc.ref hsize
    (hup.trans htop) h
  have hfit : v.vmStart + n * pgSize ≤ v.vmEnd := by
    rw [hstart, hend]
    by_cases hpos : 0 < hd.pMemsz
    · have := (hran hpos).2
      unfold roundUp roundDown pgSize at *
      omega
    · rw [hidle hpos]
      unfold roundUp roundDown pgSize at *
      omega
  refine ⟨hl.checks, ?_⟩
  rw [hl.pages, ← hstart]
  have hext := hc.extend (show s.mm.Mapped ({ s with mm := mm } : LoadState M).mm _ from hm) hl.mm hl.ref (nodup_pagesFrom _ n)
    (fun x => mem_pagesFrom_area hfit) ?_
  · refine hext.add ?_ ?_
    · intro va hge hlt
      rw [hl.mm]
      exact hl.bytes va hge hlt
    · intro va hge hlt
      refine ⟨⟨v, ?_, by omega, by omega⟩, List.mem_append_right _ (mem_pagesFrom.mpr ?_)⟩
      · rw [hl.mm]
        exact (hm.areas v).mpr (Or.inl rfl)
      · have hpos := (hran (by omega)).1
        refine ⟨(va - v.vmStart) / pgSize, ?_, ?_⟩
        · unfold roundDown pgSize at *
          omega
        · unfold roundDown pgSize at *
          omega
  · intro va hva
    rw [← hm.pgdir]
    exact hl.others va (by omega) (by omega)

/-- One turn of the loop over the program headers. -/
theorem Contents.loadHeader {hs : List ElfProghdr} {ps : List ℕ} (hc : Contents K F b hs s ps)
    {kmem : Bool} {ph : ℕ} (hwrap : (b.proghdr ph).pType = elfPtLoad →
      (b.proghdr ph).pVa + (b.proghdr ph).pMemsz < wordLimit)
    (h : (s.loadHeader b kmem ph).result = some (0, s')) :
    LoadEvent.check false ∉ (s.loadHeader b kmem ph).log ∧
      Contents K F b (hs ++ loadable [b.proghdr ph]) s'
        (ps ++ Logged.pages (s.loadHeader b kmem ph)) := by
  unfold LoadState.loadHeader at h ⊢
  rw [log_tell_bind, Logged.pages_tell_bind]
  obtain ⟨-, -, h⟩ := result_bind_eq_some h
  by_cases htype : (b.proghdr ph).pType = elfPtLoad
  · rw [if_neg (not_not.mpr htype)] at h ⊢
    rw [log_tell_bind, Logged.pages_tell_bind]
    obtain ⟨-, -, h⟩ := result_bind_eq_some h
    by_cases hsize : (b.proghdr ph).pFilesz > (b.proghdr ph).pMemsz
    · rw [if_pos hsize] at h
      exact absurd (Option.some.inj h) (by simp [eInvalElf])
    · rw [if_neg hsize] at h ⊢
      rw [log_tell_bind, Logged.pages_tell_bind]
      obtain ⟨-, -, h⟩ := result_bind_eq_some h
      obtain ⟨⟨r, mm⟩, hmap, h⟩ := result_bind_eq_some h
      rw [log_bind_of_result hmap, Logged.pages_bind hmap]
      rw [result_ofOption] at hmap
      simp only at h ⊢
      by_cases hr : r = 0
      · rw [if_neg (not_not.mpr hr)] at h ⊢
        subst hr
        have hone : loadable [b.proghdr ph] = [b.proghdr ph] :=
          List.filter_eq_self.mpr fun x hx => by
            rw [List.mem_singleton.mp hx, decide_eq_true_iff]
            exact htype
        obtain ⟨hcheck, hcont⟩ := hc.loadSegment (b.proghdr ph) (Nat.le_of_not_lt hsize) (hwrap htype) hmap h
        rw [hone]
        exact ⟨by simpa using hcheck, hcont⟩
      · rw [if_pos hr] at h
        simp only [result_pure, Option.some.injEq, Prod.mk.injEq] at h
        exact absurd h.1 hr
  · rw [if_pos htype] at h ⊢
    simp only [result_pure, Option.some.injEq, Prod.mk.injEq, true_and] at h
    subst h
    have hnone : loadable [b.proghdr ph] = [] :=
      List.filter_eq_nil_iff.mpr fun x hx => by
        rw [List.mem_singleton.mp hx, decide_eq_true_iff]
        exact htype
    rw [hnone, List.append_nil]
    refine ⟨by simp, ?_⟩
    change Contents K F b hs s (ps ++ ([] ++ []))
    rw [List.append_nil, List.append_nil]
    exact hc

/-- The loop over the program headers. -/
theorem Contents.loadHeaders {hs : List ElfProghdr} {ps : List ℕ} (hc : Contents K F b hs s ps)
    {k : KernelMemory} {i count : ℕ} (hwrap : ∀ j, i ≤ j → j < i + count →
      (b.proghdr (b.phdrOff j)).pType = elfPtLoad →
      (b.proghdr (b.phdrOff j)).pVa + (b.proghdr (b.phdrOff j)).pMemsz < wordLimit)
    (h : (s.loadHeaders b k i count).result = some (0, s')) :
    LoadEvent.check false ∉ (s.loadHeaders b k i count).log ∧
      Contents K F b (hs ++ loadable ((List.range' i count).map fun j => b.proghdr (b.phdrOff j)))
        s' (ps ++ Logged.pages (s.loadHeaders b k i count)) := by
  induction count generalizing s i hs ps with
  | zero =>
    simp only [LoadState.loadHeaders, result_pure, Option.some.injEq, Prod.mk.injEq, true_and] at h
    subst h
    refine ⟨List.not_mem_nil, ?_⟩
    change Contents K F b (hs ++ []) s (ps ++ [])
    rw [List.append_nil, List.append_nil]
    exact hc
  | succ count ih =>
    rw [LoadState.loadHeaders] at h ⊢
    obtain ⟨⟨r, s₁⟩, hhead, h⟩ := result_bind_eq_some h
    rw [log_bind_of_result hhead, Logged.pages_bind hhead]
    simp only at h ⊢
    by_cases hr : r = 0
    · rw [if_neg (not_not.mpr hr)] at h ⊢
      subst hr
      obtain ⟨hcheck, hc₁⟩ := hc.loadHeader (hwrap i le_rfl (by omega)) hhead
      obtain ⟨hchecks, hc₂⟩ := ih hc₁ (fun j h1 h2 => hwrap j (by omega) (by omega)) h
      refine ⟨?_, ?_⟩
      · rw [List.mem_append]
        exact fun hbad => hbad.elim hcheck hchecks
      · rw [List.range'_succ, List.map_cons]
        have hsplit : ∀ (x : ElfProghdr) (xs : List ElfProghdr),
            loadable (x :: xs) = loadable [x] ++ loadable xs := by
          intro x xs
          exact List.filter_append [x] xs
        rw [hsplit, ← List.append_assoc, ← List.append_assoc]
        exact hc₂
    · rw [if_pos hr] at h
      simp only [result_pure, Option.some.injEq, Prod.mk.injEq] at h
      exact absurd h.1 hr

/-- One page of the stack. -/
theorem mapStackPage_bytes (hi : s.mem.RefInv K F) {i : ℕ} (hpos : 1 ≤ i) (hle : i ≤ 4)
    (h : (s.mapStackPage i).result = some s') :
    (s.mapStackPage i).log = [.alloc (uStackTop - i * pgSize)] ∧ s'.mem.RefInv K F ∧
      s'.mm = s.mm ∧ ∀ va, va / pgSize ≠ (uStackTop - i * pgSize) / pgSize →
        s'.mem.userByte s.mm.pgdir va = s.mem.userByte s.mm.pgdir va := by
  obtain ⟨s₁, hs₁, h⟩ := result_bind_eq_some h
  have hlog : (s.mapStackPage i).log = [.alloc (uStackTop - i * pgSize)] :=
    log_bind_of_result hs₁ _
  simp only [result_bind, result_tell, Option.bind_some, result_pure, Option.some.injEq] at h
  subst h
  rw [result_ofOption, stackPage] at hs₁
  split at hs₁
  · rename_i p m₁ ha
    obtain rfl := Option.some.inj hs₁
    have hbelow : uStackTop - i * pgSize < userTop := by
      unfold uStackTop userTop pgSize
      omega
    obtain ⟨hi₁, -, hrest⟩ := hi.pgdirAllocPage_bytes hbelow (by decide) ha
    exact ⟨hlog, hi₁, rfl, hrest⟩
  · exact absurd hs₁ (Option.some_ne_none _).symm

theorem stackRequest_range (kmem : Bool) :
    (stackRequest kmem).start = uStackTop - uStackSize ∧ (stackRequest kmem).stop = uStackTop := by
  cases kmem <;> decide

/-- The stack. -/
theorem Contents.mapStack {hs : List ElfProghdr} {ps : List ℕ} (hc : Contents K F b hs s ps)
    {k : KernelMemory} (h : (s.mapStack k).result = some (0, s')) :
    LoadEvent.check false ∉ (s.mapStack k).log ∧
      Contents K F b hs s' (ps ++ Logged.pages (s.mapStack k)) := by
  unfold LoadState.mapStack at h ⊢
  obtain ⟨⟨r, mm⟩, hmap, h⟩ := result_bind_eq_some h
  rw [log_bind_of_result hmap, Logged.pages_bind hmap]
  rw [result_ofOption] at hmap
  simp only at h ⊢
  by_cases hr : r = 0
  · rw [if_neg (not_not.mpr hr)] at h ⊢
    subst hr
    obtain ⟨huser, v, hstart, hend, hm⟩ := hc.sorted.mapRequest_accepted hmap
    have hrange := stackRequest_range k.stack
    have hstart := hstart.trans hrange.1
    have hend := hend.trans hrange.2
    obtain ⟨s₁, h₁, h⟩ := result_bind_eq_some h
    obtain ⟨s₂, h₂, h⟩ := result_bind_eq_some h
    obtain ⟨s₃, h₃, h⟩ := result_bind_eq_some h
    obtain ⟨s₄, h₄, h⟩ := result_bind_eq_some h
    simp only [result_pure, Option.some.injEq, Prod.mk.injEq, true_and] at h
    subst h
    obtain ⟨hlog₁, hi₁, hmm₁, hb₁⟩ :=
      mapStackPage_bytes (s := ⟨s.mem, mm, s.page⟩) hc.ref (by omega) (by omega) h₁
    obtain ⟨hlog₂, hi₂, hmm₂, hb₂⟩ := mapStackPage_bytes hi₁ (by omega) (by omega) h₂
    obtain ⟨hlog₃, hi₃, hmm₃, hb₃⟩ := mapStackPage_bytes hi₂ (by omega) (by omega) h₃
    obtain ⟨hlog₄, hi₄, hmm₄, hb₄⟩ := mapStackPage_bytes hi₃ (by omega) (by omega) h₄
    have hlog : ({ s with mm := mm }.mapStackPage 1 >>= fun s => s.mapStackPage 2 >>= fun s =>
        s.mapStackPage 3 >>= fun s => s.mapStackPage 4 >>= fun s =>
          (pure (0, s) : Library.Logged LoadEvent (ℤ × LoadState M))).log =
        [.alloc (uStackTop - 1 * pgSize), .alloc (uStackTop - 2 * pgSize),
          .alloc (uStackTop - 3 * pgSize), .alloc (uStackTop - 4 * pgSize)] := by
      rw [log_bind_of_result h₁, log_bind_of_result h₂, log_bind_of_result h₃,
        log_bind_of_result h₄, hlog₁, hlog₂, hlog₃, hlog₄]
      rfl
    have hpages : Logged.pages ({ s with mm := mm }.mapStackPage 1 >>= fun s =>
        s.mapStackPage 2 >>= fun s => s.mapStackPage 3 >>= fun s => s.mapStackPage 4 >>= fun s =>
          (pure (0, s) : Library.Logged LoadEvent (ℤ × LoadState M))) =
        [uStackTop - 1 * pgSize, uStackTop - 2 * pgSize, uStackTop - 3 * pgSize,
          uStackTop - 4 * pgSize] := by
      rw [Logged.pages, hlog]
      rfl
    rw [hlog, hpages]
    refine ⟨by simp, ?_⟩
    change Contents K F b hs _ (ps ++ ([] ++ _))
    rw [List.nil_append]
    refine hc.extend hm (hmm₄.trans (hmm₃.trans (hmm₂.trans hmm₁))) hi₄ (by decide) ?_ ?_
    · intro x hx
      simp only [List.mem_cons, List.not_mem_nil, or_false] at hx
      unfold Vma.Contains
      rw [hstart, hend]
      unfold uStackTop uStackSize uStackPage userTop pgSize at *
      omega
    · intro va hva
      rw [hstart, hend] at hva
      rw [hmm₃, hmm₂, hmm₁] at hb₄
      rw [hmm₂, hmm₁] at hb₃
      rw [hmm₁] at hb₂
      have hne : ∀ i, 1 ≤ i → i ≤ 4 → va / pgSize ≠ (uStackTop - i * pgSize) / pgSize := by
        intro i h1 h2
        unfold uStackTop uStackSize uStackPage userTop pgSize at *
        omega
      rw [← hm.pgdir]
      exact (hb₄ va (hne 4 (by omega) le_rfl)).trans ((hb₃ va (hne 3 (by omega) (by omega))).trans
        ((hb₂ va (hne 2 (by omega) (by omega))).trans (hb₁ va (hne 1 le_rfl (by omega)))))
  · rw [if_pos hr] at h
    simp only [result_pure, Option.some.injEq, Prod.mk.injEq] at h
    exact absurd h.1 hr

theorem Contents.loadProgram {hs : List ElfProghdr} {ps : List ℕ} (hc : Contents K F b hs s ps)
    {k : KernelMemory} (hwrap : ∀ j, j < b.phCount →
      (b.proghdr (b.phdrOff j)).pType = elfPtLoad →
      (b.proghdr (b.phdrOff j)).pVa + (b.proghdr (b.phdrOff j)).pMemsz < wordLimit)
    (h : (s.loadProgram b k).result = some (0, s')) :
    LoadEvent.check false ∉ (s.loadProgram b k).log ∧
      Contents K F b (hs ++ loadable ((List.range' 0 b.phCount).map fun j =>
        b.proghdr (b.phdrOff j))) s' (ps ++ Logged.pages (s.loadProgram b k)) := by
  unfold LoadState.loadProgram at h ⊢
  obtain ⟨⟨r, s₁⟩, hheads, h⟩ := result_bind_eq_some h
  rw [log_bind_of_result hheads, Logged.pages_bind hheads]
  simp only at h ⊢
  by_cases hr : r = 0
  · rw [if_neg (not_not.mpr hr)] at h ⊢
    subst hr
    obtain ⟨hcheck, hc₁⟩ := hc.loadHeaders (fun j _ hlt => hwrap j (by omega)) hheads
    obtain ⟨hchecks, hc₂⟩ := hc₁.mapStack h
    rw [← List.append_assoc, List.mem_append]
    exact ⟨fun hbad => hbad.elim hcheck hchecks, hc₂⟩
  · rw [if_pos hr] at h
    simp only [result_pure, Option.some.injEq, Prod.mk.injEq] at h
    exact absurd h.1 hr

end LoadState

namespace Binary

/-- The program headers of the loadable segments. -/
def segments (b : Binary) : List ElfProghdr :=
  LoadState.loadable ((List.range' 0 b.ePhnum).map fun i => b.proghdr (b.phdrOff i))

/-- The headers and the segments lie in the buffer, and the buffer in the address space. -/
structure InsideBuffer (b : Binary) : Prop where
  buffer : b.addr + b.size < wordLimit
  elfhdr : 64 ≤ b.size
  phdrs : b.ePhoff + b.ePhnum * sizeofProghdr ≤ b.size
  data : ∀ h ∈ b.segments, h.pOffset + h.pFilesz ≤ b.size

theorem InsideBuffer.phCount_eq {b : Binary} (h : b.InsideBuffer) : b.phCount = b.ePhnum := by
  have h1 := h.buffer
  have h2 := h.phdrs
  unfold phCount
  rw [if_pos]
  rw [Nat.mod_eq_of_lt] <;> omega

end Binary

namespace Mem

variable {M : PmmManager} {K F : Set ℕ} {m m' : Mem M}

/-- Every segment is in memory as the program file has it, and all its pages were mapped, each
once; no assertion of the loading failed. -/
structure LoadedRight (b : Binary) (r : Library.Logged LoadEvent (ℤ × Mem M × Option Mm))
    (m' : Mem M) (mm : Mm) : Prop where
  bytes : ∀ h ∈ b.segments, ∀ k < h.pMemsz, m'.userByte mm.pgdir (h.pVa + k) =
    some (if k < h.pFilesz then b.bytes (h.pOffset + k) else 0)
  pages : ∀ h ∈ b.segments, ∀ k < h.pMemsz,
    (Logged.pages r).count (roundDown (h.pVa + k) pgSize) = 1
  checks : LoadEvent.check false ∉ r.log

/-- A program that is loaded: the address space is set up, and then filled. -/
theorem loadBinary_loaded {b : Binary} {k : KernelMemory} {mm : Mm}
    (h : (m.loadBinary b k).result = some (0, m', some mm)) :
    ∃ pd m₁ s, m.setupPgdir = (some pd, m₁) ∧
      (LoadState.loadProgram ⟨m₁, mmCreate pd, none⟩ b k).result = some (0, s) ∧ s.mem = m' ∧
      s.mm = mm ∧ (m.loadBinary b k).log = [.read 32 8, .read 0 4, .read 56 2] ++
        (LoadState.loadProgram ⟨m₁, mmCreate pd, none⟩ b k).log ++ [.read 24 8] := by
  unfold loadBinary at h ⊢
  by_cases hk : k.mm = false
  · rw [if_pos hk] at h
    exact absurd (Option.some.inj h) (by simp [eNoMem])
  · rw [if_neg hk] at h ⊢
    cases hpg : m.setupPgdir with
    | mk pd m₁ =>
      rw [hpg] at h
      cases pd with
      | none => exact absurd (Option.some.inj h) (by simp [eNoMem])
      | some pd =>
        simp only at h ⊢
        obtain ⟨-, -, h⟩ := result_bind_eq_some h
        by_cases hmagic : b.eMagic ≠ elfMagic
        · rw [if_pos hmagic] at h
          exact absurd (Option.some.inj h) (by simp [eInvalElf])
        · rw [if_neg hmagic] at h ⊢
          obtain ⟨-, -, h⟩ := result_bind_eq_some h
          obtain ⟨⟨r, s⟩, hload, h⟩ := result_bind_eq_some h
          simp only at h
          by_cases hr : r = 0
          · rw [if_neg (not_not.mpr hr)] at h
            subst hr
            simp only [result_bind, result_tell, Option.bind_some, result_pure, Option.some.injEq,
              Prod.mk.injEq, true_and] at h
            refine ⟨pd, m₁, s, rfl, hload, h.1, h.2, ?_⟩
            rw [log_tell_bind, log_tell_bind, log_bind_of_result hload]
            simp only [ne_eq, not_true_eq_false, if_false]
            rw [log_tell_bind]
            simp
          · rw [if_pos hr] at h
            obtain ⟨m₂, -, h⟩ := result_bind_eq_some h
            simp only [result_pure, Option.some.injEq, Prod.mk.injEq] at h
            exact absurd h.1 hr

/-- A segment that reaches beyond the address space is not in memory. -/
theorem LoadedRight.no_wrap {b : Binary} {mm : Mm}
    {r : Library.Logged LoadEvent (ℤ × Mem M × Option Mm)} (h : LoadedRight b r m' mm) :
    ∀ hd ∈ b.segments, hd.pVa + hd.pMemsz < wordLimit := by
  intro hd hhd
  by_contra hwrap
  have hva := hd.pVa_lt
  have hlimit : userTop < wordLimit := by decide
  have hbyte := h.bytes hd hhd (userTop - hd.pVa) (by omega)
  rw [userByte_of_le (by omega)] at hbyte
  exact absurd hbyte (Option.some_ne_none _).symm

end Mem
end Ucore.Vm
