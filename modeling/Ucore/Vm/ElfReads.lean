import Ucore.Vm.ElfBinary
import Ucore.Vm.KernelStore

/-!
What `load_icode` reads at `binary`. It never looks at `size`, so all of it is in the buffer only
if the offsets and counts in the headers say so.
-/
namespace Ucore.Vm

open Library Library.Logged

namespace Binary

/-- All of the bytes have a distance from `binary` below `size`. -/
def InBuffer (b : Binary) (off len : ℕ) : Prop :=
  ∀ i < len, (off + i) % wordLimit < b.size

/-- The fields of a loadable segment's header that are read, and its data, are in the buffer. -/
structure SegmentFits (b : Binary) (ph : ℕ) : Prop where
  flags : b.InBuffer (ph + 4) 4
  offset : b.InBuffer (ph + 8) 8
  va : b.InBuffer (ph + 16) 8
  filesz : b.InBuffer (ph + 32) 8
  memsz : b.InBuffer (ph + 40) 8
  data : b.InBuffer (b.proghdr ph).pOffset ((b.proghdr ph).fileEnd - (b.proghdr ph).pVa)

/-- The program header, and what it names, are in the buffer. -/
structure HeaderFits (b : Binary) (ph : ℕ) : Prop where
  type : b.InBuffer ph 4
  segment : (b.proghdr ph).pType = elfPtLoad → b.SegmentFits ph

/-- The fields of the ELF header that are read are in the buffer, and so is all that the program
headers name. -/
structure Fits (b : Binary) : Prop where
  phoff : 40 ≤ b.size
  phnum : b.eMagic = elfMagic → 58 ≤ b.size
  headers : b.eMagic = elfMagic → ∀ i < b.phCount, b.HeaderFits (b.phdrOff i)

variable {b : Binary}

theorem inBuffer_add {off m n : ℕ} :
    b.InBuffer off (m + n) ↔ b.InBuffer off m ∧ b.InBuffer (off + m) n := by
  constructor
  · intro h
    refine ⟨fun i hi => h i (by omega), ?_⟩
    intro i hi
    rw [Nat.add_assoc]
    exact h (m + i) (by omega)
  · intro h i hi
    by_cases hlt : i < m
    · exact h.1 i hlt
    · have hrest := h.2 (i - m) (by omega)
      rwa [Nat.add_assoc, Nat.add_sub_cancel' (by omega)] at hrest

/-- A field near the start of the image. -/
theorem inBuffer_iff_le {off len : ℕ} (hlen : 0 < len) (hlt : off + len ≤ wordLimit) :
    b.InBuffer off len ↔ off + len ≤ b.size := by
  constructor
  · intro h
    have hlast := h (len - 1) (by omega)
    rw [Nat.mod_eq_of_lt (by omega)] at hlast
    omega
  · intro h i hi
    rw [Nat.mod_eq_of_lt (by omega)]
    omega

end Binary

/-- A read stays in the buffer. -/
def LoadEvent.Within (b : Binary) : LoadEvent → Prop
  | .read off len => b.InBuffer off len
  | _ => True

/-- All that a computation reads of the program is in the buffer. -/
def Logged.ReadsWithin {α : Type} (b : Binary) (r : Library.Logged LoadEvent α) : Prop :=
  ∀ e ∈ r.log, e.Within b

namespace Mem

theorem chunk_le {start la stop : ℕ} (hlt : start < stop) (hla : la ≤ start) :
    chunk start la stop ≤ stop - start := by
  unfold chunk
  simp only
  split <;> omega

variable {M : PmmManager} {b : Binary} {m m' : Mem M} {pd perm pos start la stop : ℕ}
  {src : ℕ → UInt8} {page : Option ℕ} {hla : start < stop → la ≤ start} {copy : Bool}

/-- The data of a segment is read in two steps: this page's part, and the rest. -/
theorem inBuffer_chunk (hlt : start < stop) (hle : la ≤ start) :
    b.InBuffer pos (stop - start) ↔ b.InBuffer pos (chunk start la stop) ∧
      b.InBuffer (pos + chunk start la stop) (stop - (start + chunk start la stop)) := by
  have hchunk := chunk_le hlt hle
  rw [← Binary.inBuffer_add]
  have hsum : chunk start la stop + (stop - (start + chunk start la stop)) = stop - start := by
    omega
  rw [hsum]

/-- The loop reads no more than the data of the segment, and all of it if it comes to its
end. -/
theorem fillPages_reads :
    (b.InBuffer pos (stop - start) →
      Logged.ReadsWithin b (m.fillPages true pd perm src pos start la stop page hla)) ∧
    ∀ f m', (m.fillPages true pd perm src pos start la stop page hla).result = some (some f, m') →
      Logged.ReadsWithin b (m.fillPages true pd perm src pos start la stop page hla) →
      b.InBuffer pos (stop - start) := by
  refine fillPages_induct (motive := fun _ pos start _ _ r =>
    (b.InBuffer pos (stop - start) → Logged.ReadsWithin b r) ∧
      ∀ f m', r.result = some (some f, m') → Logged.ReadsWithin b r →
        b.InBuffer pos (stop - start)) ?_ ?_ ?_
  · intro m pos start la page hlt
    rw [Nat.sub_eq_zero_of_le (Nat.le_of_not_lt hlt)]
    exact ⟨fun _ => List.forall_mem_nil _, fun _ _ _ _ i hi => absurd hi (Nat.not_lt_zero i)⟩
  · intro m pos start la page r hlt hlog hres
    refine ⟨fun _ => ?_, fun f m' h => absurd h (hres f m')⟩
    rw [Logged.ReadsWithin, hlog]
    exact List.forall_mem_nil _
  · intro m pos start la page new m₁ r hlt hle ha ih
    have hlog : Logged.ReadsWithin b (tell (if true = true then
        [.alloc la, .read pos (chunk start la stop)] else [.alloc la]) >>= fun _ => r) ↔
        b.InBuffer pos (chunk start la stop) ∧ Logged.ReadsWithin b r := by
      refine forall_log_tell_bind.trans (and_congr_left fun _ => ?_)
      rw [if_pos rfl, List.forall_mem_cons, List.forall_mem_singleton]
      exact and_iff_right trivial
    rw [hlog, inBuffer_chunk hlt hle]
    exact ⟨fun h => ⟨h.1, ih.1 h.2⟩, fun f m' hf h => ⟨h.1, ih.2 f m' hf h.2⟩⟩

/-- Zeros are not read from anywhere. -/
theorem fillPages_zeros :
    Logged.ReadsWithin b (m.fillPages false pd perm src pos start la stop page hla) := by
  refine fillPages_induct (motive := fun _ _ _ _ _ r => Logged.ReadsWithin b r) ?_ ?_ ?_
  · exact fun _ _ _ _ _ _ => List.forall_mem_nil _
  · intro m pos start la page r hlt hlog hres
    rw [Logged.ReadsWithin, hlog]
    exact List.forall_mem_nil _
  · intro m pos start la page new m₁ r hlt hle ha ih
    refine forall_log_tell_bind.mpr ⟨?_, ih⟩
    rw [if_neg Bool.false_ne_true, List.forall_mem_singleton]
    trivial

end Mem

namespace LoadState

variable {M : PmmManager} {b : Binary} {s s' : LoadState M} {k : KernelMemory}

theorem zeroPages_within {perm start la stop : ℕ} {hla : start < stop → la ≤ start} :
    Logged.ReadsWithin b (s.zeroPages perm start la stop hla) := by
  refine forall_log_bind Mem.fillPages_zeros ?_
  intro r _
  obtain ⟨f, m⟩ := r
  cases f with
  | none => exact List.forall_mem_nil _
  | some f => exact List.forall_mem_nil _

theorem loadTail_within {perm stop : ℕ} {f : Mem.Filled} :
    Logged.ReadsWithin b (s.loadTail perm f stop) := by
  unfold LoadState.loadTail
  split
  · split
    · exact List.forall_mem_nil _
    · split
      · exact List.forall_mem_nil _
      · simp only
        split
        · exact List.forall_mem_nil _
        · refine forall_log_tell_bind.mpr ⟨List.forall_mem_singleton.mpr trivial, ?_⟩
          split
          · exact zeroPages_within
          · exact List.forall_mem_nil _
  · exact zeroPages_within

/-- A list of fields that are read one after the other. -/
theorem forall_within_pair {o o' l l' : ℕ} : (∀ e ∈ [LoadEvent.read o l, .read o' l'], e.Within b) ↔
    b.InBuffer o l ∧ b.InBuffer o' l' := by
  rw [List.forall_mem_cons, List.forall_mem_singleton]
  exact Iff.rfl

theorem forall_within_singleton {o l : ℕ} : (∀ e ∈ [LoadEvent.read o l], e.Within b) ↔
    b.InBuffer o l := by
  rw [List.forall_mem_singleton]
  exact Iff.rfl

variable (s') in
theorem loadData_reads {ph : ℕ} {h : ElfProghdr} :
    (b.InBuffer (ph + 8) 8 ∧ b.InBuffer h.pOffset (h.fileEnd - h.pVa) →
      Logged.ReadsWithin b (s.loadData b ph h)) ∧
    ((s.loadData b ph h).result = some (0, s') → Logged.ReadsWithin b (s.loadData b ph h) →
      b.InBuffer (ph + 8) 8 ∧ b.InBuffer h.pOffset (h.fileEnd - h.pVa)) := by
  unfold LoadState.loadData
  constructor
  · intro h
    refine forall_log_tell_bind.mpr ⟨forall_within_singleton.mpr h.1, ?_⟩
    refine forall_log_bind (Mem.fillPages_reads.1 h.2) ?_
    intro r _
    obtain ⟨f, m⟩ := r
    cases f with
    | none => exact List.forall_mem_nil _
    | some f => exact loadTail_within
  · intro hres hin
    obtain ⟨hfield, hin⟩ := forall_log_tell_bind.mp hin
    obtain ⟨-, -, hres⟩ := result_bind_eq_some hres
    obtain ⟨⟨f, m⟩, hf, hres⟩ := result_bind_eq_some hres
    cases f with
    | none => exact absurd (Option.some.inj hres) (by simp [eNoMem])
    | some f =>
      exact ⟨forall_within_singleton.mp hfield,
        Mem.fillPages_reads.2 f m hf ((forall_log_bind_iff hf).mp hin).1⟩

/-- One program header that is in the buffer with all that it names. -/
theorem loadHeader_within {kmem : Bool} {ph : ℕ} (h : b.HeaderFits ph) :
    Logged.ReadsWithin b (s.loadHeader b kmem ph) := by
  unfold LoadState.loadHeader
  refine forall_log_tell_bind.mpr ⟨forall_within_singleton.mpr h.type, ?_⟩
  split
  · exact List.forall_mem_nil _
  · rename_i htype
    have hseg := h.segment (not_not.mp htype)
    refine forall_log_tell_bind.mpr ⟨forall_within_pair.mpr ⟨hseg.filesz, hseg.memsz⟩, ?_⟩
    split
    · exact List.forall_mem_nil _
    · refine forall_log_tell_bind.mpr ⟨forall_within_pair.mpr ⟨hseg.flags, hseg.va⟩, ?_⟩
      refine forall_log_bind (List.forall_mem_nil _) ?_
      intro r _
      obtain ⟨r, mm⟩ := r
      simp only
      split
      · exact List.forall_mem_nil _
      · exact (loadData_reads s).1 ⟨hseg.offset, hseg.data⟩

/-- A program header that was loaded has been read completely. -/
theorem headerFits_of_within {kmem : Bool} {ph : ℕ}
    (hres : (s.loadHeader b kmem ph).result = some (0, s'))
    (hin : Logged.ReadsWithin b (s.loadHeader b kmem ph)) : b.HeaderFits ph := by
  unfold LoadState.loadHeader at hres hin
  obtain ⟨htype, hin⟩ := forall_log_tell_bind.mp hin
  obtain ⟨-, -, hres⟩ := result_bind_eq_some hres
  refine ⟨forall_within_singleton.mp htype, ?_⟩
  intro hp
  rw [if_neg (not_not.mpr hp)] at hres hin
  obtain ⟨hsizes, hin⟩ := forall_log_tell_bind.mp hin
  obtain ⟨-, -, hres⟩ := result_bind_eq_some hres
  split at hres
  · exact absurd (Option.some.inj hres) (by simp [eInvalElf])
  · rename_i hsize
    rw [if_neg hsize] at hin
    obtain ⟨hflags, hin⟩ := forall_log_tell_bind.mp hin
    obtain ⟨-, -, hres⟩ := result_bind_eq_some hres
    obtain ⟨⟨r, mm⟩, hmap, hres⟩ := result_bind_eq_some hres
    have hin := ((forall_log_bind_iff hmap).mp hin).2
    simp only at hres hin
    split at hres
    · rename_i hr
      simp only [result_pure, Option.some.injEq, Prod.mk.injEq] at hres
      exact absurd hres.1 hr
    · rename_i hr
      rw [if_neg hr] at hin
      obtain ⟨hoffset, hdata⟩ := (loadData_reads _).2 hres hin
      obtain ⟨hfilesz, hmemsz⟩ := forall_within_pair.mp hsizes
      obtain ⟨hfl, hva⟩ := forall_within_pair.mp hflags
      exact ⟨hfl, hoffset, hva, hfilesz, hmemsz, hdata⟩

theorem loadHeaders_within {i count : ℕ} (h : ∀ j < count, b.HeaderFits (b.phdrOff (i + j))) :
    Logged.ReadsWithin b (s.loadHeaders b k i count) := by
  induction count generalizing s i with
  | zero => exact List.forall_mem_nil _
  | succ count ih =>
    refine forall_log_bind (loadHeader_within (h 0 (Nat.succ_pos count))) ?_
    intro r _
    obtain ⟨r, s₁⟩ := r
    simp only
    split
    · exact List.forall_mem_nil _
    · refine ih ?_
      intro j hj
      rw [Nat.add_assoc, Nat.add_comm 1 j]
      exact h (j + 1) (by omega)

theorem headersFit_of_within {i count : ℕ}
    (hres : (s.loadHeaders b k i count).result = some (0, s'))
    (hin : Logged.ReadsWithin b (s.loadHeaders b k i count)) :
    ∀ j < count, b.HeaderFits (b.phdrOff (i + j)) := by
  induction count generalizing s i with
  | zero => exact fun j hj => absurd hj (Nat.not_lt_zero j)
  | succ count ih =>
    obtain ⟨⟨r, s₁⟩, hhead, hres⟩ := result_bind_eq_some hres
    obtain ⟨hfirst, hin⟩ := (forall_log_bind_iff hhead).mp hin
    simp only at hres hin
    split at hres
    · rename_i hr
      simp only [result_pure, Option.some.injEq, Prod.mk.injEq] at hres
      exact absurd hres.1 hr
    · rename_i hr
      rw [if_neg hr] at hin
      obtain rfl : r = 0 := not_not.mp hr
      intro j hj
      cases j with
      | zero => exact headerFits_of_within hhead hfirst
      | succ j =>
        have hrest := ih hres hin j (by omega)
        rwa [Nat.add_assoc, Nat.add_comm 1 j] at hrest

theorem mapStackPage_within {i : ℕ} : Logged.ReadsWithin b (s.mapStackPage i) := by
  refine forall_log_bind (List.forall_mem_nil _) ?_
  intro s₁ _
  exact forall_log_tell_bind.mpr ⟨List.forall_mem_singleton.mpr trivial, List.forall_mem_nil _⟩

theorem mapStack_within : Logged.ReadsWithin b (s.mapStack k) := by
  refine forall_log_bind (List.forall_mem_nil _) ?_
  intro r _
  obtain ⟨r, mm⟩ := r
  simp only
  split
  · exact List.forall_mem_nil _
  · refine forall_log_bind mapStackPage_within fun s₁ _ => ?_
    refine forall_log_bind mapStackPage_within fun s₂ _ => ?_
    refine forall_log_bind mapStackPage_within fun s₃ _ => ?_
    exact forall_log_bind mapStackPage_within fun s₄ _ => List.forall_mem_nil _

theorem loadProgram_within (h : ∀ i < b.phCount, b.HeaderFits (b.phdrOff i)) :
    Logged.ReadsWithin b (s.loadProgram b k) := by
  refine forall_log_bind (loadHeaders_within ?_) ?_
  · intro j hj
    rw [Nat.zero_add]
    exact h j hj
  · intro r _
    obtain ⟨r, s₁⟩ := r
    simp only
    split
    · exact List.forall_mem_nil _
    · exact mapStack_within

theorem programFits_of_within (hres : (s.loadProgram b k).result = some (0, s'))
    (hin : Logged.ReadsWithin b (s.loadProgram b k)) :
    ∀ i < b.phCount, b.HeaderFits (b.phdrOff i) := by
  obtain ⟨⟨r, s₁⟩, hheads, hres⟩ := result_bind_eq_some hres
  have hin := ((forall_log_bind_iff hheads).mp hin).1
  simp only at hres
  split at hres
  · rename_i hr
    simp only [result_pure, Option.some.injEq, Prod.mk.injEq] at hres
    exact absurd hres.1 hr
  · rename_i hr
    obtain rfl : r = 0 := not_not.mp hr
    intro i hi
    have hfit := headersFit_of_within hheads hin i hi
    rwa [Nat.zero_add] at hfit

end LoadState

namespace Mem

variable {M : PmmManager}

variable {m m' : Mem M} {k : KernelMemory} {mm : Mm} {b : Binary}

theorem loadBinary_within (h : b.Fits) : Logged.ReadsWithin b (m.loadBinary b k) := by
  have hhead : ∀ off len, 0 < len → off + len ≤ 40 → b.InBuffer off len := by
    intro off len hlen hle
    refine (Binary.inBuffer_iff_le hlen ?_).mpr (hle.trans h.phoff)
    unfold wordLimit
    omega
  unfold loadBinary
  split
  · exact List.forall_mem_nil _
  · split
    · exact List.forall_mem_nil _
    · refine forall_log_tell_bind.mpr ⟨?_, ?_⟩
      · exact LoadState.forall_within_pair.mpr
          ⟨hhead 32 8 (by omega) (by omega), hhead 0 4 (by omega) (by omega)⟩
      · split
        · exact List.forall_mem_nil _
        · rename_i hmagic
          have hmagic := not_not.mp hmagic
          refine forall_log_tell_bind.mpr ⟨?_, ?_⟩
          · exact LoadState.forall_within_singleton.mpr
              ((Binary.inBuffer_iff_le (by omega) (by decide)).mpr (h.phnum hmagic))
          · refine forall_log_bind (LoadState.loadProgram_within (h.headers hmagic)) ?_
            intro r _
            obtain ⟨r, s⟩ := r
            simp only
            split
            · exact forall_log_bind (List.forall_mem_nil _) fun _ _ => List.forall_mem_nil _
            · refine forall_log_tell_bind.mpr ⟨?_, List.forall_mem_nil _⟩
              exact LoadState.forall_within_singleton.mpr (hhead 24 8 (by omega) (by omega))

theorem fits_of_within (hres : (m.loadBinary b k).result = some (0, m', some mm))
    (hin : Logged.ReadsWithin b (m.loadBinary b k)) : b.Fits := by
  unfold loadBinary at hres hin
  split at hres
  · exact absurd (Option.some.inj hres) (by simp [eNoMem])
  · rename_i hk
    rw [if_neg hk] at hin
    cases hpg : m.setupPgdir with
    | mk pd m₁ =>
      rw [hpg] at hres hin
      cases pd with
      | none => exact absurd (Option.some.inj hres) (by simp [eNoMem])
      | some pd =>
        obtain ⟨hfirst, hin⟩ := forall_log_tell_bind.mp hin
        obtain ⟨-, -, hres⟩ := result_bind_eq_some hres
        have hphoff := (LoadState.forall_within_pair.mp hfirst).1
        rw [Binary.inBuffer_iff_le (by omega) (by decide)] at hphoff
        split at hres
        · exact absurd (Option.some.inj hres) (by simp [eInvalElf])
        · rename_i hmagic
          rw [if_neg hmagic] at hin
          obtain ⟨hphnum, hin⟩ := forall_log_tell_bind.mp hin
          obtain ⟨-, -, hres⟩ := result_bind_eq_some hres
          obtain ⟨⟨r, s⟩, hload, hres⟩ := result_bind_eq_some hres
          have hprog := ((forall_log_bind_iff hload).mp hin).1
          rw [LoadState.forall_within_singleton,
            Binary.inBuffer_iff_le (by omega) (by decide)] at hphnum
          simp only at hres
          split at hres
          · rename_i hr
            obtain ⟨m₂, -, hres⟩ := result_bind_eq_some hres
            simp only [result_pure, Option.some.injEq, Prod.mk.injEq] at hres
            exact absurd hres.1 hr
          · rename_i hr
            obtain rfl : r = 0 := not_not.mp hr
            exact ⟨hphoff, fun _ => hphnum,
              fun _ => LoadState.programFits_of_within hload hprog⟩

theorem oneSegment_fits : (oneSegment 120 0x800014 8 5000).Fits := by
  have hin : ∀ off len, 0 < len → off + len ≤ 128 →
      (oneSegment 120 0x800014 8 5000).InBuffer off len := fun off len hlen hle =>
    (Binary.inBuffer_iff_le hlen (hle.trans (by decide))).mpr hle
  have hcount : (oneSegment 120 0x800014 8 5000).phCount = 1 := by decide +kernel
  have hoff : (oneSegment 120 0x800014 8 5000).phdrOff 0 = 64 := by decide +kernel
  have hpos : ((oneSegment 120 0x800014 8 5000).proghdr 64).pOffset = 120 := by decide +kernel
  have hlen : ((oneSegment 120 0x800014 8 5000).proghdr 64).fileEnd -
      ((oneSegment 120 0x800014 8 5000).proghdr 64).pVa = 8 := by decide +kernel
  refine ⟨by decide, fun _ => by decide, ?_⟩
  intro _ i hi
  obtain rfl : i = 0 := by omega
  rw [hoff]
  refine ⟨hin _ _ (by omega) (by omega), fun _ => ?_⟩
  refine ⟨?_, ?_, ?_, ?_, ?_, ?_⟩
  · exact hin _ _ (by omega) (by omega)
  · exact hin _ _ (by omega) (by omega)
  · exact hin _ _ (by omega) (by omega)
  · exact hin _ _ (by omega) (by omega)
  · exact hin _ _ (by omega) (by omega)
  · rw [hpos, hlen]
    exact hin _ _ (by omega) (by omega)

end Mem
end Ucore.Vm
