import Ucore.Vm.UserMem
import Ucore.Library.Run
import Mathlib.Data.List.TakeWhile

/-!
`mm_map` on every request, with the sums of `uintptr_t` that wrap around and with a
`vma_create` that may find no memory.
-/
namespace Ucore.Vm

open Library

def wordLimit : ℕ := 2 ^ 64

/-- The arguments of `mm_map`; `kmem` says whether `vma_create` finds memory. -/
structure MapRequest where
  addr : ℕ
  len : ℕ
  vmFlags : ℕ
  kmem : Bool
  addr_lt : addr < wordLimit
  len_lt : len < wordLimit

namespace MapRequest

def start (r : MapRequest) : ℕ := roundDown r.addr pgSize

/-- The end of the range as `mm_map` computes it. -/
def stop (r : MapRequest) : ℕ :=
  roundDown (((r.addr + r.len) % wordLimit + pgSize - 1) % wordLimit) pgSize

/-- The end of the range that was asked for. -/
def pageEnd (r : MapRequest) : ℕ := roundUp (r.addr + r.len) pgSize

theorem stop_aligned (r : MapRequest) : r.stop % pgSize = 0 := roundDown_aligned _ _

/-- The new `vma_struct`. -/
def vma (r : MapRequest) (h : userAccess r.start r.stop) : Vma :=
  ⟨r.start, r.stop, r.vmFlags, roundDown_aligned _ _, r.stop_aligned, h⟩

/-- The two ends differ only where the sum wraps around. -/
theorem stop_eq (r : MapRequest) (h : userAccess r.start r.stop) (hsum : r.addr + r.len < wordLimit) :
    r.stop = r.pageEnd := by
  have hpos := h.2.1
  have hlow := h.1
  unfold stop pageEnd roundUp at *
  rw [Nat.mod_eq_of_lt hsum] at hpos ⊢
  by_cases hwrap : r.addr + r.len + pgSize - 1 < wordLimit
  · rw [Nat.mod_eq_of_lt hwrap]
  · unfold roundDown pgSize wordLimit userBase at *
    omega

theorem userAccess_of_pageEnd (r : MapRequest) (h : userAccess r.start r.pageEnd) :
    r.addr + r.len < wordLimit ∧ r.stop = r.pageEnd := by
  have htop := h.2.2
  unfold pageEnd roundUp roundDown pgSize userTop at htop
  have hsum : r.addr + r.len + 4096 - 1 < wordLimit := by
    unfold wordLimit
    omega
  have hlt : r.addr + r.len < wordLimit := by
    unfold wordLimit at *
    omega
  refine ⟨hlt, ?_⟩
  unfold stop pageEnd roundUp
  rw [Nat.mod_eq_of_lt hlt, show pgSize = 4096 from rfl, Nat.mod_eq_of_lt hsum]

/-- A sum that wraps around into a user range ends in the page in which it starts. -/
theorem stop_of_wrap (r : MapRequest) (h : userAccess r.start r.stop)
    (hwrap : wordLimit ≤ r.addr + r.len) : r.stop = r.start + pgSize := by
  have haddr := r.addr_lt
  have hlen := r.len_lt
  have hlt := h.2.1
  unfold stop start roundDown pgSize wordLimit at *
  omega

end MapRequest

namespace Mm

/-- `vma_create` and `insert_vma_struct`. -/
def createVma (mm : Mm) (r : MapRequest) (h : userAccess r.start r.stop) : Option (ℤ × Mm) :=
  if r.kmem then (mm.insertVmaStruct (r.vma h)).map (fun mm => (0, mm)) else some (-eNoMem, mm)

/-- `mm_map`, where `none` is a failed assertion. -/
def mapRequest (mm : Mm) (r : MapRequest) : Option (ℤ × Mm) :=
  if h : userAccess r.start r.stop then
    match mm.findVma r.start with
    | (some vma, mm) => if r.stop > vma.vmStart then some (-eInval, mm) else mm.createVma r h
    | (none, mm) => mm.createVma r h
  else some (-eInval, mm)

/-- A sum that fits into a word is the case of `mmMap`. -/
theorem mapRequest_eq_mmMap (mm : Mm) (r : MapRequest) (hmem : r.kmem = true)
    (hsum : r.addr + r.len + pgSize ≤ wordLimit) :
    mm.mapRequest r = mm.mmMap r.addr r.len r.vmFlags := by
  have hstop : r.stop = roundUp (r.addr + r.len) pgSize := by
    unfold MapRequest.stop roundUp
    unfold pgSize at hsum ⊢
    rw [Nat.mod_eq_of_lt (show r.addr + r.len < wordLimit by omega),
      Nat.mod_eq_of_lt (show r.addr + r.len + 4096 - 1 < wordLimit by omega)]
  by_cases hu : userAccess r.start r.stop
  · have hu' : userAccess (roundDown r.addr pgSize) (roundUp (r.addr + r.len) pgSize) := by
      rw [← hstop]
      exact hu
    have hvma : r.vma hu = ⟨roundDown r.addr pgSize, roundUp (r.addr + r.len) pgSize, r.vmFlags,
        roundDown_aligned _ _, roundUp_aligned _ _, hu'⟩ :=
      Vma.mk.injEq .. ▸ ⟨rfl, hstop, rfl⟩
    have hcreate : ∀ mm : Mm, mm.createVma r hu = (mm.insertVmaStruct (r.vma hu)).map
        (fun mm => (0, mm)) := by
      intro mm
      unfold createVma
      rw [if_pos hmem]
    unfold mapRequest mmMap
    rw [dif_pos hu, dif_pos hu', MapRequest.start]
    cases mm.findVma (roundDown r.addr pgSize) with
    | mk found mm =>
      cases found with
      | none => simp only [hcreate, hvma]
      | some vma => simp only [hcreate, hvma, hstop]
  · have hu' : ¬ userAccess (roundDown r.addr pgSize) (roundUp (r.addr + r.len) pgSize) := by
      rw [← hstop]
      exact hu
    unfold mapRequest mmMap
    rw [dif_neg hu, dif_neg hu']

/-- A call of `mm_map`, or a search in between. -/
inductive MmOp where
  | map (r : MapRequest)
  | find (addr : ℕ)

def step (mm : Mm) : MmOp → Option Mm
  | .map r => (mm.mapRequest r).map Prod.snd
  | .find addr => some (mm.findVma addr).2

/-- Non-empty areas, sorted and apart from each other, and their number. -/
structure WellFormed (mm : Mm) : Prop where
  sorted : mm.Sorted
  nonempty : ∀ v ∈ mm.mmapList, v.vmStart < v.vmEnd
  mapCount : mm.mapCount = mm.mmapList.length

/-- The range that was asked for is a user range and shares no byte with an area. -/
def Vacant (mm : Mm) (r : MapRequest) : Prop :=
  userAccess r.start r.pageEnd ∧ ∀ v ∈ mm.mmapList, ∀ a, r.start ≤ a → a < r.pageEnd → ¬ v.Contains a

/-- What `mm_map` is to return and to do to the list. -/
structure Answered (mm : Mm) (r : MapRequest) (code : ℤ) (mm' : Mm) : Prop where
  refused : ¬ mm.Vacant r → code = -eInval ∧ mm'.mmapList = mm.mmapList
  mapped : mm.Vacant r → r.kmem = true → code = 0 ∧ ∃ v : Vma, v.vmStart = r.start ∧
    v.vmEnd = r.pageEnd ∧ v.vmFlags = r.vmFlags ∧ mm'.mmapList.Perm (v :: mm.mmapList)
  noMem : mm.Vacant r → r.kmem = false → code = -eNoMem ∧ mm'.mmapList = mm.mmapList

/-- No assertion fails, and the answer is the right one. -/
def MapsRight (mm : Mm) (r : MapRequest) : Prop :=
  ∃ code mm', mm.mapRequest r = some (code, mm') ∧ mm.Answered r code mm'

/-- The range starts outside of all areas and reaches into one of them, or the sum wraps
around to an address in the page in which it starts. -/
def Misses (mm : Mm) (r : MapRequest) : Prop :=
  userAccess r.start r.stop ∧ (∀ v ∈ mm.mmapList, ¬ v.Contains r.start) ∧
    (wordLimit ≤ r.addr + r.len ∨ ∃ v ∈ mm.mmapList, r.start < v.vmStart ∧ v.vmStart < r.stop)

variable {mm mm' : Mm} {r : MapRequest}

theorem WellFormed.same (h : mm.WellFormed) (hs : mm.SameAreas mm')
    (hcount : mm'.mapCount = mm.mapCount) : mm'.WellFormed := by
  refine ⟨hs.sorted h.sorted, ?_, ?_⟩
  · rw [hs.mmapList]
    exact h.nonempty
  · rw [hs.mmapList, hcount]
    exact h.mapCount

theorem findVma_mapCount (mm : Mm) (addr : ℕ) : (mm.findVma addr).2.mapCount = mm.mapCount := by
  unfold findVma
  split
  · rfl
  · split <;> rfl

theorem WellFormed.findVma (h : mm.WellFormed) (addr : ℕ) : (mm.findVma addr).2.WellFormed :=
  h.same (findVma_sameAreas mm addr) (findVma_mapCount mm addr)

/-- The node before the new one and all before it, and the list with the new node. -/
theorem insertVmaStruct_eq {vma : Vma} (h : mm.insertVmaStruct vma = some mm') :
    mm'.mmapList = mm.upTo vma ++ vma :: mm.after vma ∧ mm'.mapCount = mm.mapCount + 1 ∧
      vma.vmStart < vma.vmEnd := by
  unfold insertVmaStruct at h
  split at h
  · next hcheck =>
    cases h
    exact ⟨rfl, rfl, hcheck.1⟩
  · cases h

theorem insertVmaStruct_perm {vma : Vma} (h : mm.insertVmaStruct vma = some mm') :
    mm'.mmapList.Perm (vma :: mm.mmapList) := by
  have hsplit : mm.upTo vma ++ mm.after vma = mm.mmapList := List.takeWhile_append_dropWhile
  rw [(insertVmaStruct_eq h).1]
  refine List.perm_middle.trans ?_
  rw [hsplit]

theorem WellFormed.insertVmaStruct (h : mm.WellFormed) {vma : Vma}
    (hins : mm.insertVmaStruct vma = some mm') : mm'.WellFormed := by
  have hperm := insertVmaStruct_perm hins
  obtain ⟨_, hcount, hlt⟩ := insertVmaStruct_eq hins
  refine ⟨(h.sorted.insertVmaStruct hins).1, ?_, ?_⟩
  · intro v hv
    rcases List.mem_cons.mp (hperm.mem_iff.mp hv) with heq | hin
    · rw [heq]
      exact hlt
    · exact h.nonempty v hin
  · rw [hcount, h.mapCount, hperm.length_eq, List.length_cons]

/-- The assertions hold exactly for an area that no other one overlaps. -/
theorem WellFormed.insert_isSome (h : mm.WellFormed) {vma : Vma} (hlt : vma.vmStart < vma.vmEnd)
    (hapart : ∀ w ∈ mm.mmapList, w.vmEnd ≤ vma.vmStart ∨ vma.vmEnd ≤ w.vmStart) :
    ∃ mm', mm.insertVmaStruct vma = some mm' := by
  unfold Mm.insertVmaStruct
  rw [if_pos]
  · exact ⟨_, rfl⟩
  · refine ⟨hlt, ?_, ?_⟩
    · intro prev hprev
      have hin : prev ∈ mm.upTo vma := List.mem_of_mem_getLast? hprev
      have hle : prev.vmStart ≤ vma.vmStart := of_decide_eq_true
        (List.mem_takeWhile_imp (p := fun v : Vma => decide (v.vmStart ≤ vma.vmStart)) hin)
      have hmem : prev ∈ mm.mmapList := (List.takeWhile_prefix _).subset hin
      have hpos := h.nonempty prev hmem
      refine ⟨hpos, ?_, hlt⟩
      rcases hapart prev hmem with hbefore | hbehind
      · exact hbefore
      · omega
    · intro next hnext
      have hin : next ∈ mm.after vma := List.mem_of_head? hnext
      have hmem : next ∈ mm.mmapList := (List.dropWhile_suffix _).subset hin
      have hgt : ¬ next.vmStart ≤ vma.vmStart := by
        have hnot := List.head?_dropWhile_not (fun v : Vma => decide (v.vmStart ≤ vma.vmStart))
          mm.mmapList
        have hhead : (mm.mmapList.dropWhile fun v => decide (v.vmStart ≤ vma.vmStart)).head? =
            some next := hnext
        rw [hhead] at hnot
        exact of_decide_eq_false hnot
      have hpos := h.nonempty next hmem
      refine ⟨hlt, ?_, hpos⟩
      rcases hapart next hmem with hbefore | hbehind
      · omega
      · exact hbehind

/-! Requests. -/

/-- A range free of areas has none at its start, and the other way round nothing but an area
that begins behind the start can be in the way. -/
theorem not_vacant_of_contains {v : Vma} (hv : v ∈ mm.mmapList) (hc : v.Contains r.start)
    (hlt : r.start < r.pageEnd) : ¬ mm.Vacant r :=
  fun hvac => hvac.2 v hv r.start (Nat.le_refl _) hlt hc

theorem WellFormed.createVma_eq (h : mm.WellFormed) (hu : userAccess r.start r.stop)
    (hstart : ∀ v ∈ mm.mmapList, ¬ v.Contains r.start)
    (hin : ¬ ∃ v ∈ mm.mmapList, r.start < v.vmStart ∧ v.vmStart < r.stop) :
    (r.kmem = true → ∃ mm', mm.createVma r hu = some (0, mm') ∧
      mm'.mmapList.Perm (r.vma hu :: mm.mmapList)) ∧
    (r.kmem = false → mm.createVma r hu = some (-eNoMem, mm)) := by
  unfold createVma
  constructor
  · intro hmem
    have hapart : ∀ w ∈ mm.mmapList, w.vmEnd ≤ (r.vma hu).vmStart ∨ (r.vma hu).vmEnd ≤ w.vmStart := by
      intro w hw
      change w.vmEnd ≤ r.start ∨ r.stop ≤ w.vmStart
      by_cases hbelow : w.vmStart ≤ r.start
      · refine .inl (Nat.le_of_not_lt fun hlt => hstart w hw ⟨hbelow, hlt⟩)
      · exact .inr (Nat.le_of_not_lt fun hlt => hin ⟨w, hw, Nat.lt_of_not_le hbelow, hlt⟩)
    have hlt : (r.vma hu).vmStart < (r.vma hu).vmEnd := hu.2.1
    obtain ⟨mm', hmm'⟩ := h.insert_isSome hlt hapart
    rw [if_pos hmem, hmm']
    exact ⟨mm', rfl, insertVmaStruct_perm hmm'⟩
  · intro hmem
    rw [if_neg (by rw [hmem]; exact Bool.false_ne_true)]

theorem createVma_code (hu : userAccess r.start r.stop) {code : ℤ}
    (h : mm.createVma r hu = some (code, mm')) : code ≠ -eInval := by
  unfold createVma at h
  split at h
  · obtain ⟨mm₁, _, heq⟩ := Option.map_eq_some_iff.mp h
    cases heq
    decide
  · cases h
    decide

/-- Which of its three ways `mm_map` takes. -/
theorem WellFormed.mapRequest_cases (h : mm.WellFormed) (r : MapRequest) :
    (¬ userAccess r.start r.stop ∧ mm.mapRequest r = some (-eInval, mm)) ∨
    (userAccess r.start r.stop ∧ (∃ v ∈ mm.mmapList, v.Contains r.start) ∧
      mm.mapRequest r = some (-eInval, (mm.findVma r.start).2)) ∨
    ∃ hu : userAccess r.start r.stop, (∀ v ∈ mm.mmapList, ¬ v.Contains r.start) ∧
      mm.mapRequest r = (mm.findVma r.start).2.createVma r hu := by
  unfold mapRequest
  by_cases hu : userAccess r.start r.stop
  · rw [dif_pos hu]
    split
    · next v mm₁ hfind =>
      obtain ⟨hv, hc⟩ := h.sorted.findVma_eq_some.mp (by rw [hfind])
      rw [if_pos (Nat.lt_of_le_of_lt hc.1 hu.2.1), hfind]
      exact .inr (.inl ⟨hu, ⟨v, hv, hc⟩, rfl⟩)
    · next mm₁ hfind =>
      refine .inr (.inr ⟨hu, ?_, by rw [hfind]⟩)
      intro v hv hc
      have hsome := h.sorted.findVma_eq_some.mpr ⟨hv, hc⟩
      rw [hfind] at hsome
      cases hsome
  · exact .inl ⟨hu, dif_neg hu⟩

theorem WellFormed.mapRequest (h : mm.WellFormed) {code : ℤ}
    (hmap : mm.mapRequest r = some (code, mm')) : mm'.WellFormed := by
  rcases h.mapRequest_cases r with ⟨_, heq⟩ | ⟨_, _, heq⟩ | ⟨hu, _, heq⟩
  · rw [heq] at hmap
    cases hmap
    exact h
  · rw [heq] at hmap
    cases hmap
    exact h.findVma _
  · rw [heq] at hmap
    unfold createVma at hmap
    split at hmap
    · obtain ⟨mm₁, hins, hpair⟩ := Option.map_eq_some_iff.mp hmap
      cases hpair
      exact (h.findVma _).insertVmaStruct hins
    · cases hmap
      exact h.findVma _

/-- A request that misses is not answered as it should be. -/
theorem WellFormed.not_mapsRight (h : mm.WellFormed) (hmiss : mm.Misses r) : ¬ mm.MapsRight r := by
  obtain ⟨hu, hstart, hreach⟩ := hmiss
  intro hright
  obtain ⟨code, mm', hmap, hanswer⟩ := hright
  have hbusy : ¬ mm.Vacant r := by
    intro hvac
    obtain ⟨hsum, hstop⟩ := r.userAccess_of_pageEnd hvac.1
    rcases hreach with hwrap | ⟨v, hv, hlow, hhigh⟩
    · omega
    · refine hvac.2 v hv v.vmStart (Nat.le_of_lt hlow) (hstop ▸ hhigh) ⟨Nat.le_refl _, ?_⟩
      exact h.nonempty v hv
  have hcode := (hanswer.refused hbusy).1
  rcases h.mapRequest_cases r with ⟨hno, _⟩ | ⟨_, ⟨v, hv, hc⟩, _⟩ | ⟨hu', _, heq⟩
  · exact hno hu
  · exact hstart v hv hc
  · rw [heq] at hmap
    exact createVma_code hu' hmap hcode

theorem WellFormed.mapsRight (h : mm.WellFormed) (hno : ¬ mm.Misses r) : mm.MapsRight r := by
  rcases h.mapRequest_cases r with ⟨hbad, heq⟩ | ⟨_, ⟨v, hv, hc⟩, heq⟩ | ⟨hu, hstart, heq⟩
  · have hbusy : ¬ mm.Vacant r := by
      intro hvac
      apply hbad
      rw [(r.userAccess_of_pageEnd hvac.1).2]
      exact hvac.1
    exact ⟨_, _, heq, fun _ => ⟨rfl, rfl⟩, fun hvac => absurd hvac hbusy, fun hvac => absurd hvac hbusy⟩
  · have hbusy : ¬ mm.Vacant r := fun hvac => not_vacant_of_contains hv hc hvac.1.2.1 hvac
    exact ⟨_, _, heq, fun _ => ⟨rfl, findVma_mmapList mm _⟩, fun hvac => absurd hvac hbusy,
      fun hvac => absurd hvac hbusy⟩
  · have hsum : r.addr + r.len < wordLimit :=
      Nat.lt_of_not_le fun hwrap => hno ⟨hu, hstart, .inl hwrap⟩
    have hgap : ¬ ∃ v ∈ mm.mmapList, r.start < v.vmStart ∧ v.vmStart < r.stop :=
      fun hgap => hno ⟨hu, hstart, .inr hgap⟩
    have hstop := r.stop_eq hu hsum
    have hvac : mm.Vacant r := by
      refine ⟨hstop ▸ hu, ?_⟩
      intro v hv a hlow hhigh hc
      by_cases hbelow : v.vmStart ≤ r.start
      · exact hstart v hv ⟨hbelow, Nat.lt_of_le_of_lt hlow hc.2⟩
      · exact hgap ⟨v, hv, Nat.lt_of_not_le hbelow, Nat.lt_of_le_of_lt hc.1 (hstop ▸ hhigh)⟩
    have hsame := findVma_mmapList mm r.start
    obtain ⟨hyes, hnone⟩ := (h.findVma r.start).createVma_eq hu (hsame ▸ hstart) (hsame ▸ hgap)
    rw [hsame] at hyes
    unfold MapsRight
    rw [heq]
    cases hmem : r.kmem with
    | true =>
      obtain ⟨mm', hcreate, hperm⟩ := hyes hmem
      refine ⟨0, mm', hcreate, fun hbusy => absurd hvac hbusy, fun _ _ => ⟨rfl, ?_⟩, ?_⟩
      · exact ⟨r.vma hu, rfl, hstop, rfl, hperm⟩
      · intro _ hfalse
        rw [hmem] at hfalse
        cases hfalse
    | false =>
      refine ⟨_, _, hnone hmem, fun hbusy => absurd hvac hbusy, ?_, fun _ _ => ⟨rfl, hsame⟩⟩
      intro _ htrue
      rw [hmem] at htrue
      cases htrue

theorem mmCreate_wellFormed (pgdir : ℕ) : (mmCreate pgdir).WellFormed where
  sorted := ⟨List.Pairwise.nil, fun _ hv => nomatch hv⟩
  nonempty _ hv := absurd hv List.not_mem_nil
  mapCount := rfl

theorem WellFormed.step (h : mm.WellFormed) {op : MmOp} (hstep : mm.step op = some mm') :
    mm'.WellFormed := by
  cases op with
  | map r =>
    obtain ⟨⟨code, mm₁⟩, hmap, heq⟩ := Option.map_eq_some_iff.mp hstep
    cases heq
    exact h.mapRequest hmap
  | find addr =>
    cases hstep
    exact h.findVma addr

/-- The list stays in order whatever is asked for, and a request is answered rightly exactly
if it does not miss an area or a wrapped sum. -/
theorem map_right_iff (pgdir : ℕ) (ops : List MmOp) (mm : Mm)
    (h : runOps step (mmCreate pgdir) ops = some mm) :
    mm.WellFormed ∧ ∀ r, mm.MapsRight r ↔ ¬ mm.Misses r := by
  have hwf : mm.WellFormed :=
    runOps_invariant (fun _ _ _ hs hstep => WellFormed.step hs hstep) (mmCreate_wellFormed pgdir) h
  refine ⟨hwf, fun r => ⟨fun hright hmiss => hwf.not_mapsRight hmiss hright, hwf.mapsRight⟩⟩

/-- A segment behind the text, and one that starts before it and reaches into it. -/
def dataSegment : MapRequest := ⟨0x401000, 0x1000, vmRead, true, by decide, by decide⟩

def longSegment : MapRequest := ⟨0x400000, 0x1800, vmRead, true, by decide, by decide⟩

theorem map_right_iff_segment : ∃ mm, runOps step (mmCreate 1) [.map dataSegment] = some mm ∧
    mm.WellFormed ∧ ∀ r, mm.MapsRight r ↔ ¬ mm.Misses r := by
  have hrun : (runOps step (mmCreate 1) [.map dataSegment]).isSome = true := by decide
  obtain ⟨mm, hmm⟩ := Option.isSome_iff_exists.mp hrun
  exact ⟨mm, hmm, map_right_iff 1 _ mm hmm⟩

theorem overlap_behind_start_panics : ∃ mm, runOps step (mmCreate 1) [.map dataSegment] = some mm ∧
    mm.mapRequest longSegment = none ∧ ¬ mm.MapsRight longSegment := by
  have hrun : (runOps step (mmCreate 1) [.map dataSegment]).map
      (fun mm => (mm.mapRequest longSegment).isNone) = some true := by decide
  obtain ⟨mm, hmm, hisNone⟩ := Option.map_eq_some_iff.mp hrun
  have hnone := Option.isNone_iff_eq_none.mp hisNone
  refine ⟨mm, hmm, hnone, ?_⟩
  intro hright
  obtain ⟨code, mm', hmap, _⟩ := hright
  rw [hnone] at hmap
  cases hmap

end Mm
end Ucore.Vm
