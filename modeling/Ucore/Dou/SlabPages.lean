import Ucore.Dou.Slub
import Ucore.Library.Chain
import Mathlib.Data.List.Perm.Basic
import Mathlib.Tactic.IntervalCases

/-!
One slab page: its free objects form a chain, and together with the live objects they are
the slots behind the header. Each lemma says what one of the operations on a page does to
this, and which words it writes.
-/
namespace Ucore.Dou

open Library Libs Vm SlabPage

theorem bucketSize_spec {i : ℕ} (hi : i < maxBucket) :
    8 ≤ bucketSize i ∧ bucketSize i % 8 = 0 ∧ bucketSize i ≤ 2048 := by
  unfold maxBucket at hi
  interval_cases i <;> simp [bucketSize]

/-- The free objects of a page and their number. -/
structure FreeList (mem : ℕ → ℕ) (sp : ℕ) (fr : List ℕ) : Prop where
  chain : Chain mem (mem (free sp)) fr
  count : mem (nrFree sp) = fr.length
  behind : ∀ x ∈ fr, sp + headerSize ≤ x

namespace FreeList

variable {mem mem' : ℕ → ℕ} {sp o : ℕ} {fr : List ℕ}

/-- Only the header and the free objects are read. -/
theorem congr (h : FreeList mem sp fr)
    (hhead : ∀ w, sp ≤ w → w < sp + headerSize → mem' w = mem w)
    (hfree : ∀ w ∈ fr, mem' w = mem w) : FreeList mem' sp fr where
  chain := by
    rw [hhead (free sp) (by unfold free; omega) (by unfold free headerSize; omega)]
    exact h.chain.congr hfree
  count := by
    rw [hhead (nrFree sp) (by unfold nrFree; omega) (by unfold nrFree headerSize; omega)]
    exact h.count
  behind := h.behind

/-- The first free object is taken. -/
theorem pop (h : FreeList mem sp (o :: fr)) (hlen : fr.length + 1 < 2 ^ 64) :
    mem (free sp) = o ∧ FreeList (popObj mem sp o) sp fr := by
  obtain ⟨hfirst, -, hrest⟩ := h.chain
  have hcount := h.count
  rw [List.length_cons] at hcount
  refine ⟨hfirst, ?_, ?_, ?_⟩
  · have hread : popObj mem sp o (free sp) = mem o := by
      simp [popObj, write, free, nrFree]
    rw [hread]
    refine hrest.congr ?_
    intro w hw
    have hb := h.behind w (List.mem_cons_of_mem o hw)
    unfold headerSize at hb
    have h1 : w ≠ free sp := by unfold free; omega
    have h2 : w ≠ nrFree sp := by unfold nrFree; omega
    simp [popObj, write, h1, h2]
  · have hold : write mem (free sp) (mem o) (nrFree sp) = fr.length + 1 := by
      rw [← hcount]
      simp [write, free, nrFree]
    simp only [popObj, hold]
    simp only [write, Function.update_self, uint64]
    omega
  · exact fun x hx => h.behind x (List.mem_cons_of_mem o hx)

/-- An object becomes free. -/
theorem push (h : FreeList mem sp fr) (ho : sp + headerSize ≤ o) (hout : o ∉ fr)
    (hlen : fr.length + 1 < 2 ^ 64) : FreeList (pushObj mem sp o) sp (o :: fr) := by
  unfold headerSize at ho
  have h1 : o ≠ free sp := by unfold free; omega
  have h2 : o ≠ nrFree sp := by unfold nrFree; omega
  refine ⟨⟨?_, by omega, ?_⟩, ?_, ?_⟩
  · simp [pushObj, write, free, nrFree]
  · have hread : pushObj mem sp o o = mem (free sp) := by
      simp [pushObj, write, h1, h2]
    rw [hread]
    refine h.chain.congr ?_
    intro w hw
    have hb := h.behind w hw
    unfold headerSize at hb
    have h3 : w ≠ o := fun heq => hout (heq ▸ hw)
    have h4 : w ≠ free sp := by unfold free; omega
    have h5 : w ≠ nrFree sp := by unfold nrFree; omega
    simp [pushObj, write, h3, h4, h5]
  · have hold : write (write mem o (mem (free sp))) (free sp) o (nrFree sp) = fr.length := by
      rw [← h.count]
      have h3 : nrFree sp ≠ free sp := by unfold nrFree free; omega
      simp [write, h2.symm, h3]
    simp only [pushObj, hold, List.length_cons]
    simp only [write, Function.update_self]
    exact uint64_of_lt hlen
  · intro x hx
    rcases List.mem_cons.mp hx with rfl | hx
    · unfold headerSize
      omega
    · exact h.behind x hx

end FreeList

theorem popObj_other (mem : ℕ → ℕ) {sp o w : ℕ} (h1 : w ≠ free sp) (h2 : w ≠ nrFree sp) :
    popObj mem sp o w = mem w := by
  simp [popObj, write, h1, h2]

theorem pushObj_other (mem : ℕ → ℕ) {sp o w : ℕ} (h1 : w ≠ o) (h2 : w ≠ free sp)
    (h3 : w ≠ nrFree sp) : pushObj mem sp o w = mem w := by
  simp [pushObj, write, h1, h2, h3]

/-- The first `k` places for objects of size `z` behind the header. -/
def slotsUpTo (sp z k : ℕ) : List ℕ := (List.range k).map (fun j => sp + headerSize + j * z)

/-- How many objects of size `z` a page has room for. -/
def slotCount (z : ℕ) : ℕ := (pgSize - headerSize) / z

def slots (sp z : ℕ) : List ℕ := slotsUpTo sp z (slotCount z)

section slots

variable {sp z k x : ℕ}

theorem mem_slotsUpTo : x ∈ slotsUpTo sp z k ↔ ∃ j < k, x = sp + headerSize + j * z := by
  simp only [slotsUpTo, List.mem_map, List.mem_range, eq_comm]

theorem slotsUpTo_succ (sp z k : ℕ) :
    slotsUpTo sp z (k + 1) = slotsUpTo sp z k ++ [sp + headerSize + k * z] := by
  simp only [slotsUpTo, List.range_succ, List.map_append, List.map_cons, List.map_nil]

theorem nodup_slotsUpTo (hz : 0 < z) : (slotsUpTo sp z k).Nodup := by
  refine List.Nodup.map ?_ List.nodup_range
  intro j j' heq
  have hmul : j * z = j' * z := by
    simp only at heq
    omega
  exact Nat.eq_of_mul_eq_mul_right hz hmul

theorem slotsUpTo_fresh (hz : 0 < z) : sp + headerSize + k * z ∉ slotsUpTo sp z k := by
  have hnodup : (slotsUpTo sp z (k + 1)).Nodup := nodup_slotsUpTo hz
  rw [slotsUpTo_succ, List.nodup_append] at hnodup
  intro hbad
  exact hnodup.2.2 _ hbad _ (List.mem_singleton_self _) rfl

theorem length_slots (sp z : ℕ) : (slots sp z).length = slotCount z := by
  simp only [slots, slotsUpTo, List.length_map, List.length_range]

theorem slotCount_le (hz : 8 ≤ z) : slotCount z ≤ 506 := by
  unfold slotCount pgSize headerSize
  exact Nat.div_le_of_le_mul (by omega)

theorem slotCount_pos (hz : 0 < z) (hz' : z ≤ 2048) : 0 < slotCount z := by
  unfold slotCount pgSize headerSize
  exact Nat.div_pos (by omega) hz

theorem lt_slotCount_iff (hz : 0 < z) :
    k < slotCount z ↔ sp + headerSize + k * z + z ≤ sp + pgSize := by
  unfold slotCount pgSize headerSize
  rw [Nat.lt_iff_add_one_le, Nat.le_div_iff_mul_le hz, Nat.add_mul]
  omega

/-- A slot lies behind the header and ends in the page. -/
theorem slot_bounds (hz : 0 < z) (hx : x ∈ slots sp z) :
    sp + headerSize ≤ x ∧ x + z ≤ sp + pgSize := by
  obtain ⟨j, hj, rfl⟩ := mem_slotsUpTo.mp hx
  exact ⟨Nat.le_add_right _ _, (lt_slotCount_iff hz).mp hj⟩

/-- Different slots do not overlap. -/
theorem slot_apart {y : ℕ} (hx : x ∈ slots sp z) (hy : y ∈ slots sp z) (hne : x ≠ y) :
    x + z ≤ y ∨ y + z ≤ x := by
  obtain ⟨j, -, rfl⟩ := mem_slotsUpTo.mp hx
  obtain ⟨j', -, rfl⟩ := mem_slotsUpTo.mp hy
  have hj : j ≠ j' := fun heq => hne (by rw [heq])
  rcases Nat.lt_or_gt_of_ne hj with hlt | hlt
  · have hmul : (j + 1) * z ≤ j' * z := Nat.mul_le_mul_right z hlt
    rw [Nat.add_mul] at hmul
    omega
  · have hmul : (j' + 1) * z ≤ j * z := Nat.mul_le_mul_right z hlt
    rw [Nat.add_mul] at hmul
    omega

end slots

/-- A slab page with objects of size `z`, the free ones `fr` and the live ones `objs`. -/
structure Slab (mem : ℕ → ℕ) (sp z : ℕ) (fr objs : List ℕ) : Prop where
  list : FreeList mem sp fr
  size : mem (objSize sp) = z
  cap : mem (capacity sp) = slotCount z
  parts : (fr ++ objs).Perm (slots sp z)

namespace Slab

variable {mem mem' : ℕ → ℕ} {sp z o : ℕ} {fr objs objs' : List ℕ}

theorem nodup (h : Slab mem sp z fr objs) (hz : 0 < z) : (fr ++ objs).Nodup :=
  h.parts.nodup_iff.mpr (nodup_slotsUpTo hz)

theorem length (h : Slab mem sp z fr objs) : fr.length + objs.length = slotCount z := by
  rw [← List.length_append, h.parts.length_eq, length_slots]

theorem slot_of_obj (h : Slab mem sp z fr objs) (ho : o ∈ objs) : o ∈ slots sp z :=
  h.parts.mem_iff.mp (List.mem_append_right fr ho)

theorem slot_of_free (h : Slab mem sp z fr objs) (ho : o ∈ fr) : o ∈ slots sp z :=
  h.parts.mem_iff.mp (List.mem_append_left objs ho)

theorem perm (h : Slab mem sp z fr objs) (hp : objs.Perm objs') : Slab mem sp z fr objs' :=
  ⟨h.list, h.size, h.cap, (hp.symm.append_left fr).trans h.parts⟩

/-- Only the header and the free objects are read. -/
theorem congr (h : Slab mem sp z fr objs)
    (hhead : ∀ w, sp ≤ w → w < sp + headerSize → mem' w = mem w)
    (hfree : ∀ w ∈ fr, mem' w = mem w) : Slab mem' sp z fr objs where
  list := h.list.congr hhead hfree
  size := by
    rw [hhead (objSize sp) (by unfold objSize; omega) (by unfold objSize headerSize; omega)]
    exact h.size
  cap := by
    rw [hhead (capacity sp) (by unfold capacity; omega) (by unfold capacity headerSize; omega)]
    exact h.cap
  parts := h.parts

/-- A write outside the page changes nothing about it. -/
theorem congr_outside (h : Slab mem sp z fr objs) (hz : 0 < z)
    (hout : ∀ w, sp ≤ w → w < sp + pgSize → mem' w = mem w) : Slab mem' sp z fr objs := by
  refine h.congr ?_ ?_
  · intro w h1 h2
    refine hout w h1 ?_
    unfold headerSize at h2
    unfold pgSize
    omega
  · intro w hw
    obtain ⟨h1, h2⟩ := slot_bounds hz (h.slot_of_free hw)
    exact hout w (by omega) (by omega)

/-- A store into a live object. -/
theorem store (h : Slab mem sp z fr objs) (hz : 0 < z) {ptr w : ℕ} (hptr : ptr ∈ objs)
    (h1 : ptr ≤ w) (h2 : w < ptr + z) (v : ℕ) : Slab (write mem w v) sp z fr objs := by
  have hslot := h.slot_of_obj hptr
  have hb := slot_bounds hz hslot
  refine h.congr ?_ ?_
  · intro w' h3 h4
    exact Function.update_of_ne (by omega) _ _
  · intro x hx
    have hne : x ≠ ptr := by
      have hnodup := List.nodup_append.mp (h.nodup hz)
      exact hnodup.2.2 x hx ptr hptr
    have hap := slot_apart (h.slot_of_free hx) hslot hne
    exact Function.update_of_ne (by omega) _ _

/-- `kmalloc` takes the first free object. -/
theorem pop (h : Slab mem sp z (o :: fr) objs) (hz : 8 ≤ z) :
    mem (free sp) = o ∧ Slab (popObj mem sp o) sp z fr (o :: objs) := by
  have hlen := h.length
  have hcount := slotCount_le hz
  rw [List.length_cons] at hlen
  obtain ⟨hfirst, hlist⟩ := h.list.pop (by omega)
  refine ⟨hfirst, hlist, ?_, ?_, ?_⟩
  · rw [popObj_other mem (by unfold objSize free; omega) (by unfold objSize nrFree; omega)]
    exact h.size
  · rw [popObj_other mem (by unfold capacity free; omega) (by unfold capacity nrFree; omega)]
    exact h.cap
  · exact List.perm_middle.trans h.parts

/-- `kfree` puts an object in front of the free ones. -/
theorem push (h : Slab mem sp z fr (o :: objs)) (hz : 8 ≤ z) :
    Slab (pushObj mem sp o) sp z (o :: fr) objs := by
  have hlen := h.length
  have hcount := slotCount_le hz
  rw [List.length_cons] at hlen
  have hb := slot_bounds (by omega) (h.slot_of_obj List.mem_cons_self)
  have hout : o ∉ fr := by
    intro hbad
    exact (List.nodup_append.mp (h.nodup (by omega))).2.2 o hbad o List.mem_cons_self rfl
  have hhead := hb.1
  unfold headerSize at hhead
  refine ⟨h.list.push hb.1 hout (by omega), ?_, ?_, ?_⟩
  · rw [pushObj_other mem (by unfold objSize; omega) (by unfold objSize free; omega)
      (by unfold objSize nrFree; omega)]
    exact h.size
  · rw [pushObj_other mem (by unfold capacity; omega) (by unfold capacity free; omega)
      (by unfold capacity nrFree; omega)]
    exact h.cap
  · exact List.perm_middle.symm.trans h.parts

end Slab

/-- The turns of the loop that are left fill the page. -/
theorem objLoop_spec {sp z : ℕ} (hz : 8 ≤ z) (left : ℕ) {k : ℕ} {mem : ℕ → ℕ}
    (hk : k ≤ slotCount z) (hleft : slotCount z < k + left)
    (hlist : FreeList mem sp (slotsUpTo sp z k).reverse) :
    ∃ mem', objLoop sp z (sp + pgSize) left mem (sp + headerSize + k * z) = some mem' ∧
      FreeList mem' sp (slots sp z).reverse ∧ mem' (objSize sp) = mem (objSize sp) ∧
      ∀ w, w < sp ∨ sp + pgSize ≤ w → mem' w = mem w := by
  induction left generalizing k mem with
  | zero => omega
  | succ left ih =>
    have hcount := slotCount_le hz
    rw [objLoop]
    by_cases hlt : k < slotCount z
    · have hroom : sp + headerSize + k * z + z ≤ sp + pgSize :=
        (lt_slotCount_iff (by omega)).mp hlt
      rw [if_pos hroom]
      have hpush := hlist.push (o := sp + headerSize + k * z) (Nat.le_add_right _ _)
        (fun hbad => slotsUpTo_fresh (by omega) (List.mem_reverse.mp hbad))
        (by
          rw [List.length_reverse]
          simp only [slotsUpTo, List.length_map, List.length_range]
          omega)
      have hnext : sp + headerSize + k * z + z = sp + headerSize + (k + 1) * z := by
        rw [Nat.add_mul]
        omega
      rw [hnext]
      obtain ⟨mem', hrun, hfull, hsize, hother⟩ := ih hlt (by omega) (by
        rw [slotsUpTo_succ, List.reverse_append]
        exact hpush)
      refine ⟨mem', hrun, hfull, ?_, ?_⟩
      · rw [hsize]
        exact pushObj_other mem (by unfold objSize headerSize; omega)
          (by unfold objSize free; omega) (by unfold objSize nrFree; omega)
      · intro w hw
        rw [hother w hw]
        unfold headerSize pgSize at *
        exact pushObj_other mem (by omega) (by unfold free; omega) (by unfold nrFree; omega)
    · rw [if_neg (fun hbad => hlt ((lt_slotCount_iff (by omega)).mpr hbad))]
      have hkeq : k = slotCount z := by omega
      subst hkeq
      exact ⟨mem, rfl, hlist, rfl, fun _ _ => rfl⟩

/-- A new slab page: all its objects are free. -/
theorem slabPageInit_spec (mem : ℕ → ℕ) {sp z : ℕ} (hz : 8 ≤ z) (hdvd : z % 8 = 0)
    (hsp : sp + pgSize < 2 ^ 64) :
    ∃ mem', slabPageInit mem sp z = some mem' ∧ Slab mem' sp z (slots sp z).reverse [] ∧
      ∀ w, w < sp ∨ sp + pgSize ≤ w → mem' w = mem w := by
  have hstride : (z + 8 - 1) / 8 * 8 = z := by omega
  have hempty : FreeList (write (write (write mem (free sp) 0) (objSize sp) z) (nrFree sp) 0) sp
      (slotsUpTo sp z 0).reverse := by
    refine ⟨?_, ?_, ?_⟩
    · simp [slotsUpTo, Chain, write, free, objSize, nrFree]
    · simp [slotsUpTo, write]
    · simp [slotsUpTo]
  have hcount := slotCount_le hz
  obtain ⟨mem', hrun, hlist, hsize, hother⟩ := objLoop_spec hz pgSize (Nat.zero_le _)
    (by unfold pgSize; omega) hempty
  rw [Nat.zero_mul, Nat.add_zero] at hrun
  have hnr : mem' (nrFree sp) = slotCount z := by
    rw [hlist.count, List.length_reverse, length_slots]
  refine ⟨write mem' (capacity sp) (mem' (nrFree sp)), ?_, ⟨?_, ?_, ?_, ?_⟩, ?_⟩
  · simp only [slabPageInit, hstride, uint64_of_lt hsp, hrun, Option.bind_eq_bind,
      Option.bind_some]
  · refine ⟨?_, ?_, hlist.behind⟩
    · have hfirst : write mem' (capacity sp) (mem' (nrFree sp)) (free sp) = mem' (free sp) := by
        simp [write, capacity, free]
      rw [hfirst]
      refine hlist.chain.congr ?_
      intro w hw
      have hb := hlist.behind w hw
      unfold headerSize at hb
      exact Function.update_of_ne (by unfold capacity; omega) _ _
    · have hsame : write mem' (capacity sp) (mem' (nrFree sp)) (nrFree sp) = mem' (nrFree sp) := by
        simp [write, capacity, nrFree]
      rw [hsame]
      exact hlist.count
  · have hsame : write mem' (capacity sp) (mem' (nrFree sp)) (objSize sp) =
        mem' (objSize sp) := by
      simp [write, capacity, objSize]
    rw [hsame, hsize]
    simp [write, free, objSize, nrFree]
  · rw [write, Function.update_self, hnr]
  · rw [List.append_nil]
    exact List.reverse_perm _
  · intro w hw
    unfold pgSize at hw
    have h1 : w ≠ capacity sp := by unfold capacity; omega
    have h2 : w ≠ nrFree sp := by unfold nrFree; omega
    have h3 : w ≠ objSize sp := by unfold objSize; omega
    have h4 : w ≠ free sp := by unfold free; omega
    rw [write, Function.update_of_ne h1, hother w hw]
    simp [write, h2, h3, h4]

/-- The loop over the free objects ends and finds what is there. -/
theorem chainHas_spec {mem : ℕ → ℕ} {ptr a left : ℕ} {xs : List ℕ} (h : Chain mem a xs)
    (hleft : xs.length < left) : chainHas mem ptr left a = some (decide (ptr ∈ xs)) := by
  induction left generalizing a xs with
  | zero => omega
  | succ left ih =>
    rw [chainHas]
    by_cases ha : a = 0
    · have hnil := h.nil_iff.mpr ha
      rw [if_pos ha, hnil]
      simp
    · obtain ⟨ys, rfl, hrest⟩ := h.exists_cons ha
      rw [if_neg ha]
      by_cases hp : a = ptr
      · rw [if_pos hp]
        simp [hp]
      · rw [if_neg hp, ih hrest (by rw [List.length_cons] at hleft; omega)]
        simp [Ne.symm hp]

theorem freeObjs_spec {mem : ℕ → ℕ} {a left : ℕ} {xs : List ℕ} (h : Chain mem a xs)
    (hleft : xs.length < left) : Slub.freeObjs mem left a = xs := by
  induction left generalizing a xs with
  | zero => omega
  | succ left ih =>
    rw [Slub.freeObjs]
    by_cases ha : a = 0
    · rw [if_pos ha, h.nil_iff.mpr ha]
    · obtain ⟨ys, rfl, hrest⟩ := h.exists_cons ha
      rw [if_neg ha, ih hrest (by rw [List.length_cons] at hleft; omega)]

end Ucore.Dou
