import Mathlib.Data.BitVec
import Mathlib.Data.Finset.Card
import Mathlib.Data.Finset.Range
import Mathlib.Logic.Function.Basic
import Mathlib.Tactic.ByContra

/-!
The bitmap of `bitmap.c`: words of 32 bits, a set bit for a free block.
-/
namespace Ucore.Fs

def wordBits : ℕ := 32

structure Bitmap where
  nbits : ℕ
  nwords : ℕ
  map : ℕ → BitVec 32

namespace Bitmap

/-- The bit at an index. -/
def bit (b : Bitmap) (index : ℕ) : Bool := (b.map (index / wordBits)).getLsbD (index % wordBits)

def mask (offset : ℕ) : BitVec 32 := 1#32 <<< offset

/-- The inner loop of `bitmap_alloc`, with `left` bits to look at. -/
def scanWord (word : BitVec 32) : ℕ → ℕ → Option ℕ
  | 0, _ => none
  | left + 1, offset =>
    if word &&& mask offset ≠ 0 then some offset else scanWord word left (offset + 1)

/-- The outer loop; the inner `none` is the failed `assert(0)`. -/
def scanMap (b : Bitmap) : ℕ → ℕ → Option (Option (ℕ × ℕ))
  | 0, _ => some none
  | left + 1, ix =>
    if b.map ix ≠ 0 then (scanWord (b.map ix) wordBits 0).map (fun offset => some (ix, offset))
    else scanMap b left (ix + 1)

def bitmapAlloc (b : Bitmap) : Option (Option ℕ × Bitmap) :=
  (scanMap b b.nwords 0).map (fun found =>
    match found with
    | none => (none, b)
    | some (ix, offset) => (some (ix * wordBits + offset),
        { b with map := Function.update b.map ix (b.map ix ^^^ mask offset) }))

def bitmapTest (b : Bitmap) (index : ℕ) : Option Bool :=
  if index < b.nbits then
    some (decide (b.map (index / wordBits) &&& mask (index % wordBits) ≠ 0))
  else none

def bitmapFree (b : Bitmap) (index : ℕ) : Option Bitmap :=
  if index < b.nbits ∧ b.map (index / wordBits) &&& mask (index % wordBits) = 0 then
    some { b with
      map := Function.update b.map (index / wordBits)
        (b.map (index / wordBits) ||| mask (index % wordBits)) }
  else none

/-- The number of set bits. -/
def setBits (b : Bitmap) : ℕ := ((Finset.range b.nbits).filter (fun i => b.bit i = true)).card

theorem mask_getLsbD (offset i : ℕ) :
    (mask offset).getLsbD i = (decide (i < 32) && decide (i = offset)) := by
  unfold mask
  rw [BitVec.getLsbD_shiftLeft, BitVec.getLsbD_one]
  by_cases hi : i < 32
  · by_cases heq : i = offset
    · subst heq
      simp [hi]
    · have : i < offset ∨ ¬ i < offset ∧ i - offset ≠ 0 := by omega
      simp only [hi, heq, decide_true, decide_false, Bool.true_and]
      rcases this with h | h
      · simp [h]
      · simp [h]
  · simp [hi]

/-- A mask reads one bit. -/
theorem and_mask_eq_zero (word : BitVec 32) {offset : ℕ} (h : offset < 32) :
    word &&& mask offset = 0 ↔ word.getLsbD offset = false := by
  constructor
  · intro heq
    have hbit : (word &&& mask offset).getLsbD offset = false := by
      rw [heq]
      exact BitVec.getLsbD_zero
    rw [BitVec.getLsbD_and, mask_getLsbD] at hbit
    simpa only [h, decide_true, Bool.and_true] using hbit
  · intro hbit
    apply BitVec.eq_of_getLsbD_eq
    intro i hi
    rw [BitVec.getLsbD_and, mask_getLsbD]
    by_cases heq : i = offset
    · subst heq
      simp [hbit]
    · simp [heq]

/-- Two bitmaps that differ in one bit. -/
structure SetAt (b b' : Bitmap) (index : ℕ) (v : Bool) : Prop where
  nbits : b'.nbits = b.nbits
  nwords : b'.nwords = b.nwords
  bit : ∀ j, b'.bit j = if j = index then v else b.bit j

/-- Writing a word changes the bits that the word changes. -/
theorem setAt_update {b : Bitmap} {index : ℕ} {v : Bool} {word : BitVec 32}
    (hword : ∀ i < 32, word.getLsbD i =
      if i = index % wordBits then v else (b.map (index / wordBits)).getLsbD i) :
    SetAt b { b with map := Function.update b.map (index / wordBits) word } index v := by
  refine ⟨rfl, rfl, ?_⟩
  intro j
  unfold Bitmap.bit
  by_cases hdiv : j / wordBits = index / wordBits
  · rw [hdiv]
    simp only [Function.update_self]
    rw [hword (j % wordBits) (Nat.mod_lt j (by decide))]
    have hmod : j % wordBits = index % wordBits ↔ j = index := by
      unfold wordBits at hdiv ⊢
      omega
    simp only [hmod]
  · have hne : j ≠ index := fun heq => hdiv (heq ▸ rfl)
    simp only [Function.update_of_ne hdiv, hne, if_false]

theorem scanWord_some {word : BitVec 32} {left offset k : ℕ} (hleft : left + offset = 32)
    (h : scanWord word left offset = some k) : k < 32 ∧ word.getLsbD k = true := by
  induction left generalizing offset with
  | zero => simp [scanWord] at h
  | succ left ih =>
    by_cases hbit : word &&& mask offset ≠ 0
    · rw [scanWord, if_pos hbit] at h
      obtain rfl := Option.some.inj h
      refine ⟨by omega, ?_⟩
      rw [Ne, and_mask_eq_zero word (by omega)] at hbit
      simpa using hbit
    · rw [scanWord, if_neg hbit] at h
      exact ih (by omega) h

/-- No bit is set before the one that is found, and none at all where none is found. -/
theorem scanWord_clear {word : BitVec 32} {left offset i : ℕ} (hleft : left + offset = 32)
    (hi : offset ≤ i) (hlt : i < (scanWord word left offset).getD 32) :
    word.getLsbD i = false := by
  induction left generalizing offset with
  | zero =>
    simp only [scanWord, Option.getD_none] at hlt
    omega
  | succ left ih =>
    by_cases hbit : word &&& mask offset ≠ 0
    · simp only [scanWord, hbit, ne_eq, not_false_eq_true, if_true, Option.getD_some] at hlt
      omega
    · rw [scanWord, if_neg hbit] at hlt
      rcases Nat.eq_or_lt_of_le hi with rfl | hgt
      · exact (and_mask_eq_zero word (by omega)).mp (not_not.mp hbit)
      · exact ih (by omega) hgt hlt

/-- A word that is not zero has a set bit. -/
theorem scanWord_isSome {word : BitVec 32} (h : word ≠ 0) :
    ∃ k, scanWord word wordBits 0 = some k := by
  cases hscan : scanWord word wordBits 0 with
  | some k => exact ⟨k, rfl⟩
  | none =>
    refine absurd (BitVec.eq_of_getLsbD_eq ?_) h
    intro i hi
    have hlt : i < (scanWord word wordBits 0).getD 32 := by simpa [hscan] using hi
    simpa using scanWord_clear rfl (Nat.zero_le i) hlt

/-- The scan ends, and what it finds is a set bit. -/
theorem scanMap_spec {b : Bitmap} {left ix : ℕ} :
    scanMap b left ix = some none ∨ ∃ ix' offset, scanMap b left ix = some (some (ix', offset)) ∧
      ix' < left + ix ∧ offset < 32 ∧ (b.map ix').getLsbD offset = true := by
  induction left generalizing ix with
  | zero => exact Or.inl rfl
  | succ left ih =>
    by_cases hword : b.map ix ≠ 0
    · right
      obtain ⟨k, hk⟩ := scanWord_isSome hword
      obtain ⟨hlt, hbit⟩ := scanWord_some rfl hk
      refine ⟨ix, k, ?_, by omega, hlt, hbit⟩
      rw [scanMap, if_pos hword, hk]
      rfl
    · rw [scanMap, if_neg hword]
      rcases @ih (ix + 1) with hnone | hsome
      · exact Or.inl hnone
      · obtain ⟨ix', offset, heq, hlt, hrest⟩ := hsome
        exact Or.inr ⟨ix', offset, heq, by omega, hrest⟩

/-- All words before the one that is found are zero, and all words where none is found. -/
theorem scanMap_zero {b : Bitmap} {left ix j : ℕ} {found : Option (ℕ × ℕ)}
    (h : scanMap b left ix = some found) (hj : ix ≤ j)
    (hlt : j < found.elim (left + ix) Prod.fst) : b.map j = 0 := by
  induction left generalizing ix with
  | zero =>
    obtain rfl := Option.some.inj h
    simp only [Option.elim_none] at hlt
    omega
  | succ left ih =>
    by_cases hword : b.map ix ≠ 0
    · rw [scanMap, if_pos hword] at h
      obtain ⟨offset, -, rfl⟩ := Option.map_eq_some_iff.mp h
      simp only [Option.elim_some] at hlt
      omega
    · rw [scanMap, if_neg hword] at h
      rcases Nat.eq_or_lt_of_le hj with rfl | hgt
      · exact not_not.mp hword
      · refine ih h hgt ?_
        rwa [show left + (ix + 1) = left + 1 + ix by omega]

/-- In the word that is found no bit is set before the one that is found. -/
theorem scanMap_clear {b : Bitmap} {left ix ix' offset i : ℕ}
    (h : scanMap b left ix = some (some (ix', offset))) (hi : i < offset) :
    (b.map ix').getLsbD i = false := by
  induction left generalizing ix with
  | zero => simp [scanMap] at h
  | succ left ih =>
    by_cases hword : b.map ix ≠ 0
    · rw [scanMap, if_pos hword] at h
      obtain ⟨k, hk, heq⟩ := Option.map_eq_some_iff.mp h
      obtain ⟨rfl, rfl⟩ := Prod.mk.inj (Option.some.inj heq)
      have hlt : i < (scanWord (b.map ix) wordBits 0).getD 32 := by simpa [hk] using hi
      exact scanWord_clear rfl (Nat.zero_le i) hlt
    · rw [scanMap, if_neg hword] at h
      exact ih h

/-- Without a result of `bitmap_alloc` no bit is set. -/
theorem bitmapAlloc_none {b : Bitmap} (h : bitmapAlloc b = some (none, b)) {j : ℕ}
    (hj : j < b.nwords * wordBits) : b.bit j = false := by
  have hscan : scanMap b b.nwords 0 = some none := by
    rcases @scanMap_spec b b.nwords 0 with hnone | hsome
    · exact hnone
    · obtain ⟨ix, offset, heq, -⟩ := hsome
      rw [bitmapAlloc, heq] at h
      exact absurd (congrArg Prod.fst (Option.some.inj h)) (by simp)
  have hlt : j / wordBits < b.nwords := Nat.div_lt_of_lt_mul (by rw [Nat.mul_comm]; exact hj)
  unfold Bitmap.bit
  rw [scanMap_zero hscan (Nat.zero_le _) hlt]
  exact BitVec.getLsbD_zero

/-- No bit is set before the one that `bitmap_alloc` takes. -/
theorem bitmapAlloc_least {b b' : Bitmap} {index j : ℕ}
    (h : bitmapAlloc b = some (some index, b')) (hj : j < index) : b.bit j = false := by
  rcases @scanMap_spec b b.nwords 0 with hnone | ⟨ix, offset, hscan, -, hoff, -⟩
  · rw [bitmapAlloc, hnone] at h
    exact absurd (congrArg Prod.fst (Option.some.inj h)) (by simp)
  rw [bitmapAlloc, hscan] at h
  have hindex : ix * wordBits + offset = index :=
    Option.some.inj (congrArg Prod.fst (Option.some.inj h))
  have hle : j / wordBits ≤ ix := by
    unfold wordBits at *
    omega
  unfold Bitmap.bit
  rcases Nat.eq_or_lt_of_le hle with heq | hlt
  · rw [heq]
    apply scanMap_clear hscan
    unfold wordBits at *
    omega
  · rw [scanMap_zero hscan (Nat.zero_le _) (by simpa only [Option.elim_some] using hlt)]
    exact BitVec.getLsbD_zero

theorem setBits_eq_zero {b : Bitmap} (h : ∀ j < b.nbits, b.bit j = false) : b.setBits = 0 := by
  unfold setBits
  rw [Finset.card_eq_zero, Finset.filter_eq_empty_iff]
  intro j hj
  rw [h j (Finset.mem_range.mp hj)]
  simp

/-- Either no bit is found, or the index of a set bit, which is cleared. -/
theorem bitmapAlloc_spec (b : Bitmap) :
    bitmapAlloc b = some (none, b) ∨ ∃ index b', bitmapAlloc b = some (some index, b') ∧
      index < b.nwords * wordBits ∧ b.bit index = true ∧ SetAt b b' index false := by
  rcases @scanMap_spec b b.nwords 0 with hnone | hsome
  · left
    rw [bitmapAlloc, hnone]
    rfl
  · right
    obtain ⟨ix, offset, heq, hlt, hoff, hbit⟩ := hsome
    have hdiv : (ix * wordBits + offset) / wordBits = ix := by
      unfold wordBits
      omega
    have hmod : (ix * wordBits + offset) % wordBits = offset := by
      unfold wordBits
      omega
    refine ⟨ix * wordBits + offset, _, by rw [bitmapAlloc, heq]; rfl, ?_, ?_, ?_⟩
    · unfold wordBits
      omega
    · unfold Bitmap.bit
      rw [hdiv, hmod]
      exact hbit
    · have hset := @setAt_update b (ix * wordBits + offset) false (b.map ix ^^^ mask offset)
      rw [hdiv, hmod] at hset
      apply hset
      intro i hi
      rw [BitVec.getLsbD_xor, mask_getLsbD]
      by_cases hio : i = offset
      · subst hio
        simp [hbit, hi]
      · simp [hio]

theorem bitmapTest_eq {b : Bitmap} {index : ℕ} (h : index < b.nbits) :
    bitmapTest b index = some (b.bit index) := by
  rw [bitmapTest, if_pos h]
  simp only [ne_eq, and_mask_eq_zero _ (Nat.mod_lt index (by decide : 0 < 32)), wordBits,
    Bitmap.bit, Bool.not_eq_false, Bool.decide_eq_true]

theorem bitmapFree_eq {b : Bitmap} {index : ℕ} (h : index < b.nbits) (hbit : b.bit index = false) :
    ∃ b', bitmapFree b index = some b' ∧ SetAt b b' index true := by
  have hmod : index % wordBits < 32 := Nat.mod_lt _ (by decide)
  refine ⟨_, if_pos ⟨h, (and_mask_eq_zero _ hmod).mpr hbit⟩, ?_⟩
  apply setAt_update
  intro i hi
  rw [BitVec.getLsbD_or, mask_getLsbD]
  by_cases hio : i = index % wordBits
  · simp [hio, hmod]
  · simp [hio]

/-- Set bits that are cleared are so many set bits less. -/
theorem setBits_cleared {b b' : Bitmap} {taken : List ℕ} (hnbits : b'.nbits = b.nbits)
    (hbits : ∀ i, b'.bit i = true ↔ b.bit i = true ∧ i ∉ taken) (hnodup : taken.Nodup)
    (hset : ∀ i ∈ taken, b.bit i = true ∧ i < b.nbits) :
    b'.setBits + taken.length = b.setBits := by
  unfold setBits
  have hsub : taken.toFinset ⊆ (Finset.range b.nbits).filter (fun i => b.bit i = true) := by
    intro i hi
    obtain ⟨hbit, hlt⟩ := hset i (List.mem_toFinset.mp hi)
    exact Finset.mem_filter.mpr ⟨Finset.mem_range.mpr hlt, hbit⟩
  have hdiff : (Finset.range b'.nbits).filter (fun i => b'.bit i = true) =
      (Finset.range b.nbits).filter (fun i => b.bit i = true) \ taken.toFinset := by
    apply Finset.ext
    intro i
    simp only [hnbits, Finset.mem_filter, Finset.mem_sdiff, List.mem_toFinset, hbits i, and_assoc]
  rw [hdiff, ← List.toFinset_card_of_nodup hnodup]
  exact Finset.card_sdiff_add_card_eq_card hsub

/-- A set bit that is cleared is one set bit less. -/
theorem SetAt.setBits_false {b b' : Bitmap} {index : ℕ} (h : SetAt b b' index false)
    (hlt : index < b.nbits) (hbit : b.bit index = true) : b'.setBits + 1 = b.setBits := by
  unfold setBits
  rw [h.nbits]
  have herase : (Finset.range b.nbits).filter (fun i => b'.bit i = true) =
      ((Finset.range b.nbits).filter (fun i => b.bit i = true)).erase index := by
    apply Finset.ext
    intro i
    simp only [Finset.mem_filter, Finset.mem_erase, h.bit]
    by_cases hi : i = index
    · simp [hi]
    · simp [hi]
  have hmem : index ∈ (Finset.range b.nbits).filter (fun i => b.bit i = true) :=
    Finset.mem_filter.mpr ⟨Finset.mem_range.mpr hlt, hbit⟩
  rw [herase, Finset.card_erase_add_one hmem]

/-- A bit that gets set is one set bit more. -/
theorem SetAt.setBits_true {b b' : Bitmap} {index : ℕ} (h : SetAt b b' index true)
    (hlt : index < b.nbits) (hbit : b.bit index = false) : b'.setBits = b.setBits + 1 := by
  have hback : SetAt b' b index false := by
    refine ⟨h.nbits.symm, h.nwords.symm, ?_⟩
    intro j
    rw [h.bit]
    by_cases hj : j = index
    · simp [hj, hbit]
    · simp [hj]
  refine (hback.setBits_false (h.nbits ▸ hlt) ?_).symm
  rw [h.bit, if_pos rfl]

end Bitmap
end Ucore.Fs
