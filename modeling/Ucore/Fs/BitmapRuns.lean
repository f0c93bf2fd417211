import Ucore.Fs.Mount
import Ucore.Library.Pool
import Ucore.Mm.KmallocRuns

/-!
Runs of `bitmap_alloc` and `bitmap_free` on a new bitmap. The set bits are a pool of the numbers
below `nbits`: `bitmap_alloc` hands out the least one and `bitmap_free` takes it back.
-/
namespace Ucore.Fs.Bitmap

open Libs Library
open Vm (eNoMem)

/-- `bitmap_alloc` as its caller sees it: what it returns, what is then in `*index_store`, and the
bitmap. -/
def allocCall (b : Bitmap) (indexStore : ℕ) : Option (ℤ × ℕ × Bitmap) :=
  b.bitmapAlloc.map (fun found =>
    match found with
    | (none, b') => (-eNoMem, indexStore, b')
    | (some index, b') => (0, uint32 index, b'))

/-- A call with what it returned. -/
inductive BitmapCall where
  | alloc (ret : ℤ) (index : ℕ)
  | free (index : ℕ)
  deriving DecidableEq

/-- A call that returns; a failed assertion does not. -/
inductive BitmapStep : Bitmap → BitmapCall → Bitmap → Prop
  | alloc {b b' : Bitmap} {ret : ℤ} {index : ℕ} (indexStore : ℕ)
      (hcall : b.allocCall indexStore = some (ret, index, b')) :
      BitmapStep b (.alloc ret index) b'
  | free {b b' : Bitmap} (index : ℕ) (hcall : b.bitmapFree index = some b') :
      BitmapStep b (.free index) b'

abbrev BitmapRun : Bitmap → List BitmapCall → Bitmap → Prop := Trace BitmapStep

/-- The index was handed out by the calls and not freed since. -/
def Allocated (calls : List BitmapCall) (index : ℕ) : Prop :=
  ∃ before after, calls = before ++ .alloc 0 index :: after ∧ .free index ∉ after

/-- The indices of the set bits in the words of the map. -/
def setIndices (b : Bitmap) : Set ℕ := {i | i < b.nwords * wordBits ∧ b.bit i = true}

/-- The bits of the last word behind the end are clear. -/
structure Masked (nbits : ℕ) (b : Bitmap) : Prop where
  size : b.nbits = nbits
  room : nbits ≤ b.nwords * wordBits
  spare : ∀ i, nbits ≤ i → i < b.nwords * wordBits → b.bit i = false

variable {b b' b₀ : Bitmap} {nbits index i : ℕ} {calls : List BitmapCall} {v : Bool}

theorem Masked.mem_setIndices (h : Masked nbits b) :
    i ∈ b.setIndices ↔ i < nbits ∧ b.bit i = true := by
  constructor
  · intro hi
    refine ⟨?_, hi.2⟩
    by_contra hge
    exact Bool.false_ne_true ((h.spare i (Nat.le_of_not_lt hge) hi.1).symm.trans hi.2)
  · intro hi
    exact ⟨Nat.lt_of_lt_of_le hi.1 h.room, hi.2⟩

/-- A bit below the end may change. -/
theorem Masked.setAt (h : Masked nbits b) (hset : SetAt b b' index v) (hlt : index < nbits) :
    Masked nbits b' where
  size := hset.nbits.trans h.size
  room := hset.nwords.symm ▸ h.room
  spare i hi hroom := by
    rw [hset.nwords] at hroom
    rw [hset.bit, if_neg (by omega)]
    exact h.spare i hi hroom

theorem SetAt.setIndices_false (h : SetAt b b' index false) :
    b'.setIndices = b.setIndices \ {index} := by
  ext i
  by_cases hi : i = index
  · simp [setIndices, h.bit, hi]
  · simp [setIndices, h.bit, h.nwords, hi]

theorem SetAt.setIndices_true (h : SetAt b b' index true) (hroom : index < b.nwords * wordBits) :
    b'.setIndices = insert index b.setIndices := by
  ext i
  by_cases hi : i = index
  · simp [setIndices, h.bit, h.nwords, hi, hroom]
  · simp [setIndices, h.bit, h.nwords, hi]

/-- A new bitmap is the whole pool. -/
theorem bitmapCreate_masked {kmalloc : MountAlloc → Bool} (hpos : 0 < nbits)
    (hmem : kmalloc .bitmap = true ∧ kmalloc .map = true) :
    ∃ b, bitmapCreate kmalloc nbits = some (some b) ∧ Masked nbits b ∧
      b.setIndices = Set.Iio nbits := by
  obtain ⟨b, hcreate, hnbits, hnwords, hbit⟩ := bitmapCreate_made (Nat.ne_of_gt hpos) hmem
  have hroom : nbits ≤ b.nwords * wordBits := by
    rw [hnwords]
    exact (roundupDiv_wordBits (Nat.ne_of_gt hpos)).1
  have hmasked : Masked nbits b := by
    refine ⟨hnbits, hroom, ?_⟩
    intro i hi hlt
    simp [hbit i hlt, hi]
  refine ⟨b, hcreate, hmasked, ?_⟩
  ext i
  rw [hmasked.mem_setIndices, Set.mem_Iio]
  constructor
  · exact fun hi => hi.1
  · intro hi
    refine ⟨hi, ?_⟩
    simp [hbit i (Nat.lt_of_lt_of_le hi hroom), hi]

/-- `bitmap_alloc` takes the least set bit, or there is none. -/
theorem Masked.allocCall_spec (h : Masked nbits b) (hlt : nbits < 2 ^ 32) (indexStore : ℕ) :
    (b.setIndices = ∅ ∧ b.allocCall indexStore = some (-eNoMem, indexStore, b)) ∨
      ∃ index b', b.allocCall indexStore = some (0, index, b') ∧ IsLeast b.setIndices index ∧
        SetAt b b' index false := by
  rcases bitmapAlloc_spec b with hnone | ⟨index, b', halloc, hroom, hbit, hset⟩
  · left
    refine ⟨?_, by rw [allocCall, hnone]; rfl⟩
    rw [Set.eq_empty_iff_forall_notMem]
    intro i hi
    exact Bool.false_ne_true ((bitmapAlloc_none hnone hi.1).symm.trans hi.2)
  · right
    have hin : index < nbits := (h.mem_setIndices.mp ⟨hroom, hbit⟩).1
    -- the index is below 2^32, so the store keeps it
    have hcall : b.allocCall indexStore = some (0, index, b') := by
      simp only [allocCall, halloc, Option.map_some, uint32_of_lt (hin.trans hlt)]
    refine ⟨index, b', hcall, ⟨⟨hroom, hbit⟩, ?_⟩, hset⟩
    intro j hj
    by_contra hless
    have hclear : b.bit j = false := bitmapAlloc_least halloc (Nat.lt_of_not_le hless)
    exact Bool.false_ne_true (hclear.symm.trans hj.2)

/-- Only a clear bit below the end is freed. -/
theorem bitmapFree_clear (h : bitmapFree b index = some b') :
    index < b.nbits ∧ b.bit index = false := by
  unfold bitmapFree at h
  split at h
  · obtain ⟨hlt, hmask⟩ := ‹_ ∧ _›
    exact ⟨hlt, (and_mask_eq_zero _ (Nat.mod_lt index (by decide))).mp hmask⟩
  · cases h

/-- A call as an event of the pool. -/
def BitmapCall.event : BitmapCall → PoolEvent ℕ
  | .alloc ret index => if ret = 0 then .take index else .refuse
  | .free index => .put index

theorem BitmapCall.event_eq_take {c : BitmapCall} : c.event = .take index ↔ c = .alloc 0 index := by
  cases c with
  | alloc ret i =>
    by_cases hret : ret = 0
    · simp [event, hret]
    · simp [event, hret]
  | free i => simp [event]

theorem BitmapCall.event_eq_put {c : BitmapCall} : c.event = .put index ↔ c = .free index := by
  cases c with
  | alloc ret i =>
    by_cases hret : ret = 0
    · simp [event, hret]
    · simp [event, hret]
  | free i => simp [event]

/-- Each call is a step of the pool. -/
theorem Masked.step {c : BitmapCall} (h : Masked nbits b) (hlt : nbits < 2 ^ 32)
    (hstep : BitmapStep b c b') :
    Masked nbits b' ∧ PoolStep (Set.Iio nbits) b.setIndices c.event b'.setIndices := by
  cases hstep with
  | alloc indexStore hcall =>
    rcases h.allocCall_spec hlt indexStore with ⟨hnone, hspec⟩ | ⟨index, b₁, hspec, hleast, hset⟩
    · obtain ⟨rfl, rfl, rfl⟩ : _ ∧ _ ∧ _ := by simpa [hcall] using hspec
      exact ⟨h, PoolStep.refuse hnone⟩
    · obtain ⟨rfl, rfl, rfl⟩ : _ ∧ _ ∧ _ := by simpa [hcall] using hspec
      refine ⟨h.setAt hset (h.mem_setIndices.mp hleast.1).1, ?_⟩
      rw [hset.setIndices_false]
      exact PoolStep.take _ hleast
  | free index hcall =>
    obtain ⟨hin, hbit⟩ := bitmapFree_clear hcall
    obtain ⟨b₁, hspec, hset⟩ := bitmapFree_eq hin hbit
    obtain rfl : b₁ = b' := by simpa [hcall] using hspec.symm
    have hin' : index < nbits := h.size ▸ hin
    refine ⟨h.setAt hset hin', ?_⟩
    rw [hset.setIndices_true (Nat.lt_of_lt_of_le hin' h.room)]
    exact PoolStep.put index hin' (fun hmem => Bool.false_ne_true (hbit.symm.trans hmem.2))

theorem BitmapRun.masked (h : BitmapRun b₀ calls b) (h₀ : Masked nbits b₀)
    (hlt : nbits < 2 ^ 32) : Masked nbits b := by
  refine h.invariant ?_ h₀
  intro b c b' hb hstep
  exact (hb.step hlt hstep).1

/-- A run of calls is a run of the pool. -/
theorem BitmapRun.pool (h : BitmapRun b₀ calls b) (h₀ : Masked nbits b₀) (hlt : nbits < 2 ^ 32) :
    PoolRun (Set.Iio nbits) b₀.setIndices (calls.map BitmapCall.event) b.setIndices := by
  refine h.map ?_ h₀
  intro b c b' hb hstep
  exact hb.step hlt hstep

theorem allocated_iff_handedOut :
    Allocated calls index ↔ HandedOut (calls.map BitmapCall.event) index := by
  constructor
  · intro h
    obtain ⟨before, after, rfl, hfree⟩ := h
    refine ⟨before.map BitmapCall.event, after.map BitmapCall.event, by simp [BitmapCall.event], ?_⟩
    intro hput
    obtain ⟨c, hc, heq⟩ := List.mem_map.mp hput
    rw [BitmapCall.event_eq_put] at heq
    exact hfree (heq ▸ hc)
  · intro h
    obtain ⟨before, after, heq, hput⟩ := h
    obtain ⟨calls₁, calls₂, rfl, rfl, hrest⟩ := List.map_eq_append_iff.mp heq
    obtain ⟨c, calls₃, rfl, hc, rfl⟩ := List.map_eq_cons_iff.mp hrest
    rw [BitmapCall.event_eq_take] at hc
    refine ⟨calls₁, calls₃, by rw [hc], ?_⟩
    intro hfree
    exact hput (List.mem_map.mpr ⟨_, hfree, rfl⟩)

/-- In a run from a new bitmap the allocated indices are those of the clear bits. -/
theorem BitmapRun.allocated_iff (h : BitmapRun b₀ calls b) (h₀ : Masked nbits b₀)
    (hlt : nbits < 2 ^ 32) (hnew : b₀.setIndices = Set.Iio nbits) :
    Allocated calls index ↔ index < nbits ∧ b.bit index = false := by
  have hpool := BitmapRun.pool h h₀ hlt
  rw [hnew] at hpool
  rw [allocated_iff_handedOut, hpool.handedOut_iff, (BitmapRun.masked h h₀ hlt).mem_setIndices,
    Set.mem_Iio]
  simp +contextual

/-- What callers of `bitmap_alloc` and `bitmap_free` get after some calls on a bitmap of `nbits`. -/
structure Allocates (nbits : ℕ) (calls : List BitmapCall) (b : Bitmap) : Prop where
  alloc : ∀ indexStore, ∃ ret index b', b.allocCall indexStore = some (ret, index, b') ∧
    (ret = -eNoMem ↔ ∀ i < nbits, b.bit i = false) ∧
    (ret = 0 ∧ index < nbits ∧ IsLeast b.setIndices index ∧ SetAt b b' index false ∨
      ret = -eNoMem ∧ index = indexStore ∧ b' = b)
  inside : ∀ index, .alloc 0 index ∈ calls → index < nbits
  free : ∀ index, Allocated calls index →
    b.bit index = false ∧ ∃ b', b.bitmapFree index = some b' ∧ SetAt b b' index true
  once : ∀ before between after index,
    calls = before ++ .alloc 0 index :: (between ++ .alloc 0 index :: after) →
      .free index ∈ between

theorem Masked.alloc (h : Masked nbits b) (hlt : nbits < 2 ^ 32) (indexStore : ℕ) :
    ∃ ret index b', b.allocCall indexStore = some (ret, index, b') ∧
      (ret = -eNoMem ↔ ∀ i < nbits, b.bit i = false) ∧
      (ret = 0 ∧ index < nbits ∧ IsLeast b.setIndices index ∧ SetAt b b' index false ∨
        ret = -eNoMem ∧ index = indexStore ∧ b' = b) := by
  rcases h.allocCall_spec hlt indexStore with ⟨hnone, hcall⟩ | ⟨index, b', hcall, hleast, hset⟩
  · refine ⟨-eNoMem, indexStore, b, hcall, ?_, Or.inr ⟨rfl, rfl, rfl⟩⟩
    refine iff_of_true rfl (fun i hi => Bool.eq_false_iff.mpr (fun hbit => ?_))
    have hmem : i ∈ b.setIndices := h.mem_setIndices.mpr ⟨hi, hbit⟩
    rw [hnone] at hmem
    exact hmem
  · obtain ⟨hin, hbit⟩ := h.mem_setIndices.mp hleast.1
    refine ⟨0, index, b', hcall, ?_, Or.inl ⟨rfl, hin, hleast, hset⟩⟩
    refine iff_of_false (by decide) (fun hclear => ?_)
    exact Bool.false_ne_true ((hclear index hin).symm.trans hbit)

/-- A new bitmap of any number of bits hands out the least free index, never one at or behind the
end, and never one twice that was not freed in between. -/
theorem bitmap_allocation {kmalloc : MountAlloc → Bool} (hpos : 0 < nbits) (hlt : nbits < 2 ^ 32)
    (hmem : kmalloc .bitmap = true ∧ kmalloc .map = true) :
    ∃ b₀, bitmapCreate kmalloc nbits = some (some b₀) ∧
      ∀ calls b, BitmapRun b₀ calls b → Allocates nbits calls b := by
  obtain ⟨b₀, hcreate, h₀, hnew⟩ := bitmapCreate_masked hpos hmem
  refine ⟨b₀, hcreate, ?_⟩
  intro calls b hrun
  have hmasked := BitmapRun.masked hrun h₀ hlt
  have hpool := BitmapRun.pool hrun h₀ hlt
  refine ⟨hmasked.alloc hlt, ?_, ?_, ?_⟩
  · intro index hin
    have htake : PoolEvent.take index ∈ calls.map BitmapCall.event :=
      List.mem_map.mpr ⟨_, hin, BitmapCall.event_eq_take.mpr rfl⟩
    exact hpool.taken_mem hnew.le htake
  · intro index halloc
    obtain ⟨hin, hbit⟩ := (BitmapRun.allocated_iff hrun h₀ hlt hnew).mp halloc
    exact ⟨hbit, bitmapFree_eq (hmasked.size.symm ▸ hin) hbit⟩
  · intro before between after index heq
    subst heq
    have hput : PoolEvent.put index ∈ between.map BitmapCall.event := by
      apply PoolRun.put_between
      simpa [BitmapCall.event] using hpool
    obtain ⟨c, hc, heq⟩ := List.mem_map.mp hput
    rw [BitmapCall.event_eq_put] at heq
    exact heq ▸ hc

/-- One word and one bit of the next. -/
theorem bitmap_allocation_next_word : 0 < 33 ∧ 33 < 2 ^ 32 ∧
    ∃ b₀, bitmapCreate (fun _ => true) 33 = some (some b₀) ∧
      ∀ calls b, BitmapRun b₀ calls b → Allocates 33 calls b :=
  ⟨by decide, by decide, bitmap_allocation (by decide) (by decide) ⟨rfl, rfl⟩⟩

/-- `bitmap_free` of any other index stops at an assertion. -/
theorem BitmapRun.free_stops_iff (h : BitmapRun b₀ calls b) (h₀ : Masked nbits b₀)
    (hlt : nbits < 2 ^ 32) (hnew : b₀.setIndices = Set.Iio nbits) :
    b.bitmapFree index = none ↔ ¬ Allocated calls index := by
  rw [BitmapRun.allocated_iff h h₀ hlt hnew, ← (BitmapRun.masked h h₀ hlt).size]
  constructor
  · intro hnone hi
    obtain ⟨b', hfree, -⟩ := bitmapFree_eq hi.1 hi.2
    rw [hnone] at hfree
    cases hfree
  · intro hnot
    by_contra hsome
    obtain ⟨b', hfree⟩ := Option.ne_none_iff_exists'.mp hsome
    exact hnot (bitmapFree_clear hfree)

/-- The map of a volume that can be mounted is of a size that `kmalloc` gets right. -/
theorem freemap_rightSize {imgSize blocks : ℕ} {img : ℕ → Bytes} (hpos : 0 < blocks)
    (hdev : blocks ≤ (disk0 imgSize img).dBlocks) :
    Mm.RightSize (4 * roundupDiv (sfsFreemapBits blocks) wordBits) := by
  have hsmall : blocks < 2 ^ 20 := by
    have himg : uint32 imgSize < 2 ^ 32 := uint32_lt imgSize
    unfold disk0 at hdev
    dsimp only at hdev
    omega
  -- whole pages, and at most 32 of them
  have hpages : ∃ m, 0 < m ∧ m ≤ 32 ∧
      4 * roundupDiv (sfsFreemapBits blocks) wordBits = Mm.pageSize * m := by
    refine ⟨(blocks + blkBits - 1) / blkBits, ?_, ?_, ?_⟩
    all_goals unfold blkBits blkSize
    · omega
    · omega
    · unfold sfsFreemapBits roundupDiv wordBits blkBits blkSize Mm.pageSize
      rw [uint32_of_lt (by omega)]
      omega
  obtain ⟨m, hm, hle, hsize⟩ := hpages
  rw [hsize]
  unfold Mm.RightSize Mm.pageSize
  refine Or.inr ⟨by omega, by omega, ?_⟩
  intro k
  generalize 2 ^ k = p
  omega

end Ucore.Fs.Bitmap
