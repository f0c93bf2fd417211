import Ucore.Tools.Mksfs
import Ucore.Fs.SfsOwners
import Ucore.Library.Run

/-!
Every image that the builder closes passes the checks of the mount: the free map on disk
has exactly the blocks that were not handed out.
-/
namespace Ucore.Tools

open Fs Libs Library

/-- A block that `sfs_alloc_ino` has handed out. -/
def Handed (N nextIno b : ℕ) : Prop := freemapEnd N ≤ b ∧ b < nextIno

/-- What holds of the builder at any time: only blocks handed out are written or kept in
the hash tables, and the super block counts the others. -/
structure Built (N : ℕ) (s : MkSfs) : Prop where
  ninos : s.ninos = N
  superBlocks : s.superBlocks = N
  low : freemapEnd N ≤ s.nextIno
  high : s.nextIno ≤ N
  unused : s.unusedBlocks = N - s.nextIno
  writes : ∀ b ∈ s.image.writes, Handed N s.nextIno b
  blocks : ∀ i, ∀ b ∈ s.blocks i, Handed N s.nextIno b
  inodes : ∀ i, ∀ b ∈ s.inodes i, b = rootIno ∨ Handed N s.nextIno b

/-- One thing the builder does between `create_sfs` and `close_sfs`. -/
inductive BuildStep where
  | inode (real : ℕ) (type : FileType)
  | data (file : ℕ) (bytes : Bytes) (size : ℕ)
  | entry (current file : ℕ) (name : List UInt8)

def BuildStep.call : BuildStep → MkCall PUnit
  | .inode real type => do
    let _ ← allocCacheInode real 0 type
    pure ⟨⟩
  | .data file bytes size => addData file bytes size
  | .entry current file name => addEntry current file name

/-- The state after a call that does not end the program. -/
def ran {α : Type} (x : MkCall α) (s : MkSfs) : Option MkSfs :=
  match x s with
  | some (.ok _, s') => some s'
  | _ => none

def buildStep (s : MkSfs) (step : BuildStep) : Option MkSfs := ran step.call s

variable {N : ℕ} {s s' : MkSfs}

/-! The builder keeps its invariant. -/

theorem createSfs_built {stSize : ℕ} {img : ℕ → Bytes} (h : createSfs stSize img = some s) :
    Built (imgBlocks stSize) s := by
  unfold createSfs at h
  by_cases hsmall : freemapEnd (imgBlocks stSize) ≥ imgBlocks stSize
  · simp only [hsmall, if_true] at h
    exact absurd h (by simp)
  · simp only [hsmall, if_false, Option.some.injEq] at h
    subst h
    refine ⟨rfl, rfl, le_rfl, Nat.le_of_lt (Nat.lt_of_not_le hsmall), rfl, by simp, by simp, ?_⟩
    intro i b hb
    by_cases hi : i = hash64 0
    · subst hi
      simp only [Function.update_self, List.mem_singleton] at hb
      exact Or.inl hb
    · simp only [Function.update_of_ne hi, List.not_mem_nil] at hb

/-- The inode and block caches may hold anything. -/
theorem Built.ofCaches (hb : Built N s) (cacheInode : ℕ → CacheInode) (cacheBlock : ℕ → Words) :
    Built N { s with cacheInode := cacheInode, cacheBlock := cacheBlock } :=
  ⟨hb.ninos, hb.superBlocks, hb.low, hb.high, hb.unused, hb.writes, hb.blocks, hb.inodes⟩

theorem Built.write (hb : Built N s) {ino : ℕ} (h : Handed N s.nextIno ino) (data : Bytes)
    (len : ℕ) : Built N { s with image := s.image.write data len ino } := by
  refine ⟨hb.ninos, hb.superBlocks, hb.low, hb.high, hb.unused, ?_, hb.blocks, hb.inodes⟩
  intro b hmem
  rcases List.mem_cons.mp hmem with heq | hmem
  · exact heq ▸ h
  · exact hb.writes b hmem

theorem Built.addBlock (hb : Built N s) {ino : ℕ} (h : Handed N s.nextIno ino) (bucket : ℕ) :
    Built N { s with blocks := Function.update s.blocks bucket (ino :: s.blocks bucket) } := by
  refine ⟨hb.ninos, hb.superBlocks, hb.low, hb.high, hb.unused, hb.writes, ?_, hb.inodes⟩
  intro i b hmem
  by_cases hi : i = bucket
  · subst hi
    simp only [Function.update_self, List.mem_cons] at hmem
    rcases hmem with rfl | hmem
    · exact h
    · exact hb.blocks i b hmem
  · simp only [Function.update_of_ne hi] at hmem
    exact hb.blocks i b hmem

theorem Built.addInode (hb : Built N s) {ino : ℕ} (h : Handed N s.nextIno ino) (bucket : ℕ) :
    Built N { s with inodes := Function.update s.inodes bucket (ino :: s.inodes bucket) } := by
  refine ⟨hb.ninos, hb.superBlocks, hb.low, hb.high, hb.unused, hb.writes, hb.blocks, ?_⟩
  intro i b hmem
  by_cases hi : i = bucket
  · subst hi
    simp only [Function.update_self, List.mem_cons] at hmem
    rcases hmem with rfl | hmem
    · exact Or.inr h
    · exact hb.inodes i b hmem
  · simp only [Function.update_of_ne hi] at hmem
    exact hb.inodes i b hmem

section Ends

variable {E : Empty → MkSfs → Prop}

theorem sfsAllocIno_ends (hb : Built N s) :
    Call.Ends True sfsAllocIno s (fun ino s' => Built N s' ∧ Handed N s'.nextIno ino) E := by
  unfold Call.Ends sfsAllocIno
  by_cases hroom : s.nextIno < s.ninos
  · have hN := hb.ninos
    have hlow := hb.low
    have hun := hb.unused
    have hold : ∀ b, Handed N s.nextIno b → Handed N (s.nextIno + 1) b := fun b h =>
      ⟨h.1, Nat.lt_succ_of_lt h.2⟩
    simp only [hroom, if_true]
    refine ⟨⟨hN, hb.superBlocks, ?_, ?_, ?_, ?_, ?_, ?_⟩, hlow, Nat.lt_succ_self _⟩
    · exact Nat.le_succ_of_le hlow
    · exact hN ▸ hroom
    · show s.unusedBlocks - 1 = N - (s.nextIno + 1)
      omega
    · exact fun b hmem => hold b (hb.writes b hmem)
    · exact fun i b hmem => hold b (hb.blocks i b hmem)
    · exact fun i b hmem => (hb.inodes i b hmem).imp_right (hold b)
  · simp only [hroom, if_false]

theorem writeBlock_ends (hb : Built N s) {data : Bytes} {len ino : ℕ}
    (h : Handed N s.nextIno ino) :
    Call.Ends True (writeBlock data len ino) s (fun _ s' => Built N s') E := by
  unfold writeBlock
  apply Call.Ends.bind
  refine Call.Ends.require (fun _ => ?_) (fun _ => trivial)
  exact Call.Ends.modify (hb.write h data len)

theorem setCacheInode_ends (hb : Built N s) (file : ℕ) (f : CacheInode → CacheInode) :
    Call.Ends True (setCacheInode file f) s (fun _ s' => Built N s') E :=
  Call.Ends.modify (hb.ofCaches _ s.cacheBlock)

theorem setCacheWord_ends (hb : Built N s) (cb i v : ℕ) :
    Call.Ends True (setCacheWord cb i v) s (fun _ s' => Built N s') E :=
  Call.Ends.modify (hb.ofCaches s.cacheInode _)

theorem updateCache_ends (hb : Built N s) (cb : Option ℕ) (ino : ℕ) :
    Call.Ends True (updateCache cb ino) s (fun _ s' => Built N s') E := by
  unfold updateCache
  by_cases hzero : ino = 0
  · rw [if_pos hzero]
    unfold allocCacheBlock
    apply Call.Ends.bind
    refine (sfsAllocIno_ends hb).mono ?_ (fun _ _ h => h)
    intro ino' s' h
    apply Call.Ends.bind
    apply Call.Ends.modify
    exact Call.Ends.pure ((h.1.addBlock h.2 _).ofCaches s'.cacheInode _)
  · rw [if_neg hzero]
    by_cases hsame : cb = some ino
    · rw [if_pos hsame]
      exact Call.Ends.pure hb
    · rw [if_neg hsame]
      apply Call.Ends.bind
      exact Call.Ends.require (fun _ => Call.Ends.pure hb) (fun _ => trivial)

theorem allocCacheInode_ends (hb : Built N s) (real : ℕ) (type : FileType) :
    Call.Ends True (allocCacheInode real 0 type) s (fun _ s' => Built N s') E := by
  unfold allocCacheInode
  apply Call.Ends.bind
  refine (sfsAllocIno_ends hb).mono ?_ (fun _ _ h => h)
  intro ino' s' h
  apply Call.Ends.bind
  apply Call.Ends.modify
  exact Call.Ends.pure ((h.1.addInode h.2 _).ofCaches _ s'.cacheBlock)

theorem linkBlock_ends (hb : Built N s) (file ino : ℕ) (ci : CacheInode) :
    Call.Ends True (linkBlock file ino ci) s (fun _ s' => Built N s') E := by
  unfold linkBlock
  by_cases hbig : ci.nblks ≥ lnNblks
  · rw [if_pos hbig]
    exact Call.Ends.panic trivial
  rw [if_neg hbig]
  by_cases h0 : ci.nblks < nDirect
  · rw [if_pos h0]
    exact setCacheInode_ends hb file _
  rw [if_neg h0]
  by_cases h1 : ci.nblks < l1Nblks
  · rw [if_pos h1]
    apply Call.Ends.bind
    refine (updateCache_ends hb _ _).mono ?_ (fun _ _ h => h)
    intro l1 s1 hs1
    apply Call.Ends.bind
    refine (setCacheInode_ends hs1 file _).mono ?_ (fun _ _ h => h)
    intro _ s2 hs2
    exact setCacheWord_ends hs2 _ _ _
  rw [if_neg h1]
  by_cases h2 : ci.nblks < l2Nblks
  · rw [if_pos h2]
    apply Call.Ends.bind
    refine (updateCache_ends hb _ _).mono ?_ (fun _ _ h => h)
    intro l2 s1 hs1
    apply Call.Ends.bind
    refine (setCacheInode_ends hs1 file _).mono ?_ (fun _ _ h => h)
    intro _ s2 hs2
    apply Call.Ends.bind
    apply Call.Ends.read
    apply Call.Ends.bind
    refine (updateCache_ends hs2 _ _).mono ?_ (fun _ _ h => h)
    intro l1 s3 hs3
    apply Call.Ends.bind
    refine (setCacheInode_ends hs3 file _).mono ?_ (fun _ _ h => h)
    intro _ s4 hs4
    apply Call.Ends.bind
    refine (setCacheWord_ends hs4 _ _ _).mono ?_ (fun _ _ h => h)
    intro _ s5 hs5
    exact setCacheWord_ends hs5 _ _ _
  · rw [if_neg h2]
    exact Call.Ends.pure hb

theorem appendBlock_ends (hb : Built N s) (file size ino : ℕ) :
    Call.Ends True (appendBlock file size ino) s (fun _ s' => Built N s') E := by
  unfold appendBlock
  apply Call.Ends.bind
  refine Call.Ends.require (fun _ => ?_) (fun _ => trivial)
  apply Call.Ends.bind
  apply Call.Ends.read
  apply Call.Ends.bind
  refine (linkBlock_ends hb file ino _).mono ?_ (fun _ _ h => h)
  intro _ s1 hs1
  exact setCacheInode_ends hs1 file _

/-- One step of the builder. -/
theorem buildStep_ends (hb : Built N s) (step : BuildStep) :
    Call.Ends True step.call s (fun _ s' => Built N s') E := by
  cases step with
  | inode real type =>
    apply Call.Ends.bind
    exact (allocCacheInode_ends hb real type).mono (fun _ _ h => Call.Ends.pure h) (fun _ _ h => h)
  | data file bytes size =>
    apply Call.Ends.bind
    refine (sfsAllocIno_ends hb).mono ?_ (fun _ _ h => h)
    intro ino s1 h
    apply Call.Ends.bind
    refine (writeBlock_ends h.1 h.2).mono ?_ (fun _ _ h => h)
    intro _ s2 hs2
    exact appendBlock_ends hs2 file size ino
  | entry current file name =>
    apply Call.Ends.bind
    refine Call.Ends.require (fun _ => ?_) (fun _ => trivial)
    apply Call.Ends.bind
    apply Call.Ends.modify
    apply Call.Ends.bind
    have hname : Built N { s with entryName := strcpy s.entryName name } :=
      ⟨hb.ninos, hb.superBlocks, hb.low, hb.high, hb.unused, hb.writes, hb.blocks, hb.inodes⟩
    refine (sfsAllocIno_ends hname).mono ?_ (fun _ _ h => h)
    intro ino s1 h
    apply Call.Ends.bind
    apply Call.Ends.read
    apply Call.Ends.bind
    refine (writeBlock_ends h.1 h.2).mono ?_ (fun _ _ h => h)
    intro _ s2 hs2
    apply Call.Ends.bind
    refine (appendBlock_ends hs2 current _ ino).mono ?_ (fun _ _ h => h)
    intro _ s3 hs3
    exact setCacheInode_ends hs3 file _

end Ends

theorem ran_of_ends {α : Type} {x : MkCall α} {Q : MkSfs → Prop}
    (h : Call.Ends True x s (fun _ s' => Q s') (fun _ _ => True)) (hx : ran x s = some s') :
    Q s' := by
  unfold ran at hx
  split at hx
  · rename_i a t heq
    exact Option.some.inj hx ▸ h.of_ok heq
  · exact absurd hx (by simp)

/-- Any number of steps. -/
theorem built_run {ops : List BuildStep} (hb : Built N s)
    (h : runOps buildStep s ops = some s') : Built N s' :=
  runOps_invariant (fun _ step _ hs hx => ran_of_ends (buildStep_ends hs step) hx) hb h

/-! The bits of the free map. -/

/-- A loop over a buffer adds the bits it passes. -/
theorem markBits_bit {left j : ℕ} {data : ℕ → BitVec 32} (b : ℕ) :
    (markBits left j data (b / wordBits)).getLsbD (b % wordBits) =
      ((data (b / wordBits)).getLsbD (b % wordBits) || decide (j ≤ b ∧ b < j + left)) := by
  induction left generalizing j data with
  | zero =>
    simp [markBits]
  | succ left ih =>
    have hlt : b % wordBits < 32 := Nat.mod_lt b (by decide)
    rw [markBits, ih]
    by_cases hword : b / wordBits = j / wordBits
    · have hbit : b % wordBits = j % wordBits ↔ b = j := by
        unfold wordBits at *
        omega
      rw [hword, Function.update_self, BitVec.getLsbD_or, Bitmap.mask_getLsbD, Bool.or_assoc]
      congr 1
      simp only [hlt, hbit, decide_true, Bool.true_and]
      rw [← Bool.decide_or]
      apply decide_eq_decide.mpr
      omega
    · have hne : b ≠ j := by
        intro heq
        exact hword (heq ▸ rfl)
      rw [Function.update_of_ne hword]
      congr 1
      apply decide_eq_decide.mpr
      omega

/-- The three cut-offs together: the bit of a block is set from `next_ino` up to `ninos`. -/
theorem freemapBuffer_bit {ninos nextIno i j : ℕ} (hj : j < blkBits) (hle : nextIno ≤ ninos)
    (hi : i < ninos) :
    (freemapBuffer ninos nextIno i (j / wordBits)).getLsbD (j % wordBits) =
      decide (nextIno ≤ i + j ∧ i + j < ninos) := by
  unfold freemapBuffer
  by_cases hcut : i + blkBits > nextIno
  · simp only [hcut, if_true]
    rw [markBits_bit]
    simp only [BitVec.ofNat_eq_ofNat, BitVec.getLsbD_zero, Bool.false_or]
    apply decide_eq_decide.mpr
    by_cases hstart : i < nextIno
    · by_cases hstop : i + blkBits > ninos
      · simp only [hstart, hstop, if_true]
        omega
      · simp only [hstart, hstop, if_true, if_false]
        omega
    · by_cases hstop : i + blkBits > ninos
      · simp only [hstart, hstop, if_true, if_false]
        omega
      · simp only [hstart, hstop, if_false]
        omega
  · have hno : ¬ (nextIno ≤ i + j ∧ i + j < ninos) := by omega
    simp [hcut, hno]

/-- Words come back from bytes. -/
theorem get32_wordBytes {data : Words} {i : ℕ} (h : data i < 2 ^ 32) :
    get32 (fun k => wordBytes data (i * 4 + k)) = data i := by
  have hbyte : ∀ k < 4, wordBytes data (i * 4 + k) = put32 (data i) k := by
    intro k hk
    have hdiv : (i * 4 + k) / 4 = i := by omega
    have hmod : (i * 4 + k) % 4 = k := by omega
    unfold wordBytes
    rw [hdiv, hmod]
  exact (get32_congr hbyte).trans (get32_put32 h)

/-! Closing the image. -/

/-- Only the image changed, and in it only blocks of `S`. -/
structure Kept (S : ℕ → Prop) (s s' : MkSfs) : Prop where
  rest : s' = { s with image := s'.image }
  block : ∀ b, ¬ S b → s'.image.block b = s.image.block b
  writes : ∀ b ∈ s'.image.writes, b ∈ s.image.writes ∨ S b

variable {S T : ℕ → Prop}

theorem Kept.refl (S : ℕ → Prop) (s : MkSfs) : Kept S s s :=
  ⟨rfl, fun _ _ => rfl, fun _ h => Or.inl h⟩

theorem Kept.trans {s'' : MkSfs} (h : Kept S s s') (h' : Kept S s' s'') : Kept S s s'' := by
  refine ⟨?_, fun b hb => (h'.block b hb).trans (h.block b hb), ?_⟩
  · rw [h'.rest, h.rest]
  · intro b hb
    rcases h'.writes b hb with hb | hb
    · exact h.writes b hb
    · exact Or.inr hb

theorem Kept.mono (h : Kept S s s') (hST : ∀ b, S b → T b) : Kept T s s' :=
  ⟨h.rest, fun b hb => h.block b (fun hS => hb (hST b hS)),
    fun b hb => (h.writes b hb).imp_right (hST b)⟩

theorem kept_write {ino : ℕ} (h : S ino) (data : Bytes) (len : ℕ) :
    Kept S s { s with image := s.image.write data len ino } := by
  refine ⟨rfl, ?_, ?_⟩
  · intro b hb
    have hne : b ≠ ino := by
      intro heq
      exact hb (heq.symm ▸ h)
    exact Function.update_of_ne hne _ _
  · intro b hb
    rcases List.mem_cons.mp hb with heq | hb
    · exact Or.inr (heq.symm ▸ h)
    · exact Or.inl hb

section Ends

variable {E : Empty → MkSfs → Prop}

theorem writeBlock_kept {data : Bytes} {len ino : ℕ} (hlen : len ≤ blkSize) (hino : ino < s.ninos)
    (h : S ino) :
    Call.Ends False (writeBlock data len ino) s (fun _ s' => Kept S s s' ∧
      s'.image.block ino = fun i => if i < len then data i else 0) E := by
  unfold writeBlock
  apply Call.Ends.bind
  refine Call.Ends.require (fun _ => ?_) (fun hno => hno ⟨hlen, hino⟩)
  exact Call.Ends.modify ⟨kept_write h data len, Function.update_self ..⟩

/-- Block `j` of the free map gets the buffer for the bits from `i + j * blkBits` on. -/
theorem writeFreemap_ends {nextIno k ino i : ℕ} (hs : s.ninos = N)
    (hk : (N - i + blkBits - 1) / blkBits = k) (hroom : ino + k ≤ N) :
    Call.Ends False (writeFreemap N nextIno ino i) s (fun _ s' =>
      Kept (fun b => ino ≤ b ∧ b < ino + k) s s' ∧
      ∀ j < k, s'.image.block (ino + j) = fun a => if a < blkSize then
        freemapBytes (freemapBuffer N nextIno (i + j * blkBits)) a else 0) E := by
  induction k generalizing ino i s with
  | zero =>
    have hdone : ¬ i < N := by
      unfold blkBits blkSize at hk
      omega
    rw [writeFreemap, if_neg hdone]
    exact Call.Ends.pure ⟨Kept.refl _ s, fun j hj => absurd hj (Nat.not_lt_zero j)⟩
  | succ k ih =>
    have hmore : i < N := by
      unfold blkBits blkSize at hk
      omega
    have hk' : (N - (i + blkBits) + blkBits - 1) / blkBits = k := by
      unfold blkBits blkSize at *
      omega
    rw [writeFreemap, if_pos hmore]
    apply Call.Ends.bind
    have hfirst := @writeBlock_kept s (fun b => b = ino) E
      (freemapBytes (freemapBuffer N nextIno i)) blkSize ino le_rfl (by omega) rfl
    refine hfirst.mono ?_ (fun _ _ h => h)
    intro _ s1 h1
    have hs1 : s1.ninos = N := by
      rw [h1.1.rest]
      exact hs
    refine (ih hs1 hk' (by omega)).mono ?_ (fun _ _ h => h)
    intro _ s2 h2
    refine ⟨(h1.1.mono ?_).trans (h2.1.mono ?_), ?_⟩
    · intro b hb
      omega
    · intro b hb
      omega
    · intro j hj
      cases j with
      | zero =>
        rw [h2.1.block (ino + 0) (by omega), Nat.zero_mul, Nat.add_zero, Nat.add_zero]
        exact h1.2
      | succ j =>
        have hj' := h2.2 j (by omega)
        rw [show ino + (j + 1) = ino + 1 + j by omega,
          show i + (j + 1) * blkBits = i + blkBits + j * blkBits by rw [Nat.add_mul]; omega]
        exact hj'

theorem forEach_ends {f : ℕ → MkCall PUnit} {xs : List ℕ}
    (hf : ∀ x ∈ xs, ∀ t, t.ninos = s.ninos →
      Call.Ends False (f x) t (fun _ s' => Kept S t s') E) :
    Call.Ends False (forEach f xs) s (fun _ s' => Kept S s s') E := by
  induction xs generalizing s with
  | nil => exact Call.Ends.pure (Kept.refl S s)
  | cons x xs ih =>
    rw [forEach]
    apply Call.Ends.bind
    refine (hf x List.mem_cons_self s rfl).mono ?_ (fun _ _ h => h)
    intro _ s1 h1
    have hs1 : s1.ninos = s.ninos := by rw [h1.rest]
    refine (ih ?_).mono (fun _ _ h2 => h1.trans h2) (fun _ _ h => h)
    exact fun y hy t ht => hf y (List.mem_cons_of_mem x hy) t (ht.trans hs1)

/-- What the hash tables hold goes to the blocks it belongs to. -/
theorem flushBuckets_ends {left i : ℕ} (hblocks : ∀ i, ∀ b ∈ s.blocks i, S b ∧ b < s.ninos)
    (hinodes : ∀ i, ∀ b ∈ s.inodes i, S b ∧ b < s.ninos) :
    Call.Ends False (flushBuckets left i) s (fun _ s' => Kept S s s') E := by
  induction left generalizing i s with
  | zero => exact Call.Ends.pure (Kept.refl S s)
  | succ left ih =>
    rw [flushBuckets]
    apply Call.Ends.bind
    apply Call.Ends.read
    apply Call.Ends.bind
    have hcbs : Call.Ends False (forEach flushCacheBlock (s.blocks i)) s
        (fun _ s' => Kept S s s') E := by
      apply forEach_ends
      intro b hb t ht
      apply Call.Ends.bind
      apply Call.Ends.read
      refine (writeBlock_kept le_rfl ?_ (hblocks i b hb).1).mono (fun _ _ h => h.1) (fun _ _ h => h)
      exact ht ▸ (hblocks i b hb).2
    refine hcbs.mono ?_ (fun _ _ h => h)
    intro _ s1 h1
    have e1 : s1.ninos = s.ninos ∧ s1.blocks = s.blocks ∧ s1.inodes = s.inodes := by
      rw [h1.rest]
      exact ⟨rfl, rfl, rfl⟩
    apply Call.Ends.bind
    apply Call.Ends.read
    apply Call.Ends.bind
    have hcis : Call.Ends False (forEach flushCacheInode (s1.inodes i)) s1
        (fun _ s' => Kept S s1 s') E := by
      apply forEach_ends
      intro b hb t ht
      rw [e1.2.2] at hb
      apply Call.Ends.bind
      apply Call.Ends.read
      refine (writeBlock_kept (by decide) ?_ (hinodes i b hb).1).mono (fun _ _ h => h.1)
        (fun _ _ h => h)
      rw [ht, e1.1]
      exact (hinodes i b hb).2
    refine hcis.mono ?_ (fun _ _ h => h)
    intro _ s2 h2
    have e2 : s2.ninos = s.ninos ∧ s2.blocks = s.blocks ∧ s2.inodes = s.inodes := by
      rw [h2.rest]
      exact e1
    refine (ih ?_ ?_).mono (fun _ _ h3 => (h1.trans h2).trans h3) (fun _ _ h => h)
    · rw [e2.1, e2.2.1]
      exact hblocks
    · rw [e2.1, e2.2.2]
      exact hinodes

end Ends

/-- A closed image: what the mount will read, and which blocks were written. -/
structure Closed (N nextIno : ℕ) (img : Image) : Prop where
  magic : get32 (img.block blknSuper) = sfsMagic
  blocks : get32 (fun k => img.block blknSuper (4 + k)) = N
  unused : get32 (fun k => img.block blknSuper (8 + k)) = N - nextIno
  freemap : ∀ j, j * blkBits < N → ∀ w < blkNEntry,
    BitVec.ofNat 32 (get32 (fun k => img.block (blknFreemap + j) (w * 4 + k))) =
      freemapBuffer N nextIno (j * blkBits) w
  writes : ∀ b ∈ img.writes, b < nextIno

theorem superBytes (s : MkSfs) {i : ℕ} (hi : i < 3) (hN : superWords s i < 2 ^ 32) :
    get32 (fun k => if i * 4 + k < superSize then wordBytes (superWords s) (i * 4 + k) else 0) =
      superWords s i := by
  have hbyte : ∀ k < 4, (if i * 4 + k < superSize then wordBytes (superWords s) (i * 4 + k) else 0) =
      wordBytes (superWords s) (i * 4 + k) := by
    intro k hk
    rw [if_pos (by unfold superSize; omega)]
  exact (get32_congr hbyte).trans (get32_wordBytes hN)

/-- Closing the image succeeds. -/
theorem closeSfs_ends (hb : Built N s) (hN : N ≤ maxNblks) (hfit : freemapEnd N < N)
    {E : Empty → MkSfs → Prop} :
    Call.Ends False closeSfs s (fun _ s' => Closed N s.nextIno s'.image) E := by
  have hlow := hb.low
  have hhigh := hb.high
  have hsmall : N < 2 ^ 32 := by
    unfold maxNblks at hN
    omega
  have hend : freemapEnd N = blknFreemap + (N - 0 + blkBits - 1) / blkBits := rfl
  have htwo : 2 ≤ freemapEnd N := Nat.le_add_right 2 _
  unfold closeSfs
  apply Call.Ends.bind
  apply Call.Ends.read
  apply Call.Ends.bind
  rw [hb.ninos]
  refine (writeFreemap_ends hb.ninos rfl (by omega)).mono ?_ (fun _ _ h => h)
  intro _ s1 h1
  have e1 : s1.ninos = N ∧ s1.blocks = s.blocks ∧ s1.inodes = s.inodes := by
    rw [h1.1.rest]
    exact ⟨hb.ninos, rfl, rfl⟩
  apply Call.Ends.bind
  apply Call.Ends.read
  apply Call.Ends.bind
  have hwords : superWords s1 = superWords s := by
    rw [h1.1.rest]
    rfl
  rw [hwords]
  have hsuper := @writeBlock_kept s1 (fun b => b = blknSuper) E (wordBytes (superWords s))
    superSize blknSuper (by decide) (by rw [e1.1]; unfold blknSuper; omega) rfl
  refine hsuper.mono ?_ (fun _ _ h => h)
  intro _ s2 h2
  have e2 : s2.ninos = N ∧ s2.blocks = s.blocks ∧ s2.inodes = s.inodes := by
    rw [h2.1.rest]
    exact e1
  refine (@flushBuckets_ends s2 (fun b => b = rootIno ∨ Handed N s.nextIno b) E hashListSize 0
    ?_ ?_).mono ?_ (fun _ _ h => h)
  · intro i b hmem
    rw [e2.2.1] at hmem
    have hh := hb.blocks i b hmem
    exact ⟨Or.inr hh, by rw [e2.1]; exact Nat.lt_of_lt_of_le hh.2 hhigh⟩
  · intro i b hmem
    rw [e2.2.2] at hmem
    rcases hb.inodes i b hmem with hroot | hh
    · refine ⟨Or.inl hroot, ?_⟩
      rw [e2.1, hroot]
      unfold rootIno blknRoot
      omega
    · exact ⟨Or.inr hh, by rw [e2.1]; exact Nat.lt_of_lt_of_le hh.2 hhigh⟩
  intro _ s3 h3
  have hkept : ∀ b, b ≠ rootIno → b < freemapEnd N → s3.image.block b = s2.image.block b := by
    intro b hne hlt
    apply h3.block
    rintro (hroot | hh)
    · exact hne hroot
    · exact absurd hh.1 (by omega)
  have hblock0 : s3.image.block blknSuper =
      fun i => if i < superSize then wordBytes (superWords s) i else 0 := by
    rw [hkept blknSuper (by decide) (by unfold blknSuper; omega)]
    exact h2.2
  refine ⟨?_, ?_, ?_, ?_, ?_⟩
  · rw [hblock0]
    have hmagic : sfsMagic < 2 ^ 32 := by decide
    have hw := superBytes s (show 0 < 3 by omega) hmagic
    have hw0 : superWords s 0 = sfsMagic := rfl
    simpa only [Nat.zero_mul, Nat.zero_add, hw0] using hw
  · rw [hblock0]
    have hw1 : superWords s 1 = N := hb.superBlocks
    have hw := superBytes s (show 1 < 3 by omega) (by rw [hw1]; exact hsmall)
    simpa only [Nat.one_mul, hw1] using hw
  · rw [hblock0]
    have hw2 : superWords s 2 = N - s.nextIno := hb.unused
    have hw := superBytes s (show 2 < 3 by omega) (by rw [hw2]; omega)
    simpa only [hw2, show 2 * 4 = 8 by rfl] using hw
  · intro j hj w hw
    have hjk : j < (N - 0 + blkBits - 1) / blkBits := by
      unfold blkBits blkSize at *
      omega
    have hne : blknFreemap + j ≠ rootIno := by
      unfold blknFreemap rootIno blknRoot
      omega
    have hblock : s3.image.block (blknFreemap + j) = fun a => if a < blkSize then
        freemapBytes (freemapBuffer N s.nextIno (j * blkBits)) a else 0 := by
      rw [hkept (blknFreemap + j) hne (by omega), h2.1.block (blknFreemap + j)
        (by unfold blknFreemap blknSuper; omega), h1.2 j hjk, Nat.zero_add]
    have hbyte : ∀ k < 4, s3.image.block (blknFreemap + j) (w * 4 + k) =
        freemapBytes (freemapBuffer N s.nextIno (j * blkBits)) (w * 4 + k) := by
      intro k hk
      rw [hblock]
      simp only
      rw [if_pos]
      unfold blkNEntry at hw
      unfold blkSize at *
      omega
    have hword := @get32_wordBytes (fun i => (freemapBuffer N s.nextIno (j * blkBits) i).toNat) w
      (BitVec.isLt _)
    rw [get32_congr hbyte]
    unfold freemapBytes
    rw [hword, BitVec.ofNat_toNat, BitVec.setWidth_eq]
  · intro b hmem
    rcases h3.writes b hmem with hmem | hroot | hh
    · rcases h2.1.writes b hmem with hmem | hzero
      · rcases h1.1.writes b hmem with hmem | hmap
        · exact (hb.writes b hmem).2
        · omega
      · unfold blknSuper at hzero
        omega
    · unfold rootIno blknRoot at hroot
      omega
    · exact hh.2

/-! Mounting a closed image. -/

/-- The size of the free map in bits, which fills its blocks. -/
theorem sfsFreemapBits_eq (hN : N ≤ maxNblks) :
    sfsFreemapBits N = (N + blkBits - 1) / blkBits * blkBits := by
  unfold sfsFreemapBits
  apply uint32_of_lt
  unfold maxNblks at hN
  unfold blkBits blkSize
  omega

variable {n : ℕ} {img : Image} {dev : Device} {kmalloc : MountAlloc → Bool}

/-- The free map that the mount has read. -/
structure ReadBack (N n : ℕ) (freemap : Bitmap) : Prop where
  nbits : freemap.nbits = sfsFreemapBits N
  nwords : freemap.nwords * wordBits = freemap.nbits
  bit : ∀ b < freemap.nbits, freemap.bit b = decide (n ≤ b ∧ b < N)

/-- The counted bits are the free blocks. -/
theorem ReadBack.setBits {freemap : Bitmap} (h : ReadBack N n freemap) (hN : N ≤ maxNblks) :
    freemap.setBits = N - n := by
  have hle : N ≤ freemap.nbits := by
    rw [h.nbits, sfsFreemapBits_eq hN]
    unfold blkBits blkSize
    omega
  have hfilter : (Finset.range freemap.nbits).filter (fun b => freemap.bit b = true) =
      Finset.Ico n N := by
    ext b
    simp only [Finset.mem_filter, Finset.mem_range, Finset.mem_Ico]
    constructor
    · intro hb
      rw [h.bit b hb.1, decide_eq_true_iff] at hb
      exact hb.2
    · intro hb
      have hlt : b < freemap.nbits := Nat.lt_of_lt_of_le hb.2 hle
      rw [h.bit b hlt, decide_eq_true_iff]
      exact ⟨hlt, hb⟩
  unfold Bitmap.setBits
  rw [hfilter, Nat.card_Ico]

/-- The loop over the blocks of the free map reads the bits that were written. -/
theorem Closed.sfsInitFreemap (hc : Closed N n img) (hn : n ≤ N) (hpos : 0 < N)
    (hN : N ≤ maxNblks) (hfit : freemapEnd N < N) (hdev : dev.block = img.block)
    (hbig : N ≤ dev.dBlocks) {empty : Bitmap} (hbits : empty.nbits = sfsFreemapBits N)
    (hwords : empty.nwords = Bitmap.roundupDiv (sfsFreemapBits N) wordBits) :
    ∃ freemap, Fs.sfsInitFreemap dev empty blknFreemap (sfsFreemapBlocks N) =
      some (.ok freemap) ∧ ReadBack N n freemap := by
  have hround := sfsFreemapBits_eq hN
  have hblocks : sfsFreemapBlocks N = (N + blkBits - 1) / blkBits := rfl
  have hend : freemapEnd N = blknFreemap + sfsFreemapBlocks N := rfl
  have hlen : 4 * empty.nwords = uint32 (sfsFreemapBlocks N * blkSize) := by
    rw [hwords, hround, hblocks]
    unfold Bitmap.roundupDiv
    unfold maxNblks at hN
    rw [uint32_of_lt (by unfold blkBits blkSize; omega)]
    unfold blkBits blkSize wordBits
    omega
  obtain ⟨freemap, hread, hnbits, hnwords, -, hmap⟩ :=
    @readFreemap_map dev (sfsFreemapBlocks N) blknFreemap 0 empty (by omega) (by
      unfold maxNblks at hN
      unfold blkSize
      omega)
  refine ⟨freemap, ?_, hnbits.trans hbits, ?_, ?_⟩
  · unfold Fs.sfsInitFreemap
    rw [if_pos hlen, hread]
  · rw [hnwords, hwords, hnbits, hbits, hround]
    unfold Bitmap.roundupDiv blkBits blkSize wordBits
    omega
  · intro b hb
    rw [hnbits, hbits, hround, ← hblocks] at hb
    have hk : b / blkBits < sfsFreemapBlocks N := by
      unfold blkBits blkSize at *
      omega
    have hw : b % blkBits / wordBits < blkNEntry := by
      unfold blkBits blkNEntry blkSize wordBits
      omega
    have hlt : b / blkBits * blkBits < N := by
      unfold blkBits blkSize at *
      omega
    have hword : freemap.map (b / wordBits) =
        freemapBuffer N n (b / blkBits * blkBits) (b % blkBits / wordBits) := by
      have hix : b / wordBits = 0 + b / blkBits * blkNEntry + b % blkBits / wordBits := by
        unfold blkBits blkNEntry blkSize wordBits
        omega
      rw [hix, hmap (b / blkBits) hk _ hw, hdev]
      exact hc.freemap (b / blkBits) hlt _ hw
    have hmod : b % wordBits = b % blkBits % wordBits := by
      unfold blkBits blkSize wordBits
      omega
    have hsum : b / blkBits * blkBits + b % blkBits = b := Nat.div_add_mod' b blkBits
    unfold Bitmap.bit
    rw [hword, hmod, freemapBuffer_bit (Nat.mod_lt b (by decide)) hn hlt, hsum]

theorem Closed.mountFreemap (hc : Closed N n img) (hn : n ≤ N) (hN : N ≤ maxNblks)
    (hfit : freemapEnd N < N) (hdev : dev.block = img.block) (hbig : N ≤ dev.dBlocks)
    (hmem : ∀ a, kmalloc a = true) :
    ∃ freemap, Fs.mountFreemap dev kmalloc N (N - n) = some (.ok ⟨N, N - n, false, freemap⟩) ∧
      ReadBack N n freemap := by
  have hpos : 0 < N := Nat.zero_lt_of_lt hfit
  have hbits : sfsFreemapBits N ≠ 0 := by
    rw [sfsFreemapBits_eq hN]
    unfold blkBits blkSize
    omega
  obtain ⟨empty, hcreate, hnbits, hnwords, -⟩ :=
    Bitmap.bitmapCreate_made hbits ⟨hmem .bitmap, hmem .map⟩
  obtain ⟨freemap, hread, hback⟩ :=
    hc.sfsInitFreemap hn hpos hN hfit hdev hbig hnbits hnwords
  have hcount : freemap.countBits (sfsFreemapBits N) 0 0 = some (N - n) := by
    rw [← hback.nbits, Bitmap.countBits_nbits, hback.setBits hN]
  exact ⟨freemap, loadFreemap_eq hcreate hread hcount, hback⟩

/-- A device that holds all blocks of the image can be mounted. -/
theorem Closed.sfsDoMount (hc : Closed N n img) (hn : n ≤ N) (hN : N ≤ maxNblks)
    (hfit : freemapEnd N < N) (hdev : dev.block = img.block) (hsize : dev.dBlocksize = blkSize)
    (hbig : N ≤ dev.dBlocks) (hmem : ∀ a, kmalloc a = true) :
    ∃ freemap, Fs.sfsDoMount dev kmalloc = some (.ok ⟨N, N - n, false, freemap⟩) ∧
      ReadBack N n freemap := by
  have hread : sfsInitRead dev blknSuper = .ok (img.block blknSuper) := by
    unfold sfsInitRead blknSuper
    rw [hdev]
    exact if_neg (by simp [uint32]; omega)
  obtain ⟨freemap, hmount, hback⟩ := hc.mountFreemap hn hN hfit hdev hbig hmem
  refine ⟨freemap, ?_, hback⟩
  unfold Fs.sfsDoMount
  rw [if_neg (fun h => h hsize), hmem, hmem, Bool.and_self, if_pos rfl, hread]
  simp only [hc.magic, hc.blocks, hc.unused, ne_eq, not_true_eq_false, if_false, hmem, if_true,
    Nat.not_lt.mpr hbig, hmount]

/-- A smaller device is refused. -/
theorem Closed.sfsDoMount_short (hc : Closed N n img) (hdev : dev.block = img.block)
    (hsize : dev.dBlocksize = blkSize) (hshort : dev.dBlocks < N) (hmem : ∀ a, kmalloc a = true) :
    Fs.sfsDoMount dev kmalloc = some (.error .inval) := by
  have hread : sfsInitRead dev blknSuper =
      if 1 > dev.dBlocks then .error .inval else .ok (img.block blknSuper) := by
    unfold sfsInitRead blknSuper
    rw [hdev]
    simp [uint32]
  unfold Fs.sfsDoMount
  rw [if_neg (fun h => h hsize), hmem, hmem, Bool.and_self, if_pos rfl, hread]
  by_cases hnone : 1 > dev.dBlocks
  · simp only [hnone, if_true]
  · simp only [hnone, if_false, hc.magic, hc.blocks, ne_eq, not_true_eq_false, gt_iff_lt, hshort,
      if_true]

theorem imgBlocks_le (stSize : ℕ) : imgBlocks stSize ≤ maxNblks := by
  unfold imgBlocks
  split
  · exact le_rfl
  · omega

/-- The disk of the kernel holds the image it was made from, if the length of the image fits
into an `unsigned int`. -/
theorem imgBlocks_le_disk0 {stSize : ℕ} (h : stSize < 2 ^ 32) (block : ℕ → Bytes) :
    imgBlocks stSize ≤ (disk0 stSize block).dBlocks := by
  have hcut : imgBlocks stSize ≤ uint32 (stSize / blkSize) := by
    unfold imgBlocks
    split <;> omega
  have hmod : uint32 (stSize / blkSize) ≤ stSize / blkSize := Nat.mod_le _ _
  have hdisk : (disk0 stSize block).dBlocks = stSize / 512 / 8 := by
    unfold disk0
    rw [uint32_of_lt h]
  unfold blkSize at *
  omega

/-- Whatever is built in an image file of any size, closing it gives an image whose free map
has the bits from `next_ino` up to `blocks` set and no others. It passes every check of a
mount from a device that holds it. -/
theorem image_passes_mount {stSize : ℕ} {file : ℕ → Bytes} {s₀ : MkSfs} {ops : List BuildStep}
    (hcreate : createSfs stSize file = some s₀) (hrun : runOps buildStep s₀ ops = some s) :
    ∃ t, ran closeSfs s = some t ∧
      (stSize < 2 ^ 32 → s.superBlocks ≤ (disk0 stSize t.image.block).dBlocks) ∧
      ∀ dev : Device, dev.block = t.image.block → dev.dBlocksize = blkSize →
        ∀ kmalloc : MountAlloc → Bool, (∀ a, kmalloc a = true) →
          (dev.dBlocks < s.superBlocks → sfsDoMount dev kmalloc = some (.error .inval)) ∧
          (s.superBlocks ≤ dev.dBlocks → ∃ m, sfsDoMount dev kmalloc = some (.ok m) ∧
            m.superBlocks = s.superBlocks ∧ m.unusedBlocks = s.unusedBlocks ∧
            m.superBlocks ≤ m.freemap.nbits ∧
            (∀ b < m.freemap.nbits, m.freemap.bit b = true ↔ s.nextIno ≤ b ∧ b < m.superBlocks) ∧
            m.freemap.setBits = m.unusedBlocks ∧
            (∀ b ∈ t.image.writes, b < m.freemap.nbits ∧ m.freemap.bit b = false) ∧
            ∀ b freemap', m.freemap.bitmapAlloc = some (some b, freemap') → b < m.superBlocks) := by
  have hfit : freemapEnd (imgBlocks stSize) < imgBlocks stSize := by
    by_contra hno
    unfold createSfs at hcreate
    rw [if_pos (Nat.le_of_not_lt hno)] at hcreate
    exact absurd hcreate (by simp)
  have hN : imgBlocks stSize ≤ maxNblks := imgBlocks_le stSize
  have hb : Built (imgBlocks stSize) s := built_run (createSfs_built hcreate) hrun
  obtain ⟨r, hr⟩ := (@closeSfs_ends _ s hb hN hfit (fun _ _ => True)).exists
  rcases r with ⟨e | u, t⟩
  · exact e.elim
  have hc : Closed (imgBlocks stSize) s.nextIno t.image :=
    (@closeSfs_ends _ s hb hN hfit (fun _ _ => True)).of_ok hr
  have hran : ran closeSfs s = some t := by
    unfold ran
    rw [hr]
  refine ⟨t, hran, fun h => hb.superBlocks ▸ imgBlocks_le_disk0 h _, ?_⟩
  intro dev hdev hsize kmalloc hmem
  rw [hb.superBlocks, hb.unused]
  refine ⟨fun hshort => hc.sfsDoMount_short hdev hsize hshort hmem, fun hbig => ?_⟩
  obtain ⟨freemap, hmount, hback⟩ := hc.sfsDoMount hb.high hN hfit hdev hsize hbig hmem
  have hle : imgBlocks stSize ≤ freemap.nbits := by
    rw [hback.nbits, sfsFreemapBits_eq hN]
    unfold blkBits blkSize
    omega
  refine ⟨_, hmount, rfl, rfl, hle, ?_, hback.setBits hN, ?_, ?_⟩
  · intro b hlt
    rw [hback.bit b hlt, decide_eq_true_iff]
  · intro b hmem'
    have hlow := hc.writes b hmem'
    have hlt : b < freemap.nbits := Nat.lt_of_lt_of_le hlow (hb.high.trans hle)
    refine ⟨hlt, ?_⟩
    rw [hback.bit b hlt, decide_eq_false_iff_not]
    omega
  · intro b freemap' halloc
    rcases freemap.bitmapAlloc_spec with hnone | ⟨index, b', heq, hlt, hbit, -⟩
    · rw [hnone] at halloc
      exact absurd halloc (by simp)
    · rw [heq] at halloc
      have hib : index = b := by
        simp only [Option.some.injEq, Prod.mk.injEq] at halloc
        exact halloc.1
      rw [hback.nwords] at hlt
      rw [hback.bit index hlt, decide_eq_true_iff] at hbit
      exact hib ▸ hbit.2

/-- An image of six blocks with one block of data. -/
theorem image_passes_mount_small :
    ∃ s₀ s t, createSfs 24576 (fun _ _ => 0) = some s₀ ∧
      runOps buildStep s₀ [.data rootIno (fun _ => 7) 100] = some s ∧ ran closeSfs s = some t ∧
      ∃ m, sfsDoMount (disk0 24576 t.image.block) (fun _ => true) = some (.ok m) ∧
        m.freemap.setBits = m.unusedBlocks := by
  obtain ⟨t, hclose, hdisk, hmount⟩ := @image_passes_mount _ 24576 (fun _ _ => 0) _
    [.data rootIno (fun _ => 7) 100] rfl rfl
  refine ⟨_, _, t, rfl, rfl, hclose, ?_⟩
  obtain ⟨-, hok⟩ := hmount (disk0 24576 t.image.block) rfl rfl (fun _ => true) (fun _ => rfl)
  obtain ⟨m, hm, -, -, -, -, hset, -⟩ := hok (hdisk (by decide))
  exact ⟨m, hm, hset⟩

end Ucore.Tools
