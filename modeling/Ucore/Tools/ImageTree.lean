import Mathlib.Data.List.Find
import Ucore.Tools.HostTree
import Ucore.Tools.ImageFiles

/-!
The builder goes through the tree of the host. What it has finished is there as the host has it, and
stays there while it goes on.
-/
namespace Ucore.Tools

open Fs Libs Library

namespace MkSfs

def slots (s : MkSfs) (ino : ℕ) : List (ℕ × List UInt8) :=
  (s.file ino).blocks.map (fun b => slotOf (s.image.block b))

def byte (s : MkSfs) (ino i : ℕ) : UInt8 :=
  (s.file ino).blocks[i / blkSize]?.elim 0 (fun b => s.image.block b (i % blkSize))

/-- What stands in the image and in the caches. The inodes of `S` are not finished. -/
def view (s : MkSfs) (S : ℕ → Prop) : TreeView where
  inos i := i ∈ s.inoList ∧ ¬ S i
  type i := (s.file i).type
  size i := (s.file i).size
  blocks i := (s.file i).blocks.length
  byte := s.byte
  slots := s.slots

end MkSfs

/-- From `s` to `t` only the files of `S` and new ones were changed. -/
structure Extends (s : MkSfs) (S : ℕ → Prop) (t : MkSfs) : Prop where
  next : s.nextIno ≤ t.nextIno
  inos : ∀ i ∈ s.inoList, i ∈ t.inoList
  type : ∀ i ∈ s.inoList, (t.file i).type = (s.file i).type
  files : ∀ i ∈ s.inoList, ¬ S i → t.file i = s.file i
  block : ∀ b < s.nextIno, t.image.block b = s.image.block b
  known : ∀ real i, searchCacheInode s real = some i → searchCacheInode t real = some i

/-- The builder between two nodes: an inode is found under its number on the host, and a regular
file that is found has its bytes. -/
structure Ready (N : ℕ) (content : ℕ → Option Content) (s : MkSfs) : Prop where
  laid : Laid N s []
  indexed : ∀ i ∈ s.inoList, searchCacheInode s (s.file i).real = some i
  known : ∀ real c i, content real = some c → searchCacheInode s real = some i →
    FileAt (s.view fun _ => False) i c

variable {N : ℕ} {content : ℕ → Option Content} {s t u : MkSfs} {S S' S'' : ℕ → Prop}
  {held : List ℕ} {file size current real : ℕ} {data : Bytes} {name : List UInt8}

/-! What stays. -/

theorem Extends.refl (s : MkSfs) (S : ℕ → Prop) : Extends s S s :=
  ⟨le_rfl, fun _ h => h, fun _ _ => rfl, fun _ _ _ => rfl, fun _ _ => rfl, fun _ _ h => h⟩

theorem Extends.trans (h : Extends s S t) (h' : Extends t S' u)
    (hS : ∀ i ∈ s.inoList, S i ∨ S' i → S'' i) : Extends s S'' u where
  next := h.next.trans h'.next
  inos i hi := h'.inos i (h.inos i hi)
  type i hi := (h'.type i (h.inos i hi)).trans (h.type i hi)
  files i hi hno :=
    (h'.files i (h.inos i hi) (fun hbad => hno (hS i hi (.inr hbad)))).trans
      (h.files i hi (fun hbad => hno (hS i hi (.inl hbad))))
  block b hb := (h'.block b (Nat.lt_of_lt_of_le hb h.next)).trans (h.block b hb)
  known real i hi := h'.known real i (h.known real i hi)

theorem Laid.block_lt (h : Laid N s held) {i b : ℕ} (hi : i ∈ s.inoList)
    (hb : b ∈ (s.file i).blocks) : b < s.nextIno := by
  obtain ⟨k, hk⟩ := List.mem_iff_getElem?.mp hb
  exact h.low (.data i k) b ⟨hi, hk⟩

/-- The bytes of a file are in its blocks. -/
theorem Laid.same_content (h : Laid N s held)
    (hblock : ∀ b < s.nextIno, t.image.block b = s.image.block b) {i : ℕ} (hi : i ∈ s.inoList)
    (hfile : t.file i = s.file i) : t.byte i = s.byte i ∧ t.slots i = s.slots i := by
  constructor
  · funext j
    unfold MkSfs.byte
    rw [hfile]
    cases hb : (s.file i).blocks[j / blkSize]? with
    | none => rfl
    | some b =>
      simp only [Option.elim_some]
      rw [hblock b (h.block_lt hi (List.mem_of_getElem? hb))]
  · unfold MkSfs.slots
    rw [hfile]
    exact List.map_congr_left (fun b hb => by rw [hblock b (h.block_lt hi hb)])

theorem Extends.within (h : Extends s S t) (hl : Laid N s held) (hS : ∀ i, S i → S' i) :
    (s.view S').Within (t.view S') := by
  have hfile : ∀ i, (s.view S').inos i → t.file i = s.file i := fun i hi =>
    h.files i hi.1 (fun hbad => hi.2 (hS i hbad))
  refine ⟨fun i hi => ⟨h.inos i hi.1, hi.2⟩, ?_, ?_, ?_, ?_, ?_⟩
  · exact fun i hi => congrArg HostFile.type (hfile i hi)
  · exact fun i hi => congrArg HostFile.size (hfile i hi)
  · exact fun i hi => congrArg (fun f => f.blocks.length) (hfile i hi)
  · exact fun i hi => (hl.same_content h.block hi.1 (hfile i hi)).1
  · exact fun i hi => (hl.same_content h.block hi.1 (hfile i hi)).2

/-- More inodes are finished. -/
theorem MkSfs.view_within (hS : ∀ i, S i → S' i) : (s.view S').Within (s.view S) :=
  ⟨fun i hi => ⟨hi.1, fun hbad => hi.2 (hS i hbad)⟩, fun _ _ => rfl, fun _ _ => rfl, fun _ _ => rfl,
    fun _ _ => rfl, fun _ _ => rfl⟩

/-! The hash table. -/

theorem searchCacheInode_some {i : ℕ} (h : searchCacheInode s real = some i) :
    i ∈ s.inoList ∧ (s.file i).real = real := by
  unfold searchCacheInode at h
  have hmem := List.mem_of_find?_eq_some h
  have hreal := List.find?_some h
  refine ⟨List.mem_flatMap.mpr ⟨hash64 real, List.mem_range.mpr (hash32_lt _), hmem⟩, ?_⟩
  exact of_decide_eq_true hreal

/-- The search looks at one bucket, and at the numbers of its inodes on the host. -/
theorem searchCacheInode_congr (hbucket : t.inodes (hash64 real) = s.inodes (hash64 real))
    (hreal : ∀ i ∈ s.inoList, (t.file i).real = (s.file i).real) :
    searchCacheInode t real = searchCacheInode s real := by
  unfold searchCacheInode
  rw [hbucket]
  refine List.find?_congr (fun i hi => ?_)
  have hi' : i ∈ s.inoList :=
    List.mem_flatMap.mpr ⟨hash64 real, List.mem_range.mpr (hash32_lt _), hi⟩
  exact congrArg (fun r => decide (r = real)) (hreal i hi')

/-- A new inode with a new number is found, and all others still are. -/
theorem searchCacheInode_new {ino : ℕ}
    (hinos : t.inodes = Function.update s.inodes (hash64 real) (ino :: s.inodes (hash64 real)))
    (hnew : (t.file ino).real = real) (hreal : ∀ i ∈ s.inoList, (t.file i).real = (s.file i).real) :
    searchCacheInode t real = some ino ∧
      ∀ r ≠ real, searchCacheInode t r = searchCacheInode s r := by
  have hself : (t.cacheInode ino).real = real := hnew
  constructor
  · unfold searchCacheInode
    rw [hinos, Function.update_self, List.find?_cons_of_pos]
    exact decide_eq_true hself
  · intro r hr
    by_cases hbucket : hash64 r = hash64 real
    · have hskip : searchCacheInode t r = (s.inodes (hash64 r)).find?
          (fun ci => decide ((t.cacheInode ci).real = r)) := by
        unfold searchCacheInode
        rw [hinos, hbucket, Function.update_self, List.find?_cons_of_neg]
        rw [hself, decide_eq_true_iff]
        exact fun hbad => hr hbad.symm
      rw [hskip]
      unfold searchCacheInode
      refine List.find?_congr (fun i hi => ?_)
      have hi' : i ∈ s.inoList :=
        List.mem_flatMap.mpr ⟨hash64 r, List.mem_range.mpr (hash32_lt _), hi⟩
      exact congrArg (fun q => decide (q = r)) (hreal i hi')
    · exact searchCacheInode_congr (by rw [hinos, Function.update_of_ne hbucket]) hreal

/-! One block more. -/

theorem MkSfs.inoList_congr (h : t.inodes = s.inodes) : t.inoList = s.inoList := by
  unfold MkSfs.inoList
  rw [h]

theorem Added.real_eq (h : Added s file size data t) {i : ℕ} (hi : i ∈ s.inoList) :
    (t.file i).real = (s.file i).real := by
  by_cases hif : i = file
  · rw [hif]
    exact h.real
  · rw [h.others i hi hif]

theorem Added.search (h : Added s file size data t) (real : ℕ) :
    searchCacheInode t real = searchCacheInode s real :=
  searchCacheInode_congr (by rw [h.inodes]) (fun _ hi => h.real_eq hi)

theorem Added.extends (h : Added s file size data t) : Extends s (fun i => i = file) t where
  next := h.next.le
  inos i hi := by
    rw [MkSfs.inoList_congr h.inodes]
    exact hi
  type i hi := by
    by_cases hif : i = file
    · rw [hif]
      exact h.type
    · rw [h.others i hi hif]
  files := h.others
  block := h.block
  known real i hi := (h.search real).trans hi

theorem Added.slots (h : Added s file size data t) (hl : Laid N s held) (hfile : file ∈ s.inoList) :
    t.slots file = s.slots file ++ [slotOf (fun i => if i < size then data i else 0)] := by
  unfold MkSfs.slots
  rw [h.blocks, List.map_append, List.map_singleton, h.new]
  congr 1
  exact List.map_congr_left (fun b hb => by rw [h.block b (hl.block_lt hfile hb)])

theorem Added.ready (h : Added s file size data t) (hr : Ready N content s) (hl : Laid N t [])
    (hfile : file ∈ s.inoList) (hdir : (s.file file).type = .dir) : Ready N content t := by
  refine ⟨hl, ?_, ?_⟩
  · intro i hi
    rw [MkSfs.inoList_congr h.inodes] at hi
    rw [h.real_eq hi, h.search]
    exact hr.indexed i hi
  · intro real c i hc hi
    rw [h.search] at hi
    have hold := hr.known real c i hc hi
    have hne : i ≠ file := by
      rintro rfl
      exact FileType.noConfusion (hdir.symm.trans hold.type)
    have hopen : FileAt (s.view fun i => i = file) i c :=
      ⟨⟨hold.inside.1, hne⟩, hold.type, hold.size, hold.blocks, hold.byte⟩
    exact (hopen.mono (h.extends.within hr.laid (fun _ hi => hi))).mono
      (MkSfs.view_within (fun _ hbad => hbad.elim))

section Ends

variable {E : Empty → MkSfs → Prop}

/-- The number of an inode fits in a word. -/
theorem Laid.ino_lt (h : Laid N s held) (hN : N ≤ maxNblks) {i : ℕ} (hi : i ∈ s.inoList) :
    i < 2 ^ 32 := by
  have hlt := h.low (.inode i) i ⟨hi, rfl⟩
  have hhigh := h.built.high
  unfold maxNblks at hN
  omega

theorem addEntry_ready (hr : Ready N content s) (hN : N ≤ maxNblks) (hcurrent : current ∈ s.inoList)
    (hdir : (s.file current).type = .dir) (hfile : file ∈ s.inoList)
    (hroom : (s.slots current).length < maxBlocks) (hno : (0 : UInt8) ∉ name) :
    Call.Ends True (addEntry current file name) s (fun _ t => Ready N content t ∧
      Extends s (fun i => i = current) t ∧
        t.slots current = s.slots current ++ [(file, storedName name)])
      E := by
  have hlen : (s.slots current).length = (s.file current).blocks.length := List.length_map _
  refine (addEntry_laid hr.laid hcurrent hfile (by rw [← hlen]; exact hroom)).mono ?_
    (fun _ _ he => he)
  intro _ t ht
  obtain ⟨hlaid, hadd⟩ := ht
  refine ⟨hadd.ready hr hlaid hcurrent hdir, hadd.extends, ?_⟩
  rw [hadd.slots hr.laid hcurrent]
  congr 2
  exact slotOf_entryBytes (hr.laid.ino_lt hN hfile) hno

/-- A new inode has no blocks yet. -/
theorem allocCacheInode_ready (hr : Ready N content s) (hnone : searchCacheInode s real = none)
    (type : FileType) :
    Call.Ends True (allocCacheInode real 0 type) s (fun ino t => Laid N t [] ∧ ino ∉ s.inoList ∧
      ino ∈ t.inoList ∧ Extends s (fun _ => False) t ∧ t.file ino = ⟨type, real, 0, [], 0⟩ ∧
      searchCacheInode t real = some ino ∧
      (∀ i ∈ t.inoList, searchCacheInode t (t.file i).real = some i) ∧
      ∀ r c i, r ≠ real → content r = some c → searchCacheInode t r = some i →
        FileAt (t.view fun _ => False) i c) E := by
  refine (allocCacheInode_laid hr.laid real type).mono ?_ (fun _ _ he => he)
  intro ino t ht
  obtain ⟨hlaid, -, hnew, hmem, hnext, himage, hinos, hfile, hfiles⟩ := ht
  obtain ⟨hself, hother⟩ := searchCacheInode_new hinos (by rw [hfile])
    (fun i hi => by rw [hfiles i hi])
  have hne : ∀ {r i}, searchCacheInode s r = some i → r ≠ real := by
    rintro r i hr rfl
    rw [hnone] at hr
    cases hr
  have hext : Extends s (fun _ => False) t := by
    refine ⟨by rw [hnext]; exact Nat.le_succ _, fun i hi => (hmem i).mpr (.inr hi), ?_,
      fun i hi _ => hfiles i hi, fun b _ => by rw [himage], ?_⟩
    · intro i hi
      rw [hfiles i hi]
    · intro r i hr
      exact (hother r (hne hr)).trans hr
  refine ⟨hlaid, hnew, (hmem ino).mpr (.inl rfl), hext, hfile, hself, ?_, ?_⟩
  · intro i hi
    rcases (hmem i).mp hi with rfl | hi
    · rw [hfile]
      exact hself
    · have hold := hr.indexed i hi
      rw [hfiles i hi, hother _ (hne hold)]
      exact hold
  · intro r c i hr' hc hi
    rw [hother r hr'] at hi
    exact (hr.known r c i hc hi).mono (hext.within hr.laid (fun _ hbad => hbad))

/-- Some blocks of a file were read on the host, all of them full unless the end was reached. -/
structure Partly (s : MkSfs) (file : ℕ) (c : Content) (offset : ℕ) : Prop where
  ino : file ∈ s.inoList
  type : (s.file file).type = .file
  size : (s.file file).size = offset
  blocks : (s.file file).blocks.length = blocksFor offset
  full : offset < c.size → offset = (s.file file).blocks.length * blkSize
  byte : ∀ i < offset, s.byte file i = c.bytes i

omit E in
theorem Partly.add {c : Content} {offset ret : ℕ} (h : Partly s file c offset) (hl : Laid N s held)
    (hret : ret = min blkSize (c.size - offset)) (hlt : offset < c.size)
    (hadd : Added s file ret (fun i => c.bytes (offset + i)) t) :
    Partly t file c (offset + ret) := by
  have hfull := h.full hlt
  have hlen : (t.file file).blocks.length = (s.file file).blocks.length + 1 := by
    rw [hadd.blocks, List.length_append]
    rfl
  have hsize : blkSize = 4096 := rfl
  rw [hsize] at hfull hret
  refine ⟨by rw [MkSfs.inoList_congr hadd.inodes]; exact h.ino, hadd.type.trans h.type, ?_, ?_, ?_,
    ?_⟩
  · rw [hadd.size, h.size]
  · rw [hlen]
    unfold blocksFor
    rw [hsize]
    omega
  · rw [hlen, hsize]
    omega
  · intro i hi
    have hdiv : i / blkSize < (s.file file).blocks.length ↔ i < offset := by
      rw [hsize]
      omega
    unfold MkSfs.byte
    rw [hadd.blocks, List.getElem?_append]
    by_cases hold : i < offset
    · rw [if_pos (hdiv.mpr hold)]
      have hbyte := h.byte i hold
      unfold MkSfs.byte at hbyte
      cases hb : (s.file file).blocks[i / blkSize]? with
      | none =>
        rw [List.getElem?_eq_none_iff] at hb
        exact absurd (hdiv.mpr hold) (by omega)
      | some b =>
        rw [hb] at hbyte
        simp only [Option.elim_some] at hbyte ⊢
        rw [hadd.block b (hl.block_lt h.ino (List.mem_of_getElem? hb))]
        exact hbyte
    · have hblk : i / blkSize = (s.file file).blocks.length := by
        rw [hsize]
        omega
      rw [if_neg (fun h => hold (hdiv.mp h)), hblk, Nat.sub_self, List.getElem?_cons_zero,
        Option.elim_some, hadd.new]
      have hmod : offset + i % blkSize = i := by
        rw [hsize]
        omega
      dsimp only
      rw [if_pos (by omega), hmod]

/-- The loop over the blocks of a file. -/
theorem openFile_laid {c : Content} (hmax : c.size ≤ maxBytes) {offset : ℕ} (hl : Laid N s [])
    (h : Partly s file c offset) (hle : offset ≤ c.size) :
    Call.Ends True (openFile file c offset) s (fun _ t => Laid N t [] ∧
      Extends s (fun i => i = file) t ∧ t.inodes = s.inodes ∧
      (∀ i ∈ s.inoList, (t.file i).real = (s.file i).real) ∧ FileAt (t.view fun _ => False) file c)
      E := by
  induction hleft : c.size - offset using Nat.strong_induction_on generalizing s offset with
  | _ left ih =>
    rw [openFile]
    by_cases hlt : offset < c.size
    · rw [if_pos hlt]
      have hsize : blkSize = 4096 := rfl
      have hroom : (s.file file).blocks.length < maxBlocks := by
        have hfull := h.full hlt
        unfold maxBytes at hmax
        by_contra hbad
        have hmul := Nat.mul_le_mul_right blkSize (Nat.le_of_not_lt hbad)
        omega
      refine Call.Ends.bind ((addData_laid hl h.ino hroom (Nat.min_le_left _ _)).mono ?_
        (fun _ _ he => he))
      intro _ t ht
      obtain ⟨hlaid, hadd⟩ := ht
      refine (ih _ ?_ hlaid (h.add hl rfl hlt hadd) (by omega) rfl).mono ?_ (fun _ _ he => he)
      · omega
      · intro _ u hu
        obtain ⟨hlaid', hext, hinos, hreal, hfile⟩ := hu
        rw [MkSfs.inoList_congr hadd.inodes] at hreal
        refine ⟨hlaid', hadd.extends.trans hext (fun _ _ hor => hor.elim id id),
          hinos.trans hadd.inodes, ?_, hfile⟩
        intro i hi
        rw [hreal i hi, hadd.real_eq hi]
    · rw [if_neg hlt]
      obtain rfl : offset = c.size := by omega
      exact Call.Ends.pure ⟨hl, Extends.refl _ _, rfl, fun _ _ => rfl, ⟨h.ino, fun hbad => hbad⟩,
        h.type, h.size, h.blocks, h.byte⟩

/-- A regular file that was not met before is written. -/
theorem newFile_ready (hr : Ready N content s) (hnone : searchCacheInode s real = none)
    {c : Content}
    (hc : content real = some c) (hmax : c.size ≤ maxBytes) :
    Call.Ends True (allocCacheInode real 0 .file) s (fun ino s₁ =>
      Call.Ends True (openFile ino c 0) s₁ (fun _ t => Ready N content t ∧
        Extends s (fun _ => False) t ∧ searchCacheInode t real = some ino ∧
        FileAt (t.view fun _ => False) ino c) E) E := by
  refine (allocCacheInode_ready hr hnone .file).mono ?_ (fun _ _ he => he)
  intro ino s₁ h₁
  obtain ⟨hlaid, hnew, hino, hext, hfile, hself, hindexed, hknown⟩ := h₁
  have hstart : Partly s₁ ino c 0 := by
    refine ⟨hino, by rw [hfile], by rw [hfile], by rw [hfile]; rfl, ?_, ?_⟩
    · intro _
      rw [hfile]
      exact (Nat.zero_mul _).symm
    · exact fun i hi => absurd hi (Nat.not_lt_zero i)
  refine (openFile_laid hmax hlaid hstart (Nat.zero_le _)).mono ?_ (fun _ _ he => he)
  intro _ t ht
  obtain ⟨hlaid', hext', hinos, hreal, hat⟩ := ht
  have hsearch : ∀ r, searchCacheInode t r = searchCacheInode s₁ r := fun r =>
    searchCacheInode_congr (by rw [hinos]) hreal
  refine ⟨⟨hlaid', ?_, ?_⟩, hext.trans hext' ?_, (hsearch real).trans hself, hat⟩
  · intro i hi
    rw [MkSfs.inoList_congr hinos] at hi
    rw [hreal i hi, hsearch]
    exact hindexed i hi
  · intro r c' i hc' hi
    rw [hsearch] at hi
    by_cases hrr : r = real
    · subst hrr
      rw [hself] at hi
      rw [hc] at hc'
      obtain rfl := Option.some.inj hi
      obtain rfl := Option.some.inj hc'
      exact hat
    · have hold := hknown r c' i hrr hc' hi
      have hne : i ≠ ino := by
        rintro rfl
        have hreal' := (searchCacheInode_some hi).2
        rw [hfile] at hreal'
        exact hrr hreal'.symm
      have hopen : FileAt (s₁.view fun j => j = ino) i c' :=
        ⟨⟨hold.inside.1, hne⟩, hold.type, hold.size, hold.blocks, hold.byte⟩
      exact (hopen.mono (hext'.within hlaid (fun _ hi => hi))).mono
        (MkSfs.view_within (fun _ hbad => hbad.elim))
  · rintro i hi (hbad | rfl)
    · exact hbad
    · exact hnew hi

/-- The directories that are not finished. -/
def OpenDirs (s : MkSfs) (S : ℕ → Prop) : Prop := ∀ i, S i → i ∈ s.inoList ∧ (s.file i).type = .dir

omit E in
theorem OpenDirs.mono (h : OpenDirs s S) (he : Extends s S' t) : OpenDirs t S := by
  intro i hi
  obtain ⟨hino, htype⟩ := h i hi
  exact ⟨he.inos i hino, (he.type i hino).trans htype⟩

/-- The first two entries of a directory. -/
theorem addDots_ready {dir parent : ℕ} (hr : Ready N content s) (hN : N ≤ maxNblks)
    (hdir : dir ∈ s.inoList) (htype : (s.file dir).type = .dir) (hparent : parent ∈ s.inoList)
    (hempty : s.slots dir = []) :
    Call.Ends True (addEntry dir dir [dot]) s (fun _ s₁ =>
      Call.Ends True (addEntry dir parent [dot, dot]) s₁ (fun _ t => Ready N content t ∧
        Extends s (fun i => i = dir) t ∧
          t.slots dir = [(dir, [dot]), (parent, [dot, dot])]) E) E := by
  refine (addEntry_ready hr hN hdir htype hdir (by rw [hempty]; decide) (by decide)).mono ?_
    (fun _ _ he => he)
  intro _ s₁ h₁
  obtain ⟨hr₁, hext₁, hslots₁⟩ := h₁
  rw [hempty] at hslots₁
  refine (addEntry_ready hr₁ hN (hext₁.inos dir hdir) ((hext₁.type dir hdir).trans htype)
    (hext₁.inos parent hparent) ?_ (by decide)).mono ?_ (fun _ _ he => he)
  · rw [hslots₁]
    exact (show 1 < maxBlocks by decide)
  intro _ t ht
  obtain ⟨ht, hext, hslots⟩ := ht
  refine ⟨ht, hext₁.trans hext (fun _ _ hor => hor.elim id id), ?_⟩
  rw [hslots, hslots₁]
  rfl

mutual

/-- A node is added to the directory `current`: one slot more, and behind it the node. -/
theorem addNode_ready (hN : N ≤ maxNblks) : {node : Node} → node.Fits content →
    ∀ {s : MkSfs} {S : ℕ → Prop} {current : ℕ} {name : List UInt8}, Ready N content s →
    OpenDirs s S → S current → (s.slots current).length < maxBlocks → (0 : UInt8) ∉ name →
    Call.Ends True (addNode current name node) s (fun _ t => Ready N content t ∧
      Extends s (fun i => i = current) t ∧ ∃ ino,
        t.slots current = s.slots current ++ [(ino, storedName name)] ∧
        node.At (t.view S) (searchCacheInode t) ino current) E
  | .file real c, hfit, s, S, current, name, hr, hS, hcurrent, hroom, hno => by
    rw [Node.Fits] at hfit
    obtain ⟨hc, hmax⟩ := hfit
    have hcur := hS current hcurrent
    rw [addNode]
    refine Call.Ends.bind (Call.Ends.read ?_)
    -- the directory gets its slot when the file is there
    have hentry : ∀ {t ino}, Ready N content t → Extends s (fun _ => False) t →
        searchCacheInode t real = some ino → FileAt (t.view fun _ => False) ino c →
        Call.Ends True (addEntry current ino name) t (fun _ u => Ready N content u ∧
          Extends s (fun i => i = current) u ∧ ∃ ino,
            u.slots current = s.slots current ++ [(ino, storedName name)] ∧
            (Node.file real c).At (u.view S) (searchCacheInode u) ino current) E := by
      intro t ino ht hext hsearch hat
      have hsame := hr.laid.same_content hext.block hcur.1 (hext.files current hcur.1 (fun h => h))
      refine (addEntry_ready ht hN (hext.inos current hcur.1)
        ((hext.type current hcur.1).trans hcur.2) hat.inside.1 (by rw [hsame.2]; exact hroom)
        hno).mono ?_ (fun _ _ he => he)
      intro _ u hu
      obtain ⟨hu, hext', hslots⟩ := hu
      refine ⟨hu, hext.trans hext' (fun i _ hor => hor.resolve_left (fun h => h)), ino,
        by rw [hslots, hsame.2], ?_⟩
      have hopen : ¬ S ino := by
        intro hbad
        have hdir := ((hS.mono hext) ino hbad).2
        exact FileType.noConfusion (hdir.symm.trans hat.type)
      have hin : FileAt (t.view S) ino c :=
        ⟨⟨hat.inside.1, hopen⟩, hat.type, hat.size, hat.blocks, hat.byte⟩
      rw [Node.At]
      exact ⟨hext'.known real ino hsearch,
        hin.mono (hext'.within ht.laid (fun i hi => hi ▸ hcurrent))⟩
    cases hknown : searchCacheInode s real with
    | some ino => exact hentry hr (Extends.refl _ _) hknown (hr.known real c ino hc hknown)
    | none =>
      refine Call.Ends.bind ((newFile_ready hr hknown hc hmax).mono ?_ (fun _ _ he => he))
      intro ino s₁ h₁
      refine Call.Ends.bind (h₁.mono ?_ (fun _ _ he => he))
      intro _ t ht
      obtain ⟨ht, hext, hsearch, hat⟩ := ht
      exact hentry ht hext hsearch hat
  | .dir real entries, hfit, s, S, current, name, hr, hS, hcurrent, hroom, hno => by
    rw [Node.Fits] at hfit
    obtain ⟨hc, hcount, hentries⟩ := hfit
    have hcur := hS current hcurrent
    rw [addNode]
    refine Call.Ends.bind (Call.Ends.require (fun hnone => ?_) (fun _ => trivial))
    refine Call.Ends.bind ((allocCacheInode_ready hr hnone .dir).mono ?_ (fun _ _ he => he))
    intro dir s₁ h₁
    obtain ⟨hlaid₁, hnew, hdir, hext₁, hfile₁, hself₁, hindexed₁, hknown₁⟩ := h₁
    have hr₁ : Ready N content s₁ := by
      refine ⟨hlaid₁, hindexed₁, fun r c i hrc hri => hknown₁ r c i ?_ hrc hri⟩
      rintro rfl
      rw [hc] at hrc
      cases hrc
    have hne : current ≠ dir := fun heq => hnew (heq ▸ hcur.1)
    have hdir₁ : (s₁.file dir).type = .dir := by rw [hfile₁]
    have hslots₁ : s₁.slots dir = [] := by
      unfold MkSfs.slots
      rw [hfile₁]
      rfl
    refine Call.Ends.bind ((addDots_ready hr₁ hN hdir hdir₁ (hext₁.inos current hcur.1)
      hslots₁).mono ?_ (fun _ _ he => he))
    intro _ s₂ h₂
    refine Call.Ends.bind (h₂.mono ?_ (fun _ _ he => he))
    intro _ s₃ h₃
    obtain ⟨hr₃, hext₁', hslots₃⟩ := h₃
    have hext₁₃ : Extends s (fun _ => False) s₃ := by
      refine hext₁.trans hext₁' ?_
      rintro i hi (hbad | rfl)
      · exact hbad
      · exact hnew hi
    -- while the entries are added, the new directory is open too
    have hS₃ : OpenDirs s₃ (fun i => S i ∨ i = dir) := by
      rintro i (hi | rfl)
      · exact hS.mono hext₁₃ i hi
      · exact ⟨hext₁'.inos i hdir, (hext₁'.type i hdir).trans hdir₁⟩
    refine Call.Ends.bind ((addEntries_ready hN hentries hr₃ hS₃ (.inr rfl) ?_).mono ?_
      (fun _ _ he => he))
    · rw [hslots₃, List.length_cons, List.length_singleton]
      omega
    intro _ s₄ h₄
    obtain ⟨hr₄, hext₄, slots, hslots₄, hat₄⟩ := h₄
    rw [hslots₃] at hslots₄
    have hext₁₄ : Extends s (fun _ => False) s₄ := by
      refine hext₁₃.trans hext₄ ?_
      rintro i hi (hbad | rfl)
      · exact hbad
      · exact hnew hi
    have hsame := hr.laid.same_content hext₁₄.block hcur.1
      (hext₁₄.files current hcur.1 (fun h => h))
    have hdir₄ : dir ∈ s₄.inoList ∧ (s₄.file dir).type = .dir := (hS₃.mono hext₄) dir (.inr rfl)
    refine (addEntry_ready hr₄ hN (hext₁₄.inos current hcur.1)
      ((hext₁₄.type current hcur.1).trans hcur.2) hdir₄.1 (by rw [hsame.2]; exact hroom)
      hno).mono ?_ (fun _ _ he => he)
    intro _ s₅ h₅
    obtain ⟨hr₅, hext₅, hslots₅⟩ := h₅
    refine ⟨hr₅, hext₁₄.trans hext₅ (fun i _ hor => hor.resolve_left (fun h => h)), dir,
      by rw [hslots₅, hsame.2], ?_⟩
    rw [Node.At]
    refine ⟨?_, ⟨hext₅.inos dir hdir₄.1, ?_⟩, (hext₅.type dir hdir₄.1).trans hdir₄.2, slots, ?_, ?_⟩
    · exact hext₅.known _ _ (hext₄.known _ _ (hext₁'.known _ _ hself₁))
    · exact fun hbad => hnew (hS dir hbad).1
    · have hslots := (hr₄.laid.same_content hext₅.block hdir₄.1
        (hext₅.files dir hdir₄.1 hne.symm)).2
      exact hslots.trans hslots₄
    · refine (hat₄.mono (hext₅.within hr₄.laid (fun i hi => .inl (hi ▸ hcurrent)))
        hext₅.known).mono (MkSfs.view_within (fun i hi => .inl hi)) (fun _ _ h => h)

/-- The entries of the directory `current` that are left. -/
theorem addEntries_ready (hN : N ≤ maxNblks) : {entries : Entries} → entries.Fits content →
    ∀ {s : MkSfs} {S : ℕ → Prop} {current : ℕ}, Ready N content s → OpenDirs s S → S current →
    (s.slots current).length + entries.count ≤ maxBlocks →
    Call.Ends True (addEntries current entries) s (fun _ t => Ready N content t ∧
      Extends s (fun i => i = current) t ∧ ∃ slots,
        t.slots current = s.slots current ++ slots ∧
        entries.At (t.view S) (searchCacheInode t) current slots) E
  | .nil, _, s, S, current, hr, _, _, _ => by
    rw [addEntries]
    exact Call.Ends.pure ⟨hr, Extends.refl _ _, [], (List.append_nil _).symm, by rw [Entries.At]⟩
  | .cons name node rest, hfit, s, S, current, hr, hS, hcurrent, hroom => by
    rw [Entries.Fits] at hfit
    rw [Entries.count] at hroom
    rw [addEntries]
    by_cases hhidden : name.head? = some dot
    · rw [if_pos hhidden] at hroom ⊢
      refine (addEntries_ready hN hfit.2 hr hS hcurrent hroom).mono ?_ (fun _ _ he => he)
      intro _ t ht
      obtain ⟨ht, hext, slots, hslots, hat⟩ := ht
      refine ⟨ht, hext, slots, hslots, ?_⟩
      rw [Entries.At, if_pos hhidden]
      exact hat
    rw [if_neg hhidden] at hroom ⊢
    obtain ⟨hno, hnode⟩ := hfit.1.resolve_left hhidden
    dsimp only
    by_cases hlong : name.length > maxFnameLen
    · rw [if_pos hlong]
      exact Call.Ends.bind (Call.Ends.panic trivial)
    rw [if_neg hlong]
    refine Call.Ends.bind ((addNode_ready hN hnode hr hS hcurrent (by omega) hno).mono ?_
      (fun _ _ he => he))
    intro _ t ht
    obtain ⟨ht, hext, ino, hslots, hat⟩ := ht
    refine (addEntries_ready hN hfit.2 ht (hS.mono hext) hcurrent ?_).mono ?_ (fun _ _ he => he)
    · rw [hslots, List.length_append, List.length_singleton]
      omega
    intro _ u hu
    obtain ⟨hu, hext', slots, hslots', hrest⟩ := hu
    refine ⟨hu, hext.trans hext' (fun _ _ hor => hor.elim id id), (ino, storedName name) :: slots,
      ?_, ?_⟩
    · rw [hslots', hslots, List.append_assoc]
      rfl
    · rw [Entries.At, if_neg hhidden]
      exact ⟨ino, slots, rfl, hat.mono (hext'.within ht.laid (fun i hi => hi ▸ hcurrent))
        hext'.known, hrest⟩

end

theorem openRoot_ready {stSize : ℕ} {img : ℕ → Bytes} {entries : Entries}
    (hcreate : createSfs stSize img = some s) (hfit : (Node.dir 0 entries).Fits content) :
    Call.Ends True (openRoot entries) s (fun _ t => Ready (imgBlocks stSize) content t ∧
      (Node.dir 0 entries).At (t.view fun _ => False) (searchCacheInode t) rootIno rootIno) E := by
  rw [Node.Fits] at hfit
  obtain ⟨hc, hcount, hentries⟩ := hfit
  have hN := imgBlocks_le stSize
  obtain ⟨hlaid, hmem, hinos, hfile⟩ := createSfs_laid hcreate
  have hroot := (hmem rootIno).mpr rfl
  have hsearch : searchCacheInode s 0 = some rootIno := by
    unfold searchCacheInode
    rw [hinos, Function.update_self, List.find?_cons_of_pos]
    exact decide_eq_true (congrArg HostFile.real hfile)
  have hr : Ready (imgBlocks stSize) content s := by
    refine ⟨hlaid, ?_, ?_⟩
    · intro i hi
      rw [(hmem i).mp hi, hfile]
      exact hsearch
    · intro real c i hrc hi
      obtain ⟨hi', hreal⟩ := searchCacheInode_some hi
      rw [(hmem i).mp hi', hfile] at hreal
      obtain rfl : 0 = real := hreal
      rw [hc] at hrc
      cases hrc
  have htype : (s.file rootIno).type = .dir := by rw [hfile]
  have hempty : s.slots rootIno = [] := by
    unfold MkSfs.slots
    rw [hfile]
    rfl
  unfold openRoot
  refine Call.Ends.bind ((addDots_ready hr hN hroot htype hroot hempty).mono ?_ (fun _ _ he => he))
  intro _ s₁ h₁
  refine Call.Ends.bind (h₁.mono ?_ (fun _ _ he => he))
  intro _ s₂ h₂
  obtain ⟨hr₂, hext₂, hslots₂⟩ := h₂
  have hS : OpenDirs s₂ (fun i => i = rootIno) := by
    rintro i rfl
    exact ⟨hext₂.inos _ hroot, (hext₂.type _ hroot).trans htype⟩
  refine (addEntries_ready hN hentries hr₂ hS rfl ?_).mono ?_ (fun _ _ he => he)
  · rw [hslots₂, List.length_cons, List.length_singleton]
    omega
  intro _ t ht
  obtain ⟨ht, hext, slots, hslots, hat⟩ := ht
  rw [hslots₂] at hslots
  have hroot' := hS.mono hext rootIno rfl
  refine ⟨ht, ?_⟩
  rw [Node.At]
  exact ⟨hext.known _ _ (hext₂.known _ _ hsearch), ⟨hroot'.1, fun h => h⟩, hroot'.2, slots, hslots,
    hat.mono (MkSfs.view_within (fun _ hbad => hbad.elim)) (fun _ _ h => h)⟩

end Ends

end Ucore.Tools
