import Ucore.Vm.UserAccess

/-!
`copy_string`: a string of a process is copied in pieces. A piece ends where its page or the
budget ends, and is checked before it is read.
-/
namespace Ucore.Vm

/-- `PGSIZE` as a `uintptr_t`. -/
def pageWord : UInt64 := 4096

/-- `ROUNDDOWN(a, n)` -/
def wordRoundDown (a n : UInt64) : UInt64 := a - a % n

/-- `strnlen` -/
def strnlen (mem : UInt64 → UInt8) (s : UInt64) : ℕ → ℕ
  | 0 => 0
  | len + 1 => if mem s = 0 then 0 else strnlen mem (s + 1) len + 1

/-- `memcpy` from the process to a kernel buffer. -/
def memcpy (mem : UInt64 → UInt8) (buf : ℕ → UInt8) (dst : ℕ) (src : UInt64) (n : ℕ) :
    ℕ → UInt8 :=
  fun a => if dst ≤ a ∧ a < dst + n then mem (src + UInt64.ofNat (a - dst)) else buf a

/-- What a call of `copy_string` leaves: its result, the areas with their cache, the kernel
buffer, and the user bytes that were read. -/
structure Copied where
  ret : Bool
  mm : Option AreaList
  buf : ℕ → UInt8
  read : List UInt64

/-- The addresses of `n` bytes. -/
def bytesFrom (src : UInt64) (n : ℕ) : List UInt64 :=
  (List.range n).map (fun i => src + UInt64.ofNat i)

/-- A range that passes a check is not empty. -/
theorem ne_zero_of_check {mm mm' : Option AreaList} {src part : UInt64}
    (h : userMemCheck mm src part false = (true, mm')) : part ≠ 0 := by
  intro hzero
  subst hzero
  have hsame : src + 0 = src := by simp
  have hno : ∀ a, ¬ userAccess a a := fun a ha => absurd ha.2.1 (Nat.lt_irrefl a)
  have hno' : ∀ a, ¬ kernAccess a a := fun a ha => absurd ha.2.1 (Nat.lt_irrefl a)
  unfold userMemCheck at h
  rw [hsame] at h
  cases mm with
  | none => exact hno' _ (of_decide_eq_true (Prod.mk.inj h).1)
  | some mm =>
    simp only [if_neg (hno _)] at h
    exact absurd (Prod.mk.inj h).1 (by simp)

theorem sub_lt_of_piece {part maxn : UInt64} (hle : part.toNat ≤ maxn.toNat) (hne : part ≠ 0) :
    (maxn - part).toNat < maxn.toNat := by
  have hpos : part.toNat ≠ 0 := fun h => hne (UInt64.toNat_inj.mp h)
  rw [UInt64.toNat_sub_of_le _ _ hle]
  omega

/-- `if (part > maxn) part = maxn` -/
def piece (part maxn : UInt64) : UInt64 := if part > maxn then maxn else part

theorem toNat_piece (part maxn : UInt64) :
    (piece part maxn).toNat = min part.toNat maxn.toNat := by
  unfold piece
  split
  · rename_i h
    have hlt : maxn.toNat < part.toNat := h
    omega
  · rename_i h
    have hle : part.toNat ≤ maxn.toNat := Nat.le_of_not_lt h
    omega

/-- The loop of `copy_string`; `part` is the rest of the page. -/
def copyLoop (mem : UInt64 → UInt8) (mm : Option AreaList) (buf : ℕ → UInt8) (dst : ℕ)
    (src part maxn : UInt64) (read : List UInt64) : Copied :=
  match _h : userMemCheck mm src (piece part maxn) false with
  | (false, mm) => ⟨false, mm, buf, read⟩
  | (true, mm) =>
    let part := piece part maxn
    let alen := strnlen mem src part.toNat
    if alen < part.toNat then
      ⟨true, mm, memcpy mem buf dst src (alen + 1), read ++ bytesFrom src (alen + 1)⟩
    else if part = maxn then ⟨false, mm, buf, read ++ bytesFrom src part.toNat⟩
    else
      copyLoop mem mm (memcpy mem buf dst src part.toNat) (dst + part.toNat) (src + part)
        pageWord (maxn - part) (read ++ bytesFrom src part.toNat)
termination_by maxn.toNat
decreasing_by
  refine sub_lt_of_piece ?_ (ne_zero_of_check _h)
  rw [toNat_piece]
  exact Nat.min_le_right _ _

/-- `copy_string` -/
def copyString (mem : UInt64 → UInt8) (mm : Option AreaList) (buf : ℕ → UInt8) (dst : ℕ)
    (src maxn : UInt64) : Copied :=
  copyLoop mem mm buf dst src (wordRoundDown (src + pageWord) pageWord - src) maxn []

/-- The string at `src` has length `k`. -/
def StringAt (mem : UInt64 → UInt8) (src : UInt64) (k : ℕ) : Prop :=
  mem (src + UInt64.ofNat k) = 0 ∧ ∀ i < k, mem (src + UInt64.ofNat i) ≠ 0

theorem add_ofNat_add (src : UInt64) (i j : ℕ) :
    src + UInt64.ofNat i + UInt64.ofNat j = src + UInt64.ofNat (i + j) := by
  rw [UInt64.add_assoc, UInt64.ofNat_add]

theorem strnlen_le (mem : UInt64 → UInt8) (s : UInt64) (len : ℕ) : strnlen mem s len ≤ len := by
  induction len generalizing s with
  | zero => exact Nat.le_refl 0
  | succ len ih =>
    rw [strnlen]
    split
    · exact Nat.zero_le _
    · exact Nat.succ_le_succ (ih (s + 1))

theorem succ_ofNat (s : UInt64) (i : ℕ) :
    s + 1 + UInt64.ofNat i = s + UInt64.ofNat (i + 1) := by
  have h := add_ofNat_add s 1 i
  rw [Nat.add_comm 1 i] at h
  exact h

theorem strnlen_before (mem : UInt64 → UInt8) (s : UInt64) (len : ℕ) :
    ∀ i < strnlen mem s len, mem (s + UInt64.ofNat i) ≠ 0 := by
  induction len generalizing s with
  | zero => exact fun i hi => absurd hi (Nat.not_lt_zero i)
  | succ len ih =>
    rw [strnlen]
    split
    · exact fun i hi => absurd hi (Nat.not_lt_zero i)
    · rename_i hs
      intro i hi
      cases i with
      | zero => simpa using hs
      | succ i =>
        rw [← succ_ofNat]
        exact ih (s + 1) i (Nat.lt_of_succ_lt_succ hi)

theorem strnlen_stringAt (mem : UInt64 → UInt8) (s : UInt64) (len : ℕ)
    (h : strnlen mem s len < len) : StringAt mem s (strnlen mem s len) := by
  refine ⟨?_, strnlen_before mem s len⟩
  induction len generalizing s with
  | zero => exact absurd h (Nat.not_lt_zero _)
  | succ len ih =>
    rw [strnlen] at h ⊢
    split at h
    · rename_i hs
      rw [if_pos hs]
      simpa using hs
    · rename_i hs
      rw [if_neg hs, ← succ_ofNat]
      exact ih (s + 1) (Nat.lt_of_succ_lt_succ h)

/-- A string has one length. -/
theorem StringAt.unique {mem : UInt64 → UInt8} {src : UInt64} {k l : ℕ} (hk : StringAt mem src k)
    (hl : StringAt mem src l) : k = l := by
  rcases Nat.lt_trichotomy k l with hlt | heq | hgt
  · exact absurd hk.1 (hl.2 k hlt)
  · exact heq
  · exact absurd hl.1 (hk.2 l hgt)

/-- The string behind a piece without a zero. -/
theorem stringAt_add {mem : UInt64 → UInt8} {src : UInt64} {n k : ℕ}
    (hno : ∀ i < n, mem (src + UInt64.ofNat i) ≠ 0) :
    StringAt mem (src + UInt64.ofNat n) k ↔ StringAt mem src (n + k) := by
  unfold StringAt
  simp only [add_ofNat_add]
  constructor
  · intro h
    refine ⟨h.1, ?_⟩
    intro i hi
    by_cases hin : i < n
    · exact hno i hin
    · have hrest := h.2 (i - n) (by omega)
      rwa [Nat.add_sub_cancel' (Nat.le_of_not_lt hin)] at hrest
  · intro h
    exact ⟨h.1, fun i hi => h.2 (n + i) (by omega)⟩

theorem memcpy_of_lt {mem : UInt64 → UInt8} {buf : ℕ → UInt8} {dst : ℕ} {src : UInt64} {n a : ℕ}
    (h : a < dst ∨ dst + n ≤ a) : memcpy mem buf dst src n a = buf a := by
  unfold memcpy
  rw [if_neg]
  omega

namespace AreaList

/-- The borders of the areas are borders of pages. -/
def Aligned (mm : AreaList) : Prop :=
  ∀ v ∈ mm.mmapList, v.vmStart % pgSize = 0 ∧ v.vmEnd % pgSize = 0

/-- The process may read the byte. -/
def Readable (mm : AreaList) (a : ℕ) : Prop := userBase ≤ a ∧ a < userTop ∧ mm.Allows false a

variable {mm mm' : AreaList}

theorem readable_congr (h : mm'.mmapList = mm.mmapList) (a : ℕ) :
    mm'.Readable a ↔ mm.Readable a := by
  unfold Readable Allows
  rw [h]

theorem Aligned.congr (h : mm.Aligned) (hlist : mm'.mmapList = mm.mmapList) : mm'.Aligned := by
  unfold Aligned
  rw [hlist]
  exact h

/-- With aligned areas, a page is readable as a whole or not at all. -/
theorem Readable.of_page (hal : mm.Aligned) {a b : ℕ} (h : mm.Readable a)
    (hpage : b / pgSize = a / pgSize) : mm.Readable b := by
  obtain ⟨hbase, htop, v, hv, hc, hflag⟩ := h
  obtain ⟨hstart, hend⟩ := hal v hv
  have h1 := hc.1
  have h2 := hc.2
  have hvb : v.Contains b := by
    unfold Area.Contains pgSize at *
    omega
  refine ⟨?_, ?_, v, hv, hvb, hflag⟩
  · unfold userBase pgSize at *
    omega
  · unfold userTop pgSize at *
    omega

/-- A piece of a page passes the check when its first byte is readable. -/
theorem check_piece_iff (hal : mm.Aligned) {src part : UInt64} (hpos : 0 < part.toNat)
    (hin : src.toNat % pgSize + part.toNat ≤ pgSize) :
    (userMemCheck (some mm) src part false).1 = true ↔ mm.Readable src.toNat := by
  rw [userMemCheck_passes_iff]
  constructor
  · intro h
    obtain ⟨-, hrange, hall⟩ := h
    have h1 := hrange.1
    have h2 := hrange.2.2
    exact ⟨h1, by omega, (hall _ le_rfl (by omega)).1⟩
  · intro h
    have hbytes : ∀ a, src.toNat ≤ a → a < src.toNat + part.toNat → mm.Readable a := by
      intro a hle hlt
      refine h.of_page hal ?_
      unfold pgSize at *
      omega
    have hlast := (hbytes (src.toNat + part.toNat - 1) (by omega) (by omega)).2.1
    refine ⟨?_, ⟨h.1, by omega, by omega⟩, ?_⟩
    · unfold userTop at hlast
      omega
    · intro a hle hlt
      exact ⟨(hbytes a hle hlt).2.2, fun hw => absurd hw (by simp)⟩

end AreaList

/-- What the loop does from `src` on, with `maxn` bytes of the buffer left. -/
structure CopiesFrom (mm : AreaList) (mem : UInt64 → UInt8) (buf : ℕ → UInt8) (dst : ℕ)
    (src : UInt64) (maxn : ℕ) (read : List UInt64) (r : Copied) : Prop where
  ret : r.ret = true ↔
    ∃ k < maxn, StringAt mem src k ∧ ∀ i ≤ k, mm.Readable (src.toNat + i)
  copy : r.ret = true → ∀ k, StringAt mem src k → r.buf = memcpy mem buf dst src (k + 1)
  bound : ∀ a, a < dst ∨ dst + maxn ≤ a → r.buf a = buf a
  read : ∀ x ∈ r.read, x ∈ read ∨ mm.Readable x.toNat

variable {mm : AreaList} {mem : UInt64 → UInt8} {buf : ℕ → UInt8} {dst n : ℕ} {src : UInt64}

/-- The bytes of a readable piece. -/
theorem mem_bytesFrom {x : UInt64} (hsum : src.toNat + n ≤ userTop)
    (h : ∀ i < n, mm.Readable (src.toNat + i)) (hx : x ∈ bytesFrom src n) :
    mm.Readable x.toNat := by
  obtain ⟨i, hi, rfl⟩ := List.mem_map.mp hx
  have hlt := List.mem_range.mp hi
  have hnat : (src + UInt64.ofNat i).toNat = src.toNat + i := by
    rw [UInt64.toNat_add, UInt64.toNat_ofNat']
    unfold userTop at hsum
    omega
  rw [hnat]
  exact h i hlt

/-- Copying on behind a piece. -/
theorem memcpy_append (mem : UInt64 → UInt8) (buf : ℕ → UInt8) (dst : ℕ) (src : UInt64)
    (n k : ℕ) :
    memcpy mem (memcpy mem buf dst src n) (dst + n) (src + UInt64.ofNat n) k =
      memcpy mem buf dst src (n + k) := by
  funext a
  unfold memcpy
  by_cases hlow : a < dst + n
  · rw [if_neg (by omega)]
    by_cases hdst : dst ≤ a
    · rw [if_pos ⟨hdst, hlow⟩, if_pos ⟨hdst, by omega⟩]
    · rw [if_neg (by omega), if_neg (by omega)]
  · by_cases hhigh : a < dst + n + k
    · rw [if_pos ⟨by omega, hhigh⟩, if_pos ⟨by omega, by omega⟩, add_ofNat_add]
      congr 3
      omega
    · rw [if_neg (by omega), if_neg (by omega), if_neg (by omega)]

/-- The address spaces of a run differ in the cache only. -/
def Keeps (mm₀ : AreaList) (mm : Option AreaList) : Prop :=
  ∃ mm₁, mm = some mm₁ ∧ mm₁.mmapList = mm₀.mmapList

/-- A piece that passed the check. -/
structure Checked (mm : AreaList) (src : UInt64) (n : ℕ) : Prop where
  pos : 0 < n
  readable : ∀ i < n, mm.Readable (src.toNat + i)
  top : src.toNat + n ≤ userTop

theorem checked_of_passes {mm₀ : AreaList} (hal : mm₀.Aligned) {mm mm' : Option AreaList}
    (hmm : Keeps mm₀ mm) {part : UInt64} (hin : src.toNat % pgSize + part.toNat ≤ pgSize)
    (h : userMemCheck mm src part false = (true, mm')) :
    Checked mm₀ src part.toNat ∧ Keeps mm₀ mm' := by
  have hne := ne_zero_of_check h
  have hpos : 0 < part.toNat := by
    refine Nat.pos_of_ne_zero ?_
    exact fun hzero => hne (UInt64.toNat_inj.mp hzero)
  obtain ⟨mm₁, rfl, hlist⟩ := hmm
  obtain ⟨mm₂, hmm₂, hlist₂⟩ := userMemCheck_keeps mm₁ src part false
  have hpass := (AreaList.check_piece_iff (hal.congr hlist) hpos hin).mp (by rw [h])
  have hfirst := (AreaList.readable_congr hlist _).mp hpass
  have hbytes : ∀ i < part.toNat, mm₀.Readable (src.toNat + i) := by
    intro i hi
    refine hfirst.of_page hal ?_
    unfold pgSize at *
    omega
  have hlast := (hbytes (part.toNat - 1) (by omega)).2.1
  rw [h] at hmm₂
  exact ⟨⟨hpos, hbytes, by omega⟩, mm₂, hmm₂, hlist₂.trans hlist⟩

theorem not_readable_of_fails {mm₀ : AreaList} (hal : mm₀.Aligned) {mm mm' : Option AreaList}
    (hmm : Keeps mm₀ mm) {part : UInt64} (hpos : 0 < part.toNat)
    (hin : src.toNat % pgSize + part.toNat ≤ pgSize)
    (h : userMemCheck mm src part false = (false, mm')) : ¬ mm₀.Readable src.toNat := by
  obtain ⟨mm₁, rfl, hlist⟩ := hmm
  intro hread
  have hpass := (AreaList.check_piece_iff (hal.congr hlist) hpos hin).mpr
    ((AreaList.readable_congr hlist _).mpr hread)
  rw [h] at hpass
  exact absurd hpass (by simp)

theorem Checked.reads (h : Checked mm src n) {m : ℕ} (hm : m ≤ n) {x : UInt64}
    (hx : x ∈ bytesFrom src m) : mm.Readable x.toNat := by
  have htop := h.top
  exact mem_bytesFrom (by omega) (fun i hi => h.readable i (by omega)) hx

theorem Checked.toNat_add {part : UInt64} (h : Checked mm src part.toNat) :
    (src + part).toNat = src.toNat + part.toNat := by
  have htop := h.top
  rw [UInt64.toNat_add]
  unfold userTop at htop
  omega

/-- The piece ends in the page, and the next one starts a page. -/
theorem piece_in_page {part maxn : UInt64} (hpart : src.toNat % pgSize + part.toNat = pgSize) :
    src.toNat % pgSize + (piece part maxn).toNat ≤ pgSize := by
  rw [toNat_piece]
  have hle := Nat.min_le_left part.toNat maxn.toNat
  omega

theorem next_piece {part maxn : UInt64} (hpart : src.toNat % pgSize + part.toNat = pgSize)
    (hchecked : Checked mm src (piece part maxn).toNat) (hne : piece part maxn ≠ maxn) :
    (src + piece part maxn).toNat % pgSize + pageWord.toNat = pgSize := by
  have hpart' : (piece part maxn).toNat = part.toNat := by
    unfold piece at hne ⊢
    split at hne
    · exact absurd rfl hne
    · rename_i hle
      rw [if_neg hle]
  have hsum := hchecked.toNat_add
  have hword : pageWord.toNat = pgSize := rfl
  rw [hsum, hpart', hword]
  unfold pgSize at *
  omega

theorem copyLoop_spec {mm₀ : AreaList} (hal : mm₀.Aligned) {mm : Option AreaList}
    (hmm : Keeps mm₀ mm) {part maxn : UInt64} {read : List UInt64}
    (hpart : src.toNat % pgSize + part.toNat = pgSize) :
    CopiesFrom mm₀ mem buf dst src maxn.toNat read
      (copyLoop mem mm buf dst src part maxn read) := by
  fun_induction copyLoop mem mm buf dst src part maxn read with
  | case1 mm buf dst src part maxn read mm' hcheck =>
    refine ⟨?_, fun hret => absurd hret (by simp), fun _ _ => rfl, fun x hx => Or.inl hx⟩
    simp only [Bool.false_eq_true, false_iff]
    intro hex
    obtain ⟨k, hk, -, hread⟩ := hex
    have hlt : src.toNat % pgSize < pgSize := Nat.mod_lt _ (by decide)
    have hpos : 0 < (piece part maxn).toNat := by
      rw [toNat_piece]
      omega
    exact not_readable_of_fails hal hmm hpos (piece_in_page hpart) hcheck
      (hread 0 (Nat.zero_le k))
  | case2 mm buf dst src part maxn read mm' hcheck part' alen hlt =>
    obtain ⟨hchecked, -⟩ : Checked mm₀ src part'.toNat ∧ _ :=
      checked_of_passes hal hmm (piece_in_page hpart) hcheck
    have hstr : StringAt mem src alen := strnlen_stringAt mem src _ hlt
    have hmax : part'.toNat ≤ maxn.toNat := by
      rw [toNat_piece]
      exact Nat.min_le_right _ _
    refine ⟨⟨fun _ => ⟨alen, by omega, hstr, ?_⟩, fun _ => rfl⟩, ?_, ?_, ?_⟩
    · exact fun i hi => hchecked.readable i (by omega)
    · intro _ k hk
      rw [hstr.unique hk]
    · intro a ha
      exact memcpy_of_lt (by omega)
    · intro x hx
      rcases List.mem_append.mp hx with hx | hx
      · exact Or.inl hx
      · exact Or.inr (hchecked.reads (by omega) hx)
  | case3 mm buf dst src part maxn read mm' hcheck part' alen hlt hmax =>
    obtain ⟨hchecked, -⟩ : Checked mm₀ src part'.toNat ∧ _ :=
      checked_of_passes hal hmm (piece_in_page hpart) hcheck
    have hno := strnlen_before mem src part'.toNat
    refine ⟨?_, fun hret => absurd hret (by simp), fun _ _ => rfl, ?_⟩
    · simp only [Bool.false_eq_true, false_iff]
      intro hex
      obtain ⟨k, hk, hstr, -⟩ := hex
      rw [← hmax] at hk
      exact hno k (by omega) hstr.1
    · intro x hx
      rcases List.mem_append.mp hx with hx | hx
      · exact Or.inl hx
      · exact Or.inr (hchecked.reads le_rfl hx)
  | case4 mm buf dst src part maxn read mm' hcheck part' alen hlt hmax ih =>
    obtain ⟨hchecked, hkeeps⟩ : Checked mm₀ src part'.toNat ∧ _ :=
      checked_of_passes hal hmm (piece_in_page hpart) hcheck
    have hrest := ih hkeeps (next_piece hpart hchecked hmax)
    have hle : part'.toNat ≤ maxn.toNat := by
      rw [toNat_piece]
      exact Nat.min_le_right _ _
    have hno : ∀ i < part'.toNat, mem (src + UInt64.ofNat i) ≠ 0 := by
      have hlen : alen = part'.toNat :=
        Nat.le_antisymm (strnlen_le mem src _) (Nat.le_of_not_lt hlt)
      rw [← hlen]
      exact strnlen_before mem src part'.toNat
    have hpart'' : UInt64.ofNat part'.toNat = part' := UInt64.ofNat_toNat
    have hleft : (maxn - part').toNat = maxn.toNat - part'.toNat := UInt64.toNat_sub_of_le _ _ hle
    have hstr : ∀ k, StringAt mem (src + part') k ↔ StringAt mem src (part'.toNat + k) := by
      intro k
      rw [← stringAt_add hno, hpart'']
    have hsum := hchecked.toNat_add
    rw [hleft] at hrest
    refine ⟨hrest.ret.trans ⟨?_, ?_⟩, ?_, ?_, ?_⟩
    · intro hex
      obtain ⟨k, hk, hs, hread⟩ := hex
      refine ⟨part'.toNat + k, by omega, (hstr k).mp hs, ?_⟩
      intro i hi
      by_cases hin : i < part'.toNat
      · exact hchecked.readable i hin
      · have hr := hread (i - part'.toNat) (by omega)
        rw [hsum] at hr
        convert hr using 1
        omega
    · intro hex
      obtain ⟨k, hk, hs, hread⟩ := hex
      have hge : part'.toNat ≤ k := by
        by_contra hlt'
        exact hno k (by omega) hs.1
      refine ⟨k - part'.toNat, by omega, (hstr _).mpr ?_, ?_⟩
      · rwa [Nat.add_sub_cancel' hge]
      · intro i hi
        rw [hsum, Nat.add_assoc]
        exact hread _ (by omega)
    · intro hret k hk
      have hge : part'.toNat ≤ k := by
        by_contra hlt'
        exact hno k (by omega) hk.1
      have hs : StringAt mem (src + part') (k - part'.toNat) := by
        refine (hstr _).mpr ?_
        rwa [Nat.add_sub_cancel' hge]
      have hcopy := memcpy_append mem buf dst src part'.toNat (k - part'.toNat + 1)
      rw [hpart''] at hcopy
      rw [hrest.copy hret _ hs, hcopy]
      congr 1
      omega
    · intro a ha
      rw [hrest.bound a (by omega)]
      exact memcpy_of_lt (by omega)
    · intro x hx
      rcases hrest.read x hx with hx | hx
      · rcases List.mem_append.mp hx with hx | hx
        · exact Or.inl hx
        · exact Or.inr (hchecked.reads le_rfl hx)
      · exact Or.inr hx

theorem toNat_wordRoundDown_sub (src : UInt64) :
    src.toNat % pgSize + (wordRoundDown (src + pageWord) pageWord - src).toNat = pgSize := by
  have hlt := src.toNat_lt
  have hword : pageWord.toNat = pgSize := rfl
  unfold wordRoundDown
  simp only [UInt64.toNat_sub, UInt64.toNat_add, UInt64.toNat_mod, hword]
  unfold pgSize
  omega

/-- `copy_string` copies one bounded string, and reads and writes nothing else. The pages of the
areas are mapped, so that reading a byte of `mem` in them does not fault. -/
theorem copyString_exact {mm : AreaList} (hal : mm.Aligned) (mem : UInt64 → UInt8)
    (buf : ℕ → UInt8) (dst : ℕ) (src maxn : UInt64) :
    let r := copyString mem (some mm) buf dst src maxn
    (r.ret = true ↔ ∃ k < maxn.toNat, StringAt mem src k ∧
      ∀ i ≤ k, mm.Readable (src.toNat + i)) ∧
    (r.ret = true → ∀ k, StringAt mem src k →
      (∀ i ≤ k, r.buf (dst + i) = mem (src + UInt64.ofNat i)) ∧
        ∀ a, a < dst ∨ dst + k < a → r.buf a = buf a) ∧
    (∀ a, a < dst ∨ dst + maxn.toNat ≤ a → r.buf a = buf a) ∧
    ∀ x ∈ r.read, mm.Readable x.toNat := by
  intro r
  have h : CopiesFrom mm mem buf dst src maxn.toNat [] r :=
    copyLoop_spec hal ⟨mm, rfl, rfl⟩ (toNat_wordRoundDown_sub src)
  refine ⟨h.ret, ?_, h.bound, ?_⟩
  · intro hret k hk
    rw [h.copy hret k hk]
    refine ⟨?_, fun a ha => memcpy_of_lt (by omega)⟩
    intro i hi
    unfold memcpy
    rw [if_pos ⟨by omega, by omega⟩, Nat.add_sub_cancel_left]
  · intro x hx
    rcases h.read x hx with hx | hx
    · exact absurd hx List.not_mem_nil
    · exact hx

/-- Two adjacent pages with different flags. -/
def twoPages : AreaList where
  mmapList := [⟨0x200000, 0x201000, vmRead⟩, ⟨0x201000, 0x202000, vmRead ||| vmWrite⟩]
  mmapCache := none
  apart := by simp
  cached := by simp

theorem twoPages_aligned : twoPages.Aligned := by
  intro v hv
  rcases List.mem_cons.mp hv with rfl | hv
  · decide
  · obtain rfl := List.mem_singleton.mp hv
    decide

/-- One byte `7` at the end of the first page, and zeros. -/
def lastByte (a : UInt64) : UInt8 := if a = 0x200FFF then 7 else 0

theorem copyString_exact_twoPages :
    (copyString lastByte (some twoPages) (fun _ => 0xFF) 0 0x200FFF 16).ret = true := by
  have hreadable : ∀ i ≤ 1, twoPages.Readable (0x200FFF + i) := by
    intro i hi
    rcases Nat.le_one_iff_eq_zero_or_eq_one.mp hi with rfl | rfl
    · exact ⟨by decide, by decide, _, List.mem_cons_self, by decide, by decide⟩
    · exact ⟨by decide, by decide, _, List.mem_cons_of_mem _ List.mem_cons_self, by decide,
        by decide⟩
  refine (copyString_exact twoPages_aligned lastByte (fun _ => 0xFF) 0 0x200FFF 16).1.mpr ?_
  refine ⟨1, by decide, ⟨by decide, ?_⟩, hreadable⟩
  intro i hi
  obtain rfl : i = 0 := by omega
  decide

end Ucore.Vm
