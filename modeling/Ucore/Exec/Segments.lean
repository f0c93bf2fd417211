import Ucore.Exec.LoadFile
import Ucore.Vm.SegmentContent

/-!
The segments and the stack of a program that is read from a file. The loop over the pages of a
segment starts at `p_va` itself and goes on in steps of a page, so that in each page it fills only
what lies behind the offset of `p_va`.
-/
namespace Ucore.Exec

open Library Library.Logged Vm

variable {M : PmmManager} {K F : Set ℕ} {f : ExecFile} {k : KernelHeap} {h : ElfProghdr}
  {m m' : Mem M} {s s' : ExecState M} {hs : List ElfProghdr} {pd la va left i : ℕ}

/-- The loop has a turn for the page of the address. -/
def HasTurn (h : ElfProghdr) (va : ℕ) : Prop :=
  va / pgSize * pgSize + h.pVa % pgSize < h.pVa + h.pMemsz

instance (h : ElfProghdr) (va : ℕ) : Decidable (HasTurn h va) := inferInstanceAs (Decidable (_ < _))

/-- The byte that the turn leaves at the address. -/
def loadedByte (f : ExecFile) (h : ElfProghdr) (va : ℕ) : UInt8 :=
  if h.pVa % pgSize ≤ va % pgSize ∧ va < h.pVa + h.pFilesz then
    f.bytes ((h.pOffset + (va - h.pVa)) % wordLimit)
  else 0

theorem userPerm_lt (h : ElfProghdr) : userPerm h < pteFlagLimit := by
  refine lt_pteFlagLimit_of_user ?_
  unfold userPerm
  split <;> split <;> split <;> decide

/-- A page that is mapped, cleared and filled from an offset on. -/
theorem page_bytes (hi : m.RefInv K F) (off n pos : ℕ) (src : ℕ → UInt8) {m₁ : Mem M} {page perm : ℕ}
    (hla : la < userTop) (hperm : perm < pteFlagLimit)
    (ha : m.pgdirAllocPage pd la perm = some (some page, m₁)) :
    ((m₁.clearPage page).writePage page off n src pos).RefInv K F ∧
      ∀ va, ((m₁.clearPage page).writePage page off n src pos).userByte pd va =
        if va / pgSize = la / pgSize then
          some (if off ≤ va % pgSize ∧ va % pgSize < off + n then src (pos + (va % pgSize - off))
            else 0)
        else m.userByte pd va := by
  obtain ⟨hi₁, hat, hrest⟩ := hi.pgdirAllocPage_bytes hla hperm ha
  refine ⟨(hi₁.of_data _).of_data _, ?_⟩
  intro va
  rw [(hat.clearPage page).userByte_writePage, hat.userByte_clearPage]
  by_cases hva : va / pgSize = la / pgSize
  · simp only [hva, true_and, if_true]
    split <;> rfl
  · simp only [hva, false_and, if_false]
    exact hrest va hva

/-- A page of which nothing comes from the file. -/
theorem zero_page_bytes (hi : m.RefInv K F) {m₁ : Mem M} {page perm : ℕ}
    (hla : la < userTop) (hperm : perm < pteFlagLimit)
    (ha : m.pgdirAllocPage pd la perm = some (some page, m₁)) :
    (m₁.clearPage page).RefInv K F ∧ (m₁.clearPage page).PageAt pd la page ∧
      ∀ va, (m₁.clearPage page).userByte pd va =
        if va / pgSize = la / pgSize then some 0 else m.userByte pd va := by
  obtain ⟨hi₁, hat, hrest⟩ := hi.pgdirAllocPage_bytes hla hperm ha
  refine ⟨hi₁.of_data _, hat.clearPage page, ?_⟩
  intro va
  rw [hat.userByte_clearPage]
  by_cases hva : va / pgSize = la / pgSize
  · rw [if_pos hva, if_pos hva]
  · rw [if_neg hva, if_neg hva]
    exact hrest va hva

/-- What a turn at `la` fills in is what is to be in the page. -/
theorem loadedByte_eq {off : ℕ} (hla : la % pgSize = h.pVa % pgSize) (hge : h.pVa ≤ la)
    (hva : va / pgSize = la / pgSize) (hlt : la < h.pVa + h.pFilesz)
    (hfit : (h.pOffset + (la - h.pVa)) % wordLimit +
      min (pgSize - la % pgSize) (h.pVa + h.pFilesz - la) < wordLimit)
    (hoff : off = la % pgSize) :
    (if off ≤ va % pgSize ∧ va % pgSize < off + min (pgSize - off) (h.pVa + h.pFilesz - la) then
      f.bytes ((h.pOffset + (la - h.pVa)) % wordLimit + (va % pgSize - off)) else 0) =
      loadedByte f h va := by
  subst hoff
  unfold loadedByte
  rw [← hla]
  have hiff : (la % pgSize ≤ va % pgSize ∧
      va % pgSize < la % pgSize + min (pgSize - la % pgSize) (h.pVa + h.pFilesz - la)) ↔
      la % pgSize ≤ va % pgSize ∧ va < h.pVa + h.pFilesz := by
    unfold pgSize at *
    omega
  by_cases hin : la % pgSize ≤ va % pgSize ∧ va < h.pVa + h.pFilesz
  · have hbound := hiff.mpr hin
    rw [if_pos hbound, if_pos hin]
    have hsum : h.pOffset + (va - h.pVa) =
        h.pOffset + (la - h.pVa) + (va % pgSize - la % pgSize) := by
      unfold pgSize at *
      omega
    have hlt' : (h.pOffset + (la - h.pVa)) % wordLimit + (va % pgSize - la % pgSize) <
        wordLimit := by omega
    refine congrArg f.bytes ?_
    exact (Nat.mod_eq_of_lt hlt').symm.trans (by rw [Nat.mod_add_mod, hsum])
  · rw [if_neg hin, if_neg (fun hbad => hin (hiff.mp hbad))]

/-- The loop over the pages of a segment. -/
theorem loadPages_bytes (hi : m.RefInv K F) (htop : h.pVa + h.pMemsz ≤ userTop)
    (hsize : h.pFilesz ≤ h.pMemsz) (hla : la % pgSize = h.pVa % pgSize) (hge : h.pVa ≤ la)
    (hleft : h.pVa + h.pMemsz ≤ la + left * pgSize)
    (hrun : (f.loadPages i h pd left la m).result = some (0, m')) :
    m'.RefInv K F ∧ ∀ va, m'.userByte pd va =
      if la / pgSize ≤ va / pgSize ∧ HasTurn h va then some (loadedByte f h va)
      else m.userByte pd va := by
  have hlimit : userTop < wordLimit := by decide
  have hfile : h.fileEnd = h.pVa + h.pFilesz := Nat.mod_eq_of_lt (by omega)
  have hmem : h.memEnd = h.pVa + h.pMemsz := Nat.mod_eq_of_lt (by omega)
  -- behind the end there is no turn
  have hdone : ∀ {m : Mem M} {la}, la % pgSize = h.pVa % pgSize → ¬ la < h.pVa + h.pMemsz → ∀ va,
      m.userByte pd va = if la / pgSize ≤ va / pgSize ∧ HasTurn h va then some (loadedByte f h va)
        else m.userByte pd va := by
    intro m la hla hend va
    rw [if_neg]
    rintro ⟨hle, hturn⟩
    unfold HasTurn pgSize at *
    omega
  induction left generalizing la m with
  | zero =>
    simp only [ExecFile.loadPages, result_pure, Option.some.injEq, Prod.mk.injEq, true_and] at hrun
    subst hrun
    exact ⟨hi, hdone hla (by omega)⟩
  | succ left ih =>
    have hnext : (la + pgSize) % pgSize = h.pVa % pgSize := by rw [Nat.add_mod_right, hla]
    have hleft' : h.pVa + h.pMemsz ≤ la + pgSize + left * pgSize := by
      rw [Nat.add_one_mul] at hleft
      omega
    rw [ExecFile.loadPages, hmem, hfile] at hrun
    by_cases hlt : la < h.pVa + h.pMemsz
    · rw [if_pos hlt] at hrun
      obtain ⟨⟨page, m₁⟩, ha, hrun⟩ := result_bind_eq_some hrun
      rw [result_ofOption] at ha
      cases page with
      | none =>
        simp only [result_pure, Option.some.injEq, Prod.mk.injEq] at hrun
        exact absurd hrun.1 (by decide)
      | some page =>
        simp only at hrun
        -- the pages from the next one on, and this one
        have hsplit : ∀ {m₂ : Mem M}, (∀ va, m₂.userByte pd va =
            if va / pgSize = la / pgSize then some (loadedByte f h va) else m.userByte pd va) →
            (m'.RefInv K F ∧ ∀ va, m'.userByte pd va =
              if (la + pgSize) / pgSize ≤ va / pgSize ∧ HasTurn h va then some (loadedByte f h va)
              else m₂.userByte pd va) →
            m'.RefInv K F ∧ ∀ va, m'.userByte pd va =
              if la / pgSize ≤ va / pgSize ∧ HasTurn h va then some (loadedByte f h va)
              else m.userByte pd va := by
          intro m₂ hone hrest
          refine ⟨hrest.1, fun va => ?_⟩
          rw [hrest.2 va, hone va]
          have hpage : (la + pgSize) / pgSize = la / pgSize + 1 := by
            unfold pgSize
            omega
          rw [hpage]
          by_cases hva : va / pgSize = la / pgSize
          · have hturn : HasTurn h va := by
              unfold HasTurn
              rw [hva, ← hla]
              unfold pgSize at *
              omega
            rw [if_neg (by omega), if_pos hva, if_pos ⟨hva.ge, hturn⟩]
          · rw [if_neg hva]
            have hiff : (la / pgSize + 1 ≤ va / pgSize ∧ HasTurn h va) ↔
                (la / pgSize ≤ va / pgSize ∧ HasTurn h va) :=
              and_congr_left (fun _ => by omega)
            simp only [hiff]
        by_cases hdata : la < h.pVa + h.pFilesz
        · rw [if_pos hdata] at hrun
          obtain ⟨ret, hret⟩ : ∃ ret, f.code (.page i (la - h.pVa))
              ((h.pOffset + (la - h.pVa)) % wordLimit)
              (min (pgSize - la % pgSize) (h.pVa + h.pFilesz - la)) = ret := ⟨_, rfl⟩
          rw [hret] at hrun
          obtain ⟨hr, hrun⟩ := passed id hrun
          rw [not_not] at hr
          have hin := (f.inside _ _ _ (hret.trans hr)).2
          have hfsize := f.size_lt
          obtain ⟨hi₂, hbytes⟩ := page_bytes hi (la % pgSize)
            (min (pgSize - la % pgSize) (h.pVa + h.pFilesz - la))
            ((h.pOffset + (la - h.pVa)) % wordLimit) f.bytes (by omega) (userPerm_lt h) ha
          refine hsplit (fun va => ?_) (ih hi₂ hnext (by omega) hleft' hrun)
          rw [hbytes va]
          by_cases hva : va / pgSize = la / pgSize
          · rw [if_pos hva, if_pos hva]
            refine congrArg some (loadedByte_eq hla hge hva hdata ?_ rfl)
            unfold wordLimit pgSize at *
            omega
          · rw [if_neg hva, if_neg hva]
        · rw [if_neg hdata] at hrun
          obtain ⟨hi₂, -, hbytes⟩ := zero_page_bytes hi (by omega) (userPerm_lt h) ha
          refine hsplit (fun va => ?_) (ih hi₂ hnext (by omega) hleft' hrun)
          rw [hbytes va]
          by_cases hva : va / pgSize = la / pgSize
          · have hzero : loadedByte f h va = 0 := by
              unfold loadedByte
              refine if_neg ?_
              rw [← hla]
              unfold pgSize at *
              omega
            rw [if_pos hva, if_pos hva, hzero]
          · rw [if_neg hva, if_neg hva]
    · rw [if_neg hlt] at hrun
      simp only [result_pure, Option.some.injEq, Prod.mk.injEq, true_and] at hrun
      subst hrun
      exact ⟨hi, hdone hla hlt⟩

/-- A segment that starts with a byte of the file starts in the file. -/
theorem loadPages_offset (htop : h.pVa + h.pMemsz ≤ userTop) (hsize : h.pFilesz ≤ h.pMemsz)
    (hoff : h.pOffset < wordLimit) (hpos : 0 < h.pFilesz)
    (hrun : (f.loadPages i h pd (left + 1) h.pVa m).result = some (0, m')) :
    h.pOffset < 2 ^ 31 := by
  have hlimit : userTop < wordLimit := by decide
  have hfile : h.fileEnd = h.pVa + h.pFilesz := Nat.mod_eq_of_lt (by omega)
  have hmem : h.memEnd = h.pVa + h.pMemsz := Nat.mod_eq_of_lt (by omega)
  rw [ExecFile.loadPages, hmem, hfile, if_pos (by omega)] at hrun
  obtain ⟨⟨page, m₁⟩, ha, hrun⟩ := result_bind_eq_some hrun
  cases page with
  | none =>
    simp only [result_pure, Option.some.injEq, Prod.mk.injEq] at hrun
    exact absurd hrun.1 (by decide)
  | some page =>
    simp only at hrun
    rw [if_pos (by omega)] at hrun
    obtain ⟨hr, -⟩ := passed id hrun
    have hin := (f.inside _ _ _ (not_not.mp hr)).2
    have hfsize := f.size_lt
    rw [Nat.sub_self, Nat.add_zero, Nat.mod_eq_of_lt hoff] at hin
    unfold pgSize at *
    omega

/-! All segments. -/

/-- What is mapped at an address of the area of a segment. -/
def placed (f : ExecFile) (h : ElfProghdr) (va : ℕ) : Option UInt8 :=
  if HasTurn h va then some (loadedByte f h va) else none

/-- The address lies in a page of the segment. -/
def InSegment (h : ElfProghdr) (va : ℕ) : Prop :=
  roundDown h.pVa pgSize ≤ va ∧ va < roundUp (h.pVa + h.pMemsz) pgSize

/-- A segment that is loaded into its area. -/
structure SegmentAt (f : ExecFile) (s : ExecState M) (h : ElfProghdr) : Prop where
  size : h.pFilesz ≤ h.pMemsz
  user : h.pVa + h.pMemsz ≤ userTop
  offset : 0 < h.pFilesz → h.pOffset < 2 ^ 31
  area : ∀ va, InSegment h va → s.mm.InArea va
  bytes : ∀ va, InSegment h va → s.mem.userByte s.mm.pgdir va = placed f h va

/-- The segments `hs` are loaded, each into an area of its own, and nothing else is mapped
outside of the areas. -/
structure Placed (K F : Set ℕ) (f : ExecFile) (hs : List ElfProghdr) (s : ExecState M) : Prop where
  ref : s.mem.RefInv K F
  sorted : s.mm.Sorted
  outside : ∀ va, ¬ s.mm.InArea va → s.mem.userByte s.mm.pgdir va = none
  segments : ∀ h ∈ hs, SegmentAt f s h

/-- A new area in which alone something changes. -/
theorem Placed.extend (hp : Placed K F f hs s) {v : Vma} (hm : s.mm.Mapped s'.mm v)
    (href : s'.mem.RefInv K F) (hothers : ∀ va, ¬ v.Contains va →
      s'.mem.userByte s.mm.pgdir va = s.mem.userByte s.mm.pgdir va) : Placed K F f hs s' := by
  have hold : ∀ {va}, s.mm.InArea va → ¬ v.Contains va := by
    intro va hva hc
    obtain ⟨w, hw, hwc⟩ := hva
    have h1 := hc.1
    have h2 := hc.2
    have h3 := hwc.1
    have h4 := hwc.2
    rcases hm.apart w hw with hle | hle <;> omega
  refine ⟨href, hm.sorted, ?_, ?_⟩
  · intro va hva
    have hnot : ¬ s.mm.InArea va := by
      rintro ⟨w, hw, hc⟩
      exact hva ⟨w, (hm.areas w).mpr (Or.inr hw), hc⟩
    rw [hm.pgdir, hothers va (fun hc => hva ⟨v, (hm.areas v).mpr (Or.inl rfl), hc⟩)]
    exact hp.outside va hnot
  · intro h hh
    have hseg := hp.segments h hh
    refine ⟨hseg.size, hseg.user, hseg.offset, ?_, ?_⟩
    · intro va hin
      obtain ⟨w, hw, hc⟩ := hseg.area va hin
      exact ⟨w, (hm.areas w).mpr (Or.inr hw), hc⟩
    · intro va hin
      rw [hm.pgdir, hothers va (hold (hseg.area va hin))]
      exact hseg.bytes va hin

/-- What `mm_map` accepts. -/
theorem mmMap_accepted {b : Block} {r : MapRequest} (hs : s.mm.Sorted)
    (hrun : (s.mmMap b r).result = some (0, s')) : userAccess r.start r.stop ∧ s'.mem = s.mem ∧
      ∃ v : Vma, v.vmStart = r.start ∧ v.vmEnd = r.stop ∧ s.mm.Mapped s'.mm v := by
  unfold ExecState.mmMap at hrun
  obtain ⟨⟨ret, mm⟩, hmap, hrun⟩ := result_bind_eq_some hrun
  rw [result_ofOption] at hmap
  simp only at hrun
  obtain ⟨hr, hrun⟩ := passed id hrun
  rw [not_not] at hr
  subst hr
  obtain ⟨-, -, hrun⟩ := result_bind_eq_some hrun
  simp only [result_pure, Option.some.injEq, Prod.mk.injEq, true_and] at hrun
  subst hrun
  obtain ⟨huser, v, hstart, hend, hm⟩ := hs.mapRequest_accepted hmap
  exact ⟨huser, rfl, v, hstart, hend, hm⟩

theorem loadable_singleton (h : ElfProghdr) :
    LoadState.loadable [h] = if h.pType = elfPtLoad then [h] else [] := by
  unfold LoadState.loadable
  by_cases htype : h.pType = elfPtLoad
  · simp [htype]
  · simp [htype]

/-- A user range does not wrap around. -/
theorem memEnd_of_user (huser : userAccess h.pVa h.memEnd) : h.memEnd = h.pVa + h.pMemsz := by
  have hva := h.pVa_lt
  have hmemsz := h.pMemsz_lt
  have hlt := huser.2.1
  refine Nat.mod_eq_of_lt ?_
  by_contra hwrap
  unfold ElfProghdr.memEnd wordLimit at *
  omega

/-- A segment for which `mm_map` made room. -/
theorem Placed.add (hp : Placed K F f hs s) {b : Block} {kmem : Bool} {s₁ : ExecState M}
    (hoff : h.pOffset < wordLimit) (hsize : h.pFilesz ≤ h.pMemsz)
    (huser : userAccess h.pVa h.memEnd)
    (hmap : (s.mmMap b (h.request kmem)).result = some (0, s₁))
    (hpages : (f.loadPages i h s₁.mm.pgdir (h.pMemsz / pgSize + 1) h.pVa s₁.mem).result =
      some (0, m')) : Placed K F f (hs ++ [h]) { s₁ with mem := m' } := by
  have hmem := memEnd_of_user huser
  have htop : h.pVa + h.pMemsz ≤ userTop := hmem ▸ huser.2.2
  have hlimit : userTop < wordLimit := by decide
  obtain ⟨hrange, hmem₁, v, hstart, hend, hm⟩ := mmMap_accepted hp.sorted hmap
  rw [(h.request kmem).stop_eq hrange (show h.pVa + h.pMemsz < wordLimit by omega)] at hend
  change v.vmStart = roundDown h.pVa pgSize at hstart
  change v.vmEnd = roundUp (h.pVa + h.pMemsz) pgSize at hend
  have hcontains : ∀ va, v.Contains va ↔ InSegment h va := by
    intro va
    unfold Vma.Contains InSegment
    rw [hstart, hend]
  have hleft : h.pVa + h.pMemsz ≤ h.pVa + (h.pMemsz / pgSize + 1) * pgSize := by
    unfold pgSize
    omega
  have href₁ : s₁.mem.RefInv K F := hmem₁ ▸ hp.ref
  obtain ⟨href, hbytes⟩ := loadPages_bytes href₁ htop hsize rfl le_rfl hleft hpages
  have hturn : ∀ va, h.pVa / pgSize ≤ va / pgSize ∧ HasTurn h va → InSegment h va := by
    rintro va ⟨hle, hlt⟩
    unfold HasTurn at hlt
    unfold InSegment roundUp roundDown pgSize at *
    omega
  have hext : Placed K F f hs { s₁ with mem := m' } := by
    refine hp.extend hm href ?_
    intro va hva
    rw [← hm.pgdir]
    refine (hbytes va).trans ?_
    rw [if_neg (fun hbad => hva ((hcontains va).mpr (hturn va hbad))), hmem₁]
  have hsegment : ∀ va, InSegment h va → m'.userByte s₁.mm.pgdir va = placed f h va := by
    intro va hva
    have hle : h.pVa / pgSize ≤ va / pgSize := by
      unfold InSegment roundDown pgSize at *
      omega
    have hfresh : s₁.mem.userByte s₁.mm.pgdir va = none := by
      rw [hmem₁, hm.pgdir]
      refine hp.outside va ?_
      rintro ⟨w, hw, hc⟩
      have hv := (hcontains va).mpr hva
      have h1 := hc.1
      have h2 := hc.2
      have h3 := hv.1
      have h4 := hv.2
      rcases hm.apart w hw with hap | hap <;> omega
    rw [hbytes va]
    unfold placed
    by_cases ht : HasTurn h va
    · rw [if_pos ⟨hle, ht⟩, if_pos ht]
    · rw [if_neg (fun hbad => ht hbad.2), if_neg ht, hfresh]
  refine ⟨hext.ref, hext.sorted, hext.outside, ?_⟩
  intro x hx
  rcases List.mem_append.mp hx with hx | hx
  · exact hext.segments x hx
  · rw [List.mem_singleton.mp hx]
    refine ⟨hsize, htop, ?_, ?_, hsegment⟩
    · exact fun hpos => loadPages_offset htop hsize hoff hpos hpages
    · exact fun va hva => ⟨v, (hm.areas v).mpr (Or.inl rfl), (hcontains va).mpr hva⟩

/-- A program header that is loaded: it is no segment, or the segment is placed. -/
theorem Placed.loadSegment (hp : Placed K F f hs s)
    (hrun : (f.loadSegment k i s).result = some (0, s')) :
    Placed K F f (hs ++ LoadState.loadable [f.proghdr i]) s' := by
  obtain ⟨h, hh⟩ : ∃ h, f.proghdr i = h := ⟨_, rfl⟩
  have hoff : h.pOffset < wordLimit := by
    rw [← hh]
    exact f.image.word_lt_wordLimit _
  have hinval : -eInval ≠ 0 := by decide
  unfold ExecFile.loadSegment at hrun
  simp only [hh] at hrun
  rw [hh, loadable_singleton]
  obtain ⟨-, hrun⟩ := passed id hrun
  by_cases htype : h.pType = elfPtLoad
  · rw [if_neg (not_not.mpr htype)] at hrun
    rw [if_pos htype]
    obtain ⟨hsize, hrun⟩ := passed (fun _ => hinval) hrun
    obtain ⟨huser, hrun⟩ := passed (fun _ => hinval) hrun
    obtain ⟨⟨ret, s₁⟩, hmap, hrun⟩ := result_bind_eq_some hrun
    obtain ⟨hr, hrun⟩ := passed id hrun
    rw [not_not] at hr huser
    subst hr
    obtain ⟨⟨ret, m₂⟩, hpages, hrun⟩ := result_bind_eq_some hrun
    simp only [result_pure, Option.some.injEq, Prod.mk.injEq] at hrun
    obtain ⟨rfl, rfl⟩ := hrun
    exact hp.add hoff (Nat.le_of_not_lt hsize) huser hmap hpages
  · rw [if_pos htype] at hrun
    simp only [result_pure, Option.some.injEq, Prod.mk.injEq, true_and] at hrun
    subst hrun
    rw [if_neg htype, List.append_nil]
    exact hp

theorem Placed.loadSegments (hp : Placed K F f hs s)
    (hrun : (f.loadSegments k left i s).result = some (0, s')) :
    Placed K F f (hs ++ LoadState.loadable ((List.range' i left).map f.proghdr)) s' := by
  induction left generalizing s i hs with
  | zero =>
    simp only [ExecFile.loadSegments, result_pure, Option.some.injEq, Prod.mk.injEq,
      true_and] at hrun
    subst hrun
    change Placed K F f (hs ++ []) s
    rw [List.append_nil]
    exact hp
  | succ left ih =>
    rw [ExecFile.loadSegments] at hrun
    obtain ⟨⟨ret, s₁⟩, hone, hrun⟩ := result_bind_eq_some hrun
    simp only at hrun
    obtain ⟨hr, hrun⟩ := passed id hrun
    rw [not_not] at hr
    subst hr
    have hsplit : ∀ (x : ElfProghdr) (xs : List ElfProghdr), LoadState.loadable (x :: xs) =
        LoadState.loadable [x] ++ LoadState.loadable xs := by
      intro x xs
      exact List.filter_append [x] xs
    rw [List.range'_succ, List.map_cons, hsplit, ← List.append_assoc]
    exact ih (hp.loadSegment hone) hrun

/-! The stack. -/

/-- Each page of the stack has a frame of its own, and all its bytes are zero. -/
structure StackReady (m : Mem M) (pd : ℕ) : Prop where
  frame : ∀ la, uStackTop - uStackSize ≤ la → la < uStackTop → ∃ frame, m.PageAt pd la frame
  zero : ∀ la, uStackTop - uStackSize ≤ la → la < uStackTop → m.userByte pd la = some 0

theorem next_page_le {x : ℕ} (hla : la % pgSize = 0) (hle : la ≤ x)
    (hne : ¬ x / pgSize = la / pgSize) : la + pgSize ≤ x := by
  unfold pgSize at *
  omega

variable (la) in
theorem mapStackPages_bytes (hi : m.RefInv K F) (hla : la % pgSize = 0)
    (htop : la + left * pgSize ≤ userTop)
    (hrun : (mapStackPages pd left la m).result = some (0, m')) :
    m'.RefInv K F ∧
      (∀ va, m'.userByte pd va =
        if la ≤ va ∧ va < la + left * pgSize then some 0 else m.userByte pd va) ∧
      (∀ x, la ≤ x → x < la + left * pgSize → ∃ frame, m'.PageAt pd x frame) ∧
      ∀ x frame, x / pgSize < la / pgSize → m.PageAt pd x frame → m'.PageAt pd x frame := by
  induction left generalizing la m with
  | zero =>
    simp only [mapStackPages, result_pure, Option.some.injEq, Prod.mk.injEq, true_and] at hrun
    subst hrun
    refine ⟨hi, fun va => ?_, fun x h1 h2 => ?_, fun _ _ _ hat => hat⟩
    · rw [if_neg (by omega)]
    · omega
  | succ left ih =>
    rw [Nat.add_one_mul] at htop
    rw [mapStackPages] at hrun
    obtain ⟨⟨page, m₁⟩, ha, hrun⟩ := result_bind_eq_some hrun
    rw [result_ofOption] at ha
    cases page with
    | none =>
      simp only [result_pure, Option.some.injEq, Prod.mk.injEq] at hrun
      exact absurd hrun.1 (by decide)
    | some page =>
      have hbelow : la < userTop := by
        unfold pgSize at htop
        omega
      have hperm : pteU ||| pteR ||| pteW < pteFlagLimit := by decide
      obtain ⟨hi₂, hat, hbytes⟩ := zero_page_bytes hi hbelow hperm ha
      have hnext : (la + pgSize) / pgSize = la / pgSize + 1 := by
        unfold pgSize
        omega
      obtain ⟨href, hrest, hframes, hkeep⟩ := ih _ hi₂ (by rw [Nat.add_mod_right, hla])
        (by omega) hrun
      refine ⟨href, fun va => ?_, fun x h1 h2 => ?_, fun x frame hx hold => ?_⟩
      · rw [hrest va, hbytes va, Nat.add_one_mul]
        by_cases hva : va / pgSize = la / pgSize
        · rw [if_pos hva, if_neg (by unfold pgSize at *; omega), if_pos (by unfold pgSize at *; omega)]
        · rw [if_neg hva]
          have hiff : (la + pgSize ≤ va ∧ va < la + pgSize + left * pgSize) ↔
              la ≤ va ∧ va < la + (left * pgSize + pgSize) := by
            unfold pgSize at *
            omega
          simp only [hiff]
      · rw [Nat.add_one_mul] at h2
        by_cases hpage : x / pgSize = la / pgSize
        · exact ⟨page, hkeep x page (by omega) (hat.congr hpage)⟩
        · have hlt : x < la + pgSize + left * pgSize := by
            rw [Nat.add_assoc, Nat.add_comm pgSize]
            exact h2
          exact hframes x (next_page_le hla h1 hpage) hlt
      · refine hkeep x frame (by omega) ?_
        have hne : la / pgSize ≠ x / pgSize := by omega
        exact (hold.pgdirAllocPage hi hbelow hne hperm ha).clearPage page

/-- The stack is an area of its own. -/
theorem Placed.mapStack (hp : Placed K F f hs s) (hrun : (s.mapStack k).result = some (0, s')) :
    Placed K F f hs s' ∧ StackReady s'.mem s'.mm.pgdir ∧
      (∃ v ∈ s'.mm.mmapList, v.vmStart = uStackTop - uStackSize ∧ v.vmEnd = uStackTop) ∧
      ∀ h ∈ hs, ∀ va, InSegment h va → va < uStackTop - uStackSize := by
  unfold ExecState.mapStack at hrun
  obtain ⟨⟨ret, s₁⟩, hmap, hrun⟩ := result_bind_eq_some hrun
  obtain ⟨hr, hrun⟩ := passed id hrun
  rw [not_not] at hr
  subst hr
  obtain ⟨⟨ret, m₂⟩, hpages, hrun⟩ := result_bind_eq_some hrun
  simp only [result_pure, Option.some.injEq, Prod.mk.injEq] at hrun
  obtain ⟨rfl, rfl⟩ := hrun
  obtain ⟨-, hmem₁, v, hstart, hend, hm⟩ := mmMap_accepted hp.sorted hmap
  have hrange := LoadState.stackRequest_range (k.has .stackVma)
  rw [hrange.1] at hstart
  rw [hrange.2] at hend
  have hsize : uStackTop - uStackSize + uStackPage * pgSize = uStackTop := by decide
  obtain ⟨href, hbytes, hframes, -⟩ := mapStackPages_bytes (uStackTop - uStackSize)
    (hmem₁ ▸ hp.ref) (by decide) (by decide) hpages
  have hext : Placed K F f hs { s₁ with mem := m₂ } := by
    refine hp.extend hm href ?_
    intro va hva
    rw [← hm.pgdir]
    refine (hbytes va).trans ?_
    rw [hsize, ← hstart, ← hend]
    exact (if_neg hva).trans (by rw [hmem₁])
  rw [hsize] at hframes
  refine ⟨hext, ⟨hframes, fun la h1 h2 => ?_⟩, ⟨v, (hm.areas v).mpr (Or.inl rfl), hstart, hend⟩, ?_⟩
  · refine (hbytes la).trans (if_pos ⟨h1, ?_⟩)
    rw [hsize]
    exact h2
  · intro h hh va hva
    obtain ⟨w, hw, hc⟩ := (hp.segments h hh).area va hva
    have h1 := hc.1
    have h2 := hc.lt_userTop
    have h3 := hc.2
    rcases hm.apart w hw with hap | hap
    · omega
    · rw [hend] at hap
      unfold uStackTop at hap
      omega

end Ucore.Exec
