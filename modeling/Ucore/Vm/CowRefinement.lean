import Ucore.Vm.Cow
import Ucore.Vm.RefRuns

/-!
The sharing fork refines the copying fork. The two systems are linked when each
process sees the same bytes at the same addresses, the copying system has write
permission exactly in areas with `VM_WRITE`, and the sharing system has it at most
there. Every operation keeps the link and gives equal outcomes.
-/
namespace Ucore.Vm

open Library

namespace PageView

/-- The views of one page in the sharing and in the copying system; `w` says that
its area allows writing. -/
def Linked (w : Prop) : PageView → PageView → Prop
  | none, none => True
  | some l, some e => l.2 = e.2 ∧ hasFlag l.1 pteR = hasFlag e.1 pteR ∧
      hasFlag l.1 pteU = hasFlag e.1 pteU ∧ (hasFlag l.1 pteW = true → w) ∧
      (hasFlag e.1 pteW = true ↔ w)
  | _, _ => False

variable {w : Prop} {l e : PageView}

theorem hasFlag_or_pteW_write (perm : ℕ) : hasFlag (perm ||| pteW) pteW = true := by
  rw [show pteW = 2 ^ 2 from rfl, hasFlag_or]
  simp [hasFlag]

theorem hasFlag_or_pteW_user (perm : ℕ) : hasFlag (perm ||| pteW) pteU = hasFlag perm pteU := by
  rw [show pteU = 2 ^ 4 from rfl, hasFlag_or,
    show hasFlag pteW (2 ^ 4) = false from by decide, Bool.or_false]

theorem hasFlag_or_pteW_read (perm : ℕ) : hasFlag (perm ||| pteW) pteR = hasFlag perm pteR := by
  rw [show pteR = 2 ^ 1 from rfl, hasFlag_or,
    show hasFlag pteW (2 ^ 1) = false from by decide, Bool.or_false]

theorem Linked.load_eq (h : Linked w l e) (off : ℕ) : l.load off = e.load off := by
  cases l <;> cases e
  · rfl
  · exact h.elim
  · exact h.elim
  · obtain ⟨hd, hr, hu, -, -⟩ := h
    simp only [load, Option.bind_some, hd, hr, hu]

/-- A page that was just copied or shared is readable by both as before. -/
theorem Linked.strip (h : Linked w l e) : Linked w l.strip e := by
  cases l <;> cases e
  · trivial
  · exact h.elim
  · exact h.elim
  · obtain ⟨hd, hr, hu, -, hw⟩ := h
    refine ⟨hd, ?_, ?_, ?_, hw⟩
    · simpa using hr
    · simpa using hu
    · simp

theorem Linked.promote_left (h : Linked w l e) (hw : w) : Linked w l.promote e := by
  cases l <;> cases e
  · trivial
  · exact h.elim
  · exact h.elim
  · obtain ⟨hd, hr, hu, -, hwe⟩ := h
    refine ⟨hd, ?_, ?_, fun _ => hw, hwe⟩
    · rw [← hr]
      exact hasFlag_or_pteW_read _
    · rw [← hu]
      exact hasFlag_or_pteW_user _

theorem Linked.promote_right (h : Linked w l e) (hw : w) : Linked w l e.promote := by
  cases l <;> cases e
  · trivial
  · exact h.elim
  · exact h.elim
  · obtain ⟨hd, hr, hu, hwl, hwe⟩ := h
    refine ⟨hd, ?_, ?_, hwl, ?_⟩
    · rw [hr]
      exact (hasFlag_or_pteW_read _).symm
    · rw [hu]
      exact (hasFlag_or_pteW_user _).symm
    · exact ⟨fun _ => hw, fun _ => hasFlag_or_pteW_write _⟩

theorem Linked.write (h : Linked w l e) (off : ℕ) (b : UInt8) :
    Linked w (l.write off b) (e.write off b) := by
  cases l <;> cases e
  · trivial
  · exact h.elim
  · exact h.elim
  · obtain ⟨hd, hrest⟩ := h
    exact ⟨by simp only [hd], hrest⟩

/-- A page the sharing system may store to is storable in the copying system. -/
theorem Linked.storable_of_left (h : Linked w l e) (hl : l.storable = true) :
    e.storable = true := by
  cases l <;> cases e
  · exact hl
  · exact h.elim
  · exact h.elim
  · obtain ⟨-, -, hu, hwl, hwe⟩ := h
    simp only [storable, Option.any_some, Bool.and_eq_true] at hl ⊢
    exact ⟨hwe.mpr (hwl hl.1), hu ▸ hl.2⟩

/-- The page is present and belongs to the user. -/
def user (v : PageView) : Bool := v.any (fun x => hasFlag x.1 pteU)

theorem Linked.user_eq (h : Linked w l e) : l.user = e.user := by
  cases l <;> cases e
  · rfl
  · exact h.elim
  · exact h.elim
  · exact h.2.2.1

/-- In the copying system a page may be stored to if its area allows writing and it
belongs to the user. -/
theorem Linked.storable_iff (h : Linked w l e) : e.storable = true ↔ w ∧ e.user = true := by
  cases l <;> cases e
  · simp [storable, user]
  · exact h.elim
  · exact h.elim
  · obtain ⟨-, -, -, -, hwe⟩ := h
    simp only [storable, user, Option.any_some, Bool.and_eq_true, hwe]

theorem storable_promote (v : PageView) : v.promote.storable = v.user := by
  cases v with
  | none => rfl
  | some x =>
    simp only [storable, promote, user, Option.map_some, Option.any_some, hasFlag_or_pteW_write,
      hasFlag_or_pteW_user, Bool.true_and]

theorem any_of_user {v : PageView} (h : v.user = true) :
    v.any (fun x => hasFlag x.1 pteW || hasFlag x.1 pteU) = true := by
  cases v with
  | none => exact h
  | some x =>
    simp only [user, Option.any_some] at h
    simp [h]

@[simp] theorem isSome_promote (v : PageView) : v.promote.isSome = v.isSome := by
  cases v <;> rfl

@[simp] theorem isSome_write (v : PageView) (off : ℕ) (b : UInt8) :
    (v.write off b).isSome = v.isSome := by
  cases v <;> rfl

end PageView

namespace Mem

variable {M : PmmManager} {K F : Set ℕ} {m m' : Mem M}

theorem loadByte_eq (m : Mem M) (pd addr : ℕ) : m.loadByte pd addr =
    if addr < userTop then (m.view pd addr).load (addr % pgSize) else none := by
  unfold loadByte canLoad view
  by_cases hlt : addr < userTop
  · by_cases hv : hasFlag (m.entry pd addr) pteV
    · simp [hlt, hv, PageView.load]
    · simp [hv, PageView.load]
  · simp [hlt]

theorem canStore_eq (m : Mem M) (pd addr : ℕ) :
    m.canStore pd addr = (decide (addr < userTop) && (m.view pd addr).storable) := by
  unfold canStore view
  by_cases hv : hasFlag (m.entry pd addr) pteV
  · simp [hv, PageView.storable, Bool.and_assoc]
  · simp [hv, PageView.storable]

/-- A store changes one byte in one view. -/
theorem RefInv.view_storeByte (hi : RefInv K F m) {pd addr : ℕ} {b : UInt8}
    (hs : m.canStore pd addr = true) {pd' la : ℕ} (hla : la < userTop) :
    (m.storeByte pd addr b).view pd' la =
      if pd' = pd ∧ la / pgSize = addr / pgSize then
        (m.view pd' la).write (addr % pgSize) b
      else m.view pd' la := by
  unfold canStore at hs
  simp only [Bool.and_eq_true, decide_eq_true_eq] at hs
  obtain ⟨⟨⟨htop, hv⟩, hw⟩, -⟩ := hs
  have hentry : (m.storeByte pd addr b).entry pd' la = m.entry pd' la := rfl
  by_cases hin : pd' = pd ∧ la / pgSize = addr / pgSize
  · obtain ⟨rfl, hpage⟩ := hin
    have hsame : m.entry pd' la = m.entry pd' addr := by
      rw [← entry_page, hpage, entry_page]
    rw [if_pos ⟨rfl, hpage⟩]
    unfold view
    rw [hentry, hsame, if_pos hv, if_pos hv]
    simp [storeByte, PageView.write]
  · rw [if_neg hin]
    unfold view
    rw [hentry]
    by_cases hv' : hasFlag (m.entry pd' la) pteV
    · have hne : ptePpn (m.entry pd' la) ≠ ptePpn (m.entry pd addr) :=
        fun heq => hin (hi.exclusive htop hla hv hw hv' heq)
      simp [storeByte, Function.update_of_ne hne]
    · simp [hv']

/-- The views of all addresses but one page are as before. -/
def OnlyPage (pd la : ℕ) (f : PageView → PageView) (m m' : Mem M) : Prop :=
  ∀ pd' la', la' < userTop → m'.view pd' la' =
    if pd' = pd ∧ la' / pgSize = la / pgSize then f (m.view pd' la') else m.view pd' la'

theorem OnlyPage.trans {pd la : ℕ} {f g : PageView → PageView} {m'' : Mem M}
    (h : OnlyPage pd la f m m') (h' : OnlyPage pd la g m' m'') :
    OnlyPage pd la (g ∘ f) m m'' := by
  intro pd' la' hla'
  rw [h' pd' la' hla', h pd' la' hla']
  split <;> rfl

theorem OnlyPage.self {pd la la' : ℕ} {f : PageView → PageView} (h : OnlyPage pd la f m m')
    (hla' : la' < userTop) (hpage : la' / pgSize = la / pgSize) :
    m'.view pd la' = f (m.view pd la') := by
  rw [h pd la' hla', if_pos ⟨rfl, hpage⟩]

end Mem

namespace Mm

/-- Areas consist of whole pages. -/
theorem contains_congr (v : Vma) {la la' : ℕ} (h : la / pgSize = la' / pgSize) :
    v.Contains la ↔ v.Contains la' := by
  have h1 := v.start_aligned
  have h2 := v.end_aligned
  unfold Vma.Contains
  unfold pgSize at *
  omega

theorem areaWritable_congr (mm : Mm) {la la' : ℕ} (h : la / pgSize = la' / pgSize) :
    mm.AreaWritable la ↔ mm.AreaWritable la' := by
  unfold AreaWritable
  simp only [contains_congr _ h]

end Mm

theorem roundDown_page (addr : ℕ) : roundDown addr pgSize / pgSize = addr / pgSize := by
  unfold roundDown pgSize
  omega

namespace Mem

variable {M : PmmManager} {K F : Set ℕ} {m m' : Mem M}

theorem repairable_iff {mm : Mm} (hs : mm.Sorted) (addr : ℕ) :
    m.Repairable mm (roundDown addr pgSize) ↔ mm.AreaWritable addr ∧
      (m.view mm.pgdir addr).any (fun v => hasFlag v.1 pteW || hasFlag v.1 pteU) = true := by
  have hentry : m.entry mm.pgdir (roundDown addr pgSize) = m.entry mm.pgdir addr := by
    rw [← entry_page, roundDown_page, entry_page]
  have harea : (∃ v, (mm.findVma (roundDown addr pgSize)).1 = some v ∧
      v.vmFlags &&& vmWrite ≠ 0) ↔ mm.AreaWritable addr := by
    rw [← mm.areaWritable_congr (roundDown_page addr)]
    unfold Mm.AreaWritable
    simp only [hs.findVma_eq_some, and_assoc]
  unfold Repairable
  rw [harea, hentry]
  unfold view
  by_cases hv : hasFlag (m.entry mm.pgdir addr) pteV
  · simp [hv]
  · simp [hv]

/-- What a user store does: it is carried out, perhaps after the page was made
writable, or changes at most that permission, or memory runs out. -/
theorem RefInv.userStore (hi : RefInv K F m) {mm mm' : Mm} {addr : ℕ} {b : UInt8} {o : Outcome}
    (hs : mm.Sorted) (h : m.userStore mm addr b = some (o, m', mm')) :
    o = .noMem ∨
      RefInv K F m' ∧ (∀ pd, (m'.pgdir pd).isSome = (m.pgdir pd).isSome) ∧
      mm'.pgdir = mm.pgdir ∧ mm'.mmapList = mm.mmapList ∧ mm'.Sorted ∧
      ∃ f, OnlyPage mm.pgdir addr f m m' ∧
        ((o = .stored true ∧ m.canStore mm.pgdir addr = true ∧
            f = fun v => v.write (addr % pgSize) b) ∨
         (o = .stored true ∧ mm.AreaWritable addr ∧ m.canStore mm.pgdir addr = false ∧
            addr < userTop ∧ (m.view mm.pgdir addr).promote.storable = true ∧
            f = fun v => v.promote.write (addr % pgSize) b) ∨
         (o = .stored false ∧ mm.AreaWritable addr ∧
            (decide (addr < userTop) && (m.view mm.pgdir addr).promote.storable) = false ∧
            f = PageView.promote) ∨
         (o = .stored false ∧ m.canStore mm.pgdir addr = false ∧ f = id ∧
            ¬ (mm.AreaWritable addr ∧
              (m.view mm.pgdir addr).any (fun v => hasFlag v.1 pteW || hasFlag v.1 pteU) =
                true))) := by
  unfold Mem.userStore at h
  by_cases hcan : m.canStore mm.pgdir addr = true
  · rw [if_pos hcan] at h
    simp only [Option.some.injEq, Prod.mk.injEq] at h
    obtain ⟨rfl, rfl, rfl⟩ := h
    right
    refine ⟨hi.of_data _, fun _ => rfl, rfl, rfl, hs, _, ?_, Or.inl ⟨rfl, hcan, rfl⟩⟩
    exact fun pd' la' hla' => hi.view_storeByte hcan hla'
  · rw [if_neg hcan, Option.bind_eq_bind, Option.bind_eq_some_iff] at h
    obtain ⟨⟨r, m₁, mm₁⟩, h₁, h⟩ := h
    obtain ⟨hi₁, hmm₁, hf⟩ := hi.doPgfault h₁
    have hcan' : m.canStore mm.pgdir addr = false := by simpa using hcan
    have hpd₁ : mm₁.pgdir = mm.pgdir := by rw [hmm₁, Mm.findVma_pgdir]
    have hl₁ : mm₁.mmapList = mm.mmapList := by rw [hmm₁, Mm.findVma_mmapList]
    have hs₁ : mm₁.Sorted := by rw [hmm₁]; exact hs.findVma _
    simp only [hpd₁] at h
    by_cases hno : r = -eNoMem
    · rw [if_pos hno] at h
      simp only [Option.some.injEq, Prod.mk.injEq] at h
      exact Or.inl h.1.symm
    · rw [if_neg hno] at h
      right
      by_cases hr : r = 0
      · obtain ⟨hrep, hprom⟩ := hf.repaired hr
        have harea := ((repairable_iff hs addr).mp hrep).1
        have hprom' : OnlyPage mm.pgdir addr PageView.promote m m₁ := by
          intro pd' la' hla'
          rw [hprom pd' la' hla', roundDown_page]
        have htop : addr < userTop := by
          obtain ⟨v, -, hc, -⟩ := harea
          exact hc.lt_userTop
        have hview : m₁.view mm.pgdir addr = (m.view mm.pgdir addr).promote :=
          hprom'.self htop rfl
        by_cases hst : m₁.canStore mm.pgdir addr = true
        · rw [if_pos ⟨hr, hst⟩] at h
          simp only [Option.some.injEq, Prod.mk.injEq] at h
          obtain ⟨rfl, rfl, rfl⟩ := h
          have hw : OnlyPage mm.pgdir addr (fun v => v.write (addr % pgSize) b) m₁
              (m₁.storeByte mm.pgdir addr b) :=
            fun pd' la' hla' => hi₁.view_storeByte hst hla'
          refine ⟨hi₁.of_data _, hf.pgdir, hpd₁, hl₁, hs₁, _, hprom'.trans hw,
            Or.inr (Or.inl ⟨rfl, harea, hcan', htop, ?_, rfl⟩)⟩
          rw [canStore_eq, hview] at hst
          simpa [htop] using hst
        · rw [if_neg (fun hbad => hst hbad.2)] at h
          simp only [Option.some.injEq, Prod.mk.injEq] at h
          obtain ⟨rfl, rfl, rfl⟩ := h
          refine ⟨hi₁, hf.pgdir, hpd₁, hl₁, hs₁, _, hprom',
            Or.inr (Or.inr (Or.inl ⟨rfl, harea, ?_, rfl⟩))⟩
          rw [canStore_eq, hview] at hst
          simpa using hst
      · have hbad : ¬ (r = 0 ∧ m₁.canStore mm.pgdir addr = true) := fun hb => hr hb.1
        rw [if_neg hbad] at h
        simp only [Option.some.injEq, Prod.mk.injEq] at h
        obtain ⟨rfl, rfl, rfl⟩ := h
        have hinval : r = -eInval := by
          rcases hf.code with h0 | h1 | h2
          · exact absurd h0 hr
          · exact h1
          · exact absurd h2 hno
        refine ⟨hi₁, hf.pgdir, hpd₁, hl₁, hs₁, id, ?_,
          Or.inr (Or.inr (Or.inr ⟨rfl, hcan', rfl, ?_⟩))⟩
        · intro pd' la' hla'
          rw [hf.kept hr pd' la' hla']
          split <;> rfl
        · rw [← repairable_iff hs addr]
          exact hf.illegal hinval

theorem RefInv.cowFault_exists (hi : RefInv K F m) {pd : ℕ} (hsome : (m.pgdir pd).isSome)
    (la : ℕ) : ∃ r m₁, m.cowFault pd la = some (r, m₁) := by
  unfold Mem.cowFault
  simp only
  split
  · split
    · exact ⟨_, _, rfl⟩
    · rename_i newp m₁ halloc
      obtain ⟨hi₁, -, hs₁, -⟩ := hi.allocCopy (ptePpn (m.entry pd la)) halloc
      obtain ⟨r, m₂, h₂⟩ := hi₁.pageInsert_exists
        ((hs₁.pgdir pd).trans hsome) newp la (m.entry pd la &&& pteUser ||| pteW)
      rw [h₂]
      simp only [Option.bind_eq_bind, Option.bind_some]
      split
      · exact ⟨_, _, rfl⟩
      · exact ⟨_, _, rfl⟩
  · exact ⟨_, _, rfl⟩

theorem RefInv.doPgfault_exists (hi : RefInv K F m) {mm : Mm}
    (hsome : (m.pgdir mm.pgdir).isSome) (errorCode addr : ℕ) :
    ∃ r m₁ mm₁, m.doPgfault mm errorCode addr = some (r, m₁, mm₁) := by
  unfold Mem.doPgfault
  simp only
  split
  · exact ⟨_, _, _, rfl⟩
  · rename_i vma mm₁ hfind
    have hpd₁ : mm₁.pgdir = mm.pgdir := by
      rw [← Mm.findVma_pgdir mm (roundDown addr pgSize), hfind]
    split
    · exact ⟨_, _, _, rfl⟩
    · rw [hpd₁]
      obtain ⟨ok, m₁, h₁⟩ := hi.getPte_exists hsome (roundDown addr pgSize) false
      obtain rfl := (hi.getPte h₁).1.lookup rfl
      rw [h₁]
      simp only [Option.bind_eq_bind, Option.bind_some]
      split
      · exact ⟨_, _, _, rfl⟩
      · split
        · exact ⟨_, _, _, rfl⟩
        · split
          · exact ⟨_, _, _, rfl⟩
          · obtain ⟨r, m₂, h₂⟩ := hi.cowFault_exists hsome (roundDown addr pgSize)
            rw [h₂]
            exact ⟨_, _, _, rfl⟩

/-- A user store always returns: nothing in it can panic. -/
theorem RefInv.userStore_exists (hi : RefInv K F m) {mm : Mm} (hsome : (m.pgdir mm.pgdir).isSome)
    (addr : ℕ) (b : UInt8) : ∃ o m₁ mm₁, m.userStore mm addr b = some (o, m₁, mm₁) := by
  unfold Mem.userStore
  split
  · exact ⟨_, _, _, rfl⟩
  · obtain ⟨r, m₁, mm₁, h₁⟩ := hi.doPgfault_exists hsome 0 addr
    rw [h₁]
    simp only [Option.bind_eq_bind, Option.bind_some]
    split
    · exact ⟨_, _, _, rfl⟩
    · split
      · exact ⟨_, _, _, rfl⟩
      · exact ⟨_, _, _, rfl⟩

end Mem

namespace Procs

variable {M : PmmManager} {s t : Procs M}

theorem step_store_none {share : Bool} {pid addr : ℕ} {b : UInt8} (h : s.mm pid = none) :
    s.step share (.store pid addr b) = some (.noProc, s) := by
  simp only [step, h]

theorem step_store_some {share : Bool} {pid addr : ℕ} {b : UInt8} {mm : Mm}
    (h : s.mm pid = some mm) : s.step share (.store pid addr b) =
      (s.mem.userStore mm addr b).map
        (fun r => (r.1, ⟨r.2.1, Function.update s.mm pid (some r.2.2)⟩)) := by
  simp only [step, h]

/-- One process changed what it sees, but not where it has areas. -/
theorem Ok.update (h : s.Ok) {pid : ℕ} {mm mm' : Mm} {m' : Mem M} {addr : ℕ}
    {f : PageView → PageView} (hmm : s.mm pid = some mm) (hi : m'.RefInv ∅ ∅)
    (hpg : ∀ pd, (m'.pgdir pd).isSome = (s.mem.pgdir pd).isSome)
    (hpd : mm'.pgdir = mm.pgdir) (hl : mm'.mmapList = mm.mmapList) (hs : mm'.Sorted)
    (hview : Mem.OnlyPage mm.pgdir addr f s.mem m') (hf : ∀ v, (f v).isSome = v.isSome) :
    Ok ⟨m', Function.update s.mm pid (some mm')⟩ := by
  -- every process has the address space it had, or `mm'` in place of `mm`
  have hold : ∀ p a, Function.update s.mm pid (some mm') p = some a →
      ∃ b, s.mm p = some b ∧ a.pgdir = b.pgdir ∧ a.mmapList = b.mmapList ∧ a.Sorted := by
    intro p a ha
    by_cases hp : p = pid
    · subst hp
      rw [Function.update_self] at ha
      obtain rfl := Option.some.inj ha
      exact ⟨mm, hmm, hpd, hl, hs⟩
    · rw [Function.update_of_ne hp] at ha
      exact ⟨a, ha, rfl, rfl, h.sorted p a ha⟩
  refine ⟨hi, ?_, ?_, ?_, ?_⟩
  · intro p a ha
    obtain ⟨b, hb, hab, -⟩ := hold p a ha
    rw [hpg, hab]
    exact h.pgdir p b hb
  · intro p q a b ha hb hab
    obtain ⟨a', ha', haa, -⟩ := hold p a ha
    obtain ⟨b', hb', hbb, -⟩ := hold q b hb
    exact h.inj p q a' b' ha' hb' (by rw [← haa, ← hbb, hab])
  · intro p a ha
    obtain ⟨-, -, -, -, hsa⟩ := hold p a ha
    exact hsa
  · intro p a ha la hla hv
    obtain ⟨b, hb, hab, hlist, -⟩ := hold p a ha
    have hin : b.InArea la := by
      apply h.area p b hb la hla
      rw [hview a.pgdir la hla] at hv
      split at hv
      · rw [hf] at hv
        exact hab ▸ hv
      · exact hab ▸ hv
    unfold Mm.InArea
    rw [hlist]
    exact hin

/-- The address spaces of one process in the two systems. -/
def MmLinked (s t : Procs M) (l e : Mm) : Prop :=
  l.mmapList = e.mmapList ∧ ∀ la, la < userTop →
    PageView.Linked (e.AreaWritable la) (s.mem.view l.pgdir la) (t.mem.view e.pgdir la)

/-- The sharing system `s` and the copying system `t`. -/
structure Sim (s t : Procs M) : Prop where
  left : s.Ok
  right : t.Ok
  linked : ∀ p, Option.Rel (MmLinked s t) (s.mm p) (t.mm p)

/-- A process exists in both systems or in neither. -/
theorem Sim.cases (h : Sim s t) (pid : ℕ) : (s.mm pid = none ∧ t.mm pid = none) ∨
    ∃ l e, s.mm pid = some l ∧ t.mm pid = some e ∧ MmLinked s t l e := by
  have hlink := h.linked pid
  cases hl : s.mm pid <;> cases he : t.mm pid <;> rw [hl, he] at hlink
  · exact Or.inl ⟨rfl, rfl⟩
  · cases hlink
  · cases hlink
  · cases hlink with
    | some hlink => exact Or.inr ⟨_, _, rfl, rfl, hlink⟩

theorem AreaWritable_of_list {l e : Mm} (h : l.mmapList = e.mmapList) (la : ℕ) :
    l.AreaWritable la ↔ e.AreaWritable la := by
  unfold Mm.AreaWritable
  rw [h]

/-- Both systems change the view of one page of one process, and the views stay linked. -/
theorem Sim.update (h : Sim s t) {pid : ℕ} {l l' e e' : Mm} {ms me : Mem M} {addr : ℕ}
    {f g : PageView → PageView} (hl : s.mm pid = some l) (he : t.mm pid = some e)
    (hok : Ok ⟨ms, Function.update s.mm pid (some l')⟩)
    (hok' : Ok ⟨me, Function.update t.mm pid (some e')⟩)
    (hlpd : l'.pgdir = l.pgdir) (hepd : e'.pgdir = e.pgdir)
    (hll : l'.mmapList = l.mmapList) (hel : e'.mmapList = e.mmapList)
    (hvs : Mem.OnlyPage l.pgdir addr f s.mem ms) (hve : Mem.OnlyPage e.pgdir addr g t.mem me)
    (hfg : ∀ w v u, (w ↔ e.AreaWritable addr) → v = s.mem.view l.pgdir addr →
      PageView.Linked w v u → PageView.Linked w (f v) (g u)) :
    Sim ⟨ms, Function.update s.mm pid (some l')⟩ ⟨me, Function.update t.mm pid (some e')⟩ := by
  refine ⟨hok, hok', fun p => ?_⟩
  by_cases hp : p = pid
  · subst hp
    simp only [Function.update_self]
    rcases h.cases p with ⟨hnone, -⟩ | ⟨l₁, e₁, hl₁, he₁, hlist, hviews⟩
    · rw [hl] at hnone
      exact absurd hnone (by simp)
    · obtain rfl := Option.some.inj (hl.symm.trans hl₁)
      obtain rfl := Option.some.inj (he.symm.trans he₁)
      refine Option.Rel.some ⟨by rw [hll, hel, hlist], fun la hla => ?_⟩
      rw [hlpd, hepd, hvs l.pgdir la hla, hve e.pgdir la hla, AreaWritable_of_list hel]
      by_cases hpage : la / pgSize = addr / pgSize
      · rw [if_pos ⟨rfl, hpage⟩, if_pos ⟨rfl, hpage⟩]
        exact hfg _ _ _ (e.areaWritable_congr hpage) (Mem.view_eq_of_page hpage) (hviews la hla)
      · rw [if_neg (fun hbad => hpage hbad.2), if_neg (fun hbad => hpage hbad.2)]
        exact hviews la hla
  · simp only [Function.update_of_ne hp]
    rcases h.cases p with ⟨hsp, htp⟩ | ⟨a, b, hsp, htp, hlist, hviews⟩
    · rw [hsp, htp]
      exact Option.Rel.none
    · rw [hsp, htp]
      refine Option.Rel.some ⟨hlist, fun la hla => ?_⟩
      have hna : a.pgdir ≠ l.pgdir := fun heq => hp (h.left.inj p pid a l hsp hl heq)
      have hnb : b.pgdir ≠ e.pgdir := fun heq => hp (h.right.inj p pid b e htp he heq)
      rw [hvs a.pgdir la hla, hve b.pgdir la hla, if_neg (fun hbad => hna hbad.1),
        if_neg (fun hbad => hnb hbad.1)]
      exact hviews la hla

/-- A store that the copying system finishes, the sharing system finishes alike. -/
theorem Sim.store (h : Sim s t) {pid addr : ℕ} {b : UInt8} {o : Outcome} {t' : Procs M}
    (ho : o ≠ .noMem) (ht : t.step false (.store pid addr b) = some (o, t'))
    (hs : ∀ s', s.step true (.store pid addr b) ≠ some (.noMem, s')) :
    ∃ s', s.step true (.store pid addr b) = some (o, s') ∧ Sim s' t' := by
  rcases h.cases pid with ⟨hl, he⟩ | ⟨l, e, hl, he, hlist, hviews⟩
  · rw [step_store_none he] at ht
    obtain ⟨rfl, rfl⟩ := Prod.mk.inj (Option.some.inj ht)
    exact ⟨s, step_store_none hl, h⟩
  · rw [step_store_some he] at ht
    rw [step_store_some hl] at hs ⊢
    obtain ⟨o₁, ms, l', hus⟩ := h.left.ref.userStore_exists (h.left.pgdir pid l hl) addr b
    obtain ⟨⟨o₂, me, e'⟩, hue, heq⟩ := Option.map_eq_some_iff.mp ht
    obtain ⟨rfl, rfl⟩ := Prod.mk.inj heq
    simp only at ho
    have ho₁ : o₁ ≠ .noMem := by
      rintro rfl
      exact hs _ (by rw [hus]; rfl)
    obtain ⟨hil, hpgl, hpdl, hll, hsl, f, hvf, hf⟩ :=
      (h.left.ref.userStore (h.left.sorted pid l hl) hus).resolve_left ho₁
    obtain ⟨hie, hpge, hpde, hle, hse, g, hvg, hg⟩ :=
      (h.right.ref.userStore (h.right.sorted pid e he) hue).resolve_left ho
    have harea := AreaWritable_of_list hlist addr
    -- what the link says about the page that is written
    have htop_l : l.AreaWritable addr → addr < userTop := by
      rintro ⟨v, -, hc, -⟩
      exact hc.lt_userTop
    have hlk : addr < userTop → PageView.Linked (e.AreaWritable addr)
        (s.mem.view l.pgdir addr) (t.mem.view e.pgdir addr) := hviews addr
    have hsome_f : ∀ v, (f v).isSome = v.isSome := by
      intro v
      rcases hf with ⟨-, -, rfl⟩ | ⟨-, -, -, -, -, rfl⟩ | ⟨-, -, -, rfl⟩ | ⟨-, -, rfl, -⟩ <;>
        simp
    have hsome_g : ∀ v, (g v).isSome = v.isSome := by
      intro v
      rcases hg with ⟨-, -, rfl⟩ | ⟨-, -, -, -, -, rfl⟩ | ⟨-, -, -, rfl⟩ | ⟨-, -, rfl, -⟩ <;>
        simp
    have hokl := h.left.update hl hil hpgl hpdl hll hsl hvf hsome_f
    have hoke := h.right.update he hie hpge hpde hle hse hvg hsome_g
    suffices hres : o₁ = o₂ ∧ ∀ w v u, (w ↔ e.AreaWritable addr) →
        v = s.mem.view l.pgdir addr → PageView.Linked w v u →
        PageView.Linked w (f v) (g u) by
      obtain ⟨rfl, hfg⟩ := hres
      refine ⟨⟨ms, Function.update s.mm pid (some l')⟩, by rw [hus]; rfl, ?_⟩
      exact h.update hl he hokl hoke hpdl hpde hll hle hvf hvg hfg
    simp only [Mem.canStore_eq, Bool.and_eq_true, decide_eq_true_eq,
      PageView.storable_promote] at hf hg
    rcases hg with ⟨rfl, ⟨htop, hst⟩, rfl⟩ | ⟨rfl, hw, hno, htop, hu, rfl⟩ |
      ⟨rfl, hw, hno, rfl⟩ | ⟨rfl, hno, rfl, hill⟩
    · -- the copying system may write the page
      have hlk := hlk htop
      obtain ⟨hw, hu⟩ := hlk.storable_iff.mp hst
      have hul : (s.mem.view l.pgdir addr).user = true := hlk.user_eq.trans hu
      rcases hf with ⟨rfl, -, rfl⟩ | ⟨rfl, -, -, -, -, rfl⟩ | ⟨rfl, -, hbad, rfl⟩ |
        ⟨rfl, -, -, hbad⟩
      · exact ⟨rfl, fun w v u _ _ hvu => hvu.write _ _⟩
      · exact ⟨rfl, fun w v u hiff _ hvu => (hvu.promote_left (hiff.mpr hw)).write _ _⟩
      · simp [htop, hul] at hbad
      · exact absurd ⟨harea.mpr hw, PageView.any_of_user hul⟩ hbad
    · -- a present user page of a writable area is already writable there
      have hst := (hlk htop).storable_iff.mpr ⟨hw, hu⟩
      simp [htop, hst] at hno
    · have htop := htop_l (harea.mpr hw)
      have hlk := hlk htop
      have hue : (t.mem.view e.pgdir addr).user = false := by simpa [htop] using hno
      rcases hf with ⟨rfl, ⟨-, hst⟩, rfl⟩ | ⟨rfl, -, -, -, hu, rfl⟩ | ⟨rfl, -, -, rfl⟩ |
        ⟨rfl, -, rfl, -⟩
      · have hu := (hlk.storable_iff.mp (hlk.storable_of_left hst)).2
        rw [hue] at hu
        exact absurd hu (by simp)
      · rw [hlk.user_eq, hue] at hu
        exact absurd hu (by simp)
      · exact ⟨rfl, fun w v u hiff _ hvu =>
          (hvu.promote_left (hiff.mpr hw)).promote_right (hiff.mpr hw)⟩
      · exact ⟨rfl, fun w v u hiff _ hvu => hvu.promote_right (hiff.mpr hw)⟩
    · rcases hf with ⟨rfl, ⟨htop, hst⟩, rfl⟩ | ⟨rfl, hw, -, htop, hu, rfl⟩ |
        ⟨rfl, hw, -, rfl⟩ | ⟨rfl, -, rfl, -⟩
      · have hst' := (hlk htop).storable_of_left hst
        simp [htop, hst'] at hno
      · have hue : (t.mem.view e.pgdir addr).user = true := (hlk htop).user_eq ▸ hu
        exact absurd ⟨harea.mp hw, PageView.any_of_user hue⟩ hill
      · exact ⟨rfl, fun w v u hiff _ hvu => hvu.promote_left (hiff.mpr (harea.mp hw))⟩
      · exact ⟨rfl, fun _ _ _ _ _ hvu => hvu⟩

/-- The view of the child after a fork. -/
theorem forkedView_dst {share : Bool} {dst src la : ℕ} {view : ℕ → ℕ → PageView}
    (h : view dst la = none) : forkedView share dst src view dst la =
      if share then (view src la).strip else view src la := by
  unfold forkedView
  cases hv : view src la with
  | none => simp [h]
  | some v => simp

/-- The view of the parent after a fork. -/
theorem forkedView_src {share : Bool} {dst src la : ℕ} {view : ℕ → ℕ → PageView}
    (hne : src ≠ dst) : forkedView share dst src view src la =
      if share then (view src la).strip else view src la := by
  unfold forkedView
  cases hv : view src la with
  | none => simp
  | some v => simp [hne]

theorem forkedView_other {share : Bool} {dst src pd la : ℕ} {view : ℕ → ℕ → PageView}
    (hd : pd ≠ dst) (hs : pd ≠ src) : forkedView share dst src view pd la = view pd la := by
  unfold forkedView
  simp [hd, hs]

/-- After a fork every address space but the child's has pages where it had them. -/
theorem isSome_forked {share : Bool} {m m' : Mem M} {oldmm mm : Mm}
    (hf : Mem.Forked ∅ share m m' oldmm mm) {pd la : ℕ} (hla : la < userTop)
    (hne : pd ≠ mm.pgdir) : (m'.view pd la).isSome = (m.view pd la).isSome := by
  obtain ⟨hin, hout⟩ := hf.forked pd la hla
  by_cases ha : oldmm.InArea la
  · rw [hin ha]
    by_cases hs : pd = oldmm.pgdir
    · subst hs
      rw [forkedView_src hne]
      split <;> simp
    · rw [forkedView_other hne hs]
  · rw [hout ha]

end Procs

namespace Mem.Forked

variable {M : PmmManager} {share : Bool} {m m' : Mem M} {oldmm mm : Mm} {la : ℕ}

theorem ne_child (hf : Mem.Forked ∅ share m m' oldmm mm) {pd : ℕ} (h : (m.pgdir pd).isSome) :
    pd ≠ mm.pgdir := by
  rintro rfl
  rw [hf.new] at h
  exact absurd h (by simp)

theorem view_child (hf : Mem.Forked ∅ share m m' oldmm mm) (hla : la < userTop)
    (harea : (m.view oldmm.pgdir la).isSome → oldmm.InArea la) :
    m'.view mm.pgdir la =
      if share then (m.view oldmm.pgdir la).strip else m.view oldmm.pgdir la := by
  have hnone := view_of_no_pgdir hf.new la
  obtain ⟨hin, hout⟩ := hf.forked mm.pgdir la hla
  by_cases ha : oldmm.InArea la
  · rw [hin ha, Procs.forkedView_dst hnone]
  · have hold : m.view oldmm.pgdir la = none := by
      by_contra hne
      exact ha (harea (Option.isSome_iff_ne_none.mpr hne))
    rw [hout ha, hnone, hold]
    simp

theorem view_parent (hf : Mem.Forked ∅ share m m' oldmm mm) (hla : la < userTop)
    (hne : oldmm.pgdir ≠ mm.pgdir) (harea : (m.view oldmm.pgdir la).isSome → oldmm.InArea la) :
    m'.view oldmm.pgdir la =
      if share then (m.view oldmm.pgdir la).strip else m.view oldmm.pgdir la := by
  obtain ⟨hin, hout⟩ := hf.forked oldmm.pgdir la hla
  by_cases ha : oldmm.InArea la
  · rw [hin ha, Procs.forkedView_src hne]
  · have hold : m.view oldmm.pgdir la = none := by
      by_contra hnone
      exact ha (harea (Option.isSome_iff_ne_none.mpr hnone))
    rw [hout ha, hold]
    simp

theorem view_other (hf : Mem.Forked ∅ share m m' oldmm mm) (hla : la < userTop) {pd : ℕ}
    (hne : pd ≠ mm.pgdir) (h : share = false ∨ pd ≠ oldmm.pgdir) :
    m'.view pd la = m.view pd la := by
  obtain ⟨hin, hout⟩ := hf.forked pd la hla
  by_cases ha : oldmm.InArea la
  · rw [hin ha]
    by_cases hs : pd = oldmm.pgdir
    · subst hs
      rw [Procs.forkedView_src hne, h.resolve_right (fun hbad => hbad rfl)]
      rfl
    · exact Procs.forkedView_other hne hs
  · exact hout ha

end Mem.Forked

namespace Procs

variable {M : PmmManager} {s t : Procs M}

theorem Ok.fork (h : s.Ok) {share : Bool} {parent child : ℕ} {oldmm mm : Mm} {m' : Mem M}
    (hp : s.mm parent = some oldmm) (hc : s.mm child = none)
    (hf : Mem.Forked ∅ share s.mem m' oldmm mm) :
    Ok ⟨m', Function.update s.mm child (some mm)⟩ := by
  have hnew : ∀ p a, s.mm p = some a → a.pgdir ≠ mm.pgdir := by
    intro p a ha heq
    have hsome := h.pgdir p a ha
    rw [heq, hf.new] at hsome
    exact absurd hsome (by simp)
  have hold : ∀ p a, Function.update s.mm child (some mm) p = some a →
      p = child ∧ a = mm ∨ p ≠ child ∧ s.mm p = some a := by
    intro p a ha
    by_cases hpc : p = child
    · subst hpc
      rw [Function.update_self] at ha
      exact Or.inl ⟨rfl, (Option.some.inj ha).symm⟩
    · rw [Function.update_of_ne hpc] at ha
      exact Or.inr ⟨hpc, ha⟩
  refine ⟨hf.inv, ?_, ?_, ?_, ?_⟩
  · intro p a ha
    rw [hf.pgdir]
    rcases hold p a ha with ⟨-, rfl⟩ | ⟨-, ha⟩
    · simp
    · rw [h.pgdir p a ha, Bool.or_true]
  · intro p q a b ha hb hab
    rcases hold p a ha with ⟨hpc, rfl⟩ | ⟨-, ha'⟩ <;>
      rcases hold q b hb with ⟨hqc, rfl⟩ | ⟨-, hb'⟩
    · rw [hpc, hqc]
    · exact absurd hab.symm (hnew q b hb')
    · exact absurd hab (hnew p a ha')
    · exact h.inj p q a b ha' hb' hab
  · intro p a ha
    rcases hold p a ha with ⟨-, rfl⟩ | ⟨-, ha⟩
    · refine ⟨by rw [hf.areas]; exact (h.sorted parent oldmm hp).apart, ?_⟩
      rw [hf.cache]
      simp
    · exact h.sorted p a ha
  · intro p a ha la hla hv
    rcases hold p a ha with ⟨-, rfl⟩ | ⟨-, ha⟩
    · unfold Mm.InArea
      rw [hf.areas]
      by_contra hno
      rw [(hf.forked _ la hla).2 hno, Mem.view_of_no_pgdir hf.new] at hv
      exact absurd hv (by simp)
    · rw [isSome_forked hf hla (hnew p a ha)] at hv
      exact h.area p a ha la hla hv

theorem Ok.exit (h : s.Ok) {pid : ℕ} {mm : Mm} {m' : Mem M} (hp : s.mm pid = some mm)
    (hd : Mem.TornDown ∅ s.mem m' mm.pgdir) : Ok ⟨m', Function.update s.mm pid none⟩ := by
  have hold : ∀ p a, Function.update s.mm pid none p = some a →
      s.mm p = some a ∧ a.pgdir ≠ mm.pgdir := by
    intro p a ha
    by_cases hpp : p = pid
    · subst hpp
      rw [Function.update_self] at ha
      exact absurd ha (by simp)
    · rw [Function.update_of_ne hpp] at ha
      exact ⟨ha, fun heq => hpp (h.inj p pid a mm ha hp heq)⟩
  refine ⟨hd.inv, ?_, ?_, ?_, ?_⟩
  · intro p a ha
    obtain ⟨ha, hne⟩ := hold p a ha
    rw [hd.pgdir _ hne]
    exact h.pgdir p a ha
  · intro p q a b ha hb hab
    exact h.inj p q a b (hold p a ha).1 (hold q b hb).1 hab
  · exact fun p a ha => h.sorted p a (hold p a ha).1
  · intro p a ha la hla hv
    obtain ⟨ha, hne⟩ := hold p a ha
    rw [hd.view _ hne la hla] at hv
    exact h.area p a ha la hla hv

theorem Sim.load (h : Sim s t) {pid addr : ℕ} {o : Outcome} {t' : Procs M}
    (ht : t.step false (.load pid addr) = some (o, t')) :
    ∃ s', s.step true (.load pid addr) = some (o, s') ∧ Sim s' t' := by
  rcases h.cases pid with ⟨hl, he⟩ | ⟨l, e, hl, he, -, hviews⟩
  · simp only [step, he, Option.some.injEq, Prod.mk.injEq] at ht
    obtain ⟨rfl, rfl⟩ := ht
    exact ⟨s, by simp only [step, hl], h⟩
  · simp only [step, he, Option.some.injEq, Prod.mk.injEq] at ht
    obtain ⟨rfl, rfl⟩ := ht
    refine ⟨s, ?_, h⟩
    simp only [step, hl, Mem.loadByte_eq]
    by_cases htop : addr < userTop
    · rw [if_pos htop, if_pos htop, (hviews addr htop).load_eq]
    · rw [if_neg htop, if_neg htop]

theorem step_fork {share : Bool} {parent child : ℕ} {oldmm : Mm}
    (hp : s.mm parent = some oldmm) (hc : s.mm child = none) :
    s.step share (.fork parent child) = (s.mem.copyMm share oldmm).map (s.forkResult child) := by
  simp only [step, hp, hc]

theorem step_fork_noProc {share : Bool} {parent child : ℕ}
    (h : s.mm parent = none ∨ s.mm child ≠ none) :
    s.step share (.fork parent child) = some (.noProc, s) := by
  rcases h with h | h
  · simp only [step, h]
  · cases hp : s.mm parent with
    | none => simp only [step, hp]
    | some a =>
      cases hc : s.mm child with
      | none => exact absurd hc h
      | some b => simp only [step, hp, hc]

/-- The result of a fork that does not fail. -/
theorem Ok.step_fork (h : s.Ok) {share : Bool} {parent child : ℕ} {oldmm : Mm} {o : Outcome}
    {s' : Procs M} (hp : s.mm parent = some oldmm) (hc : s.mm child = none) (ho : o ≠ .noMem)
    (hs : s.step share (.fork parent child) = some (o, s')) :
    o = .forked ∧ ∃ mm, Mem.Forked ∅ share s.mem s'.mem oldmm mm ∧
      s'.mm = Function.update s.mm child (some mm) := by
  rw [Procs.step_fork hp hc] at hs
  obtain ⟨⟨r, m', mm⟩, hcopy, heq⟩ := Option.map_eq_some_iff.mp hs
  rcases h.ref.copyMm (h.sorted parent oldmm hp) (h.pgdir parent oldmm hp) hcopy with
    ⟨_, rfl⟩ | ⟨-, mm', rfl, hf⟩
  · obtain ⟨rfl, rfl⟩ := Prod.mk.inj heq
    exact absurd rfl ho
  · obtain ⟨rfl, rfl⟩ := Prod.mk.inj heq
    exact ⟨rfl, mm', hf, rfl⟩

theorem Sim.fork (h : Sim s t) {parent child : ℕ} {o : Outcome} {t' : Procs M}
    (ho : o ≠ .noMem) (ht : t.step false (.fork parent child) = some (o, t'))
    (hs : ∀ s', s.step true (.fork parent child) ≠ some (.noMem, s')) :
    ∃ s', s.step true (.fork parent child) = some (o, s') ∧ Sim s' t' := by
  rcases h.cases child with ⟨hcl, hce⟩ | ⟨cl, ce, hcl, hce, -⟩
  · rcases h.cases parent with ⟨hl, he⟩ | ⟨l, e, hl, he, hlist, hviews⟩
    · rw [step_fork_noProc (Or.inl he)] at ht
      obtain ⟨rfl, rfl⟩ := Prod.mk.inj (Option.some.inj ht)
      exact ⟨s, step_fork_noProc (Or.inl hl), h⟩
    · obtain ⟨rfl, e', hfe, hte⟩ := h.right.step_fork he hce ho ht
      obtain ⟨r, m₁, mm₁, hcopy⟩ := h.left.ref.copyMm_share_exists
        (h.left.sorted parent l hl) (h.left.pgdir parent l hl)
      obtain ⟨⟨o₁, s'⟩, hstep⟩ : ∃ x, s.step true (.fork parent child) = some x := by
        rw [Procs.step_fork hl hcl, hcopy]
        exact ⟨_, rfl⟩
      have ho₁ : o₁ ≠ .noMem := by
        rintro rfl
        exact hs s' hstep
      obtain ⟨rfl, l', hfl, hsl⟩ := h.left.step_fork hl hcl ho₁ hstep
      refine ⟨s', hstep, ?_, ?_, ?_⟩
      · have hok := h.left.fork hl hcl hfl
        rw [← hsl] at hok
        exact hok
      · have hok := h.right.fork he hce hfe
        rw [← hte] at hok
        exact hok
      · intro p
        have hnl : l.pgdir ≠ l'.pgdir := hfl.ne_child (h.left.pgdir parent l hl)
        have hne : e.pgdir ≠ e'.pgdir := hfe.ne_child (h.right.pgdir parent e he)
        rw [hsl, hte]
        by_cases hpc : p = child
        · -- the child: the parent's pages, without write permission or copied
          subst hpc
          rw [Function.update_self, Function.update_self]
          refine Option.Rel.some ⟨by rw [hfl.areas, hfe.areas, hlist], fun la hla => ?_⟩
          rw [AreaWritable_of_list hfe.areas, hfl.view_child hla (h.left.area parent l hl la hla),
            hfe.view_child hla (h.right.area parent e he la hla)]
          exact (hviews la hla).strip
        · rw [Function.update_of_ne hpc, Function.update_of_ne hpc]
          rcases h.cases p with ⟨hsp, htp⟩ | ⟨a, b, hsp, htp, hab, habv⟩
          · rw [hsp, htp]
            exact Option.Rel.none
          · rw [hsp, htp]
            refine Option.Rel.some ⟨hab, fun la hla => ?_⟩
            have hna : a.pgdir ≠ l'.pgdir := hfl.ne_child (h.left.pgdir p a hsp)
            have hnb : b.pgdir ≠ e'.pgdir := hfe.ne_child (h.right.pgdir p b htp)
            have hright : t'.mem.view b.pgdir la = t.mem.view b.pgdir la :=
              hfe.view_other hla hnb (Or.inl rfl)
            rw [hright]
            by_cases hpp : a.pgdir = l.pgdir
            · rw [hpp, hfl.view_parent hla hnl (h.left.area parent l hl la hla), ← hpp]
              exact (habv la hla).strip
            · rw [hfl.view_other hla hna (Or.inr hpp)]
              exact habv la hla
  · have hne : ∀ {u : Procs M} {c : Mm}, u.mm child = some c → u.mm child ≠ none := by
      intro u c hc hn
      rw [hc] at hn
      exact absurd hn (by simp)
    rw [step_fork_noProc (Or.inr (hne hce))] at ht
    obtain ⟨rfl, rfl⟩ := Prod.mk.inj (Option.some.inj ht)
    exact ⟨s, step_fork_noProc (Or.inr (hne hcl)), h⟩

theorem Sim.exit (h : Sim s t) {pid : ℕ} {o : Outcome} {t' : Procs M}
    (ht : t.step false (.exit pid) = some (o, t')) :
    ∃ s', s.step true (.exit pid) = some (o, s') ∧ Sim s' t' := by
  rcases h.cases pid with ⟨hl, he⟩ | ⟨l, e, hl, he, -⟩
  · simp only [step, he, Option.some.injEq, Prod.mk.injEq] at ht
    obtain ⟨rfl, rfl⟩ := ht
    exact ⟨s, by simp only [step, hl], h⟩
  · simp only [step, he] at ht
    obtain ⟨me, hme, heq⟩ := Option.map_eq_some_iff.mp ht
    obtain ⟨rfl, rfl⟩ := Prod.mk.inj heq
    obtain ⟨ms, hms, -⟩ := h.left.ref.exitMmap_exists (h.left.pgdir pid l hl)
    have hdl := h.left.ref.exitMmap (h.left.pgdir pid l hl) (h.left.area pid l hl) hms
    have hde := h.right.ref.exitMmap (h.right.pgdir pid e he) (h.right.area pid e he) hme
    refine ⟨⟨ms.putPgdir l.pgdir, Function.update s.mm pid none⟩, ?_, h.left.exit hl hdl,
      h.right.exit he hde, ?_⟩
    · simp only [step, hl, hms, Option.map_some]
    · intro p
      by_cases hp : p = pid
      · subst hp
        simp only [Function.update_self]
        exact Option.Rel.none
      · simp only [Function.update_of_ne hp]
        rcases h.cases p with ⟨hsp, htp⟩ | ⟨a, b, hsp, htp, hab, habv⟩
        · rw [hsp, htp]
          exact Option.Rel.none
        · rw [hsp, htp]
          refine Option.Rel.some ⟨hab, fun la hla => ?_⟩
          have hna : a.pgdir ≠ l.pgdir := fun heq => hp (h.left.inj p pid a l hsp hl heq)
          have hnb : b.pgdir ≠ e.pgdir := fun heq => hp (h.right.inj p pid b e htp he heq)
          rw [hdl.view _ hna la hla, hde.view _ hnb la hla]
          exact habv la hla

/-- Every operation of the copying system is matched by the sharing system. -/
theorem Sim.step (h : Sim s t) {op : ProcOp} {o : Outcome} {t' : Procs M} (ho : o ≠ .noMem)
    (ht : t.step false op = some (o, t')) (hs : ∀ s', s.step true op ≠ some (.noMem, s')) :
    ∃ s', s.step true op = some (o, s') ∧ Sim s' t' := by
  cases op with
  | load pid addr => exact h.load ht
  | store pid addr b => exact h.store ho ht hs
  | fork parent child => exact h.fork ho ht hs
  | exit pid => exact h.exit ht

theorem mem_run_of_mem {share : Bool} {ops : List ProcOp} {outs outs' : List Outcome}
    {s' : Procs M} {o : Outcome} (h : runOps (logStep share) (outs, s) ops = some (outs', s'))
    (ho : o ∈ outs) : o ∈ outs' := by
  induction ops generalizing s outs with
  | nil =>
    obtain ⟨rfl, -⟩ := Prod.mk.inj (Option.some.inj h)
    exact ho
  | cons op ops ih =>
    obtain ⟨⟨outs₁, s₁⟩, h₁, h⟩ := runOps_cons h
    obtain ⟨⟨o₁, s₂⟩, -, heq⟩ := Option.map_eq_some_iff.mp h₁
    obtain ⟨rfl, rfl⟩ := Prod.mk.inj heq
    exact ih h (List.mem_append_left _ ho)

theorem Sim.run {ops : List ProcOp} {outs outs' : List Outcome} (h : Sim s t) {t' : Procs M}
    (ht : runOps (logStep false) (outs, t) ops = some (outs', t')) (hno : .noMem ∉ outs')
    (hs : RunMeets (logStep true) (AllocSucceeds true) (outs, s) ops) :
    ∃ s', runOps (logStep true) (outs, s) ops = some (outs', s') ∧ Sim s' t' := by
  induction ops generalizing s t outs with
  | nil =>
    obtain ⟨rfl, rfl⟩ := Prod.mk.inj (Option.some.inj ht)
    exact ⟨s, rfl, h⟩
  | cons op ops ih =>
    obtain ⟨⟨outs₁, t₁⟩, ht₁, ht⟩ := runOps_cons ht
    obtain ⟨⟨o, t₂⟩, hstep, heq⟩ := Option.map_eq_some_iff.mp ht₁
    obtain ⟨rfl, rfl⟩ := Prod.mk.inj heq
    obtain ⟨hfirst, hrest⟩ := hs
    -- outcomes are only ever appended
    have ho : o ≠ .noMem := by
      rintro rfl
      exact hno (mem_run_of_mem ht (by simp))
    obtain ⟨s₁, hs₁, hsim⟩ := h.step ho hstep hfirst
    have hlog : logStep true (outs, s) op = some (outs ++ [o], s₁) := by
      unfold logStep
      rw [hs₁]
      rfl
    obtain ⟨s', hs', hsim'⟩ := ih hsim ht (hrest _ hlog)
    exact ⟨s', by rw [runOps, hlog, Option.bind_some]; exact hs', hsim'⟩

theorem sim_refl (h : s.Ok) (hw : s.WritableAreas) : Sim s s := by
  refine ⟨h, h, fun p => ?_⟩
  cases hp : s.mm p with
  | none => exact Option.Rel.none
  | some mm =>
    refine Option.Rel.some ⟨rfl, fun la hla => ?_⟩
    have hiff := hw p mm hp la hla
    unfold Mem.view
    by_cases hv : hasFlag (s.mem.entry mm.pgdir la) pteV = true
    · rw [if_pos hv]
      refine ⟨rfl, rfl, rfl, ?_, ?_⟩
      · rw [hasFlag_and_pteUser_write]
        exact (hiff hv).mp
      · rw [hasFlag_and_pteUser_write]
        exact hiff hv
    · rw [if_neg hv]
      trivial

/-- One writable page of user memory. -/
def smallVma : Vma where
  vmStart := userBase
  vmEnd := userBase + pgSize
  vmFlags := vmWrite
  start_aligned := by decide
  end_aligned := by decide
  user := by decide

/-- The page is mapped in the directory on page 0. -/
def smallMapped : Mem (freeListPmm 8) :=
  ((Mem.smallMem.setupPgdir.2.pgdirAllocPage 0 userBase 0x17).map Prod.snd).getD Mem.smallMem

/-- One process with that page. -/
def smallProcs : Procs (freeListPmm 8) where
  mem := smallMapped
  mm p := if p = 0 then some ⟨[smallVma], none, 0, 1⟩ else none

theorem smallMapped_spec : smallMapped.RefInv ∅ ∅ ∧
    Mem.Changed Mem.smallMem.setupPgdir.2 smallMapped 0 userBase
      (pteCreate 1 (pteV ||| 0x17)) := by
  have hi := Mem.refInv_of_no_pgdir (m := Mem.smallMem) (fun _ => rfl) (fun _ _ => rfl)
  have hi₁ : Mem.RefInv ∅ ∅ Mem.smallMem.setupPgdir.2 :=
    { hi.setupPgdir.1 with kept := fun p hp => absurd hp (Set.notMem_empty p) }
  have hres : ∃ m, Mem.smallMem.setupPgdir.2.pgdirAllocPage 0 userBase 0x17 = some (some 1, m) :=
    ⟨_, rfl⟩
  obtain ⟨m, hm⟩ := hres
  have hmap : smallMapped = m := by
    unfold smallMapped
    rw [hm]
    rfl
  obtain ⟨hi₂, hc⟩ := hi₁.pgdirAllocPage (by decide) (by decide) hm
  rw [hmap]
  exact ⟨hi₂, hc 1 rfl⟩

theorem smallProcs_view {la : ℕ} (hla : la < userTop)
    (hv : hasFlag (smallProcs.mem.entry 0 la) pteV = true) :
    la / pgSize = userBase / pgSize ∧
      smallProcs.mem.entry 0 la = pteCreate 1 (pteV ||| 0x17) := by
  have hentry := smallMapped_spec.2.entry 0 la hla
  have hmem : smallProcs.mem.entry 0 la = smallMapped.entry 0 la := rfl
  rw [hmem, hentry] at hv ⊢
  by_cases hpage : la / pgSize = userBase / pgSize
  · exact ⟨hpage, if_pos ⟨rfl, hpage⟩⟩
  · rw [if_neg (fun hbad => hpage hbad.2)] at hv
    have hzero : Mem.smallMem.setupPgdir.2.entry 0 la = 0 := rfl
    rw [hzero] at hv
    exact absurd hv (by decide)

theorem smallVma_contains {la : ℕ} (h : la / pgSize = userBase / pgSize) :
    smallVma.Contains la := by
  rw [Mm.contains_congr smallVma h]
  decide

theorem smallProcs_mm {p : ℕ} {mm : Mm} (h : smallProcs.mm p = some mm) :
    p = 0 ∧ mm = ⟨[smallVma], none, 0, 1⟩ := by
  unfold smallProcs at h
  simp only at h
  split at h
  · exact ⟨by assumption, (Option.some.inj h).symm⟩
  · exact absurd h (by simp)

theorem smallProcs_ok : smallProcs.Ok ∧ smallProcs.WritableAreas := by
  constructor
  · refine ⟨smallMapped_spec.1, ?_, ?_, ?_, ?_⟩
    · intro p mm h
      obtain ⟨rfl, rfl⟩ := smallProcs_mm h
      rfl
    · intro p q a b ha hb _
      rw [(smallProcs_mm ha).1, (smallProcs_mm hb).1]
    · intro p mm h
      obtain ⟨rfl, rfl⟩ := smallProcs_mm h
      exact ⟨List.pairwise_singleton _ _, by simp⟩
    · intro p mm h la hla hv
      obtain ⟨rfl, rfl⟩ := smallProcs_mm h
      rw [Mem.isSome_view] at hv
      exact ⟨smallVma, List.mem_singleton_self _, smallVma_contains (smallProcs_view hla hv).1⟩
  · intro p mm h la hla hv
    obtain ⟨rfl, rfl⟩ := smallProcs_mm h
    obtain ⟨hpage, hentry⟩ := smallProcs_view hla hv
    rw [hentry]
    refine ⟨fun _ => ⟨smallVma, List.mem_singleton_self _, smallVma_contains hpage, by decide⟩,
      fun _ => by decide⟩

end Procs
end Ucore.Vm
