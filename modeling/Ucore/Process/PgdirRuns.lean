import Ucore.Process.Pgdir
import Ucore.Library.Holders
import Ucore.Library.Run

/-!
No process runs on a freed page table, as long as none blocks after it has released its
`mm`. Between the release and the next assignment of `current->pgdir` the field names a page
directory that the process no longer holds.
-/
namespace Ucore.Process

open Library

/-- The process has given up its `mm` and still has the old `pgdir`. -/
def Pc.Released : Pc → Prop
  | .loading released _ => released = true
  | .exiting released => released = true
  | _ => False

/-- The process has no `mm`. -/
def Pc.Bare : Pc → Prop
  | .loading _ _ => True
  | .exiting _ => True
  | _ => False

instance : (pc : Pc) → Decidable pc.Released
  | .plain => inferInstanceAs (Decidable False)
  | .forking _ => inferInstanceAs (Decidable False)
  | .loading released _ => inferInstanceAs (Decidable (released = true))
  | .exiting released => inferInstanceAs (Decidable (released = true))

namespace Procs

/-- What `proc_run` loads is `boot_pgdir_pa` or the page directory of a live `mm_struct`, and
the former if the process has no `mm`. -/
def RunsOnLive (s : Procs) (p : ℕ) : Prop :=
  ((s.proc p).pgdir = bootPgdir ∨ ∃ m a, s.mm m = some a ∧ (s.proc p).pgdir = a.pgdir) ∧
  ((s.proc p).mm = none → (s.proc p).pgdir = bootPgdir)

/-- A process that has released its `mm` does not call `schedule()` before it has a new `pgdir`
or is a zombie. -/
def KeepsCpu (s : Procs) : ProcOp → Prop
  | .block _ => ¬ s.cur.pc.Released
  | .yield _ => ¬ s.cur.pc.Released
  | _ => True

instance (s : Procs) : (op : ProcOp) → Decidable (s.KeepsCpu op)
  | .block _ => inferInstanceAs (Decidable (¬ s.cur.pc.Released))
  | .yield _ => inferInstanceAs (Decidable (¬ s.cur.pc.Released))
  | .fork .. => inferInstanceAs (Decidable True)
  | .forkDone => inferInstanceAs (Decidable True)
  | .forkUndo => inferInstanceAs (Decidable True)
  | .execve => inferInstanceAs (Decidable True)
  | .loadMm .. => inferInstanceAs (Decidable True)
  | .loadDone => inferInstanceAs (Decidable True)
  | .loadFail => inferInstanceAs (Decidable True)
  | .exit => inferInstanceAs (Decidable True)
  | .zombie _ => inferInstanceAs (Decidable True)
  | .wakeup _ => inferInstanceAs (Decidable True)
  | .wait _ => inferInstanceAs (Decidable True)

def mmOf (s : Procs) (p : ℕ) : Option ℕ := (s.proc p).mm

/-- What holds of one process. -/
structure ProcOk (s : Procs) (p : ℕ) : Prop where
  attached : ∀ m, (s.proc p).mm = some m → ∃ a, s.mm m = some a ∧ (s.proc p).pgdir = a.pgdir
  detached : (s.proc p).mm = none → (s.proc p).pgdir = bootPgdir ∨ (s.proc p).state = .zombie ∨
    (p = s.current ∧ (s.proc p).pc.Released)
  released : (s.proc p).pc.Released → (s.proc p).mm = none ∧ (s.proc p).pgdir ≠ bootPgdir
  zombie : (s.proc p).state = .zombie → p ≠ s.current ∧ (s.proc p).mm = none
  uninit : (s.proc p).state = .uninit → p ≠ s.current ∧ (s.proc p).pc = .plain
  bare : (s.proc p).pc.Bare → (s.proc p).mm = none
  newMm : ∀ r m, (s.proc p).pc = .loading r (some m) → ∃ a, s.mm m = some a ∧ a.mmCount = 0
  forking : ∀ c, (s.proc p).pc = .forking c → c ∈ s.pids ∧ (s.proc c).state = .uninit

structure Inv (s : Procs) : Prop where
  current : s.current ∈ s.pids
  idle : idleproc ∈ s.pids ∧ (s.proc idleproc).state ≠ .uninit ∧
    (s.proc idleproc).state ≠ .zombie ∧ ∀ r, (s.proc idleproc).pc ≠ .exiting r
  procs : ∀ p ∈ s.pids, s.ProcOk p
  count : ∀ m a, s.mm m = some a → a.mmCount = holders s.pids s.mmOf m
  page : ∀ m a, s.mm m = some a → a.pgdir ≠ bootPgdir
  newMm : ∀ p ∈ s.pids, ∀ q ∈ s.pids, ∀ r r' m, (s.proc p).pc = .loading r (some m) →
    (s.proc q).pc = .loading r' (some m) → p = q
  child : ∀ p ∈ s.pids, ∀ q ∈ s.pids, ∀ c, (s.proc p).pc = .forking c →
    (s.proc q).pc = .forking c → p = q

variable {s s' : Procs} {p : ℕ}

theorem inv_boot : Inv boot := by
  have hok : ∀ p, boot.ProcOk p := by
    intro p
    constructor
    case detached => exact fun _ => Or.inl rfl
    all_goals simp [boot, allocProc, Pc.Released, Pc.Bare]
  refine ⟨by simp [boot], by simp [boot, allocProc], fun p _ => hok p, by simp [boot], by simp [boot], ?_, ?_⟩
  · intro p _ q _ r r' m h
    exact absurd h (by simp [boot, allocProc])
  · intro p _ q _ c h
    exact absurd h (by simp [boot, allocProc])

/-- The `mm`s that a process uses are there. -/
structure Keeps (pr : Proc) (mm mm' : ℕ → Option MmStruct) : Prop where
  own : ∀ m a, pr.mm = some m → mm m = some a → ∃ a', mm' m = some a' ∧ a'.pgdir = a.pgdir
  new : ∀ r m, pr.pc = .loading r (some m) → mm' m = mm m

theorem Keeps.refl (pr : Proc) (mm : ℕ → Option MmStruct) : Keeps pr mm mm :=
  ⟨fun _ a _ h => ⟨a, h, rfl⟩, fun _ _ _ => rfl⟩

/-- A process that is not touched. -/
theorem ProcOk.frame (hp : s.ProcOk p) (hproc : s'.proc p = s.proc p) (hcur : s'.current = s.current)
    (hkeep : Keeps (s.proc p) s.mm s'.mm)
    (hfork : ∀ c, (s.proc p).pc = .forking c → c ∈ s'.pids ∧ (s'.proc c).state = .uninit) :
    s'.ProcOk p := by
  constructor
  case attached =>
    rw [hproc]
    intro m hm
    obtain ⟨a, ha, hpg⟩ := hp.attached m hm
    obtain ⟨a', ha', hpg'⟩ := hkeep.own m a hm ha
    exact ⟨a', ha', hpg.trans hpg'.symm⟩
  case detached =>
    rw [hproc, hcur]
    exact hp.detached
  case released =>
    rw [hproc]
    exact hp.released
  case zombie =>
    rw [hproc, hcur]
    exact hp.zombie
  case uninit =>
    rw [hproc, hcur]
    exact hp.uninit
  case bare =>
    rw [hproc]
    exact hp.bare
  case newMm =>
    rw [hproc]
    intro r m hm
    obtain ⟨a, ha, hz⟩ := hp.newMm r m hm
    exact ⟨a, (hkeep.new r m hm).trans ha, hz⟩
  case forking =>
    rw [hproc]
    exact hfork

theorem mmOf_setProc (s : Procs) (p : ℕ) (pr : Proc) :
    (s.setProc p pr).mmOf = Function.update s.mmOf p pr.mm := by
  funext q
  by_cases hq : q = p
  · subst hq
    simp [mmOf, setProc]
  · simp [mmOf, setProc, Function.update_of_ne hq]

/-- A step in which only the current process and the `mm`s change. -/
theorem Inv.curStep (hi : Inv s) {pr : Proc} {mm' : ℕ → Option MmStruct} {satp' : ℕ}
    (hkeep : ∀ p ∈ s.pids, p ≠ s.current → Keeps (s.proc p) s.mm mm')
    (hok : (Procs.mk s.pids (Function.update s.proc s.current pr) mm' s.current satp').ProcOk s.current)
    (hstate : pr.state = s.cur.state) (hidle : ∀ r, pr.pc = .exiting r → s.current ≠ idleproc)
    (hcount : ∀ m a, mm' m = some a →
      a.mmCount = holders s.pids (Function.update s.mmOf s.current pr.mm) m)
    (hpage : ∀ m a, mm' m = some a → a.pgdir ≠ bootPgdir)
    (hnew : ∀ r m, pr.pc = .loading r (some m) →
      (∃ r', s.cur.pc = .loading r' (some m)) ∨ s.mm m = none)
    (hfork : ∀ c, pr.pc = .forking c → s.cur.pc = .forking c) :
    Inv (Procs.mk s.pids (Function.update s.proc s.current pr) mm' s.current satp') := by
  have hsame : ∀ q, q ≠ s.current → Function.update s.proc s.current pr q = s.proc q :=
    fun q hq => Function.update_of_ne hq _ _
  have hst : ∀ q, (Function.update s.proc s.current pr q).state = (s.proc q).state := by
    intro q
    by_cases hq : q = s.current
    · subst hq
      rw [Function.update_self]
      exact hstate
    · rw [hsame q hq]
  have hmm : (Procs.mk s.pids (Function.update s.proc s.current pr) mm' s.current satp').mmOf =
      Function.update s.mmOf s.current pr.mm := mmOf_setProc s s.current pr
  constructor
  case current => exact hi.current
  case idle =>
    obtain ⟨h1, h2, h3, h4⟩ := hi.idle
    refine ⟨h1, (hst _).symm ▸ h2, (hst _).symm ▸ h3, ?_⟩
    intro r hr
    by_cases hq : idleproc = s.current
    · simp only [hq, Function.update_self] at hr
      exact hidle r hr hq.symm
    · simp only [hsame _ hq] at hr
      exact h4 r hr
  case procs =>
    intro q hq
    by_cases hqc : q = s.current
    · exact hqc ▸ hok
    · refine ProcOk.frame (hi.procs q hq) ?_ ?_ ?_ ?_
      · exact hsame q hqc
      · rfl
      · exact hkeep q hq hqc
      · intro c hc
        obtain ⟨h1, h2⟩ := (hi.procs q hq).forking c hc
        exact ⟨h1, (hst c).trans h2⟩
  case count =>
    intro m a ha
    rw [hmm]
    exact hcount m a ha
  case page => exact hpage
  case newMm =>
    -- a number that only now becomes the new `mm` of the current process was not in use
    have hcur : ∀ q ∈ s.pids, q ≠ s.current → ∀ r r' m, pr.pc = .loading r (some m) →
        (s.proc q).pc ≠ .loading r' (some m) := by
      intro q hq hqc r r' m hpr hqm
      rcases hnew r m hpr with ⟨r'', hold⟩ | hnone
      · exact hqc (hi.newMm q hq s.current hi.current r' r'' m hqm hold)
      · obtain ⟨a, ha, -⟩ := (hi.procs q hq).newMm r' m hqm
        rw [hnone] at ha
        exact absurd ha (by simp)
    intro q hq q' hq' r r' m h h'
    by_cases hqc : q = s.current
    · by_cases hqc' : q' = s.current
      · rw [hqc, hqc']
      · simp only [hqc, Function.update_self] at h
        simp only [hsame q' hqc'] at h'
        exact absurd h' (hcur q' hq' hqc' r r' m h)
    · simp only [hsame q hqc] at h
      by_cases hqc' : q' = s.current
      · simp only [hqc', Function.update_self] at h'
        exact absurd h (hcur q hq hqc r' r m h')
      · simp only [hsame q' hqc'] at h'
        exact hi.newMm q hq q' hq' r r' m h h'
  case child =>
    have hpc : ∀ q c, (Function.update s.proc s.current pr q).pc = .forking c →
        (s.proc q).pc = .forking c := by
      intro q c h
      by_cases hqc : q = s.current
      · subst hqc
        rw [Function.update_self] at h
        exact hfork c h
      · rw [hsame q hqc] at h
        exact h
    intro q hq q' hq' c h h'
    exact hi.child q hq q' hq' c (hpc q c h) (hpc q' c h')

/-! Giving up an `mm`. -/

/-- The count goes down, and the page directory goes with the last process. -/
theorem Inv.dropMm (hi : Inv s) (hp : p ∈ s.pids) {m : ℕ} (hm : (s.proc p).mm = some m) :
    ∃ mm', s.dropMm m = some { s with mm := mm' } ∧
      (∀ q ∈ s.pids, q ≠ p → Keeps (s.proc q) s.mm mm') ∧
      (∀ k a, mm' k = some a → a.mmCount = holders s.pids (Function.update s.mmOf p none) k) ∧
      ∀ k a, mm' k = some a → a.pgdir ≠ bootPgdir := by
  obtain ⟨a, ha, -⟩ := (hi.procs p hp).attached m hm
  have hcount := hi.count m a ha
  have hpos : 0 < holders s.pids s.mmOf m := holders_pos_iff.mpr ⟨p, hp, hm⟩
  have hupd : ∀ k, holders s.pids (Function.update s.mmOf p none) k + (if some m = some k then 1 else 0) =
      holders s.pids s.mmOf k := by
    intro k
    have h := holders_update hp s.mmOf none k
    rw [show s.mmOf p = some m from hm] at h
    simpa only [reduceCtorEq, if_false, Nat.add_zero] using h
  have hself : holders s.pids (Function.update s.mmOf p none) m + 1 = holders s.pids s.mmOf m := by
    have h := hupd m
    rwa [if_pos rfl] at h
  have hother : ∀ k, k ≠ m → holders s.pids (Function.update s.mmOf p none) k =
      holders s.pids s.mmOf k := by
    intro k hk
    have h := hupd k
    have hne : some m ≠ some k := fun heq => hk (Option.some.inj heq).symm
    rwa [if_neg hne, Nat.add_zero] at h
  -- the `mm` of a `load_icode` under way is not counted, so it is another one
  have hnew : ∀ q ∈ s.pids, ∀ r k, (s.proc q).pc = .loading r (some k) → k ≠ m := by
    intro q hq r k hk heq
    obtain ⟨b, hb, hz⟩ := (hi.procs q hq).newMm r k hk
    rw [heq, ha] at hb
    obtain rfl := Option.some.inj hb
    omega
  by_cases hlast : a.mmCount - 1 = 0
  · refine ⟨Function.update s.mm m none, ?_, ?_, ?_, ?_⟩
    · simp only [Procs.dropMm, ha, Option.map_some, hlast, if_true]
      rfl
    · intro q hq hqp
      refine ⟨?_, fun r k hk => Function.update_of_ne (hnew q hq r k hk) _ _⟩
      intro k b hk hb
      have hkm : k ≠ m := by
        intro heq
        subst heq
        have hone : holders s.pids s.mmOf k = 1 := by omega
        exact hqp (eq_of_holders_eq_one hone hq hp hk hm)
      exact ⟨b, (Function.update_of_ne hkm _ _).trans hb, rfl⟩
    · intro k b hb
      by_cases hkm : k = m
      · rw [hkm, Function.update_self] at hb
        exact absurd hb (by simp)
      · rw [Function.update_of_ne hkm] at hb
        rw [hother k hkm]
        exact hi.count k b hb
    · intro k b hb
      by_cases hkm : k = m
      · rw [hkm, Function.update_self] at hb
        exact absurd hb (by simp)
      · rw [Function.update_of_ne hkm] at hb
        exact hi.page k b hb
  · refine ⟨Function.update s.mm m (some { a with mmCount := a.mmCount - 1 }), ?_, ?_, ?_, ?_⟩
    · simp only [Procs.dropMm, ha, Option.map_some, hlast, if_false]
      rfl
    · intro q hq hqp
      refine ⟨?_, fun r k hk => Function.update_of_ne (hnew q hq r k hk) _ _⟩
      intro k b hk hb
      by_cases hkm : k = m
      · subst hkm
        rw [ha] at hb
        obtain rfl := Option.some.inj hb
        exact ⟨_, Function.update_self .., rfl⟩
      · exact ⟨b, (Function.update_of_ne hkm _ _).trans hb, rfl⟩
    · intro k b hb
      by_cases hkm : k = m
      · subst hkm
        rw [Function.update_self] at hb
        obtain rfl := Option.some.inj hb
        show a.mmCount - 1 = _
        omega
      · rw [Function.update_of_ne hkm] at hb
        rw [hother k hkm]
        exact hi.count k b hb
    · intro k b hb
      by_cases hkm : k = m
      · subst hkm
        rw [Function.update_self] at hb
        obtain rfl := Option.some.inj hb
        exact hi.page k a ha
      · rw [Function.update_of_ne hkm] at hb
        exact hi.page k b hb

/-- The current process is none of those that never run. -/
theorem Inv.curState (hi : Inv s) : s.cur.state ≠ .zombie ∧ s.cur.state ≠ .uninit :=
  ⟨fun h => ((hi.procs _ hi.current).zombie h).1 rfl, fun h => ((hi.procs _ hi.current).uninit h).1 rfl⟩

theorem Inv.ne_current (hi : Inv s) {c : ℕ} (h : (s.proc c).state = .uninit) : c ≠ s.current := by
  rintro rfl
  exact hi.curState.2 h

/-- `do_execve` and `do_exit` up to the release of the `mm`. -/
theorem Inv.releaseMm (hi : Inv s) (hplain : s.cur.pc = .plain) {pc : Bool → Pc}
    (hrel : ∀ b, (pc b).Released ↔ b = true) (hload : ∀ b r m, pc b ≠ .loading r (some m))
    (hfork : ∀ b c, pc b ≠ .forking c)
    (hidle : ∀ b r, pc b = .exiting r → s.current ≠ idleproc) :
    ∃ s', s.releaseMm pc = some s' ∧ Inv s' := by
  have hok := hi.procs _ hi.current
  obtain ⟨hnz, hnu⟩ := hi.curState
  cases hm : s.cur.mm with
  | none =>
    refine ⟨s.setCur { s.cur with pc := pc false }, by simp only [Procs.releaseMm, hm], ?_⟩
    refine hi.curStep ?_ ?_ rfl ?_ ?_ hi.page ?_ ?_
    · exact fun q _ _ => Keeps.refl _ _
    · have hboot : s.cur.pgdir = bootPgdir := by
        rcases hok.detached hm with h | h | ⟨-, h⟩
        · exact h
        · exact absurd h hnz
        · exfalso
          rw [show (s.proc s.current).pc = .plain from hplain] at h
          exact h
      have hno : ¬ (pc false).Released := by simp [hrel]
      constructor
      all_goals simp only [Function.update_self]
      case attached => exact fun m h => absurd (hm.symm.trans h) (by simp)
      case detached => exact fun _ => Or.inl hboot
      case released => exact fun h => absurd h hno
      case zombie => exact fun h => absurd h hnz
      case uninit => exact fun h => absurd h hnu
      case bare => exact fun _ => hm
      case newMm => exact fun r m h => absurd h (hload false r m)
      case forking => exact fun c h => absurd h (hfork false c)
    · exact hidle false
    · intro k a ha
      rw [show s.cur.mm = s.mmOf s.current from rfl, Function.update_eq_self]
      exact hi.count k a ha
    · exact fun r m h => absurd h (hload false r m)
    · exact fun c h => absurd h (hfork false c)
  | some m =>
    obtain ⟨a, ha, hpg⟩ := hok.attached m hm
    obtain ⟨mm', hdrop, hkeep, hcount, hpage⟩ := hi.dropMm hi.current hm
    refine ⟨Procs.mk s.pids (Function.update s.proc s.current { s.cur with mm := none, pc := pc true })
      mm' s.current bootPgdir, by simp only [Procs.releaseMm, hm, hdrop]; rfl, ?_⟩
    refine hi.curStep hkeep ?_ rfl ?_ hcount hpage ?_ ?_
    case refine_2 => exact hidle true
    case refine_3 => exact fun r m h => absurd h (hload true r m)
    case refine_4 => exact fun c h => absurd h (hfork true c)
    have hyes : (pc true).Released := (hrel true).mpr rfl
    constructor
    all_goals simp only [Function.update_self]
    case attached => exact fun m h => absurd h (by simp)
    case detached => exact fun _ => Or.inr (Or.inr ⟨trivial, hyes⟩)
    case released => exact fun _ => ⟨trivial, fun h => hi.page m a ha (hpg.symm.trans h)⟩
    case zombie => exact fun h => absurd h hnz
    case uninit => exact fun h => absurd h hnu
    case bare => exact fun _ => trivial
    case newMm => exact fun r m h => absurd h (hload true r m)
    case forking => exact fun c h => absurd h (hfork true c)

/-! The `mm` of `load_icode`. -/

/-- Nobody uses an `mm` that is not there or is not counted. -/
theorem Inv.not_held (hi : Inv s) {m : ℕ} (h : ∀ a, s.mm m = some a → a.mmCount = 0) :
    ∀ q ∈ s.pids, (s.proc q).mm ≠ some m := by
  intro q hq hm
  obtain ⟨a, ha, -⟩ := (hi.procs q hq).attached m hm
  have hcount := hi.count m a ha
  have hpos : 0 < holders s.pids s.mmOf m := holders_pos_iff.mpr ⟨q, hq, hm⟩
  have hz := h a ha
  omega

theorem Inv.holders_eq_zero (hi : Inv s) {m : ℕ} (h : ∀ a, s.mm m = some a → a.mmCount = 0) :
    holders s.pids s.mmOf m = 0 := by
  by_contra hne
  obtain ⟨q, hq, hm⟩ := holders_pos_iff.mp (Nat.pos_of_ne_zero hne)
  exact hi.not_held h q hq hm

/-- The processes do not use the entry `m`, so it may change. -/
theorem Inv.keeps_unused (hi : Inv s) {m : ℕ} {v : Option MmStruct}
    (h : ∀ a, s.mm m = some a → a.mmCount = 0) {q : ℕ} (hq : q ∈ s.pids)
    (hnew : ∀ r, (s.proc q).pc ≠ .loading r (some m)) :
    Keeps (s.proc q) s.mm (Function.update s.mm m v) := by
  constructor
  case own =>
    intro k a hk ha
    have hkm : k ≠ m := by
      intro heq
      exact hi.not_held h q hq (heq ▸ hk)
    exact ⟨a, (Function.update_of_ne hkm _ _).trans ha, rfl⟩
  case new =>
    intro r k hk
    have hkm : k ≠ m := by
      intro heq
      exact hnew r (heq ▸ hk)
    exact Function.update_of_ne hkm _ _

theorem Inv.loadMm (hi : Inv s) {r : Bool} (hpc : s.cur.pc = .loading r none) {m page : ℕ}
    (hfree : s.mm m = none) (hpage : page ≠ bootPgdir) :
    Inv ((s.setMm m (some ⟨0, page⟩)).setCur { s.cur with pc := .loading r (some m) }) := by
  have hok := hi.procs _ hi.current
  have hz : ∀ a, s.mm m = some a → a.mmCount = 0 := by
    intro a ha
    rw [hfree] at ha
    exact absurd ha (by simp)
  have hbare : s.cur.mm = none := hok.bare (by rw [show (s.proc s.current).pc = _ from hpc]; trivial)
  have hrel : (s.proc s.current).pc.Released ↔ r = true := by
    rw [show (s.proc s.current).pc = _ from hpc]
    exact Iff.rfl
  obtain ⟨hnz, hnu⟩ := hi.curState
  refine hi.curStep ?_ ?_ rfl ?_ ?_ ?_ ?_ ?_
  · intro q hq _
    apply hi.keeps_unused hz hq
    intro r' hr'
    obtain ⟨a, ha, -⟩ := (hi.procs q hq).newMm r' m hr'
    rw [hfree] at ha
    exact absurd ha (by simp)
  · constructor
    all_goals simp only [Function.update_self]
    case attached => exact fun k h => absurd (hbare.symm.trans h) (by simp)
    case detached =>
      intro h
      rcases hok.detached h with h | h | ⟨-, h⟩
      · exact Or.inl h
      · exact absurd h hnz
      · exact Or.inr (Or.inr ⟨trivial, hrel.mp h⟩)
    case released => exact fun h => hok.released (hrel.mpr h)
    case zombie => exact fun h => absurd h hnz
    case uninit => exact fun h => absurd h hnu
    case bare => exact fun _ => hbare
    case newMm =>
      intro r' k h
      injection h with _ hk
      obtain rfl := Option.some.inj hk
      exact ⟨⟨0, page⟩, Function.update_self .., rfl⟩
    case forking => exact fun c h => absurd h (by simp)
  · exact fun r' h => absurd h (by simp)
  · intro k a ha
    rw [show s.cur.mm = s.mmOf s.current from rfl, Function.update_eq_self]
    by_cases hkm : k = m
    · subst hkm
      simp only [setMm, Function.update_self, Option.some.injEq] at ha
      rw [hi.holders_eq_zero hz, ← ha]
      rfl
    · simp only [setMm, Function.update_of_ne hkm] at ha
      exact hi.count k a ha
  · intro k a ha
    by_cases hkm : k = m
    · subst hkm
      simp only [setMm, Function.update_self, Option.some.injEq] at ha
      exact ha ▸ hpage
    · simp only [setMm, Function.update_of_ne hkm] at ha
      exact hi.page k a ha
  · intro r' k h
    injection h with _ hk
    obtain rfl := Option.some.inj hk
    exact Or.inr hfree
  · exact fun c h => absurd h (by simp)

theorem Inv.loadDone (hi : Inv s) {r : Bool} {m : ℕ} (hpc : s.cur.pc = .loading r (some m)) :
    ∃ s', s.loadDone m = some s' ∧ Inv s' := by
  have hok := hi.procs _ hi.current
  obtain ⟨a, ha, hzero⟩ := hok.newMm r m hpc
  have hz : ∀ b, s.mm m = some b → b.mmCount = 0 := by
    intro b hb
    rw [ha] at hb
    exact Option.some.inj hb ▸ hzero
  have hbare : s.cur.mm = none := hok.bare (by rw [show (s.proc s.current).pc = _ from hpc]; trivial)
  obtain ⟨hnz, hnu⟩ := hi.curState
  refine ⟨((s.setMm m (some { a with mmCount := 1 })).setSatp a.pgdir).setCur
    { s.cur with mm := some m, pgdir := a.pgdir, pc := .plain }, by simp only [Procs.loadDone, ha]; rfl, ?_⟩
  refine hi.curStep ?_ ?_ rfl ?_ ?_ ?_ ?_ ?_
  · intro q hq hqc
    apply hi.keeps_unused hz hq
    intro r' hr'
    exact hqc (hi.newMm q hq _ hi.current r' r m hr' hpc)
  · constructor
    all_goals simp only [Function.update_self]
    case attached =>
      intro k h
      obtain rfl := Option.some.inj h
      exact ⟨_, Function.update_self .., rfl⟩
    case detached => exact fun h => absurd h (by simp)
    case released => exact fun h => absurd h id
    case zombie => exact fun h => absurd h hnz
    case uninit => exact fun h => absurd h hnu
    case bare => exact fun h => absurd h id
    case newMm => exact fun r' k h => absurd h (by simp)
    case forking => exact fun c h => absurd h (by simp)
  · exact fun r' h => absurd h (by simp)
  · intro k b hb
    have hupd := holders_update hi.current s.mmOf (some m) k
    rw [show s.mmOf s.current = none from hbare] at hupd
    simp only [reduceCtorEq, if_false, Nat.add_zero] at hupd
    by_cases hkm : k = m
    · subst hkm
      simp only [setMm, setSatp, Function.update_self, Option.some.injEq] at hb
      rw [if_pos rfl, hi.holders_eq_zero hz] at hupd
      rw [hupd, ← hb]
      rfl
    · have hne : some m ≠ some k := fun heq => hkm (Option.some.inj heq).symm
      simp only [setMm, setSatp, Function.update_of_ne hkm] at hb
      rw [if_neg hne, Nat.add_zero] at hupd
      rw [hupd]
      exact hi.count k b hb
  · intro k b hb
    by_cases hkm : k = m
    · subst hkm
      simp only [setMm, setSatp, Function.update_self, Option.some.injEq] at hb
      exact hb ▸ hi.page k a ha
    · simp only [setMm, setSatp, Function.update_of_ne hkm] at hb
      exact hi.page k b hb
  · exact fun r' k h => absurd h (by simp)
  · exact fun c h => absurd h (by simp)

/-- `load_icode` fails, and `do_exit` is next. -/
theorem Inv.loadFail (hi : Inv s) {r : Bool} {newMm : Option ℕ} (hpc : s.cur.pc = .loading r newMm)
    (hmay : s.mayExit) : Inv ((s.dropNew newMm).setCur { s.cur with pc := .exiting r }) := by
  have hok := hi.procs _ hi.current
  have hbare : s.cur.mm = none := hok.bare (by rw [show (s.proc s.current).pc = _ from hpc]; trivial)
  have hrel : (s.proc s.current).pc.Released ↔ r = true := by
    rw [show (s.proc s.current).pc = _ from hpc]
    exact Iff.rfl
  obtain ⟨hnz, hnu⟩ := hi.curState
  have hsub : ∀ k a, (s.dropNew newMm).mm k = some a → s.mm k = some a := by
    intro k a ha
    cases newMm with
    | none => exact ha
    | some m =>
      by_cases hkm : k = m
      · simp only [hkm, dropNew, setMm, Function.update_self] at ha
        exact absurd ha (by simp)
      · simpa only [dropNew, setMm, Function.update_of_ne hkm] using ha
  have heq : (s.dropNew newMm).setCur { s.cur with pc := .exiting r } =
      Procs.mk s.pids (Function.update s.proc s.current { s.cur with pc := .exiting r })
        (s.dropNew newMm).mm s.current s.satp := by
    cases newMm <;> rfl
  rw [heq]
  refine hi.curStep ?_ ?_ rfl ?_ ?_ ?_ ?_ ?_
  · intro q hq hqc
    cases newMm with
    | none => exact Keeps.refl _ _
    | some m =>
      obtain ⟨a, ha, hzero⟩ := hok.newMm r m hpc
      apply hi.keeps_unused _ hq
      · intro r' hr'
        exact hqc (hi.newMm q hq _ hi.current r' r m hr' hpc)
      · intro b hb
        rw [ha] at hb
        exact Option.some.inj hb ▸ hzero
  · constructor
    all_goals simp only [Function.update_self]
    case attached => exact fun k h => absurd (hbare.symm.trans h) (by simp)
    case detached =>
      intro h
      rcases hok.detached h with h | h | ⟨-, h⟩
      · exact Or.inl h
      · exact absurd h hnz
      · exact Or.inr (Or.inr ⟨trivial, hrel.mp h⟩)
    case released => exact fun h => hok.released (hrel.mpr h)
    case zombie => exact fun h => absurd h hnz
    case uninit => exact fun h => absurd h hnu
    case bare => exact fun _ => hbare
    case newMm => exact fun r' k h => absurd h (by simp)
    case forking => exact fun c h => absurd h (by simp)
  · exact fun r' _ => hmay.1
  · intro k a ha
    rw [show s.cur.mm = s.mmOf s.current from rfl, Function.update_eq_self]
    exact hi.count k a (hsub k a ha)
  · exact fun k a ha => hi.page k a (hsub k a ha)
  · exact fun r' k h => absurd h (by simp)
  · exact fun c h => absurd h (by simp)

/-! Scheduling. -/

theorem mmOf_setState (s : Procs) (p : ℕ) (st : ProcState) : (s.setState p st).mmOf = s.mmOf := by
  funext q
  by_cases hq : q = p
  · subst hq
    simp [mmOf, setState, setProc]
  · simp [mmOf, setState, setProc, Function.update_of_ne hq]

/-- Everything but the state of a process is as before. -/
theorem setState_proc (s : Procs) (p : ℕ) (st : ProcState) (q : ℕ) :
    ((s.setState p st).proc q).mm = (s.proc q).mm ∧
    ((s.setState p st).proc q).pgdir = (s.proc q).pgdir ∧
    ((s.setState p st).proc q).pc = (s.proc q).pc ∧
    ((s.setState p st).proc q).state = if q = p then st else (s.proc q).state := by
  by_cases hq : q = p
  · subst hq
    simp [setState, setProc]
  · simp [setState, setProc, hq]

/-- A process that nobody is about to fork falls asleep or is woken up. -/
theorem Inv.setState (hi : Inv s) {st : ProcState} (hu : st ≠ .uninit) (hz : st ≠ .zombie)
    (hnz : (s.proc p).state ≠ .zombie) (hfork : ∀ q ∈ s.pids, (s.proc q).pc ≠ .forking p) :
    Inv (s.setState p st) := by
  have hpr := s.setState_proc p st
  have hzombie : ∀ q, ((s.setState p st).proc q).state = .zombie → (s.proc q).state = .zombie := by
    intro q h
    rw [(hpr q).2.2.2] at h
    split at h
    · exact absurd h hz
    · exact h
  have huninit : ∀ q, ((s.setState p st).proc q).state = .uninit → (s.proc q).state = .uninit := by
    intro q h
    rw [(hpr q).2.2.2] at h
    split at h
    · exact absurd h hu
    · exact h
  constructor
  case current => exact hi.current
  case idle =>
    obtain ⟨h1, h2, h3, h4⟩ := hi.idle
    refine ⟨h1, fun h => h2 (huninit _ h), fun h => h3 (hzombie _ h), ?_⟩
    rw [(hpr idleproc).2.2.1]
    exact h4
  case procs =>
    intro q hq
    have hok := hi.procs q hq
    obtain ⟨hmm, hpg, hpc, hst⟩ := hpr q
    constructor
    case attached =>
      rw [hmm, hpg]
      exact hok.attached
    case detached =>
      rw [hmm, hpg, hpc]
      intro h
      rcases hok.detached h with h | h | h
      · exact Or.inl h
      · refine Or.inr (Or.inl ?_)
        rw [hst, if_neg]
        · exact h
        · intro heq
          exact hnz (heq ▸ h)
      · exact Or.inr (Or.inr h)
    case released =>
      rw [hmm, hpg, hpc]
      exact hok.released
    case zombie =>
      rw [hmm]
      exact fun h => hok.zombie (hzombie q h)
    case uninit =>
      rw [hpc]
      exact fun h => hok.uninit (huninit q h)
    case bare =>
      rw [hmm, hpc]
      exact hok.bare
    case newMm =>
      rw [hpc]
      exact hok.newMm
    case forking =>
      rw [hpc]
      intro c hc
      have hcp : c ≠ p := by
        intro heq
        exact hfork q hq (heq ▸ hc)
      rw [(hpr c).2.2.2, if_neg hcp]
      exact hok.forking c hc
  case count =>
    rw [mmOf_setState]
    exact hi.count
  case page => exact hi.page
  case newMm =>
    intro q hq q' hq' r r' m h h'
    rw [(hpr q).2.2.1] at h
    rw [(hpr q').2.2.1] at h'
    exact hi.newMm q hq q' hq' r r' m h h'
  case child =>
    intro q hq q' hq' c h h'
    rw [(hpr q).2.2.1] at h
    rw [(hpr q').2.2.1] at h'
    exact hi.child q hq q' hq' c h h'

/-- `proc_run`: the register gets the `pgdir` of the next process. The process that stops is a
zombie from now on, or it has not released anything. -/
theorem Inv.switch (hi : Inv s) {st : ProcState} {next satp' : ℕ} (hnext : next ∈ s.pids)
    (hne : next ≠ s.current) (hrun : next = idleproc ∨ (s.proc next).state = .runnable)
    (hu : st ≠ .uninit)
    (hst : (st = .zombie ∧ s.current ≠ idleproc ∧ s.cur.mm = none) ∨
      (st ≠ .zombie ∧ ¬ s.cur.pc.Released)) :
    Inv { s.setState s.current st with current := next, satp := satp' } := by
  have hpr := s.setState_proc s.current st
  have hsame : ∀ q, q ≠ s.current → ((s.setState s.current st).proc q).state = (s.proc q).state := by
    intro q hq
    rw [(hpr q).2.2.2, if_neg hq]
  have hself : ((s.setState s.current st).proc s.current).state = st := by
    rw [(hpr _).2.2.2, if_pos rfl]
  constructor
  case current => exact hnext
  case idle =>
    obtain ⟨h1, h2, h3, h4⟩ := hi.idle
    refine ⟨h1, ?_, ?_, ?_⟩
    · intro h
      by_cases hq : idleproc = s.current
      · rw [hq] at h
        exact hu (hself.symm.trans h)
      · exact h2 ((hsame _ hq).symm.trans h)
    · intro h
      by_cases hq : idleproc = s.current
      · rw [hq] at h
        rcases hst with ⟨-, hni, -⟩ | ⟨hnz, -⟩
        · exact hni hq.symm
        · exact hnz (hself.symm.trans h)
      · exact h3 ((hsame _ hq).symm.trans h)
    · intro r h
      exact h4 r ((hpr idleproc).2.2.1.symm.trans h)
  case procs =>
    intro q hq
    have hok := hi.procs q hq
    obtain ⟨hmm, hpg, hpc, -⟩ := hpr q
    constructor
    case attached =>
      simp only [hmm, hpg]
      exact hok.attached
    case detached =>
      simp only [hmm, hpg, hpc]
      intro h
      by_cases hqc : q = s.current
      · subst hqc
        rcases hst with ⟨hz, -, -⟩ | ⟨-, hrel⟩
        · exact Or.inr (Or.inl (hself.trans hz))
        · rcases hok.detached h with h | h | ⟨-, h⟩
          · exact Or.inl h
          · exact absurd h hi.curState.1
          · exact absurd h hrel
      · rcases hok.detached h with h | h | ⟨h, -⟩
        · exact Or.inl h
        · exact Or.inr (Or.inl ((hsame q hqc).trans h))
        · exact absurd h hqc
    case released =>
      simp only [hmm, hpg, hpc]
      exact hok.released
    case zombie =>
      simp only [hmm]
      intro h
      by_cases hqc : q = s.current
      · subst hqc
        rcases hst with ⟨-, -, hbare⟩ | ⟨hnz, -⟩
        · exact ⟨hne.symm, hbare⟩
        · exact absurd (hself.symm.trans h) hnz
      · have hold : (s.proc q).state = .zombie := (hsame q hqc).symm.trans h
        refine ⟨?_, (hok.zombie hold).2⟩
        rintro rfl
        rcases hrun with heq | hr
        · exact hi.idle.2.2.1 (heq ▸ hold)
        · rw [hold] at hr
          exact absurd hr (by decide)
    case uninit =>
      simp only [hpc]
      intro h
      by_cases hqc : q = s.current
      · subst hqc
        exact absurd (hself.symm.trans h) hu
      · have hold : (s.proc q).state = .uninit := (hsame q hqc).symm.trans h
        refine ⟨?_, (hok.uninit hold).2⟩
        rintro rfl
        rcases hrun with heq | hr
        · exact hi.idle.2.1 (heq ▸ hold)
        · rw [hold] at hr
          exact absurd hr (by decide)
    case bare =>
      simp only [hmm, hpc]
      exact hok.bare
    case newMm =>
      simp only [hpc]
      exact hok.newMm
    case forking =>
      simp only [hpc]
      intro c hc
      obtain ⟨h1, h2⟩ := hok.forking c hc
      exact ⟨h1, (hsame c (hi.ne_current h2)).trans h2⟩
  case count =>
    intro m a ha
    have hmm : ({ s.setState s.current st with current := next, satp := satp' } : Procs).mmOf =
        s.mmOf := mmOf_setState s s.current st
    rw [hmm]
    exact hi.count m a ha
  case page => exact hi.page
  case newMm =>
    intro q hq q' hq' r r' m h h'
    exact hi.newMm q hq q' hq' r r' m ((hpr q).2.2.1.symm.trans h) ((hpr q').2.2.1.symm.trans h')
  case child =>
    intro q hq q' hq' c h h'
    exact hi.child q hq q' hq' c ((hpr q).2.2.1.symm.trans h) ((hpr q').2.2.1.symm.trans h')

/-! Making and removing processes. -/

/-- Only the `pc` of the current process changes. -/
theorem Inv.setPc (hi : Inv s) {pc : Pc} (hrel : ¬ pc.Released) (hold : ¬ s.cur.pc.Released)
    (hbare : ¬ pc.Bare) (hload : ∀ r x, pc ≠ .loading r x) (hexit : ∀ r, pc ≠ .exiting r)
    (hfork : ∀ c, pc = .forking c → s.cur.pc = .forking c) :
    Inv (s.setCur { s.cur with pc := pc }) := by
  have hok := hi.procs _ hi.current
  obtain ⟨hnz, hnu⟩ := hi.curState
  refine hi.curStep ?_ ?_ rfl ?_ ?_ hi.page ?_ ?_
  · exact fun q _ _ => Keeps.refl _ _
  · constructor
    all_goals simp only [Function.update_self]
    case attached => exact hok.attached
    case detached =>
      intro h
      rcases hok.detached h with h | h | ⟨-, h⟩
      · exact Or.inl h
      · exact absurd h hnz
      · exact absurd h hold
    case released => exact fun h => absurd h hrel
    case zombie => exact fun h => absurd h hnz
    case uninit => exact fun h => absurd h hnu
    case bare => exact fun h => absurd h hbare
    case newMm => exact fun r m h => absurd h (hload r (some m))
    case forking =>
      intro c h
      obtain ⟨h1, h2⟩ := hok.forking c (hfork c h)
      refine ⟨h1, ?_⟩
      rw [Function.update_of_ne (hi.ne_current h2)]
      exact h2
  · exact fun r h => absurd h (hexit r)
  · intro k a ha
    rw [show s.cur.mm = s.mmOf s.current from rfl, Function.update_eq_self]
    exact hi.count k a ha
  · exact fun r m h => absurd h (hload r (some m))
  · exact hfork

theorem Inv.forkDone (hi : Inv s) {c : ℕ} (hpc : s.cur.pc = .forking c) : Inv (s.forkDone c) := by
  have hok := hi.procs _ hi.current
  obtain ⟨hc, hu⟩ := hok.forking c hpc
  have hne : c ≠ s.current := hi.ne_current hu
  have hplain : Inv (s.setCur { s.cur with pc := .plain }) := by
    apply hi.setPc id _ id (by simp) (by simp) (by simp)
    rw [hpc]
    exact id
  have heq : s.forkDone c = (s.setCur { s.cur with pc := .plain }).setState c .runnable := by
    unfold Procs.forkDone Procs.setState Procs.setCur Procs.setProc
    simp only [Function.update_of_ne hne]
    rw [Function.update_comm hne]
  have hold : ((s.setCur { s.cur with pc := .plain }).proc c).state = .uninit := by
    simpa only [setCur, setProc, Function.update_of_ne hne] using hu
  rw [heq]
  refine hplain.setState (by simp) (by simp) ?_ ?_
  · rw [hold]
    simp
  · intro q hq
    by_cases hqc : q = s.current
    · subst hqc
      simp [setCur, setProc]
    · simp only [setCur, setProc, Function.update_of_ne hqc]
      intro hbad
      exact hqc (hi.child q hq _ hi.current c hbad hpc)

/-- The child of `copy_mm` and the counts with it. -/
theorem Inv.copyMm (hi : Inv s) {cloneVm : Bool} {m page : ℕ} (hfree : s.mm m = none)
    (hpage : page ≠ bootPgdir) :
    ∃ mm' ch, s.copyMm cloneVm m page = some ({ s with mm := mm' }, ch) ∧
      (∀ q ∈ s.pids, Keeps (s.proc q) s.mm mm') ∧
      (∀ k a, mm' k = some a →
        a.mmCount = holders s.pids s.mmOf k + (if ch.mm = some k then 1 else 0)) ∧
      (∀ k a, mm' k = some a → a.pgdir ≠ bootPgdir) ∧ ch.state = .uninit ∧ ch.pc = .plain ∧
      (∀ k, ch.mm = some k → ∃ a, mm' k = some a ∧ ch.pgdir = a.pgdir) ∧
      (ch.mm = none → ch.pgdir = bootPgdir) := by
  cases hm : s.cur.mm with
  | none =>
    refine ⟨s.mm, allocProc, by simp only [Procs.copyMm, hm], fun q _ => Keeps.refl _ _, ?_, hi.page,
      rfl, rfl, by simp [allocProc], fun _ => rfl⟩
    intro k a ha
    rw [hi.count k a ha]
    simp [allocProc]
  | some old =>
    obtain ⟨a, ha, hpg⟩ := (hi.procs _ hi.current).attached old hm
    have hcount := hi.count old a ha
    have hpos : 0 < holders s.pids s.mmOf old := holders_pos_iff.mpr ⟨s.current, hi.current, hm⟩
    cases cloneVm with
    | true =>
      refine ⟨Function.update s.mm old (some { a with mmCount := a.mmCount + 1 }),
        { allocProc with mm := some old, pgdir := a.pgdir }, ?_, ?_, ?_, ?_, rfl, rfl, ?_, by simp⟩
      · simp only [Procs.copyMm, hm, ha, Option.map_some, if_true]
        rfl
      · intro q hq
        constructor
        case own =>
          intro k b hk hb
          by_cases hko : k = old
          · subst hko
            rw [ha] at hb
            obtain rfl := Option.some.inj hb
            exact ⟨_, Function.update_self .., rfl⟩
          · exact ⟨b, (Function.update_of_ne hko _ _).trans hb, rfl⟩
        case new =>
          intro r k hk
          obtain ⟨b, hb, hz⟩ := (hi.procs q hq).newMm r k hk
          have hko : k ≠ old := by
            intro heq
            rw [heq, ha] at hb
            obtain rfl := Option.some.inj hb
            omega
          exact Function.update_of_ne hko _ _
      · intro k b hb
        by_cases hko : k = old
        · subst hko
          rw [Function.update_self] at hb
          obtain rfl := Option.some.inj hb
          simp only [if_true]
          show a.mmCount + 1 = _
          rw [hcount]
        · have hne : ¬ some old = some k := fun heq => hko (Option.some.inj heq).symm
          rw [Function.update_of_ne hko] at hb
          simp only [hne, if_false, Int.add_zero]
          exact hi.count k b hb
      · intro k b hb
        by_cases hko : k = old
        · subst hko
          rw [Function.update_self] at hb
          obtain rfl := Option.some.inj hb
          exact hi.page k a ha
        · rw [Function.update_of_ne hko] at hb
          exact hi.page k b hb
      · intro k hk
        obtain rfl := Option.some.inj hk
        exact ⟨_, Function.update_self .., rfl⟩
    | false =>
      have hz : ∀ b, s.mm m = some b → b.mmCount = 0 := by
        intro b hb
        rw [hfree] at hb
        exact absurd hb (by simp)
      refine ⟨Function.update s.mm m (some ⟨1, page⟩),
        { allocProc with mm := some m, pgdir := page }, ?_, ?_, ?_, ?_, rfl, rfl, ?_, by simp⟩
      · simp only [Procs.copyMm, hm, ha, Option.map_some]
        rfl
      · intro q hq
        apply hi.keeps_unused hz hq
        intro r hr
        obtain ⟨b, hb, -⟩ := (hi.procs q hq).newMm r m hr
        rw [hfree] at hb
        exact absurd hb (by simp)
      · intro k b hb
        by_cases hkm : k = m
        · subst hkm
          rw [Function.update_self] at hb
          obtain rfl := Option.some.inj hb
          rw [hi.holders_eq_zero hz]
          simp
        · have hne : ¬ some m = some k := fun heq => hkm (Option.some.inj heq).symm
          rw [Function.update_of_ne hkm] at hb
          simp only [hne, if_false, Int.add_zero]
          exact hi.count k b hb
      · intro k b hb
        by_cases hkm : k = m
        · subst hkm
          rw [Function.update_self] at hb
          obtain rfl := Option.some.inj hb
          exact hpage
        · rw [Function.update_of_ne hkm] at hb
          exact hi.page k b hb
      · intro k hk
        obtain rfl := Option.some.inj hk
        exact ⟨_, Function.update_self .., rfl⟩

theorem Inv.fork (hi : Inv s) {child m page : ℕ} (hplain : s.cur.pc = .plain) (cloneVm : Bool)
    (hchild : child ∉ s.pids) (hfree : s.mm m = none) (hpage : page ≠ bootPgdir) :
    ∃ s', s.fork child cloneVm m page = some s' ∧ Inv s' := by
  obtain ⟨mm', ch, hcopy, hkeep, hcount, hpg, hstate, hpc, hatt, hboot⟩ :=
    @Inv.copyMm s hi cloneVm m page hfree hpage
  have hne : child ≠ s.current := by
    intro heq
    exact hchild (heq ▸ hi.current)
  refine ⟨Procs.mk (insert child s.pids) (Function.update (Function.update s.proc child ch) s.current
    { s.cur with pc := .forking child }) mm' s.current s.satp, by
      simp only [Procs.fork, hcopy, Option.map_some]; rfl, ?_⟩
  have hcur : Function.update (Function.update s.proc child ch) s.current
      { s.cur with pc := .forking child } s.current = { s.cur with pc := .forking child } :=
    Function.update_self ..
  have hnew : Function.update (Function.update s.proc child ch) s.current
      { s.cur with pc := .forking child } child = ch := by
    rw [Function.update_of_ne hne, Function.update_self]
  have hold : ∀ q, q ≠ child → q ≠ s.current → Function.update (Function.update s.proc child ch)
      s.current { s.cur with pc := .forking child } q = s.proc q := by
    intro q h1 h2
    rw [Function.update_of_ne h2, Function.update_of_ne h1]
  have hnotold : ∀ q ∈ s.pids, q ≠ child := by
    intro q hq heq
    exact hchild (heq ▸ hq)
  have hforking : ∀ q ∈ s.pids, ∀ c, (s.proc q).pc = .forking c → c ≠ child ∧ c ≠ s.current := by
    intro q hq c hc
    obtain ⟨h1, h2⟩ := (hi.procs q hq).forking c hc
    exact ⟨hnotold c h1, hi.ne_current h2⟩
  constructor
  case current => exact Finset.mem_insert_of_mem hi.current
  case idle =>
    obtain ⟨h1, h2, h3, h4⟩ := hi.idle
    refine ⟨Finset.mem_insert_of_mem h1, ?_⟩
    by_cases hq : idleproc = s.current
    · simp only [hq, hcur]
      exact ⟨hi.curState.2, hi.curState.1, fun r h => absurd h (by simp)⟩
    · simp only [hold _ (hnotold _ h1) hq]
      exact ⟨h2, h3, h4⟩
  case procs =>
    intro q hq
    rcases Finset.mem_insert.mp hq with rfl | hq
    · constructor
      all_goals simp only [hnew]
      case attached => exact hatt
      case detached => exact fun h => Or.inl (hboot h)
      case released =>
        rw [hpc]
        exact fun h => absurd h id
      case zombie =>
        rw [hstate]
        exact fun h => absurd h (by simp)
      case uninit => exact fun _ => ⟨hne, hpc⟩
      case bare =>
        rw [hpc]
        exact fun h => absurd h id
      case newMm =>
        rw [hpc]
        exact fun r k h => absurd h (by simp)
      case forking =>
        rw [hpc]
        exact fun c h => absurd h (by simp)
    · have hok := hi.procs q hq
      by_cases hqc : q = s.current
      · subst hqc
        constructor
        all_goals simp only [hcur]
        case attached =>
          intro k hk
          obtain ⟨a, ha, hp⟩ := hok.attached k hk
          obtain ⟨a', ha', hp'⟩ := (hkeep _ hq).own k a hk ha
          exact ⟨a', ha', hp.trans hp'.symm⟩
        case detached =>
          intro h
          rcases hok.detached h with h | h | ⟨-, h⟩
          · exact Or.inl h
          · exact absurd h hi.curState.1
          · rw [show (s.proc s.current).pc = .plain from hplain] at h
            exact absurd h id
        case released => exact fun h => absurd h id
        case zombie => exact fun h => absurd h hi.curState.1
        case uninit => exact fun h => absurd h hi.curState.2
        case bare => exact fun h => absurd h id
        case newMm => exact fun r k h => absurd h (by simp)
        case forking =>
          intro c h
          injection h with h
          subst h
          rw [hnew]
          exact ⟨Finset.mem_insert_self _ _, hstate⟩
      · refine ProcOk.frame hok (hold q (hnotold q hq) hqc) rfl (hkeep q hq) ?_
        intro c hc
        obtain ⟨h1, h2⟩ := hok.forking c hc
        obtain ⟨h3, h4⟩ := hforking q hq c hc
        refine ⟨Finset.mem_insert_of_mem h1, ?_⟩
        simp only [hold c h3 h4]
        exact h2
  case count =>
    intro k a ha
    have hmm : (Procs.mk (insert child s.pids) (Function.update (Function.update s.proc child ch)
        s.current { s.cur with pc := .forking child }) mm' s.current s.satp).mmOf =
        Function.update s.mmOf child ch.mm := by
      funext q
      by_cases hq1 : q = child
      · subst hq1
        simp only [mmOf, hnew, Function.update_self]
      · by_cases hq2 : q = s.current
        · subst hq2
          simp only [mmOf, hcur, Function.update_of_ne hq1]
          rfl
        · simp only [mmOf, hold q hq1 hq2, Function.update_of_ne hq1]
    have h := hcount k a ha
    rw [hmm, holders_insert hchild, h]
    by_cases hk : ch.mm = some k
    · simp [hk]
    · simp [hk]
  case page => exact hpg
  case newMm =>
    have hpcs : ∀ q ∈ insert child s.pids, ∀ r k, (Function.update (Function.update s.proc child ch)
        s.current { s.cur with pc := .forking child } q).pc = .loading r (some k) →
        q ∈ s.pids ∧ (s.proc q).pc = .loading r (some k) := by
      intro q hq r k h
      rcases Finset.mem_insert.mp hq with rfl | hq
      · rw [hnew, hpc] at h
        exact absurd h (by simp)
      · by_cases hqc : q = s.current
        · rw [hqc, hcur] at h
          exact absurd h (by simp)
        · rw [hold q (hnotold q hq) hqc] at h
          exact ⟨hq, h⟩
    intro q hq q' hq' r r' k h h'
    obtain ⟨h1, h2⟩ := hpcs q hq r k h
    obtain ⟨h3, h4⟩ := hpcs q' hq' r' k h'
    exact hi.newMm q h1 q' h3 r r' k h2 h4
  case child =>
    have hpcs : ∀ q ∈ insert child s.pids, ∀ c, (Function.update (Function.update s.proc child ch)
        s.current { s.cur with pc := .forking child } q).pc = .forking c →
        (q = s.current ∧ c = child) ∨ (q ∈ s.pids ∧ (s.proc q).pc = .forking c ∧ c ≠ child) := by
      intro q hq c h
      rcases Finset.mem_insert.mp hq with rfl | hq
      · rw [hnew, hpc] at h
        exact absurd h (by simp)
      · by_cases hqc : q = s.current
        · rw [hqc, hcur] at h
          injection h with h
          exact Or.inl ⟨hqc, h.symm⟩
        · rw [hold q (hnotold q hq) hqc] at h
          exact Or.inr ⟨hq, h, (hforking q hq c h).1⟩
    intro q hq q' hq' c h h'
    rcases hpcs q hq c h with ⟨h1, h2⟩ | ⟨h1, h2, h3⟩
    · rcases hpcs q' hq' c h' with ⟨h4, -⟩ | ⟨-, -, h6⟩
      · rw [h1, h4]
      · exact absurd h2 h6
    · rcases hpcs q' hq' c h' with ⟨-, h5⟩ | ⟨h4, h5, -⟩
      · exact absurd h5 h3
      · exact hi.child q h1 q' h4 c h2 h5

/-- A process that nobody needs goes: a child that was not made after all, or a zombie. -/
theorem Inv.erase (hi : Inv s) {c : ℕ} (hc : c ∈ s.pids) (hne : c ≠ s.current)
    (hni : c ≠ idleproc) (hfork : ∀ q ∈ s.pids, (s.proc q).pc ≠ .forking c)
    {mm' : ℕ → Option MmStruct} (hkeep : ∀ q ∈ s.pids, q ≠ c → Keeps (s.proc q) s.mm mm')
    (hcount : ∀ k a, mm' k = some a →
      a.mmCount = holders s.pids (Function.update s.mmOf c none) k)
    (hpage : ∀ k a, mm' k = some a → a.pgdir ≠ bootPgdir) :
    Inv (Procs.mk (s.pids.erase c) s.proc mm' s.current s.satp) := by
  have hmem : ∀ q, q ∈ s.pids.erase c → q ≠ c ∧ q ∈ s.pids := fun q hq => Finset.mem_erase.mp hq
  constructor
  case current => exact Finset.mem_erase.mpr ⟨hne.symm, hi.current⟩
  case idle => exact ⟨Finset.mem_erase.mpr ⟨hni.symm, hi.idle.1⟩, hi.idle.2⟩
  case procs =>
    intro q hq
    obtain ⟨hqc, hq⟩ := hmem q hq
    refine ProcOk.frame (hi.procs q hq) rfl rfl (hkeep q hq hqc) ?_
    intro d hd
    obtain ⟨h1, h2⟩ := (hi.procs q hq).forking d hd
    refine ⟨Finset.mem_erase.mpr ⟨?_, h1⟩, h2⟩
    intro heq
    exact hfork q hq (heq ▸ hd)
  case count =>
    intro k a ha
    have h1 := holders_update hc s.mmOf none k
    have h2 := holders_erase hc s.mmOf k
    simp only [reduceCtorEq, if_false, Nat.add_zero] at h1
    have heq : holders (s.pids.erase c) s.mmOf k =
        holders s.pids (Function.update s.mmOf c none) k := by omega
    rw [hcount k a ha, ← heq]
    rfl
  case page => exact hpage
  case newMm =>
    exact fun q hq q' hq' r r' k h h' =>
      hi.newMm q (hmem q hq).2 q' (hmem q' hq').2 r r' k h h'
  case child =>
    exact fun q hq q' hq' d h h' => hi.child q (hmem q hq).2 q' (hmem q' hq').2 d h h'

/-- A process without an `mm` goes. -/
theorem Inv.eraseBare (hi : Inv s) {c : ℕ} (hc : c ∈ s.pids) (hne : c ≠ s.current)
    (hni : c ≠ idleproc) (hfork : ∀ q ∈ s.pids, (s.proc q).pc ≠ .forking c)
    (hbare : (s.proc c).mm = none) :
    Inv (Procs.mk (s.pids.erase c) s.proc s.mm s.current s.satp) := by
  refine hi.erase hc hne hni hfork (fun q _ _ => Keeps.refl _ _) ?_ hi.page
  intro k a ha
  rw [show none = s.mmOf c from hbare.symm, Function.update_eq_self]
  exact hi.count k a ha

theorem Inv.forkUndo (hi : Inv s) {c : ℕ} (hpc : s.cur.pc = .forking c) :
    ∃ s', s.forkUndo c = some s' ∧ Inv s' := by
  obtain ⟨hc, hu⟩ := (hi.procs _ hi.current).forking c hpc
  have hne : c ≠ s.current := hi.ne_current hu
  have hni : c ≠ idleproc := by
    rintro rfl
    exact hi.idle.2.1 hu
  have hplain : Inv (s.setCur { s.cur with pc := .plain }) := by
    apply hi.setPc id _ id (by simp) (by simp) (by simp)
    rw [hpc]
    exact id
  have hprocc : (s.setCur { s.cur with pc := .plain }).proc c = s.proc c :=
    Function.update_of_ne hne _ _
  have hfork : ∀ q ∈ s.pids, ((s.setCur { s.cur with pc := .plain }).proc q).pc ≠ .forking c := by
    intro q hq
    by_cases hqc : q = s.current
    · subst hqc
      simp [setCur, setProc]
    · simp only [setCur, setProc, Function.update_of_ne hqc]
      intro hbad
      exact hqc (hi.child q hq _ hi.current c hbad hpc)
  cases hm : (s.proc c).mm with
  | none =>
    refine ⟨_, by simp only [Procs.forkUndo, hm, Option.map_some]; rfl, ?_⟩
    exact hplain.eraseBare hc hne hni hfork (hprocc ▸ hm)
  | some m =>
    obtain ⟨mm', hdrop, hkeep, hcount, hpage⟩ := hplain.dropMm hc (hprocc ▸ hm)
    have hdrop' : s.dropMm m = some { s with mm := mm' } := by
      obtain ⟨a, ha, -⟩ := (hi.procs c hc).attached m hm
      unfold Procs.dropMm at hdrop ⊢
      rw [show (s.setCur { s.cur with pc := .plain }).mm = s.mm from rfl] at hdrop
      rw [ha, Option.map_some] at hdrop ⊢
      by_cases hlast : a.mmCount - 1 = 0
      · rw [if_pos hlast] at hdrop ⊢
        have hmm := congrArg Procs.mm (Option.some.inj hdrop)
        exact congrArg (fun f => some { s with mm := f }) hmm
      · rw [if_neg hlast] at hdrop ⊢
        have hmm := congrArg Procs.mm (Option.some.inj hdrop)
        exact congrArg (fun f => some { s with mm := f }) hmm
    refine ⟨_, by simp only [Procs.forkUndo, hm, hdrop', Option.map_some]; rfl, ?_⟩
    exact hplain.erase hc hne hni hfork hkeep hcount hpage

theorem Inv.wait (hi : Inv s) {c : ℕ} (hc : c ∈ s.pids) (hz : (s.proc c).state = .zombie) :
    Inv { s with pids := s.pids.erase c } := by
  obtain ⟨hne, hbare⟩ := (hi.procs c hc).zombie hz
  refine hi.eraseBare hc hne ?_ ?_ hbare
  · rintro rfl
    exact hi.idle.2.2.1 hz
  · intro q hq hbad
    have hu := ((hi.procs q hq).forking c hbad).2
    rw [hz] at hu
    exact absurd hu (by simp)

/-! Runs. -/

theorem Inv.schedule (hi : Inv s) {st : ProcState} {next : ℕ} (hu : st ≠ .uninit)
    (hst : (st = .zombie ∧ s.current ≠ idleproc ∧ s.cur.mm = none) ∨
      (st ≠ .zombie ∧ ¬ s.cur.pc.Released))
    (h : (s.setState s.current st).schedule next = some s') : Inv s' := by
  unfold Procs.schedule at h
  rw [setState_pids, setState_current] at h
  by_cases hrun : next ∈ s.pids ∧
      (next = idleproc ∨ ((s.setState s.current st).proc next).state = .runnable)
  · rw [if_pos hrun] at h
    by_cases hsame : next = s.current
    · rw [if_pos hsame] at h
      obtain rfl := Option.some.inj h
      have hnz : st ≠ .zombie := by
        rintro rfl
        rcases hst with ⟨-, hni, -⟩ | ⟨hnz, -⟩
        · rcases hrun.2 with hidle | hrunnable
          · exact hni (hsame.symm.trans hidle)
          · rw [hsame, (s.setState_proc s.current .zombie s.current).2.2.2, if_pos rfl] at hrunnable
            exact absurd hrunnable (by simp)
        · exact hnz rfl
      refine hi.setState hu hnz hi.curState.1 ?_
      intro q hq hbad
      exact hi.curState.2 ((hi.procs q hq).forking _ hbad).2
    · rw [if_neg hsame] at h
      obtain rfl := Option.some.inj h
      refine hi.switch hrun.1 hsame ?_ hu hst
      rcases hrun.2 with hidle | hrunnable
      · exact Or.inl hidle
      · rw [(s.setState_proc s.current st next).2.2.2, if_neg hsame] at hrunnable
        exact Or.inr hrunnable
  · rw [if_neg hrun] at h
    exact absurd h (by simp)

theorem setState_self (s : Procs) : s.setState s.current s.cur.state = s := by
  unfold setState setProc cur
  rw [Function.update_eq_self]

theorem Inv.step (hi : Inv s) {op : ProcOp} (hall : s.Allowed op) (hkeeps : s.KeepsCpu op)
    (h : s.step op = some s') : Inv s' := by
  have hok := hi.procs _ hi.current
  cases op with
  | fork child cloneVm mm page =>
    simp only [Procs.step] at h
    by_cases hpc : s.cur.pc = .plain
    · rw [if_pos hpc] at h
      obtain ⟨t, ht, hinv⟩ := hi.fork hpc cloneVm hall.1 hall.2.1 hall.2.2
      rw [ht] at h
      exact Option.some.inj h ▸ hinv
    · rw [if_neg hpc] at h
      exact absurd h (by simp)
  | forkDone =>
    simp only [Procs.step] at h
    split at h
    · rename_i child hpc
      exact Option.some.inj h ▸ hi.forkDone hpc
    · exact absurd h (by simp)
  | forkUndo =>
    simp only [Procs.step] at h
    split at h
    · rename_i child hpc
      obtain ⟨t, ht, hinv⟩ := hi.forkUndo hpc
      rw [ht] at h
      exact Option.some.inj h ▸ hinv
    · exact absurd h (by simp)
  | execve =>
    simp only [Procs.step] at h
    by_cases hpc : s.cur.pc = .plain
    · rw [if_pos hpc] at h
      obtain ⟨t, ht, hinv⟩ := @Inv.releaseMm s hi hpc (fun released => .loading released none)
        (fun b => Iff.rfl) (by simp) (by simp) (by simp)
      rw [ht] at h
      exact Option.some.inj h ▸ hinv
    · rw [if_neg hpc] at h
      exact absurd h (by simp)
  | loadMm mm page =>
    simp only [Procs.step] at h
    split at h
    · rename_i r hpc
      exact Option.some.inj h ▸ hi.loadMm hpc hall.1 hall.2
    · exact absurd h (by simp)
  | loadDone =>
    simp only [Procs.step] at h
    split at h
    · rename_i r m hpc
      obtain ⟨t, ht, hinv⟩ := hi.loadDone hpc
      rw [ht] at h
      exact Option.some.inj h ▸ hinv
    · exact absurd h (by simp)
  | loadFail =>
    simp only [Procs.step] at h
    split at h
    · rename_i r m hpc
      by_cases hmay : s.mayExit
      · rw [if_pos hmay] at h
        exact Option.some.inj h ▸ hi.loadFail hpc hmay
      · rw [if_neg hmay] at h
        exact absurd h (by simp)
    · exact absurd h (by simp)
  | exit =>
    simp only [Procs.step] at h
    by_cases hpc : s.cur.pc = .plain ∧ s.mayExit
    · rw [if_pos hpc] at h
      obtain ⟨t, ht, hinv⟩ := @Inv.releaseMm s hi hpc.1 .exiting (fun b => Iff.rfl) (by simp)
        (by simp) (fun _ _ _ => hpc.2.1)
      rw [ht] at h
      exact Option.some.inj h ▸ hinv
    · rw [if_neg hpc] at h
      exact absurd h (by simp)
  | zombie next =>
    simp only [Procs.step] at h
    split at h
    · rename_i r hpc
      have hbare : s.cur.mm = none :=
        hok.bare (by rw [show (s.proc s.current).pc = _ from hpc]; trivial)
      refine hi.schedule (by simp) (Or.inl ⟨rfl, ?_, hbare⟩) h
      intro heq
      exact hi.idle.2.2.2 r (heq ▸ hpc)
    · exact absurd h (by simp)
  | block next => exact hi.schedule (by simp) (Or.inr ⟨by simp, hkeeps⟩) h
  | yield next =>
    obtain ⟨hnz, hnu⟩ := hi.curState
    have hsame : (s.setState s.current s.cur.state).schedule next = some s' := by
      rw [setState_self]
      exact h
    exact hi.schedule hnu (Or.inr ⟨hnz, hkeeps⟩) hsame
  | wakeup p =>
    simp only [Procs.step] at h
    by_cases hz : (s.proc p).state ≠ .zombie
    · rw [if_pos hz] at h
      refine Option.some.inj h ▸ hi.setState (by simp) (by simp) hz ?_
      intro q hq hbad
      exact hall.2 ((hi.procs q hq).forking p hbad).2
    · rw [if_neg hz] at h
      exact absurd h (by simp)
  | wait child =>
    simp only [Procs.step] at h
    by_cases hc : child ∈ s.pids ∧ (s.proc child).state = .zombie
    · rw [if_pos hc] at h
      exact Option.some.inj h ▸ hi.wait hc.1 hc.2
    · rw [if_neg hc] at h
      exact absurd h (by simp)

/-- The process that gets the processor is another one than the current one, and `schedule()`
has found it runnable. -/
theorem switched_spec {op : ProcOp} {next : ℕ} (h : s.step op = some s')
    (hsw : s.switched op = some next) :
    next ∈ s.pids ∧ next ≠ s.current ∧ (next = idleproc ∨ (s.proc next).state = .runnable) ∧
      s'.satp = (s.proc next).pgdir := by
  have key : ∀ st, (s.setState s.current st).schedule next = some s' → next ≠ s.current →
      next ∈ s.pids ∧ next ≠ s.current ∧ (next = idleproc ∨ (s.proc next).state = .runnable) ∧
        s'.satp = (s.proc next).pgdir := by
    intro st hsch hne
    obtain ⟨-, hpg, -, hstate⟩ := s.setState_proc s.current st next
    rw [if_neg hne] at hstate
    unfold Procs.schedule at hsch
    rw [setState_pids, setState_current, hstate] at hsch
    by_cases hrun : next ∈ s.pids ∧ (next = idleproc ∨ (s.proc next).state = .runnable)
    · rw [if_pos hrun, if_neg hne] at hsch
      obtain rfl := Option.some.inj hsch
      exact ⟨hrun.1, hne, hrun.2, hpg⟩
    · rw [if_neg hrun] at hsch
      exact absurd hsch (by simp)
  have hsplit : ∀ n, (if n = s.current then none else some n) = some next → n = next ∧ next ≠ s.current := by
    intro n hn
    by_cases hc : n = s.current
    · rw [if_pos hc] at hn
      exact absurd hn (by simp)
    · rw [if_neg hc] at hn
      obtain rfl := Option.some.inj hn
      exact ⟨rfl, hc⟩
  cases op with
  | zombie n =>
    obtain ⟨rfl, hne⟩ := hsplit n hsw
    simp only [Procs.step] at h
    split at h
    · exact key _ h hne
    · exact absurd h (by simp)
  | block n =>
    obtain ⟨rfl, hne⟩ := hsplit n hsw
    exact key _ h hne
  | yield n =>
    obtain ⟨rfl, hne⟩ := hsplit n hsw
    refine key s.cur.state ?_ hne
    rw [setState_self]
    exact h
  | _ => exact absurd hsw (by simp [switched])

/-- In every run in which no process calls `schedule()` after it has released its `mm`, what
`proc_run` loads is the page table of a live `mm_struct` or that of the kernel. A process that
has released its `mm` would run on neither. -/
theorem proc_run_live {ops : List ProcOp} (hall : RunMeets step Allowed boot ops)
    (hkeeps : RunMeets step KeepsCpu boot ops) (hrun : runOps step boot ops = some s) :
    (∀ op s' next, s.step op = some s' → s.switched op = some next →
      s.RunsOnLive next ∧ s'.satp = (s.proc next).pgdir) ∧
    ∀ p ∈ s.pids, (s.proc p).pc.Released → ¬ s.RunsOnLive p := by
  have hi : Inv s := runOps_invariant_of_meets
    (fun t op t' ht hc hs => Inv.step ht hc.1 hc.2 hs) inv_boot (hall.and hkeeps) hrun
  refine ⟨?_, ?_⟩
  · intro op s' next hstep hsw
    obtain ⟨hmem, hne, hready, hsatp⟩ := switched_spec hstep hsw
    have hok := hi.procs next hmem
    have hnz : (s.proc next).state ≠ .zombie := by
      rcases hready with rfl | hr
      · exact hi.idle.2.2.1
      · rw [hr]
        simp
    have hboot : (s.proc next).mm = none → (s.proc next).pgdir = bootPgdir := by
      intro hm
      rcases hok.detached hm with h | h | ⟨h, -⟩
      · exact h
      · exact absurd h hnz
      · exact absurd h hne
    refine ⟨⟨?_, hboot⟩, hsatp⟩
    cases hm : (s.proc next).mm with
    | none => exact Or.inl (hboot hm)
    | some m =>
      obtain ⟨a, ha, hpg⟩ := hok.attached m hm
      exact Or.inr ⟨m, a, ha, hpg⟩
  · intro p hp hrel hlive
    obtain ⟨hm, hpg⟩ := (hi.procs p hp).released hrel
    exact hpg (hlive.2 hm)

/-- `idleproc` forks `initproc`, that one forks `user_main`, which starts a program. -/
def startUser : List ProcOp :=
  [.fork 1 true 0 1, .forkDone, .yield 1, .fork 2 true 0 1, .forkDone, .yield 2, .execve,
    .loadMm 7 70, .loadDone]

theorem proc_run_live_small : ∃ s s', runOps step boot (startUser ++ [.block 1, .wakeup 2]) = some s ∧
    s.step (.yield 2) = some s' ∧ s.RunsOnLive 2 ∧ s'.satp = 70 := by
  have hall : RunMeets step Allowed boot (startUser ++ [.block 1, .wakeup 2]) := by
    refine RunMeets.cons (by decide) rfl (RunMeets.cons (by decide) rfl ?_)
    refine RunMeets.cons (by decide) rfl (RunMeets.cons (by decide) rfl ?_)
    refine RunMeets.cons (by decide) rfl (RunMeets.cons (by decide) rfl ?_)
    refine RunMeets.cons (by decide) rfl (RunMeets.cons (by decide) rfl ?_)
    refine RunMeets.cons (by decide) rfl (RunMeets.cons (by decide) rfl ?_)
    exact RunMeets.cons (by decide) rfl trivial
  have hkeeps : RunMeets step KeepsCpu boot (startUser ++ [.block 1, .wakeup 2]) := by
    refine RunMeets.cons (by decide) rfl (RunMeets.cons (by decide) rfl ?_)
    refine RunMeets.cons (by decide) rfl (RunMeets.cons (by decide) rfl ?_)
    refine RunMeets.cons (by decide) rfl (RunMeets.cons (by decide) rfl ?_)
    refine RunMeets.cons (by decide) rfl (RunMeets.cons (by decide) rfl ?_)
    refine RunMeets.cons (by decide) rfl (RunMeets.cons (by decide) rfl ?_)
    exact RunMeets.cons (by decide) rfl trivial
  obtain ⟨hlive, -⟩ := proc_run_live hall hkeeps rfl
  obtain ⟨h, hsatp⟩ := hlive (.yield 2) _ 2 rfl rfl
  exact ⟨_, _, rfl, rfl, h, hsatp⟩

/-- The program starts another one and blocks while that one is read from disk. When it gets
the processor again, its `mm` is gone and `satp` gets the page of the old page directory. -/
theorem blocked_execve_runs_on_freed : ∃ s s',
    RunMeets step Allowed boot (startUser ++ [.execve, .block 1, .wakeup 2]) ∧
    runOps step boot (startUser ++ [.execve, .block 1, .wakeup 2]) = some s ∧
    s.step (.yield 2) = some s' ∧ s.switched (.yield 2) = some 2 ∧ s'.satp = 70 ∧
    s.mm 7 = none ∧ ¬ s.RunsOnLive 2 := by
  refine ⟨_, _, ?_, rfl, rfl, rfl, rfl, rfl, ?_⟩
  · refine RunMeets.cons (by decide) rfl (RunMeets.cons (by decide) rfl ?_)
    refine RunMeets.cons (by decide) rfl (RunMeets.cons (by decide) rfl ?_)
    refine RunMeets.cons (by decide) rfl (RunMeets.cons (by decide) rfl ?_)
    refine RunMeets.cons (by decide) rfl (RunMeets.cons (by decide) rfl ?_)
    refine RunMeets.cons (by decide) rfl (RunMeets.cons (by decide) rfl ?_)
    refine RunMeets.cons (by decide) rfl (RunMeets.cons (by decide) rfl ?_)
    trivial
  · intro hlive
    exact absurd (hlive.2 rfl) (by decide)

end Procs
end Ucore.Process
