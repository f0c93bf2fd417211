import Ucore.Schedule.StrideShape

/-!
The window of the strides. Beside its `lab6_stride` each process carries the stride without
the wrap-around. Where every process that is woken joins within `BIG_STRIDE` of those that
wait for the processor, all of them stay within `BIG_STRIDE` of each other, and the signed
comparison of the wrapped strides is the comparison of the unwrapped ones.
-/
namespace Ucore.Schedule

open Libs Library

/-- A state with the unwrapped strides and with how often each process has been picked. -/
structure Traced (P : Type*) where
  sched : Sched P
  unwrapped : P → ℕ
  picks : P → ℕ

namespace Traced

variable {P : Type*} [DecidableEq P]

def start (k : Sched P) : Traced P := ⟨k, fun p => (k.proc p).lab6Stride, fun _ => 0⟩

/-- A pick counts, and a new process begins with stride 0. -/
def record (s : Traced P) (k : Sched P) : Event P → Traced P
  | .alloc p => ⟨k, Function.update s.unwrapped p 0, s.picks⟩
  | .schedule =>
    match s.sched.pickOf with
    | some p => ⟨k, Function.update s.unwrapped p (s.unwrapped p + (s.sched.proc p).pass),
        Function.update s.picks p (s.picks p + 1)⟩
    | none => ⟨k, s.unwrapped, s.picks⟩
  | _ => ⟨k, s.unwrapped, s.picks⟩

def step (s : Traced P) (ev : Event P) : Option (Traced P) :=
  (s.sched.step ev).map fun k => s.record k ev

/-- The two strides are at most `BIG_STRIDE` apart. -/
def Near (s : Traced P) (p q : P) : Prop :=
  s.unwrapped p ≤ s.unwrapped q + bigStride ∧ s.unwrapped q ≤ s.unwrapped p + bigStride

/-- A process that is woken is near every process that waits for the processor. -/
def Joins (s : Traced P) : Event P → Prop
  | .wakeup p => (s.sched.proc p).state ≠ .runnable → ∀ q, s.sched.Contends q → s.Near p q
  | _ => True

/-- At the pick the strides in the pool are near each other, the comparator orders them as the
unwrapped ones, and the chosen process has a smallest unwrapped stride. -/
def PicksSmallest (s : Traced P) : Prop :=
  ∃ k, s.sched.putBack = some k ∧
    (∀ p q, (k.proc p).rq = true → (k.proc q).rq = true → s.Near p q ∧
      procStrideCompF k.proc p q = Int.sign (s.unwrapped p - s.unwrapped q)) ∧
    ∀ p, k.stridePickNext.2 = some p → (k.proc p).rq = true ∧
      ∀ q, (k.proc q).rq = true → s.unwrapped p ≤ s.unwrapped q

structure Inv (s : Traced P) : Prop where
  shape : s.sched.Shape (fun p q => s.unwrapped p ≤ s.unwrapped q)
  carried : ∀ p, (s.sched.proc p).lab6Stride = uint32 (s.unwrapped p)
  window : ∀ p q, s.sched.Contends p → s.sched.Contends q →
    s.unwrapped p ≤ s.unwrapped q + bigStride

variable {s s' : Traced P} {k : Sched P} {u n : P → ℕ} {p q : P} {ev : Event P}

theorem int32_sub {a b : ℕ} (hab : a ≤ b + bigStride) (hba : b ≤ a + bigStride) :
    int32 (uint32 a - uint32 b) = (a : ℤ) - b := by
  unfold bigStride at hab hba
  rw [int32, Int.bmod_def, uint32, uint32]
  push_cast
  omega

omit [DecidableEq P] in
/-- Within the window the comparator is the order of the unwrapped strides. -/
theorem procStrideCompF_eq {proc : P → ProcStruct}
    (hp : (proc p).lab6Stride = uint32 (s.unwrapped p))
    (hq : (proc q).lab6Stride = uint32 (s.unwrapped q)) (hnear : s.Near p q) :
    procStrideCompF proc p q = Int.sign (s.unwrapped p - s.unwrapped q) := by
  simp only [procStrideCompF, hp, hq, int32_sub hnear.1 hnear.2]
  rcases Int.lt_trichotomy ((s.unwrapped p : ℤ) - s.unwrapped q) 0 with hlt | heq | hgt
  · rw [if_neg (by omega), if_neg (by omega), Int.sign_eq_neg_one_of_neg hlt]
  · rw [if_neg (by omega), if_pos heq, heq, Int.sign_zero]
  · rw [if_pos hgt, Int.sign_eq_one_of_pos hgt]

omit [DecidableEq P] in
theorem decided_of_near {proc : P → ProcStruct} {S : P → Prop}
    (hcarried : ∀ p, (proc p).lab6Stride = uint32 (s.unwrapped p))
    (hnear : ∀ p q, S p → S q → s.Near p q) :
    Sched.Decided proc (fun p q => s.unwrapped p ≤ s.unwrapped q) S := by
  intro p hp q hq
  rw [procStrideCompF_eq (hcarried p) (hcarried q) (hnear p q hp hq)]
  constructor
  · intro hsign
    have hneg := Int.sign_eq_neg_one_iff_neg.mp hsign
    omega
  · intro hsign
    by_contra hlt
    exact hsign (Int.sign_eq_neg_one_of_neg (by omega))

omit [DecidableEq P] in
theorem Inv.near (h : s.Inv) (hp : s.sched.Contends p) (hq : s.sched.Contends q) : s.Near p q :=
  ⟨h.window p q hp hq, h.window q p hq hp⟩

omit [DecidableEq P] in
theorem Inv.decided (h : s.Inv) :
    Sched.Decided s.sched.proc (fun p q => s.unwrapped p ≤ s.unwrapped q) s.sched.Contends :=
  decided_of_near h.carried fun _ _ hp hq => h.near hp hq

/-- A change of one process that leaves the strides alone. -/
theorem Inv.setProc {v : ProcStruct} (h : Inv ⟨k, u, n⟩) (hv : Sched.Quiet k p v) :
    Inv ⟨k.setProc p v, u, n⟩ where
  shape := h.shape.setProc hv
  carried q := (Sched.setProc_field ProcStruct.lab6Stride hv.stride q).trans (h.carried q)
  window x y hx hy := h.window x y (hv.contends hx) (hv.contends hy)

omit [DecidableEq P] in
theorem start_inv (h : k.Shape (fun p q => (k.proc p).lab6Stride ≤ (k.proc q).lab6Stride))
    (hwindow : ∀ p q, k.Contends p → k.Contends q →
      (k.proc p).lab6Stride ≤ (k.proc q).lab6Stride + bigStride) : (start k).Inv where
  shape := h
  carried p := (uint32_of_lt (h.stride p)).symm
  window := hwindow

theorem init_inv (idleproc : P) : (start (Sched.init idleproc)).Inv := by
  refine start_inv (Sched.init_shape idleproc) ?_
  intro p q _ _
  have hstride : ((Sched.init idleproc).proc p).lab6Stride = 0 :=
    Sched.update_field ProcStruct.lab6Stride (by rfl) p
  rw [hstride]
  exact Nat.zero_le _

theorem Inv.allocProc (h : Inv ⟨k, u, n⟩) (hp : k.allocated p = false) :
    Inv ⟨k.allocProc p, Function.update u p 0, n⟩ := by
  have hcont : ∀ q, (k.allocProc p).Contends q → k.Contends q ∧ q ≠ p := fun q =>
    (h.shape.contends_allocProc hp).mp
  refine ⟨(h.shape.allocProc hp).order ?_, ?_, ?_⟩
  · intro x y hx hy hle
    simp only [Function.update_of_ne (hcont x (Or.inl hx)).2,
      Function.update_of_ne (hcont y (Or.inl hy)).2]
    exact hle
  · intro q
    by_cases hq : q = p
    · simp only [hq, Sched.allocProc_proc_self, Function.update_self]
      rfl
    · simp only [Sched.allocProc_proc_of_ne hq, Function.update_of_ne hq]
      exact h.carried q
  · intro x y hx hy
    obtain ⟨hx, hxp⟩ := hcont x hx
    obtain ⟨hy, hyp⟩ := hcont y hy
    simp only [Function.update_of_ne hxp, Function.update_of_ne hyp]
    exact h.window x y hx hy

/-- A process that is woken near all others joins them. -/
theorem Inv.wakeup (h : Inv ⟨k, u, n⟩) (ha : k.allocated p = true)
    (hp : (k.proc p).state ≠ .runnable) (hzombie : (k.proc p).state ≠ .zombie)
    (hjoin : ∀ q, k.Contends q → Near ⟨k, u, n⟩ p q) :
    ∃ k', k.wakeupProc p = some k' ∧ Inv ⟨k', u, n⟩ := by
  have hnear : ∀ x y, k.Contends x ∨ x = p → k.Contends y ∨ y = p → Near ⟨k, u, n⟩ x y := by
    intro x y hx hy
    rcases hx with hx | hx
    · rcases hy with hy | hy
      · exact h.near hx hy
      · exact hy ▸ (hjoin x hx).symm
    · rcases hy with hy | hy
      · exact hx ▸ hjoin y hy
      · rw [hx, hy]
        exact ⟨Nat.le_add_right _ _, Nat.le_add_right _ _⟩
  have hdec : Sched.Decided k.proc (fun p q => u p ≤ u q)
      (fun q => (k.proc q).rq = true ∨ q = p) :=
    decided_of_near (s := ⟨k, u, n⟩) h.carried fun x y hx hy =>
      hnear x y (hx.imp_left Or.inl) (hy.imp_left Or.inl)
  obtain ⟨k', hrun, hshape, hwoken⟩ := Sched.wakeupProc_spec h.shape
    (fun _ _ _ hxy hyz => hxy.trans hyz) ha hp hzombie hdec
  refine ⟨k', hrun, hshape, fun q => (hwoken.stride q).trans (h.carried q), ?_⟩
  exact fun x y hx hy => (hnear x y ((hwoken.contends x).mp hx) ((hwoken.contends y).mp hy)).1

theorem record_none (h : s.sched.pickOf = none) :
    s.record k .schedule = ⟨k, s.unwrapped, s.picks⟩ := by
  simp only [record, h]

theorem record_some (h : s.sched.pickOf = some p) : s.record k .schedule =
    ⟨k, Function.update s.unwrapped p (s.unwrapped p + (s.sched.proc p).pass),
      Function.update s.picks p (s.picks p + 1)⟩ := by
  simp only [record, h]

theorem pass_le (p : ProcStruct) : p.pass ≤ bigStride := Nat.div_le_self _ _

/-- The pick moves a smallest stride by at most the window. -/
theorem Inv.schedule (h : s.Inv) :
    ∃ k', s.sched.schedule = some k' ∧ (s.record k' .schedule).Inv := by
  obtain ⟨k', hrun, hshape, hsch, hnone, hsome⟩ :=
    Sched.schedule_spec h.shape (fun _ _ _ hxy hyz => hxy.trans hyz) h.decided
  refine ⟨k', hrun, ?_⟩
  cases hpick : s.sched.pickOf with
  | none =>
    rw [record_none hpick]
    rw [hpick] at hsch
    refine ⟨hshape, ?_, ?_⟩
    · intro p
      exact ((hsch.stride p).trans (if_neg (Option.some_ne_none p).symm)).trans (h.carried p)
    · intro p q hp _
      rcases hp with hp | hp
      · exact absurd ((hsch.queued p).mp hp).1 (hnone hpick p)
      · exact absurd (hp.1.trans (hsch.current.trans hsch.idleproc.symm)) hp.2.1
  | some r =>
    rw [record_some hpick]
    rw [hpick] at hsch
    obtain ⟨hr, hleast⟩ := hsome r hpick
    have hin : ∀ q, (k'.proc q).rq = true → s.sched.Contends q ∧ q ≠ r := by
      intro q hq
      obtain ⟨hc, hne⟩ := (hsch.queued q).mp hq
      exact ⟨hc, fun heq => hne (heq ▸ rfl)⟩
    have hcont : ∀ q, k'.Contends q → s.sched.Contends q := by
      intro q hq
      rcases hq with hq | hq
      · exact (hin q hq).1
      · exact hq.1.trans hsch.current ▸ hr
    refine ⟨hshape.order ?_, ?_, ?_⟩
    · intro x y hx hy hle
      simp only [Function.update_of_ne (hin x hx).2, Function.update_of_ne (hin y hy).2]
      exact hle
    · intro q
      change _ = uint32 (Function.update s.unwrapped r _ q)
      by_cases hq : q = r
      · rw [hsch.stride q, if_pos (by rw [hq]), hq, Function.update_self, h.carried r]
        exact Nat.mod_add_mod _ _ _
      · rw [hsch.stride q, if_neg (fun heq => hq (Option.some.inj heq).symm), h.carried q,
          Function.update_of_ne hq]
    · intro x y hx hy
      have hx := hcont x hx
      have hy := hcont y hy
      have hpass := pass_le (s.sched.proc r)
      have hwx := h.window x r hx hr
      have hxy := h.window x y hx hy
      by_cases hxr : x = r
      · by_cases hyr : y = r
        · rw [hxr, hyr]
          exact Nat.le_add_right _ _
        · have hle := hleast y hy hyr
          simp only [hxr, Function.update_self, Function.update_of_ne hyr]
          omega
      · by_cases hyr : y = r
        · simp only [hyr, Function.update_self, Function.update_of_ne hxr]
          omega
        · simp only [Function.update_of_ne hxr, Function.update_of_ne hyr]
          exact hxy

theorem Inv.step (h : s.Inv) (hjoin : s.Joins ev) (hs : s.step ev = some s') : s'.Inv := by
  obtain ⟨k, u, n⟩ := s
  obtain ⟨k', hk', hrec⟩ := Option.map_eq_some_iff.mp hs
  rw [← hrec]
  cases Sched.Takes.of_step hk' with
  | alloc hfree => exact h.allocProc hfree
  | wakeup ha hp hzombie hwoken =>
    obtain ⟨k₁, hrun, hinv⟩ := h.wakeup ha hp hzombie (hjoin hp)
    exact Option.some.inj (hrun.symm.trans hwoken) ▸ hinv
  | awake => exact h
  | quiet hv hkind =>
    have hinv := h.setProc hv
    rcases hkind with hev | hev | ⟨_, hev⟩ | hev
    all_goals exact hev ▸ hinv
  | reap hdead hother => exact ⟨h.shape.reap hdead hother, h.carried, h.window⟩
  | schedule hrun =>
    obtain ⟨k₁, hrun₁, hinv⟩ := h.schedule
    exact Option.some.inj (hrun₁.symm.trans hrun) ▸ hinv

theorem stridePickNext_snd : k.stridePickNext.2 = k.rq.lab6RunPool := by
  rw [Sched.stridePickNext]
  split <;> simp only [*]

theorem Inv.picksSmallest (h : s.Inv) : s.PicksSmallest := by
  obtain ⟨k₁, hrun, ⟨t, ht, hord⟩, hback⟩ :=
    Sched.putBack_spec h.shape (fun _ _ _ hxy hyz => hxy.trans hyz) h.decided
  refine ⟨k₁, hrun, ?_, ?_⟩
  · intro p q hp hq
    have hnear := h.near ((hback.queued p).mp hp) ((hback.queued q).mp hq)
    have hcarried : ∀ p, (k₁.proc p).lab6Stride = uint32 (s.unwrapped p) := fun p =>
      (hback.stride p).trans (h.carried p)
    exact ⟨hnear, procStrideCompF_eq (hcarried p) (hcarried q) hnear⟩
  · intro p hp
    rw [stridePickNext_snd, ht.pool] at hp
    refine ⟨(ht.queued p).mp (LinkedTree.root_mem hp), ?_⟩
    intro q hq
    by_cases hqp : q = p
    · rw [hqp]
    · exact hord.root_le hp ((ht.queued q).mpr hq) hqp

end Traced
end Ucore.Schedule
