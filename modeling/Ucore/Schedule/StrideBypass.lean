import Ucore.Schedule.StrideClass

/-!
How often one process can be picked while another one waits. Every pick moves the stride of
the picked process, as long as `BIG_STRIDE / lab6_priority` is not 0, and the process is picked
only while its stride is a smallest one.
-/
namespace Ucore.Schedule

open Libs Library Library.LinkedTree

variable {P : Type*}

namespace Sched

/-- The process is in the tree that hangs at `lab6_run_pool`. -/
def InPool (k : Sched P) (p : P) : Prop :=
  ∃ t, Linked k.links t ∧ k.rq.lab6RunPool = root t ∧ p ∈ members t

/-- The running process wants to run on. -/
def Running (k : Sched P) (p : P) : Prop :=
  p = k.current ∧ p ≠ k.idleproc ∧ (k.proc p).state = .runnable

theorem Holds.inPool_iff {free : Bool → Prop} {k : Sched P} {t : BinaryTree P} {p : P}
    (h : k.Holds free t) : k.InPool p ↔ p ∈ members t := by
  constructor
  · intro hin
    obtain ⟨t', hl, hpool, hp⟩ := hin
    rwa [hl.unique h.heap.linked (hpool.symm.trans h.pool)] at hp
  · exact fun hp => ⟨t, h.heap.linked, h.pool, hp⟩

/-- Two states with the same pool. -/
theorem Holds.frame {free : Bool → Prop} {k k' : Sched P} {t : BinaryTree P}
    (h : k.Holds free t) (hl : ∀ p ∈ members t, k'.links p = k.links p) (hrq : k'.rq = k.rq)
    (hmark : ∀ p ∈ members t, (k'.proc p).rq = (k.proc p).rq)
    (hfree : ∀ p, p ∉ members t → free (k'.proc p).rq) : k'.Holds free t where
  heap := h.heap.frame hl
  pool := hrq ▸ h.pool
  count := hrq ▸ h.count
  marked p hp := (hmark p hp).trans (h.marked p hp)
  free := hfree

theorem Holds.congr {free : Bool → Prop} {k k' : Sched P} {t : BinaryTree P}
    (h : k.Holds free t) (hl : ∀ p ∈ members t, k'.links p = k.links p) (hrq : k'.rq = k.rq)
    (hmark : ∀ p, (k'.proc p).rq = (k.proc p).rq) : k'.Holds free t := by
  refine h.frame hl hrq (fun p _ => hmark p) ?_
  intro p hp
  rw [hmark p]
  exact h.free p hp

variable [DecidableEq P]

/-- The running process with `need_resched` cleared. -/
def unflagged (k : Sched P) : Sched P :=
  k.setProc k.current { k.proc k.current with needResched := false }

theorem putBackWith_eq (c : StrideClass P) (k : Sched P) :
    k.putBackWith c = if (k.proc k.current).state = .runnable then
      k.unflagged.enqueueWith c k.current else some k.unflagged := by
  have hstate : (k.unflagged.proc k.current).state = (k.proc k.current).state :=
    setProc_field ProcStruct.state (by rfl) _
  rw [← hstate]
  rfl

theorem sameProcs_unflagged (k : Sched P) : k.SameProcs k.unflagged :=
  sameProcs_update rfl rfl rfl rfl rfl rfl rfl

end Sched

namespace Traced

variable [DecidableEq P]

/-- A pick moves the unwrapped stride as well and counts, and a new process begins with
stride 0. -/
def recordWith (c : StrideClass P) (s : Traced P) (k : Sched P) : Event P → Traced P
  | .alloc p => ⟨k, Function.update s.unwrapped p 0, s.picks⟩
  | .schedule =>
    match s.sched.pickWith c with
    | some p =>
      ⟨k, Function.update s.unwrapped p
          (s.unwrapped p + c.bigStride / (s.sched.proc p).lab6Priority),
        Function.update s.picks p (s.picks p + 1)⟩
    | none => ⟨k, s.unwrapped, s.picks⟩
  | _ => ⟨k, s.unwrapped, s.picks⟩

def stepWith (c : StrideClass P) (s : Traced P) (ev : Event P) : Option (Traced P) :=
  (s.sched.stepWith c ev).map fun k => s.recordWith c k ev

/-- The signed comparison can tell the two strides apart. -/
def Comparable (s : Traced P) (p q : P) : Prop :=
  s.unwrapped p < s.unwrapped q + 2 ^ 31 ∧ s.unwrapped q < s.unwrapped p + 2 ^ 31

/-- A woken process can be compared with all that want to run, and the pick finds a priority
from 1 to `BIG_STRIDE`. -/
def Meets (c : StrideClass P) (s : Traced P) : Event P → Prop
  | .wakeup p => (s.sched.proc p).state ≠ .runnable →
      ∀ q, s.sched.InPool q ∨ s.sched.Running q → s.Comparable p q
  | .schedule => ∀ p, s.sched.pickWith c = some p →
      1 ≤ (s.sched.proc p).lab6Priority ∧ (s.sched.proc p).lab6Priority ≤ c.bigStride
  | _ => True

/-- The pool is a heap of the processes that wait, and the strides of all that want to run can
be compared. -/
structure Pooled (free : Bool → Prop) (s : Traced P) (t : BinaryTree P) : Prop where
  holds : s.sched.Holds free t
  ordered : Ordered (fun p q => s.unwrapped p ≤ s.unwrapped q) t
  ready : ∀ p ∈ members t, s.sched.allocated p = true ∧ (s.sched.proc p).state = .runnable ∧
    p ≠ s.sched.current ∧ p ≠ s.sched.idleproc
  current : s.sched.current ≠ s.sched.idleproc → s.sched.allocated s.sched.current = true
  carried : ∀ p, (s.sched.proc p).lab6Stride = uint32 (s.unwrapped p)
  window : ∀ p q, p ∈ members t ∨ s.sched.Running p → q ∈ members t ∨ s.sched.Running q →
    s.Comparable p q

variable {c : StrideClass P} {free : Bool → Prop} {s s' : Traced P} {t : BinaryTree P} {p q : P}

omit [DecidableEq P] in
theorem int32_sub_of_lt {a b : ℕ} (hab : a < b + 2 ^ 31) (hba : b < a + 2 ^ 31) :
    int32 (uint32 a - uint32 b) = (a : ℤ) - b := by
  rw [int32, Int.bmod_def, uint32, uint32]
  push_cast
  omega

omit [DecidableEq P] in
theorem decided_of_comparable {proc : P → ProcStruct} {S : P → Prop}
    (hcarried : ∀ p, (proc p).lab6Stride = uint32 (s.unwrapped p))
    (hcomp : ∀ p q, S p → S q → s.Comparable p q) :
    Sched.Decided proc (fun p q => s.unwrapped p ≤ s.unwrapped q) S := by
  intro p hp q hq
  obtain ⟨h1, h2⟩ := hcomp p q hp hq
  unfold procStrideCompF
  simp only [hcarried, int32_sub_of_lt h1 h2]
  constructor
  · intro hsign
    by_contra hlt
    split at hsign
    · exact absurd hsign (by decide)
    · split at hsign
      · exact absurd hsign (by decide)
      · omega
  · intro hsign
    by_contra hlt
    rw [if_neg (by omega), if_neg (by omega)] at hsign
    exact hsign rfl

omit [DecidableEq P] in
/-- The comparator does not put a process below one with a smaller stride. -/
theorem comp_ne_of_le {proc : P → ProcStruct}
    (hcarried : ∀ p, (proc p).lab6Stride = uint32 (s.unwrapped p)) (hcomp : s.Comparable q p)
    (hle : s.unwrapped p ≤ s.unwrapped q) : procStrideCompF proc q p ≠ -1 := by
  unfold procStrideCompF
  simp only [hcarried, int32_sub_of_lt hcomp.1 hcomp.2]
  split
  · decide
  · split
    · decide
    · omega

omit [DecidableEq P] in
theorem Pooled.decided (h : s.Pooled free t) :
    Sched.Decided s.sched.proc (fun p q => s.unwrapped p ≤ s.unwrapped q)
      (fun p => p ∈ members t ∨ s.sched.Running p) :=
  decided_of_comparable h.carried h.window

/-- A change of one process outside the pool. -/
theorem Pooled.setProc {k : Sched P} {u n : P → ℕ} {v : ProcStruct}
    (h : Pooled free ⟨k, u, n⟩ t) (hp : p ∉ members t) (hrq : v.rq = (k.proc p).rq)
    (hstride : v.lab6Stride = (k.proc p).lab6Stride)
    (hrun : v.state = .runnable → (k.proc p).state = .runnable) :
    Pooled free ⟨k.setProc p v, u, n⟩ t := by
  have hrunning : ∀ q, (k.setProc p v).Running q → k.Running q := by
    intro q hq
    refine ⟨hq.1, hq.2.1, ?_⟩
    have hst := hq.2.2
    by_cases heq : q = p
    · rw [heq, Sched.setProc_self] at hst
      rw [heq]
      exact hrun hst
    · rwa [Sched.setProc_of_ne v heq] at hst
  refine ⟨?_, h.ordered, ?_, h.current, ?_, ?_⟩
  · exact h.holds.congr (fun _ _ => rfl) rfl (fun q => Sched.setProc_field ProcStruct.rq hrq q)
  · intro q hq
    have hne : q ≠ p := fun heq => hp (heq ▸ hq)
    obtain ⟨ha, hst, hrest⟩ := h.ready q hq
    exact ⟨ha, by rw [Sched.setProc_of_ne v hne]; exact hst, hrest⟩
  · intro q
    exact (Sched.setProc_field ProcStruct.lab6Stride hstride q).trans (h.carried q)
  · intro x y hx hy
    exact h.window x y (hx.imp_right (hrunning x)) (hy.imp_right (hrunning y))

omit [DecidableEq P] in
theorem Pooled.current_notMem (h : s.Pooled free t) : s.sched.current ∉ members t :=
  fun hin => (h.ready _ hin).2.2.1 rfl

omit [DecidableEq P] in
theorem le_trans_of (u : P → ℕ) : ∀ x y z : P, u x ≤ u y → u y ≤ u z → u x ≤ u z :=
  fun _ _ _ hxy hyz => Nat.le_trans hxy hyz

/-- What putting the running process back leaves: all that want to run are in the pool. -/
structure Back (free : Bool → Prop) (s : Traced P) (t : BinaryTree P) (k : Sched P)
    (t' : BinaryTree P) : Prop where
  holds : k.Holds free t'
  ordered : Ordered (fun p q => s.unwrapped p ≤ s.unwrapped q) t'
  mem : ∀ q, q ∈ members t' ↔ q ∈ members t ∨ s.sched.Running q
  same : s.sched.SameProcs k
  top : s.sched.Running s.sched.current →
    (∀ q ∈ members t, s.unwrapped s.sched.current ≤ s.unwrapped q) →
      root t' = some s.sched.current

theorem Pooled.putBack (hc : c.Lawful free) (h : s.Pooled free t) :
    ∃ k t', s.sched.putBackWith c = some k ∧ s.Back free t k t' := by
  obtain ⟨k, u, n⟩ := s
  have hout : k.current ∉ members t := h.current_notMem
  have h₀ : Pooled free ⟨k.unflagged, u, n⟩ t := h.setProc hout rfl rfl id
  have hstay : ¬ k.Running k.current → Back free ⟨k, u, n⟩ t k.unflagged t := by
    intro hno
    refine ⟨h₀.holds, h.ordered, fun q => ⟨Or.inl, ?_⟩, k.sameProcs_unflagged,
      fun hr => absurd hr hno⟩
    intro hq
    refine hq.resolve_right fun hr => hno ?_
    have heq : q = k.current := hr.1
    rwa [heq] at hr
  change ∃ k' t', k.putBackWith c = some k' ∧ Back free ⟨k, u, n⟩ t k' t'
  rw [Sched.putBackWith_eq]
  by_cases hrun : (k.proc k.current).state = .runnable
  · rw [if_pos hrun]
    by_cases hidle : k.current ≠ k.idleproc
    · have henqueue : k.unflagged.enqueueWith c k.current = c.enqueue k.unflagged k.current :=
        if_pos hidle
      rw [henqueue]
      have hrunning : k.Running k.current := ⟨rfl, hidle, hrun⟩
      have hline : ∀ q, q ∈ members t ∨ q = k.current → q ∈ members t ∨ k.Running q := by
        intro q hq
        rcases hq with hq | rfl
        · exact Or.inl hq
        · exact Or.inr hrunning
      have hdec := h.decided.congr hline (fun q _ => k.sameProcs_unflagged.stride q)
      obtain ⟨k', t', henq, hholds, hord, hmem, hsame, htop⟩ :=
        hc.queue.enters h₀.holds hout (le_trans_of u) h.ordered hdec
      refine ⟨k', t', henq, hholds, hord, ?_, k.sameProcs_unflagged.trans hsame, ?_⟩
      · intro q
        rw [hmem q]
        exact ⟨hline q, fun hq => hq.imp_right fun hr => hr.1⟩
      · intro _ hleast
        refine htop fun r hr => ?_
        have hin := root_mem hr
        exact comp_ne_of_le h₀.carried (h.window r k.current (Or.inl hin) (Or.inr hrunning))
          (hleast r hin)
    · have henqueue : k.unflagged.enqueueWith c k.current = some k.unflagged := if_neg hidle
      rw [henqueue]
      exact ⟨_, t, rfl, hstay fun hr => hidle hr.2.1⟩
  · rw [if_neg hrun]
    exact ⟨_, t, rfl, hstay fun hr => hrun hr.2.2⟩

/-- What the pick is: one with a smallest stride among all that want to run. -/
theorem Pooled.pickWith (hc : c.Lawful free) (h : s.Pooled free t)
    (hp : s.sched.pickWith c = some p) :
    (p ∈ members t ∨ s.sched.Running p) ∧
      ∀ q, q ∈ members t ∨ s.sched.Running q → s.unwrapped p ≤ s.unwrapped q := by
  obtain ⟨k, t', hrun, hback⟩ := h.putBack hc
  rw [Sched.pickWith, hrun, Option.bind_some, hback.holds.pool] at hp
  refine ⟨(hback.mem p).mp (root_mem hp), ?_⟩
  intro q hq
  by_cases heq : q = p
  · rw [heq]
  · exact hback.ordered.root_le hp ((hback.mem q).mpr hq) heq

theorem recordWith_none {k : Sched P} (h : s.sched.pickWith c = none) :
    s.recordWith c k .schedule = ⟨k, s.unwrapped, s.picks⟩ := by
  simp only [recordWith, h]

theorem recordWith_some {k : Sched P} (h : s.sched.pickWith c = some p) :
    s.recordWith c k .schedule = ⟨k, Function.update s.unwrapped p
        (s.unwrapped p + c.bigStride / (s.sched.proc p).lab6Priority),
      Function.update s.picks p (s.picks p + 1)⟩ := by
  simp only [recordWith, h]

omit [DecidableEq P] in
/-- All that want to run are allocated, runnable and not the idle process. -/
theorem Pooled.line_ready (h : s.Pooled free t) (hq : q ∈ members t ∨ s.sched.Running q) :
    s.sched.allocated q = true ∧ (s.sched.proc q).state = .runnable ∧ q ≠ s.sched.idleproc := by
  rcases hq with hq | hq
  · obtain ⟨ha, hst, -, hidle⟩ := h.ready q hq
    exact ⟨ha, hst, hidle⟩
  · have heq : q = s.sched.current := hq.1
    refine ⟨?_, hq.2.2, hq.2.1⟩
    rw [heq]
    exact h.current (heq ▸ hq.2.1)

/-- `schedule` with nothing in the pool runs the idle process. -/
theorem Pooled.schedule_idle (hc : c.Lawful free) (h : s.Pooled free t)
    (hpick : s.sched.pickWith c = none) :
    ∃ s' t', s.stepWith c .schedule = some s' ∧ s'.Pooled free t' := by
  obtain ⟨k, t', hrun, hback⟩ := h.putBack hc
  have hpool : k.rq.lab6RunPool = none := by
    rw [Sched.pickWith, hrun, Option.bind_some] at hpick
    exact hpick
  have hnil : members t' = [] := root_eq_none_iff.mp (hback.holds.pool.symm.trans hpool)
  have hstep : s.sched.stepWith c .schedule = some (k.runNext k.idleproc) := by
    change s.sched.scheduleWith c = _
    rw [Sched.scheduleWith, hrun, Option.bind_some, hc.pick_none hpool, Option.bind_some]
  have hempty : ∀ {x}, x ∈ members t' ∨ (k.runNext k.idleproc).Running x → False := by
    intro x hx
    rcases hx with hx | hx
    · rw [hnil] at hx
      exact List.not_mem_nil hx
    · exact hx.2.1 hx.1
  refine ⟨⟨k.runNext k.idleproc, s.unwrapped, s.picks⟩, t', ?_, ?_, hback.ordered, ?_,
    fun hne => absurd rfl hne, ?_, fun x _ hx => (hempty hx).elim⟩
  · rw [stepWith, hstep, Option.map_some, recordWith_none hpick]
  · exact hback.holds.congr (fun _ _ => rfl) rfl
      (fun q => Sched.runNext_field ProcStruct.rq (fun _ => rfl) q)
  · exact fun q hq => (hempty (Or.inl hq)).elim
  · intro q
    have hrunNext : ((k.runNext k.idleproc).proc q).lab6Stride = (k.proc q).lab6Stride :=
      Sched.runNext_field ProcStruct.lab6Stride (fun _ => rfl) q
    exact (hrunNext.trans (hback.same.stride q)).trans (h.carried q)

/-- `p` was picked and runs. -/
structure Picked (c : StrideClass P) (s : Traced P) (t : BinaryTree P) (p : P) (s' : Traced P)
    (t' : BinaryTree P) : Prop where
  mem : ∀ q, q ∈ members t' ↔ (q ∈ members t ∨ s.sched.Running q) ∧ q ≠ p
  current : s'.sched.current = p
  idleproc : s'.sched.idleproc = s.sched.idleproc
  state : ∀ q, (s'.sched.proc q).state = (s.sched.proc q).state
  priority : ∀ q, (s'.sched.proc q).lab6Priority = (s.sched.proc q).lab6Priority
  unwrapped : s'.unwrapped = Function.update s.unwrapped p
    (s.unwrapped p + c.bigStride / (s.sched.proc p).lab6Priority)

/-- `schedule` with a process to pick, whose priority is not 0. -/
theorem Pooled.schedule_pick (hc : c.Lawful free) (h : s.Pooled free t)
    (hpick : s.sched.pickWith c = some p) (hprio : (s.sched.proc p).lab6Priority ≠ 0) :
    ∃ s' t', s.stepWith c .schedule = some s' ∧ s'.Pooled free t' ∧ s.Picked c t p s' t' := by
  obtain ⟨k, t', hrun, hback⟩ := h.putBack hc
  obtain ⟨hline, hleast⟩ := h.pickWith hc hpick
  have hpool : k.rq.lab6RunPool = some p := by
    rw [Sched.pickWith, hrun, Option.bind_some] at hpick
    exact hpick
  have hroot : root t' = some p := hback.holds.pool.symm.trans hpool
  have hprio' : (k.proc p).lab6Priority ≠ 0 := by
    rw [hback.same.priority]
    exact hprio
  have hpickNext := hc.pick_some hpool hprio'
  obtain ⟨k₁, hk₁⟩ : ∃ k₁, k₁ = k.setProc p { k.proc p with
      lab6Stride := uint32 ((k.proc p).lab6Stride + c.bigStride / (k.proc p).lab6Priority) } :=
    ⟨_, rfl⟩
  rw [← hk₁] at hpickNext
  have hother : ∀ q, q ≠ p → k₁.proc q = k.proc q := by
    intro q hq
    rw [hk₁]
    exact Sched.setProc_of_ne _ hq
  have hholds₁ : k₁.Holds free t' := by
    rw [hk₁]
    exact hback.holds.congr (fun _ _ => rfl) rfl
      (fun q => Sched.setProc_field ProcStruct.rq (by rfl) q)
  have hdec : Sched.Decided k₁.proc (fun x y => s.unwrapped x ≤ s.unwrapped y)
      (fun q => q ∈ members t' ∧ q ≠ p) := by
    refine h.decided.congr (fun q hq => (hback.mem q).mp hq.1) ?_
    intro q hq
    rw [hother q hq.2, hback.same.stride]
  obtain ⟨k₂, t₂, hdeq, hholds₂, hord₂, hmem₂, hsame₂⟩ :=
    hc.queue.leaves hholds₁ hroot (le_trans_of s.unwrapped) hback.ordered hdec
  have hsched : s.sched.stepWith c .schedule = some (k₂.runNext p) := by
    change s.sched.scheduleWith c = _
    rw [Sched.scheduleWith, hrun, Option.bind_some, hpickNext, Option.bind_some]
    change (c.dequeue k₁ p).map _ = _
    rw [hdeq, Option.map_some]
  have hidle : (k₂.runNext p).idleproc = s.sched.idleproc := by
    change k₂.idleproc = _
    rw [hsame₂.idleproc, hk₁, Sched.setProc_idleproc, hback.same.idleproc]
  have halloc : (k₂.runNext p).allocated = s.sched.allocated := by
    change k₂.allocated = _
    rw [hsame₂.allocated, hk₁, Sched.setProc_allocated, hback.same.allocated]
  have hstate : ∀ q, ((k₂.runNext p).proc q).state = (s.sched.proc q).state := by
    intro q
    have hnext : ((k₂.runNext p).proc q).state = (k₂.proc q).state :=
      Sched.runNext_field ProcStruct.state (fun _ => rfl) q
    have hset : (k₁.proc q).state = (k.proc q).state := by
      rw [hk₁]
      exact Sched.setProc_field ProcStruct.state (by rfl) q
    rw [hnext, hsame₂.state, hset, hback.same.state]
  have hpriority : ∀ q, ((k₂.runNext p).proc q).lab6Priority =
      (s.sched.proc q).lab6Priority := by
    intro q
    have hnext : ((k₂.runNext p).proc q).lab6Priority = (k₂.proc q).lab6Priority :=
      Sched.runNext_field ProcStruct.lab6Priority (fun _ => rfl) q
    have hset : (k₁.proc q).lab6Priority = (k.proc q).lab6Priority := by
      rw [hk₁]
      exact Sched.setProc_field ProcStruct.lab6Priority (by rfl) q
    rw [hnext, hsame₂.priority, hset, hback.same.priority]
  have hstride : ∀ q, ((k₂.runNext p).proc q).lab6Stride = (k₁.proc q).lab6Stride := by
    intro q
    have hnext : ((k₂.runNext p).proc q).lab6Stride = (k₂.proc q).lab6Stride :=
      Sched.runNext_field ProcStruct.lab6Stride (fun _ => rfl) q
    rw [hnext, hsame₂.stride]
  obtain ⟨d, hd⟩ : ∃ d, d = c.bigStride / (s.sched.proc p).lab6Priority := ⟨_, rfl⟩
  have hself : (k₁.proc p).lab6Stride = uint32 (uint32 (s.unwrapped p) + d) := by
    rw [hk₁, Sched.setProc_self, hd, ← hback.same.priority, ← h.carried, ← hback.same.stride]
  have hdle : d < 2 ^ 31 := by
    rw [hd]
    exact (Nat.div_le_self _ _).trans_lt hc.window
  have hin : ∀ q, q ∈ members t₂ ∨ (k₂.runNext p).Running q →
      q ∈ members t ∨ s.sched.Running q := by
    intro q hq
    rcases hq with hq | hq
    · exact (hback.mem q).mp ((hmem₂ q).mp hq).1
    · exact hq.1 ▸ hline
  refine ⟨⟨k₂.runNext p, Function.update s.unwrapped p (s.unwrapped p + d),
    Function.update s.picks p (s.picks p + 1)⟩, t₂, ?_, ⟨?_, ?_, ?_, ?_, ?_, ?_⟩,
    ⟨?_, rfl, hidle, hstate, hpriority, by rw [hd]⟩⟩
  · rw [stepWith, hsched, Option.map_some, recordWith_some hpick, hd]
  · exact hholds₂.congr (fun _ _ => rfl) rfl
      (fun q => Sched.runNext_field ProcStruct.rq (fun _ => rfl) q)
  · refine hord₂.congr ?_
    intro x hx y hy hle
    simp only [Function.update_of_ne ((hmem₂ x).mp hx).2,
      Function.update_of_ne ((hmem₂ y).mp hy).2]
    exact hle
  · intro q hq
    obtain ⟨ha, hst, hid⟩ := h.line_ready (hin q (Or.inl hq))
    refine ⟨by rw [halloc]; exact ha, (hstate q).trans hst, ((hmem₂ q).mp hq).2, ?_⟩
    rw [hidle]
    exact hid
  · intro _
    rw [halloc]
    exact (h.line_ready hline).1
  · intro q
    rw [hstride]
    by_cases hq : q = p
    · simp only [hq, hself, Function.update_self]
      exact Nat.mod_add_mod _ _ _
    · simp only [hother q hq, hback.same.stride, h.carried, Function.update_of_ne hq]
  · intro x y hx hy
    have hx := hin x hx
    have hy := hin y hy
    obtain ⟨hxy, hyx⟩ := h.window x y hx hy
    have hlex := hleast x hx
    have hley := hleast y hy
    unfold Comparable
    by_cases hxp : x = p
    · by_cases hyp : y = p
      · rw [hxp, hyp]
        omega
      · simp only [hxp, Function.update_self, Function.update_of_ne hyp] at hyx ⊢
        omega
    · by_cases hyp : y = p
      · simp only [hyp, Function.update_self, Function.update_of_ne hxp] at hxy ⊢
        omega
      · simp only [Function.update_of_ne hxp, Function.update_of_ne hyp]
        exact ⟨hxy, hyx⟩
  · intro q
    rw [hmem₂ q, hback.mem q]

/-- A woken process that can be compared with all that want to run joins them. -/
theorem Pooled.wakeup {k : Sched P} {u n : P → ℕ} (hc : c.Lawful free)
    (h : Pooled free ⟨k, u, n⟩ t) (ha : k.allocated p = true)
    (hstate : (k.proc p).state ≠ .runnable) (hzombie : (k.proc p).state ≠ .zombie)
    (hjoin : ∀ q, q ∈ members t ∨ k.Running q → Comparable ⟨k, u, n⟩ p q) :
    ∃ k' t', k.wakeupWith c p = some k' ∧ Pooled free ⟨k', u, n⟩ t' := by
  obtain ⟨k₀, hk₀⟩ : ∃ k₀, k₀ = k.setProc p { k.proc p with state := .runnable } := ⟨_, rfl⟩
  have hout : p ∉ members t := fun hin => hstate (h.ready p hin).2.1
  have hfield : ∀ {β : Type} (f : ProcStruct → β),
      f { k.proc p with state := .runnable } = f (k.proc p) →
        ∀ q, f (k₀.proc q) = f (k.proc q) := by
    intro β f hf q
    rw [hk₀]
    exact Sched.setProc_field f hf q
  have hholds₀ : k₀.Holds free t := by
    refine h.holds.congr ?_ ?_ (hfield ProcStruct.rq rfl)
    · exact fun _ _ => by rw [hk₀, Sched.setProc_links]
    · rw [hk₀, Sched.setProc_rq]
  have hidle₀ : k₀.idleproc = k.idleproc := by rw [hk₀, Sched.setProc_idleproc]
  have hcurrent₀ : k₀.current = k.current := by rw [hk₀, Sched.setProc_current]
  have halloc₀ : k₀.allocated = k.allocated := by rw [hk₀, Sched.setProc_allocated]
  have hother₀ : ∀ q, q ≠ p → k₀.proc q = k.proc q := by
    intro q hq
    rw [hk₀]
    exact Sched.setProc_of_ne _ hq
  have hself₀ : (k₀.proc p).state = .runnable := by rw [hk₀, Sched.setProc_self]
  have hcarried₀ : ∀ q, (k₀.proc q).lab6Stride = uint32 (u q) := fun q =>
    (hfield ProcStruct.lab6Stride rfl q).trans (h.carried q)
  have hrunning₀ : ∀ q, k₀.Running q → k.Running q ∨ q = p := by
    intro q hq
    by_cases heq : q = p
    · exact Or.inr heq
    · refine Or.inl ⟨hq.1.trans hcurrent₀, hidle₀ ▸ hq.2.1, ?_⟩
      rw [← hother₀ q heq]
      exact hq.2.2
  have hnear : ∀ x y, (x ∈ members t ∨ k.Running x) ∨ x = p →
      (y ∈ members t ∨ k.Running y) ∨ y = p → Comparable ⟨k, u, n⟩ x y := by
    intro x y hx hy
    rcases hx with hx | rfl
    · rcases hy with hy | rfl
      · exact h.window x y hx hy
      · exact ⟨(hjoin x hx).2, (hjoin x hx).1⟩
    · rcases hy with hy | rfl
      · exact hjoin y hy
      · exact ⟨Nat.lt_add_of_pos_right (by omega), Nat.lt_add_of_pos_right (by omega)⟩
  have hready₀ : ∀ q ∈ members t, k₀.allocated q = true ∧ (k₀.proc q).state = .runnable ∧
      q ≠ k₀.current ∧ q ≠ k₀.idleproc := by
    intro q hq
    have hne : q ≠ p := fun heq => hout (heq ▸ hq)
    rw [halloc₀, hother₀ q hne, hcurrent₀, hidle₀]
    exact h.ready q hq
  -- the pool as it is suits the process that runs and the idle process
  have hstay : Pooled free ⟨k₀, u, n⟩ t := by
    refine ⟨hholds₀, h.ordered, hready₀, ?_, hcarried₀, ?_⟩
    · change k₀.current ≠ k₀.idleproc → k₀.allocated k₀.current = true
      rw [halloc₀, hcurrent₀, hidle₀]
      exact h.current
    · intro x y hx hy
      refine hnear x y ?_ ?_
      · rcases hx with hx | hx
        · exact Or.inl (Or.inl hx)
        · exact (hrunning₀ x hx).imp_left Or.inr
      · rcases hy with hy | hy
        · exact Or.inl (Or.inl hy)
        · exact (hrunning₀ y hy).imp_left Or.inr
  have hwake : k.wakeupWith c p = if p ≠ k₀.current then k₀.enqueueWith c p else some k₀ := by
    rw [Sched.wakeupWith, if_neg hzombie, if_pos hstate, hk₀]
  rw [hwake]
  by_cases hcur : p ≠ k₀.current
  · rw [if_pos hcur]
    by_cases hid : p ≠ k₀.idleproc
    · have henqueue : k₀.enqueueWith c p = c.enqueue k₀ p := if_pos hid
      rw [henqueue]
      have hdec : Sched.Decided k₀.proc (fun x y => u x ≤ u y)
          (fun q => q ∈ members t ∨ q = p) :=
        decided_of_comparable (s := ⟨k, u, n⟩) hcarried₀ fun x y hx hy =>
          hnear x y (hx.imp_left Or.inl) (hy.imp_left Or.inl)
      obtain ⟨k', t', henq, hholds, hord, hmem, hsame, -⟩ :=
        hc.queue.enters hholds₀ hout (le_trans_of u) h.ordered hdec
      have hrunning : ∀ q, k'.Running q → k₀.Running q := by
        intro q hq
        refine ⟨hq.1.trans hsame.current, hsame.idleproc ▸ hq.2.1, ?_⟩
        rw [← hsame.state]
        exact hq.2.2
      have hline : ∀ q, q ∈ members t' ∨ k'.Running q →
          (q ∈ members t ∨ k.Running q) ∨ q = p := by
        intro q hq
        rcases hq with hq | hq
        · exact ((hmem q).mp hq).imp_left Or.inl
        · exact (hrunning₀ q (hrunning q hq)).imp_left Or.inr
      refine ⟨k', t', henq, hholds, hord, ?_, ?_, ?_, ?_⟩
      · intro q hq
        change k'.allocated q = true ∧ _
        rw [hsame.allocated, hsame.state, hsame.current, hsame.idleproc]
        rcases (hmem q).mp hq with hq | rfl
        · exact hready₀ q hq
        · exact ⟨halloc₀ ▸ ha, hself₀, hcur, hid⟩
      · change k'.current ≠ k'.idleproc → k'.allocated k'.current = true
        rw [hsame.allocated, hsame.current, hsame.idleproc]
        exact hstay.current
      · exact fun q => (hsame.stride q).trans (hcarried₀ q)
      · exact fun x y hx hy => hnear x y (hline x hx) (hline y hy)
    · have henqueue : k₀.enqueueWith c p = some k₀ := if_neg hid
      rw [henqueue]
      exact ⟨k₀, t, rfl, hstay⟩
  · rw [if_neg hcur]
    exact ⟨k₀, t, rfl, hstay⟩

/-- A new process begins outside the pool. -/
theorem Pooled.alloc {k : Sched P} {u n : P → ℕ} (hc : c.Lawful free)
    (h : Pooled free ⟨k, u, n⟩ t) (ha : k.allocated p = false) :
    Pooled free ⟨k.allocWith c p, Function.update u p 0, n⟩ t := by
  have hne : ∀ q, k.allocated q = true → q ≠ p := by
    intro q hq heq
    rw [heq, ha] at hq
    exact absurd hq (by simp)
  have hmem : ∀ q ∈ members t, q ≠ p := fun q hq => hne q (h.ready q hq).1
  have hproc : ∀ q, q ≠ p → (k.allocWith c p).proc q = k.proc q := fun q hq =>
    Sched.setProc_of_ne _ hq
  have hself : (k.allocWith c p).proc p = c.freshProc := Sched.setProc_self _
  have halloc : ∀ q, q ≠ p → (k.allocWith c p).allocated q = k.allocated q := fun q hq =>
    Function.update_of_ne hq _ _
  have hline : ∀ q, q ∈ members t ∨ (k.allocWith c p).Running q →
      (q ∈ members t ∨ k.Running q) ∧ q ≠ p := by
    intro q hq
    rcases hq with hq | hq
    · exact ⟨Or.inl hq, hmem q hq⟩
    · have hqp : q ≠ p := by
        have heq : q = k.current := hq.1
        rw [heq]
        exact hne _ (h.current (heq ▸ hq.2.1))
      refine ⟨Or.inr ⟨hq.1, hq.2.1, ?_⟩, hqp⟩
      rw [← hproc q hqp]
      exact hq.2.2
  refine ⟨?_, ?_, ?_, ?_, ?_, ?_⟩
  · refine h.holds.frame ?_ rfl ?_ ?_
    · exact fun q hq => Function.update_of_ne (hmem q hq) _ _
    · exact fun q hq => by rw [hproc q (hmem q hq)]
    · intro q hq
      by_cases hqp : q = p
      · rw [hqp, hself]
        exact hc.fresh.1
      · rw [hproc q hqp]
        exact h.holds.free q hq
  · refine h.ordered.congr ?_
    intro x hx y hy hle
    simp only [Function.update_of_ne (hmem x hx), Function.update_of_ne (hmem y hy)]
    exact hle
  · intro q hq
    obtain ⟨h1, h2, h3⟩ := h.ready q hq
    exact ⟨(halloc q (hmem q hq)).trans h1, (congrArg _ (hproc q (hmem q hq))).trans h2, h3⟩
  · intro hcur
    have ha' := h.current hcur
    exact (halloc _ (hne _ ha')).trans ha'
  · intro q
    by_cases hqp : q = p
    · simp only [hqp, hself, Function.update_self]
      exact hc.fresh.2.1
    · simp only [hproc q hqp, Function.update_of_ne hqp]
      exact h.carried q
  · intro x y hx hy
    obtain ⟨hx, hxp⟩ := hline x hx
    obtain ⟨hy, hyp⟩ := hline y hy
    have hw := h.window x y hx hy
    unfold Comparable at hw ⊢
    simp only [Function.update_of_ne hxp, Function.update_of_ne hyp]
    exact hw

omit [DecidableEq P] in
/-- A dead process that does not run is freed. -/
theorem Pooled.reap [DecidableEq P] {k : Sched P} {u n : P → ℕ} (h : Pooled free ⟨k, u, n⟩ t)
    (hdead : (k.proc p).state = .zombie) (hcur : p ≠ k.current) :
    Pooled free ⟨{ k with allocated := Function.update k.allocated p false }, u, n⟩ t := by
  have hmem : ∀ q ∈ members t, q ≠ p := by
    intro q hq heq
    have hrun := (h.ready q hq).2.1
    rw [heq, hdead] at hrun
    exact absurd hrun (by simp)
  refine ⟨h.holds.congr (fun _ _ => rfl) rfl (fun _ => rfl), h.ordered, ?_, ?_, h.carried,
    h.window⟩
  · intro q hq
    obtain ⟨h1, hrest⟩ := h.ready q hq
    exact ⟨(Function.update_of_ne (hmem q hq) _ _).trans h1, hrest⟩
  · exact fun hne => (Function.update_of_ne (Ne.symm hcur) _ _).trans (h.current hne)

theorem Pooled.step (hc : c.Lawful free) (h : s.Pooled free t) {ev : Event P}
    (hm : s.Meets c ev) (hs : s.stepWith c ev = some s') : ∃ t', s'.Pooled free t' := by
  obtain ⟨k, u, n⟩ := s
  obtain ⟨k', hk', rfl⟩ := Option.map_eq_some_iff.mp hs
  cases ev with
  | alloc p =>
    change (if k.allocated p then none else some (k.allocWith c p)) = some k' at hk'
    split at hk'
    · exact absurd hk' (by simp)
    · rename_i ha
      obtain rfl := Option.some.inj hk'
      exact ⟨t, h.alloc hc (Bool.eq_false_iff.mpr ha)⟩
  | wakeup p =>
    change (if k.allocated p then k.wakeupWith c p else none) = some k' at hk'
    split at hk'
    · rename_i ha
      by_cases hzombie : (k.proc p).state = .zombie
      · rw [Sched.wakeupWith, if_pos hzombie] at hk'
        exact absurd hk' (by simp)
      · by_cases hstate : (k.proc p).state = .runnable
        · rw [Sched.wakeupWith, if_neg hzombie, if_neg (not_not.mpr hstate)] at hk'
          obtain rfl := Option.some.inj hk'
          exact ⟨t, h⟩
        · obtain ⟨k₁, t₁, hwake, h₁⟩ := h.wakeup hc ha hstate hzombie
            (fun q hq => hm hstate q (hq.imp_left h.holds.inPool_iff.mpr))
          rw [hwake] at hk'
          obtain rfl := Option.some.inj hk'
          exact ⟨t₁, h₁⟩
    · exact absurd hk' (by simp)
  | sleep =>
    change (if k.current ≠ k.idleproc ∧ (k.proc k.current).state = .runnable then _ else none) =
      some k' at hk'
    split at hk'
    · obtain rfl := Option.some.inj hk'
      exact ⟨t, h.setProc h.current_notMem rfl rfl (fun hrun => absurd hrun (by simp))⟩
    · exact absurd hk' (by simp)
  | exit =>
    change (if k.current ≠ k.idleproc ∧ (k.proc k.current).state = .runnable then _ else none) =
      some k' at hk'
    split at hk'
    · obtain rfl := Option.some.inj hk'
      exact ⟨t, h.setProc h.current_notMem rfl rfl (fun hrun => absurd hrun (by simp))⟩
    · exact absurd hk' (by simp)
  | reap p =>
    change (if k.allocated p = true ∧ (k.proc p).state = .zombie ∧ p ≠ k.current then _
      else none) = some k' at hk'
    split at hk'
    · rename_i hdead
      obtain rfl := Option.some.inj hk'
      exact ⟨t, h.reap hdead.2.1 hdead.2.2⟩
    · exact absurd hk' (by simp)
  | setPriority priority =>
    obtain rfl := Option.some.inj hk'
    exact ⟨t, h.setProc h.current_notMem rfl rfl id⟩
  | tick =>
    obtain rfl := Option.some.inj hk'
    change ∃ t', Pooled free ⟨k.schedClassProcTick k.current, u, n⟩ t'
    unfold Sched.schedClassProcTick
    split
    · exact ⟨t, h.setProc h.current_notMem rfl rfl id⟩
    · exact ⟨t, h.setProc h.current_notMem rfl rfl id⟩
  | schedule =>
    cases hpick : k.pickWith c with
    | none =>
      obtain ⟨s₁, t₁, hstep, h₁⟩ := h.schedule_idle hc hpick
      rw [hstep] at hs
      obtain rfl := Option.some.inj hs
      exact ⟨t₁, h₁⟩
    | some p =>
      have hprio : (k.proc p).lab6Priority ≠ 0 := Nat.pos_iff_ne_zero.mp (hm p hpick).1
      obtain ⟨s₁, t₁, hstep, h₁, -⟩ := h.schedule_pick hc hpick hprio
      rw [hstep] at hs
      obtain rfl := Option.some.inj hs
      exact ⟨t₁, h₁⟩

theorem Pooled.run (hc : c.Lawful free) (h : s.Pooled free t) {evs : List (Event P)}
    (hm : RunMeets (stepWith c) (Meets c) s evs) (hrun : runOps (stepWith c) s evs = some s') :
    ∃ t', s'.Pooled free t' := by
  have hinv : ∀ (s : Traced P) (ev : Event P) (s' : Traced P), (∃ t, s.Pooled free t) →
      s.Meets c ev → s.stepWith c ev = some s' → ∃ t, s'.Pooled free t :=
    fun _ _ _ hex hm hs => hex.elim fun _ h => h.step hc hm hs
  exact runOps_invariant_of_meets hinv ⟨t, h⟩ hm hrun

/-- In a row of picks of `p`, the process `q` stays in the pool and `p` is the same process. -/
def PassesOver (c : StrideClass P) (p q : P) (s : Traced P) (ev : Event P) : Prop :=
  s.sched.InPool q ∧ ev ≠ .alloc p ∧ (ev = .schedule → s.sched.pickWith c = some p)

/-- Only a pick or a new process changes a stride. -/
theorem stepWith_unwrapped {ev : Event P} (hs : s.stepWith c ev = some s')
    (hsched : ev ≠ .schedule) (halloc : ev ≠ .alloc p) : s'.unwrapped p = s.unwrapped p := by
  obtain ⟨k', -, rfl⟩ := Option.map_eq_some_iff.mp hs
  cases ev with
  | alloc q =>
    have hne : p ≠ q := fun heq => halloc (heq ▸ rfl)
    exact Function.update_of_ne hne _ _
  | schedule => exact absurd rfl hsched
  | wakeup q => rfl
  | sleep => rfl
  | exit => rfl
  | reap q => rfl
  | setPriority priority => rfl
  | tick => rfl

/-- Every pick of the row moves the stride of `p` up by one at least, and none is made with the
stride of `p` above that of `q`. -/
theorem Pooled.row (hc : c.Lawful free) (h : s.Pooled free t) (hne : p ≠ q)
    {evs : List (Event P)} (hm : RunMeets (stepWith c) (Meets c) s evs)
    (hover : RunMeets (stepWith c) (PassesOver c p q) s evs)
    (hrun : runOps (stepWith c) s evs = some s') :
    evs.count .schedule ≤ s.unwrapped q + 1 - s.unwrapped p := by
  induction evs generalizing s t with
  | nil => exact Nat.zero_le _
  | cons ev evs ih =>
    obtain ⟨s₁, hs₁, hrun₁⟩ := Option.bind_eq_some_iff.mp hrun
    obtain ⟨t₁, h₁⟩ := h.step hc hm.1 hs₁
    obtain ⟨⟨hq, hnew, hpick⟩, hover₁⟩ := hover
    have hrest := ih h₁ (hm.2 s₁ hs₁) (hover₁ s₁ hs₁) hrun₁
    have hin : q ∈ members t := h.holds.inPool_iff.mp hq
    by_cases hev : ev = .schedule
    · subst hev
      have hp := hpick rfl
      have hle := (h.pickWith hc hp).2 q (Or.inl hin)
      have hpass : 1 ≤ c.bigStride / (s.sched.proc p).lab6Priority :=
        Nat.div_pos (hm.1 p hp).2 (hm.1 p hp).1
      obtain ⟨k', -, rfl⟩ := Option.map_eq_some_iff.mp hs₁
      rw [recordWith_some hp] at hrest
      simp only [Function.update_self, Function.update_of_ne (Ne.symm hne)] at hrest
      rw [List.count_cons_self]
      omega
    · have hqnew : ev ≠ .alloc q := by
        intro heq
        subst heq
        have ha := (h.ready q hin).1
        obtain ⟨k', hk', -⟩ := Option.map_eq_some_iff.mp hs₁
        change (if s.sched.allocated q then none else some (s.sched.allocWith c q)) = some k' at hk'
        rw [if_pos ha] at hk'
        exact absurd hk' (by simp)
      rw [stepWith_unwrapped hs₁ hev hqnew, stepWith_unwrapped hs₁ hev hnew] at hrest
      rw [List.count_cons_of_ne hev]
      exact hrest

/-- A running process with a smallest stride is picked again. -/
theorem Pooled.pickWith_current (hc : c.Lawful free) (h : s.Pooled free t)
    (hrun : s.sched.Running s.sched.current)
    (hleast : ∀ q ∈ members t, s.unwrapped s.sched.current ≤ s.unwrapped q) :
    s.sched.pickWith c = some s.sched.current := by
  obtain ⟨k, t', hk, hback⟩ := h.putBack hc
  rw [Sched.pickWith, hk, Option.bind_some, hback.holds.pool]
  exact hback.top hrun hleast

/-- A process whose priority is above `BIG_STRIDE` keeps its stride, and is picked for ever. -/
theorem Pooled.picked_forever (hc : c.Lawful free) (h : s.Pooled free t) (hne : p ≠ q)
    (hpick : s.sched.pickWith c = some p) (hq : s.sched.InPool q)
    (hbig : c.bigStride < (s.sched.proc p).lab6Priority) (n : ℕ) :
    ∃ s', runOps (stepWith c) s (List.replicate n .schedule) = some s' ∧
      RunMeets (stepWith c) (PassesOver c p q) s (List.replicate n .schedule) := by
  induction n generalizing s t with
  | zero => exact ⟨s, rfl, trivial⟩
  | succ n ih =>
    have hprio : (s.sched.proc p).lab6Priority ≠ 0 := by omega
    obtain ⟨hline, hleast⟩ := h.pickWith hc hpick
    obtain ⟨s₁, t₁, hstep, h₁, hpicked⟩ := h.schedule_pick hc hpick hprio
    have hsame : s₁.unwrapped = s.unwrapped := by
      rw [hpicked.unwrapped, Nat.div_eq_of_lt hbig, Nat.add_zero, Function.update_eq_self]
    have hcurrent := hpicked.current
    obtain ⟨-, hstate, hidle⟩ := h.line_ready hline
    have hrunning : s₁.sched.Running s₁.sched.current := by
      refine ⟨rfl, ?_, ?_⟩
      · rw [hcurrent, hpicked.idleproc]
        exact hidle
      · rw [hcurrent, hpicked.state]
        exact hstate
    have hpick₁ : s₁.sched.pickWith c = some p := by
      have hagain := h₁.pickWith_current hc hrunning (by
        intro x hx
        rw [hcurrent, hsame]
        exact hleast x ((hpicked.mem x).mp hx).1)
      rwa [hcurrent] at hagain
    have hq₁ : s₁.sched.InPool q := by
      refine h₁.holds.inPool_iff.mpr ((hpicked.mem q).mpr ⟨?_, Ne.symm hne⟩)
      exact Or.inl (h.holds.inPool_iff.mp hq)
    obtain ⟨s', hrun, hover⟩ := ih h₁ hpick₁ hq₁ (by rw [hpicked.priority]; exact hbig)
    refine ⟨s', ?_, ?_⟩
    · rw [List.replicate_succ, runOps, hstep, Option.bind_some, hrun]
    · rw [List.replicate_succ]
      exact RunMeets.cons ⟨hq, by simp, fun _ => hpick⟩ hstep hover

end Traced

/-- The two stride schedulers, and which `rq` a process outside the pool has. -/
inductive IsStride [DecidableEq P] : StrideClass P → (Bool → Prop) → Prop
  | lab6 : IsStride (lab6StrideClass P) (· = false)
  | lab8 : IsStride (lab8StrideClass P) (fun _ => True)

theorem IsStride.lawful [DecidableEq P] {c : StrideClass P} {free : Bool → Prop}
    (h : IsStride c free) : c.Lawful free := by
  cases h with
  | lab6 => exact lab6_lawful
  | lab8 => exact lab8_lawful

namespace Traced

variable [DecidableEq P] {c : StrideClass P} {free : Bool → Prop} {s s' : Traced P}
  {t : BinaryTree P} {p q : P}

/-- lab8 divides by the priority that `alloc_proc` left at 0. -/
theorem Pooled.lab8_divides (h : s.Pooled (fun _ => True) t)
    (hpick : s.sched.pickWith (lab8StrideClass P) = some p)
    (hzero : (s.sched.proc p).lab6Priority = 0) :
    s.stepWith (lab8StrideClass P) .schedule = none := by
  obtain ⟨k, t', hrun, hback⟩ := h.putBack lab8_lawful
  have hpool : k.rq.lab6RunPool = some p := by
    rw [Sched.pickWith, hrun, Option.bind_some] at hpick
    exact hpick
  have hzero' : (k.proc p).lab6Priority = 0 := (hback.same.priority p).trans hzero
  have hnext : (lab8StrideClass P).pickNext k = none := by
    change Lab8.stridePickNext k = none
    simp only [Lab8.stridePickNext, hpool, if_pos hzero']
  have hsched : s.sched.stepWith (lab8StrideClass P) .schedule = none := by
    change s.sched.scheduleWith _ = none
    rw [Sched.scheduleWith, hrun, Option.bind_some, hnext]
    rfl
  rw [stepWith, hsched, Option.map_none]

theorem Pooled.schedule_isSome (hc : c.Lawful free) (h : s.Pooled free t)
    (hm : s.Meets c .schedule) : (s.stepWith c .schedule).isSome := by
  cases hpick : s.sched.pickWith c with
  | none =>
    obtain ⟨s', -, hs', -⟩ := h.schedule_idle hc hpick
    exact Option.isSome_of_eq_some hs'
  | some p =>
    obtain ⟨s', -, hs', -⟩ := h.schedule_pick hc hpick (Nat.pos_iff_ne_zero.mp (hm p hpick).1)
    exact Option.isSome_of_eq_some hs'

/-- Two strides in the line that are within `BIG_STRIDE` of each other. -/
theorem Pooled.le_add_bigStride (hc : c.Lawful free) (h : s.Pooled free t)
    (hpick : s.sched.pickWith c = some p) (hq : s.sched.InPool q)
    (hnear : (int32 ((s.sched.proc q).lab6Stride - (s.sched.proc p).lab6Stride)).natAbs ≤
      c.bigStride) : s.unwrapped q ≤ s.unwrapped p + c.bigStride := by
  have hin := h.holds.inPool_iff.mp hq
  obtain ⟨h1, h2⟩ := h.window q p (Or.inl hin) (h.pickWith hc hpick).1
  rw [h.carried, h.carried, int32_sub_of_lt h1 h2] at hnear
  omega

/-- Along every run whose picks find priorities from 1 to `BIG_STRIDE`, and whose woken processes
can be compared with the waiting ones, no pick divides by 0, and no process is picked more than
`BIG_STRIDE + 1` times in a row past another one. A priority above that is picked for ever, and
lab8 divides by a priority of 0. -/
theorem stride_bypass_bounded (hstride : IsStride c free) (h : s.Pooled free t)
    {evs : List (Event P)} (hm : RunMeets (stepWith c) (Meets c) s evs)
    (hrun : runOps (stepWith c) s evs = some s') :
    (s'.Meets c .schedule → (s'.stepWith c .schedule).isSome) ∧
    (∀ p q rest s'', p ≠ q →
      (int32 ((s'.sched.proc q).lab6Stride - (s'.sched.proc p).lab6Stride)).natAbs ≤
        c.bigStride →
      RunMeets (stepWith c) (Meets c) s' (.schedule :: rest) →
      RunMeets (stepWith c) (PassesOver c p q) s' (.schedule :: rest) →
      runOps (stepWith c) s' (.schedule :: rest) = some s'' →
      (Event.schedule :: rest).count .schedule ≤ c.bigStride + 1) ∧
    (∀ p q, p ≠ q → s'.sched.pickWith c = some p → s'.sched.InPool q →
      c.bigStride < (s'.sched.proc p).lab6Priority → ∀ n, ∃ s'',
        runOps (stepWith c) s' (List.replicate n .schedule) = some s'' ∧
        RunMeets (stepWith c) (PassesOver c p q) s' (List.replicate n .schedule)) ∧
    (c = lab8StrideClass P → ∀ p, s'.sched.pickWith c = some p →
      (s'.sched.proc p).lab6Priority = 0 → s'.stepWith c .schedule = none) := by
  have hc := hstride.lawful
  obtain ⟨t', h'⟩ := h.run hc hm hrun
  refine ⟨h'.schedule_isSome hc, ?_, ?_, ?_⟩
  · intro p q rest s'' hne hnear hmeets hover hrest
    have hrow := h'.row hc hne hmeets hover hrest
    have hpick := hover.1.2.2 rfl
    have hle := h'.le_add_bigStride hc hpick hover.1.1 hnear
    omega
  · exact fun p q hne hpick hq hbig n => h'.picked_forever hc hne hpick hq hbig n
  · intro hlab8 p hpick hzero
    subst hlab8
    cases hstride with
    | lab8 => exact h'.lab8_divides hpick hzero

theorem init_pooled (hc : c.Lawful free) (idleproc : P) :
    (start (Sched.initWith c idleproc)).Pooled free .nil := by
  have hrunning : ∀ p, ¬ (Sched.initWith c idleproc).Running p := fun p hp => hp.2.1 hp.1
  have hstride : ∀ p, ((Sched.initWith c idleproc).proc p).lab6Stride = 0 := by
    intro p
    have hfresh : ((Sched.initWith c idleproc).proc p).lab6Stride = c.freshProc.lab6Stride :=
      Sched.update_field ProcStruct.lab6Stride (by rfl) p
    exact hfresh.trans hc.fresh.2.1
  refine ⟨⟨⟨trivial, List.nodup_nil, fun x hx => absurd hx (by simp [root])⟩, rfl, rfl,
    fun p hp => absurd hp List.not_mem_nil, ?_⟩, trivial, fun p hp => absurd hp List.not_mem_nil,
    fun hne => absurd rfl hne, ?_, ?_⟩
  · intro p _
    have hfresh : ((Sched.initWith c idleproc).proc p).rq = c.freshProc.rq :=
      Sched.update_field ProcStruct.rq (by rfl) p
    change free ((Sched.initWith c idleproc).proc p).rq
    rw [hfresh]
    exact hc.fresh.1
  · intro p
    change ((Sched.initWith c idleproc).proc p).lab6Stride =
      uint32 ((Sched.initWith c idleproc).proc p).lab6Stride
    rw [hstride]
    rfl
  · intro p _ hp
    exact absurd (hp.resolve_left List.not_mem_nil) (hrunning p)

/-- With strides below 2³¹ all processes can be compared, and this much can be evaluated. -/
def Low [Fintype P] (c : StrideClass P) (s : Traced P) : Event P → Prop
  | .wakeup _ => ∀ q, s.unwrapped q < 2 ^ 31
  | .schedule => ∀ p ∈ s.sched.pickWith c,
      1 ≤ (s.sched.proc p).lab6Priority ∧ (s.sched.proc p).lab6Priority ≤ c.bigStride
  | _ => True

instance [Fintype P] (c : StrideClass P) (s : Traced P) (ev : Event P) : Decidable (s.Low c ev) := by
  cases ev <;> unfold Low <;> infer_instance

theorem Low.meets [Fintype P] {ev : Event P} (h : s.Low c ev) : s.Meets c ev := by
  cases ev with
  | wakeup p =>
    intro _ q _
    have hp : s.unwrapped p < 2 ^ 31 := h p
    have hq : s.unwrapped q < 2 ^ 31 := h q
    exact ⟨by omega, by omega⟩
  | schedule => exact fun p hp => h p hp
  | _ => trivial

/-- Process `q` runs ahead of process `p` with a priority of 2 and then asks for a priority of
2000000. -/
def highPriority (p q : P) : List (Event P) :=
  [.alloc p, .wakeup p, .alloc q, .wakeup q, .schedule, .setPriority 2, .schedule, .schedule,
    .schedule, .setPriority 2000000]

theorem highPriority_low : RunMeets (stepWith (lab6StrideClass (Fin 3)))
    (Low (lab6StrideClass (Fin 3))) (start (Sched.initWith (lab6StrideClass (Fin 3)) 0))
    (highPriority 1 2) := by
  decide +kernel

theorem highPriority_runs : ∃ s, runOps (stepWith (lab6StrideClass (Fin 3)))
    (start (Sched.initWith (lab6StrideClass (Fin 3)) 0)) (highPriority 1 2) = some s ∧
    s.sched.pickWith (lab6StrideClass (Fin 3)) = some 2 ∧
    (s.sched.proc 2).lab6Priority = 2000000 ∧ (s.sched.proc 2).lab6Stride = 1500000 ∧
    (s.sched.proc 1).lab6Stride = 2000000 ∧ s.sched.rq.lab6RunPool = some 1 := by
  obtain ⟨s, hs⟩ := Option.isSome_iff_exists.mp (by decide +kernel :
    (runOps (stepWith (lab6StrideClass (Fin 3)))
      (start (Sched.initWith (lab6StrideClass (Fin 3)) 0)) (highPriority 1 2)).isSome = true)
  refine ⟨s, hs, ?_⟩
  have hsome : some s = some _ := hs.symm
  rw [Option.some.inj hsome]
  decide +kernel

theorem stride_bypass_bounded_highPriority : ∃ s, runOps (stepWith (lab6StrideClass (Fin 3)))
    (start (Sched.initWith (lab6StrideClass (Fin 3)) 0)) (highPriority 1 2) = some s ∧
    ∀ n, ∃ s', runOps (stepWith (lab6StrideClass (Fin 3))) s (List.replicate n .schedule) =
      some s' := by
  obtain ⟨s, hs, hpick, hprio, -, -, hpool⟩ := highPriority_runs
  obtain ⟨-, -, hforever, -⟩ := stride_bypass_bounded .lab6 (init_pooled lab6_lawful 0)
    (highPriority_low.mono fun _ _ => Low.meets) hs
  refine ⟨s, hs, fun n => ?_⟩
  obtain ⟨t, ht⟩ := (init_pooled lab6_lawful (0 : Fin 3)).run lab6_lawful
    (highPriority_low.mono fun _ _ => Low.meets) hs
  have hin : s.sched.InPool 1 := ht.holds.inPool_iff.mpr (root_mem (ht.holds.pool ▸ hpool))
  obtain ⟨s', hs', -⟩ := hforever 2 1 (by decide) hpick hin (by rw [hprio]; decide) n
  exact ⟨s', hs'⟩

/-- A new process of lab8 divides by 0 at its first pick, and in lab6 process 2 is picked for ever
while process 1, with a stride 500000 above its own, waits. -/
theorem zero_divisor_and_starvation :
    (∃ s, runOps (stepWith (lab8StrideClass (Fin 2)))
        (start (Sched.initWith (lab8StrideClass (Fin 2)) 0)) [.alloc 1, .wakeup 1] = some s ∧
      s.stepWith (lab8StrideClass (Fin 2)) .schedule = none) ∧
    ∃ s, runOps (stepWith (lab6StrideClass (Fin 3)))
        (start (Sched.initWith (lab6StrideClass (Fin 3)) 0)) (highPriority 1 2) = some s ∧
      (s.sched.proc 2).lab6Stride = 1500000 ∧ (s.sched.proc 1).lab6Stride = 2000000 ∧
      ∀ n, ∃ s', runOps (stepWith (lab6StrideClass (Fin 3))) s (List.replicate n .schedule) =
          some s' ∧
        RunMeets (stepWith (lab6StrideClass (Fin 3))) (PassesOver (lab6StrideClass (Fin 3)) 2 1)
          s (List.replicate n .schedule) := by
  constructor
  · obtain ⟨s, hs⟩ := Option.isSome_iff_exists.mp (by decide +kernel :
      (runOps (stepWith (lab8StrideClass (Fin 2)))
        (start (Sched.initWith (lab8StrideClass (Fin 2)) 0)) [.alloc 1, .wakeup 1]).isSome = true)
    refine ⟨s, hs, ?_⟩
    have hsome : some s = some _ := hs.symm
    rw [Option.some.inj hsome, ← Option.isNone_iff_eq_none]
    decide +kernel
  · obtain ⟨s, hs, hpick, hprio, hstride, hwaits, hpool⟩ := highPriority_runs
    obtain ⟨t, ht⟩ := (init_pooled lab6_lawful (0 : Fin 3)).run lab6_lawful
      (highPriority_low.mono fun _ _ => Low.meets) hs
    have hin : s.sched.InPool 1 := ht.holds.inPool_iff.mpr (root_mem (ht.holds.pool ▸ hpool))
    exact ⟨s, hs, hstride, hwaits, ht.picked_forever lab6_lawful (by decide) hpick hin
      (by rw [hprio]; decide)⟩

end Traced
end Ucore.Schedule
