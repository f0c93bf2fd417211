import Ucore.Schedule.StridePool

/-!
What each step of the scheduler does: the processes that wait for the processor are those in
the pool and the running one, and the pool stays a heap whatever the strides are. The order in
it is carried along as far as the comparator decides it.
-/
namespace Ucore.Schedule

open Libs Library Library.LinkedTree

namespace Sched

variable {P : Type*} [DecidableEq P]

/-- Waiting for the processor: in the pool, or running and about to be put back. -/
def Contends (k : Sched P) (p : P) : Prop :=
  (k.proc p).rq = true ∨ p = k.current ∧ p ≠ k.idleproc ∧ (k.proc p).state = .runnable

instance (k : Sched P) (p : P) : Decidable (k.Contends p) :=
  inferInstanceAs (Decidable (_ ∨ _ ∧ _ ∧ _))

/-- What every step of the scheduler keeps, with the order `le` in the pool. -/
structure Shape (k : Sched P) (le : P → P → Prop) : Prop where
  queue : k.Queue le
  ready : ∀ p, (k.proc p).rq = true → (k.proc p).state = .runnable ∧ p ≠ k.current ∧
    p ≠ k.idleproc ∧ k.allocated p = true
  idle : (k.proc k.idleproc).state = .runnable
  idleAllocated : k.allocated k.idleproc = true
  currentAllocated : k.allocated k.current = true
  stride : ∀ p, (k.proc p).lab6Stride < 2 ^ 32

variable {k k' : Sched P} {le le' : P → P → Prop} {t : BinaryTree P} {p q : P}

omit [DecidableEq P] in
theorem Shape.contends_ready (h : k.Shape le) (hp : k.Contends p) :
    (k.proc p).state = .runnable ∧ p ≠ k.idleproc ∧ k.allocated p = true := by
  rcases hp with hp | hp
  · obtain ⟨hrun, -, hne, halloc⟩ := h.ready p hp
    exact ⟨hrun, hne, halloc⟩
  · exact ⟨hp.2.2, hp.2.1, hp.1 ▸ h.currentAllocated⟩

omit [DecidableEq P] in
/-- Another order that agrees in the pool. -/
theorem Shape.order (h : k.Shape le)
    (hle : ∀ p q, (k.proc p).rq = true → (k.proc q).rq = true → le p q → le' p q) :
    k.Shape le' :=
  { h with queue := h.queue.congr (fun _ _ => rfl) rfl (fun _ => rfl) hle }

omit [DecidableEq P] in
theorem Shape.not_contends (h : k.Shape le) (hp : k.allocated p = false) : ¬ k.Contends p := by
  intro hc
  rw [(h.contends_ready hc).2.2] at hp
  cases hp

/-- A change of one process that leaves its place in the pool alone and does not make it
runnable. -/
structure Quiet (k : Sched P) (p : P) (v : ProcStruct) : Prop where
  rq : v.rq = (k.proc p).rq
  stride : v.lab6Stride = (k.proc p).lab6Stride
  state : v.state = (k.proc p).state ∨ p = k.current ∧ p ≠ k.idleproc ∧ v.state ≠ .runnable

theorem Quiet.state_eq {v : ProcStruct} (h : Quiet k p v) (q : P) :
    ((k.setProc p v).proc q).state = (k.proc q).state ∨
      q = k.current ∧ q ≠ k.idleproc ∧ ((k.setProc p v).proc q).state ≠ .runnable := by
  by_cases hq : q = p
  · rw [hq, setProc_self]
    exact h.state
  · rw [setProc_of_ne v hq]
    exact Or.inl rfl

theorem Quiet.contends {v : ProcStruct} (h : Quiet k p v) (hq : (k.setProc p v).Contends q) :
    k.Contends q := by
  rcases hq with hq | hq
  · exact Or.inl (setProc_field ProcStruct.rq h.rq q ▸ hq)
  · rcases h.state_eq q with hst | hst
    · exact Or.inr ⟨hq.1, hq.2.1, hst ▸ hq.2.2⟩
    · exact absurd hq.2.2 hst.2.2

theorem Shape.setProc {v : ProcStruct} (h : k.Shape le) (hv : Quiet k p v) :
    (k.setProc p v).Shape le := by
  have hrq : ∀ q, ((k.setProc p v).proc q).rq = (k.proc q).rq := setProc_field ProcStruct.rq hv.rq
  refine ⟨?_, ?_, ?_, h.idleAllocated, h.currentAllocated, ?_⟩
  · exact h.queue.congr (fun _ _ => rfl) rfl hrq (fun _ _ _ _ hle => hle)
  · intro q hq
    rw [hrq q] at hq
    obtain ⟨hrun, hne, hidle, halloc⟩ := h.ready q hq
    rcases hv.state_eq q with hst | hst
    · exact ⟨hst.trans hrun, hne, hidle, halloc⟩
    · exact absurd hst.1 hne
  · rcases hv.state_eq k.idleproc with hst | hst
    · exact hst.trans h.idle
    · exact absurd rfl hst.2.1
  · intro q
    exact lt_of_eq_of_lt (setProc_field ProcStruct.lab6Stride hv.stride q) (h.stride q)

theorem allocProc_proc_self : (k.allocProc p).proc p = freshProc := Function.update_self _ _ _

theorem allocProc_proc_of_ne (h : q ≠ p) : (k.allocProc p).proc q = k.proc q := Function.update_of_ne h _ _

/-- A new process does not wait for the processor yet. -/
theorem Shape.contends_allocProc (h : k.Shape le) (hp : k.allocated p = false) :
    (k.allocProc p).Contends q ↔ k.Contends q ∧ q ≠ p := by
  by_cases hq : q = p
  · refine iff_of_false ?_ (fun hc => hc.2 hq)
    intro hc
    rcases hc with hc | hc
    · rw [hq, allocProc_proc_self] at hc
      cases hc
    · have hcur : k.current = p := hc.1.symm.trans hq
      rw [← hcur, h.currentAllocated] at hp
      cases hp
  · simp only [Contends, allocProc_proc_of_ne hq, ne_eq, hq, not_false_iff, and_true]
    rfl

/-- A new process is in no queue. -/
theorem Shape.allocProc (h : k.Shape le) (hp : k.allocated p = false) : (k.allocProc p).Shape le := by
  have hnot : ∀ q, k.allocated q = true → q ≠ p := by
    intro q hq heq
    rw [heq, hp] at hq
    cases hq
  have hpool : ∀ q, (k.proc q).rq = true → q ≠ p := fun q hq => hnot q (h.ready q hq).2.2.2
  have hpq : (k.proc p).rq = false := by
    by_contra hin
    exact hpool p (Bool.not_eq_false _ ▸ hin) rfl
  have hrq : ∀ q, ((k.allocProc p).proc q).rq = (k.proc q).rq := update_field ProcStruct.rq hpq.symm
  have hcurrent := hnot k.current h.currentAllocated
  have hidle := hnot k.idleproc h.idleAllocated
  refine ⟨?_, ?_, ?_, ?_, ?_, ?_⟩
  · refine h.queue.congr ?_ rfl hrq (fun _ _ _ _ hle => hle)
    intro q hq
    exact Function.update_of_ne (hpool q hq) _ _
  · intro q hq
    have hin : (k.proc q).rq = true := hrq q ▸ hq
    obtain ⟨hrun, hne, hnidle, halloc⟩ := h.ready q hin
    refine ⟨?_, hne, hnidle, ?_⟩
    · rw [allocProc_proc_of_ne (hpool q hin)]
      exact hrun
    · exact (Function.update_of_ne (hpool q hin) _ _).trans halloc
  · exact (congrArg ProcStruct.state (allocProc_proc_of_ne hidle)).trans h.idle
  · exact (Function.update_of_ne hidle _ _).trans h.idleAllocated
  · exact (Function.update_of_ne hcurrent _ _).trans h.currentAllocated
  · intro q
    by_cases hq : q = p
    · rw [hq, allocProc_proc_self]
      exact Nat.two_pow_pos 32
    · rw [allocProc_proc_of_ne hq]
      exact h.stride q

/-- A dead process is neither in the pool nor running. -/
theorem Shape.reap (h : k.Shape le) (hp : (k.proc p).state = .zombie) (hc : p ≠ k.current) :
    Shape { k with allocated := Function.update k.allocated p false } le := by
  have hidle : k.idleproc ≠ p := by
    intro heq
    have hrun := h.idle
    rw [heq, hp] at hrun
    cases hrun
  refine ⟨?_, ?_, h.idle, ?_, ?_, h.stride⟩
  · exact h.queue.congr (fun _ _ => rfl) rfl (fun _ => rfl) (fun _ _ _ _ hle => hle)
  · intro q hq
    obtain ⟨hrun, hne, hnidle, halloc⟩ := h.ready q hq
    have hqp : q ≠ p := by
      intro heq
      rw [heq, hp] at hrun
      cases hrun
    exact ⟨hrun, hne, hnidle, (Function.update_of_ne hqp _ _).trans halloc⟩
  · exact (Function.update_of_ne hidle _ _).trans h.idleAllocated
  · exact (Function.update_of_ne hc.symm _ _).trans h.currentAllocated

theorem init_shape (idleproc : P) : (Sched.init idleproc).Shape le := by
  have hnone : ∀ p, ¬ ((Sched.init idleproc).proc p).rq = true := by
    intro p hp
    have hrq : ((Sched.init idleproc).proc p).rq = false :=
      update_field ProcStruct.rq (by rfl) p
    rw [hrq] at hp
    cases hp
  refine ⟨⟨.nil, ⟨⟨trivial, List.nodup_nil, ?_⟩, rfl, rfl, ?_⟩, trivial⟩, ?_, ?_, ?_, ?_, ?_⟩
  · intro x hx
    cases hx
  · intro p
    exact iff_of_false List.not_mem_nil (hnone p)
  · exact fun p hp => absurd hp (hnone p)
  · simp only [Sched.init, Function.update_self]
  · simp only [Sched.init, Function.update_self]
  · simp only [Sched.init, Function.update_self]
  · intro p
    have hstride : ((Sched.init idleproc).proc p).lab6Stride = 0 :=
      update_field ProcStruct.lab6Stride (by rfl) p
    rw [hstride]
    exact Nat.two_pow_pos 32

/-- What `wakeup_proc` leaves of a process that was not runnable. -/
structure Woken (k : Sched P) (p : P) (k' : Sched P) : Prop where
  contends : ∀ q, k'.Contends q ↔ k.Contends q ∨ q = p
  stride : ∀ q, (k'.proc q).lab6Stride = (k.proc q).lab6Stride

theorem wakeupProc_spec (h : k.Shape le) (htrans : ∀ x y z, le x y → le y z → le x z)
    (ha : k.allocated p = true) (hp : (k.proc p).state ≠ .runnable)
    (hzombie : (k.proc p).state ≠ .zombie)
    (hdec : Decided k.proc le (fun q => (k.proc q).rq = true ∨ q = p)) :
    ∃ k', k.wakeupProc p = some k' ∧ k'.Shape le ∧ Woken k p k' := by
  obtain ⟨k₀, hk₀⟩ : ∃ k₀, k₀ = k.setProc p { k.proc p with state := .runnable } := ⟨_, rfl⟩
  have hidle : p ≠ k.idleproc := fun heq => hp (heq ▸ h.idle)
  have hout : (k.proc p).rq = false := by
    by_contra hin
    exact hp (h.ready p (Bool.not_eq_false _ ▸ hin)).1
  have hrq : ∀ q, (k₀.proc q).rq = (k.proc q).rq := by
    intro q
    rw [hk₀]
    exact setProc_field ProcStruct.rq (by rfl) q
  have hstride : ∀ q, (k₀.proc q).lab6Stride = (k.proc q).lab6Stride := by
    intro q
    rw [hk₀]
    exact setProc_field ProcStruct.lab6Stride (by rfl) q
  have hrun : (k₀.proc p).state = .runnable := by rw [hk₀, setProc_self]
  have hstate : ∀ q, q ≠ p → (k₀.proc q).state = (k.proc q).state := by
    intro q hq
    rw [hk₀, setProc_of_ne _ hq]
  have hqueue : k₀.Queue le :=
    h.queue.congr (fun _ _ => by rw [hk₀]; rfl) (by rw [hk₀]; rfl) hrq (fun _ _ _ _ hle => hle)
  have halloc : k₀.allocated = k.allocated := by rw [hk₀]; rfl
  have hcur : k₀.current = k.current := by rw [hk₀]; rfl
  have hid : k₀.idleproc = k.idleproc := by rw [hk₀]; rfl
  have hidle' : (k₀.proc k₀.idleproc).state = .runnable := by
    rw [hid, hstate k.idleproc hidle.symm]
    exact h.idle
  have hready : ∀ q, (k₀.proc q).rq = true → (k₀.proc q).state = .runnable ∧ q ≠ k₀.current ∧
      q ≠ k₀.idleproc ∧ k₀.allocated q = true := by
    intro q hq
    rw [hrq q] at hq
    have hqp : q ≠ p := fun heq => by
      rw [heq, hout] at hq
      cases hq
    rw [hstate q hqp, hcur, hid, halloc]
    exact h.ready q hq
  have hcont : ∀ q, q ≠ p → (k₀.Contends q ↔ k.Contends q) := by
    intro q hqp
    rw [Contends, Contends, hrq q, hcur, hid, hstate q hqp]
  rw [wakeupProc, if_neg hzombie, if_pos hp]
  simp only [← hk₀]
  by_cases hc : p = k.current
  · refine ⟨k₀, if_neg (not_not.mpr (hc.trans hcur.symm)), ⟨hqueue, hready, hidle', ?_, ?_, ?_⟩, ?_,
      hstride⟩
    · rw [halloc, hid]
      exact h.idleAllocated
    · rw [halloc, hcur]
      exact h.currentAllocated
    · exact fun q => lt_of_eq_of_lt (hstride q) (h.stride q)
    · intro q
      by_cases hqp : q = p
      · refine iff_of_true (Or.inr ⟨hqp.trans (hc.trans hcur.symm), ?_, hqp ▸ hrun⟩) (Or.inr hqp)
        exact fun heq => hidle ((hqp.symm.trans heq).trans hid)
      · rw [hcont q hqp, or_iff_left hqp]
  · obtain ⟨links, pool, henq, hq'⟩ := strideEnqueue_spec hqueue htrans ((hrq p).trans hout)
      (hdec.congr (fun q hq => hrq q ▸ hq) (fun q _ => hstride q))
    have hne : p ≠ k₀.current := fun heq => hc (heq.trans hcur)
    have hnidle : p ≠ k₀.idleproc := fun heq => hidle (heq.trans hid)
    have hself : ((k₀.enqueued p links pool).proc p).rq = true := by
      simp only [enqueued, Function.update_self]
    have hother : ∀ q, q ≠ p → (k₀.enqueued p links pool).proc q = k₀.proc q := fun q hqp =>
      Function.update_of_ne hqp _ _
    have hstride' : ∀ q, ((k₀.enqueued p links pool).proc q).lab6Stride =
        (k.proc q).lab6Stride := fun q =>
      (enqueued_field ProcStruct.lab6Stride (fun _ => rfl) q).trans (hstride q)
    refine ⟨k₀.enqueued p links pool, ?_, ⟨hq', ?_, ?_, ?_, ?_, ?_⟩, ?_, hstride'⟩
    · rw [if_pos hne, schedClassEnqueue, if_pos hnidle, henq]
    · intro q hq
      by_cases hqp : q = p
      · refine ⟨?_, hqp ▸ hne, hqp ▸ hnidle, ?_⟩
        · rw [hqp]
          exact (enqueued_field ProcStruct.state (fun _ => rfl) p).trans hrun
        · exact (congrFun halloc q).trans (hqp ▸ ha)
      · rw [hother q hqp] at hq ⊢
        exact hready q hq
    · exact (enqueued_field ProcStruct.state (fun _ => rfl) _).trans hidle'
    · exact ((congrFun halloc _).trans (congrArg _ hid)).trans h.idleAllocated
    · exact ((congrFun halloc _).trans (congrArg _ hcur)).trans h.currentAllocated
    · exact fun q => lt_of_eq_of_lt (hstride' q) (h.stride q)
    · intro q
      by_cases hqp : q = p
      · exact iff_of_true (Or.inl (hqp ▸ hself)) (Or.inr hqp)
      · rw [or_iff_left hqp, ← hcont q hqp, Contends, Contends, hother q hqp]
        rfl

/-- `schedule` has put the running process back, and the pick comes next. -/
structure PutBack (k k₁ : Sched P) : Prop where
  queued : ∀ p, (k₁.proc p).rq = true ↔ k.Contends p
  stride : ∀ p, (k₁.proc p).lab6Stride = (k.proc p).lab6Stride
  priority : ∀ p, (k₁.proc p).lab6Priority = (k.proc p).lab6Priority
  state : ∀ p, (k₁.proc p).state = (k.proc p).state
  allocated : k₁.allocated = k.allocated
  idleproc : k₁.idleproc = k.idleproc

theorem putBack_spec (h : k.Shape le) (htrans : ∀ x y z, le x y → le y z → le x z)
    (hdec : Decided k.proc le k.Contends) :
    ∃ k₁, k.putBack = some k₁ ∧ k₁.Queue le ∧ PutBack k k₁ := by
  obtain ⟨k₀, hk₀⟩ : ∃ k₀, k₀ = k.setProc k.current
      { k.proc k.current with needResched := false } := ⟨_, rfl⟩
  have hfield : ∀ {β : Type} (f : ProcStruct → β), f { k.proc k.current with
      needResched := false } = f (k.proc k.current) → ∀ p, f (k₀.proc p) = f (k.proc p) := by
    intro β f hf p
    rw [hk₀]
    exact setProc_field f hf p
  have hrq := hfield ProcStruct.rq rfl
  have hstride := hfield ProcStruct.lab6Stride rfl
  have hstate := hfield ProcStruct.state rfl
  have hprio := hfield ProcStruct.lab6Priority rfl
  have hqueue : k₀.Queue le :=
    h.queue.congr (fun _ _ => by rw [hk₀]; rfl) (by rw [hk₀]; rfl) hrq (fun _ _ _ _ hle => hle)
  have hcur : k₀.current = k.current := by rw [hk₀]; rfl
  have hidle : k₀.idleproc = k.idleproc := by rw [hk₀]; rfl
  have halloc : k₀.allocated = k.allocated := by rw [hk₀]; rfl
  by_cases hback : k.current ≠ k.idleproc ∧ (k.proc k.current).state = .runnable
  · have hout : (k₀.proc k.current).rq = false := by
      rw [hrq]
      by_contra hin
      exact (h.ready k.current (Bool.not_eq_false _ ▸ hin)).2.1 rfl
    have hcont : ∀ p, (k₀.proc p).rq = true ∨ p = k.current ↔ k.Contends p := by
      intro p
      rw [hrq, Contends]
      constructor
      · intro hp
        rcases hp with hp | hp
        · exact Or.inl hp
        · exact Or.inr ⟨hp, hp ▸ hback.1, hp ▸ hback.2⟩
      · intro hp
        exact hp.imp_right (fun hp => hp.1)
    obtain ⟨links, pool, hrun, hq⟩ := strideEnqueue_spec hqueue htrans hout
      (hdec.congr (fun p hp => (hcont p).mp hp) (fun p _ => hstride p))
    refine ⟨k₀.enqueued k.current links pool, ?_, hq, ?_⟩
    · have hrunnable : (k₀.proc k₀.current).state = .runnable := by
        rw [hcur, hstate]
        exact hback.2
      have hne : k₀.current ≠ k₀.idleproc := by
        rw [hcur, hidle]
        exact hback.1
      have hstart : k.putBack = if (k₀.proc k₀.current).state = .runnable then
          k₀.schedClassEnqueue k₀.current else some k₀ := by
        rw [hk₀]
        rfl
      rw [hstart, if_pos hrunnable, schedClassEnqueue, if_pos hne, hcur, hrun]
    · constructor
      · intro p
        rw [← hcont p]
        by_cases hp : p = k.current
        · simp only [enqueued, hp, Function.update_self, or_true]
        · simp only [enqueued, Function.update_of_ne hp, hp, or_false]
      · intro p
        rw [← hstride p]
        exact enqueued_field ProcStruct.lab6Stride (fun _ => rfl) p
      · intro p
        rw [← hprio p]
        exact enqueued_field ProcStruct.lab6Priority (fun _ => rfl) p
      · intro p
        rw [← hstate p]
        exact enqueued_field ProcStruct.state (fun _ => rfl) p
      · exact halloc
      · exact hidle
  · have hcont : ∀ p, (k₀.proc p).rq = true ↔ k.Contends p := by
      intro p
      rw [hrq, Contends]
      constructor
      · exact Or.inl
      · intro hp
        rcases hp with hp | hp
        · exact hp
        · exact absurd ⟨hp.1 ▸ hp.2.1, hp.1 ▸ hp.2.2⟩ hback
    refine ⟨k₀, ?_, hqueue, hcont, hstride, hprio, hstate, halloc, hidle⟩
    have hstart : k.putBack = if (k₀.proc k₀.current).state = .runnable then
        k₀.schedClassEnqueue k₀.current else some k₀ := by
      rw [hk₀]
      rfl
    rw [hstart]
    split
    · rename_i hrunnable
      rw [hcur, hstate] at hrunnable
      have heq : k₀.current = k₀.idleproc := by
        rw [hcur, hidle]
        by_contra hne
        exact hback ⟨hne, hrunnable⟩
      rw [schedClassEnqueue, if_neg (not_not.mpr heq)]
    · rfl

/-- The process that the next call of `schedule` picks. -/
def pickOf (k : Sched P) : Option P := k.putBack.bind fun k => k.rq.lab6RunPool

/-- What a call of `schedule` that picks `next` leaves. -/
structure Scheduled (k : Sched P) (next : Option P) (k' : Sched P) : Prop where
  queued : ∀ p, (k'.proc p).rq = true ↔ k.Contends p ∧ next ≠ some p
  stride : ∀ p, (k'.proc p).lab6Stride =
    if next = some p then uint32 ((k.proc p).lab6Stride + (k.proc p).pass)
    else (k.proc p).lab6Stride
  priority : ∀ p, (k'.proc p).lab6Priority = (k.proc p).lab6Priority
  state : ∀ p, (k'.proc p).state = (k.proc p).state
  allocated : k'.allocated = k.allocated
  idleproc : k'.idleproc = k.idleproc
  current : k'.current = next.getD k.idleproc

theorem pass_congr {a b : ProcStruct} (h : a.lab6Priority = b.lab6Priority) : a.pass = b.pass := by
  rw [ProcStruct.pass, ProcStruct.pass, h]

theorem schedule_queue (h : k.Shape le) (htrans : ∀ x y z, le x y → le y z → le x z)
    (hdec : Decided k.proc le k.Contends) :
    ∃ k', k.schedule = some k' ∧ k'.Queue le ∧ Scheduled k k.pickOf k' ∧
      (k.pickOf = none → ∀ p, ¬ k.Contends p) ∧
      ∀ r, k.pickOf = some r → k.Contends r ∧ ∀ q, k.Contends q → q ≠ r → le r q := by
  obtain ⟨k₁, hrun₁, ⟨t, ht, hord⟩, hback⟩ := putBack_spec h htrans hdec
  have hpick : k.pickOf = root t := by
    rw [pickOf, hrun₁, Option.bind_some, ht.pool]
  have hmem : ∀ p, p ∈ members t ↔ k.Contends p := by
    intro p
    rw [ht.queued p, hback.queued p]
  rw [hpick]
  cases htop : root t with
  | none =>
    have hnone : ∀ p, ¬ k.Contends p := by
      intro p hp
      have hin := (hmem p).mpr hp
      rw [root_eq_none_iff.mp htop] at hin
      cases hin
    refine ⟨k₁.runNext k₁.idleproc, ?_, ?_, ?_, fun _ => hnone, ?_⟩
    · rw [schedule, hrun₁, Option.bind_some, stridePickNext, ht.pool, htop]
    · have hq : k₁.Queue le := ⟨t, ht, hord⟩
      refine hq.congr (fun _ _ => rfl) rfl ?_ (fun _ _ _ _ hle => hle)
      exact runNext_field ProcStruct.rq (fun _ => rfl)
    · constructor
      · intro p
        have hrq : ((k₁.runNext k₁.idleproc).proc p).rq = (k₁.proc p).rq :=
          runNext_field ProcStruct.rq (fun _ => rfl) p
        rw [hrq, hback.queued p]
        exact iff_of_false (hnone p) (fun hp => hnone p hp.1)
      · intro p
        rw [if_neg (Option.some_ne_none p).symm, ← hback.stride p]
        exact runNext_field ProcStruct.lab6Stride (fun _ => rfl) p
      · intro p
        rw [← hback.priority p]
        exact runNext_field ProcStruct.lab6Priority (fun _ => rfl) p
      · intro p
        rw [← hback.state p]
        exact runNext_field ProcStruct.state (fun _ => rfl) p
      · exact hback.allocated
      · exact hback.idleproc
      · exact hback.idleproc
    · intro r hr
      cases hr
  | some r =>
    obtain ⟨k₂, hk₂⟩ : ∃ k₂, k₂ = k₁.setProc r { k₁.proc r with
        lab6Stride := uint32 ((k₁.proc r).lab6Stride + (k₁.proc r).pass) } := ⟨_, rfl⟩
    have hrq₂ : ∀ p, (k₂.proc p).rq = (k₁.proc p).rq := by
      intro p
      rw [hk₂]
      exact setProc_field ProcStruct.rq (by rfl) p
    have ht₂ : k₂.Pool t := ht.congr (fun _ _ => by rw [hk₂]; rfl) (by rw [hk₂]; rfl) hrq₂
    have hne₂ : ∀ p, p ≠ r → k₂.proc p = k₁.proc p := by
      intro p hp
      rw [hk₂]
      exact setProc_of_ne _ hp
    have hdec₂ : Decided k₂.proc le (fun q => (k₂.proc q).rq = true ∧ q ≠ r) := by
      refine hdec.congr ?_ ?_
      · intro p hp
        rw [hrq₂ p, hback.queued p] at hp
        exact hp.1
      · intro p hp
        rw [hne₂ p hp.2, hback.stride p]
    obtain ⟨links, pool, hrun₃, hq⟩ := strideDequeue_spec ht₂ htop htrans hord hdec₂
    refine ⟨(k₂.dequeued r links pool).runNext r, ?_, ?_, ?_, ?_, ?_⟩
    · have hpickNext : k₁.stridePickNext = (k₂, some r) := by
        rw [stridePickNext, ht.pool, htop, hk₂]
      rw [schedule, hrun₁, Option.bind_some, hpickNext]
      simp only [hrun₃, Option.map_some]
    · refine hq.congr (fun _ _ => rfl) rfl ?_ (fun _ _ _ _ hle => hle)
      exact runNext_field ProcStruct.rq (fun _ => rfl)
    · have hother : ∀ {β : Type} (f : ProcStruct → β), (∀ p n, f { p with runs := n } = f p) →
          (∀ p b, f { p with rq := b } = f p) →
          ∀ p, f (((k₂.dequeued r links pool).runNext r).proc p) = f (k₂.proc p) := by
        intro β f hruns hrq p
        rw [runNext_field f (hruns _) p]
        exact dequeued_field f (hrq _ _) p
      have hkeep : ∀ {β : Type} (f : ProcStruct → β), (∀ p n, f { p with lab6Stride := n } = f p) →
          ∀ p, f (k₂.proc p) = f (k₁.proc p) := by
        intro β f hstride p
        rw [hk₂]
        exact setProc_field f (hstride _ _) p
      constructor
      · intro p
        rw [runNext_field ProcStruct.rq (fun _ => rfl) p, ← hback.queued p, ← hrq₂ p]
        by_cases hp : p = r
        · simp only [dequeued, hp, Function.update_self, ne_eq, not_true, and_false,
            Bool.false_eq_true]
        · have hpr : some r ≠ some p := fun heq => hp (Option.some.inj heq).symm
          simp only [dequeued, Function.update_of_ne hp, hpr, ne_eq, not_false_iff, and_true]
      · intro p
        rw [hother ProcStruct.lab6Stride (fun _ _ => rfl) (fun _ _ => rfl) p]
        by_cases hp : p = r
        · rw [if_pos (by rw [hp]), hk₂, hp, setProc_self]
          rw [hback.stride r, pass_congr (hback.priority r)]
        · rw [if_neg (fun heq => hp (Option.some.inj heq).symm), hne₂ p hp, hback.stride p]
      · intro p
        rw [hother ProcStruct.lab6Priority (fun _ _ => rfl) (fun _ _ => rfl) p,
          hkeep ProcStruct.lab6Priority (fun _ _ => rfl) p, hback.priority p]
      · intro p
        rw [hother ProcStruct.state (fun _ _ => rfl) (fun _ _ => rfl) p,
          hkeep ProcStruct.state (fun _ _ => rfl) p, hback.state p]
      · rw [← hback.allocated, hk₂]
        rfl
      · rw [← hback.idleproc, hk₂]
        rfl
      · rfl
    · intro hnone
      cases hnone
    · intro r' hr'
      have hrr : r = r' := Option.some.inj hr'
      refine ⟨(hmem r').mp (hrr ▸ root_mem htop), ?_⟩
      intro q hq hne
      exact hord.root_le (hrr ▸ htop) ((hmem q).mpr hq) hne

/-- The states around a call of `schedule`, and what is picked. -/
theorem schedule_spec (h : k.Shape le) (htrans : ∀ x y z, le x y → le y z → le x z)
    (hdec : Decided k.proc le k.Contends) :
    ∃ k', k.schedule = some k' ∧ k'.Shape le ∧ Scheduled k k.pickOf k' ∧
      (k.pickOf = none → ∀ p, ¬ k.Contends p) ∧
      ∀ r, k.pickOf = some r → k.Contends r ∧ ∀ q, k.Contends q → q ≠ r → le r q := by
  obtain ⟨k', hrun, hqueue, hsch, hnone, hsome⟩ := schedule_queue h htrans hdec
  have hidleAlloc : k'.allocated k'.idleproc = true := by
    rw [hsch.idleproc, hsch.allocated]
    exact h.idleAllocated
  refine ⟨k', hrun, ⟨hqueue, ?_, ?_, hidleAlloc, ?_, ?_⟩, hsch, hnone, hsome⟩
  · intro q hq
    obtain ⟨hc, hne⟩ := (hsch.queued q).mp hq
    obtain ⟨hrunnable, hnidle, halloc⟩ := h.contends_ready hc
    refine ⟨(hsch.state q).trans hrunnable, ?_, ?_, ?_⟩
    · intro hcur
      rw [hsch.current] at hcur
      cases hpick : k.pickOf with
      | none => exact hnone hpick q hc
      | some r =>
        rw [hpick] at hcur hne
        exact hne (congrArg some hcur.symm)
    · exact fun heq => hnidle (heq.trans hsch.idleproc)
    · exact (congrFun hsch.allocated q).trans halloc
  · rw [hsch.idleproc, hsch.state]
    exact h.idle
  · rw [hsch.current]
    cases hpick : k.pickOf with
    | none => exact hsch.idleproc ▸ hidleAlloc
    | some r =>
      rw [hsch.allocated]
      exact (h.contends_ready (hsome r hpick).1).2.2
  · intro q
    rw [hsch.stride q]
    split
    · exact uint32_lt _
    · exact h.stride q

/-- Everything a step can do. -/
inductive Takes (k : Sched P) : Event P → Sched P → Prop where
  | alloc {p : P} (free : k.allocated p = false) : Takes k (.alloc p) (k.allocProc p)
  | wakeup {p : P} {k' : Sched P} (allocated : k.allocated p = true)
      (waits : (k.proc p).state ≠ .runnable) (alive : (k.proc p).state ≠ .zombie)
      (woken : k.wakeupProc p = some k') : Takes k (.wakeup p) k'
  | awake {p : P} (runs : (k.proc p).state = .runnable) : Takes k (.wakeup p) k
  | quiet {ev : Event P} {p : P} {v : ProcStruct} (quiet : Quiet k p v)
      (kind : ev = .sleep ∨ ev = .exit ∨ (∃ n, ev = .setPriority n) ∨ ev = .tick) :
      Takes k ev (k.setProc p v)
  | reap {p : P} (dead : (k.proc p).state = .zombie) (other : p ≠ k.current) :
      Takes k (.reap p) { k with allocated := Function.update k.allocated p false }
  | schedule {k' : Sched P} (run : k.schedule = some k') : Takes k .schedule k'

theorem Takes.of_step {ev : Event P} (hs : k.step ev = some k') : Takes k ev k' := by
  cases ev with
  | alloc p =>
    rw [step] at hs
    split at hs
    · cases hs
    · rename_i hp
      rw [← Option.some.inj hs]
      exact .alloc (Bool.not_eq_true _ ▸ hp)
  | wakeup p =>
    rw [step] at hs
    split at hs
    · rename_i ha
      by_cases hzombie : (k.proc p).state = .zombie
      · rw [wakeupProc, if_pos hzombie] at hs
        cases hs
      · by_cases hp : (k.proc p).state = .runnable
        · rw [wakeupProc, if_neg hzombie, if_neg (not_not.mpr hp)] at hs
          rw [← Option.some.inj hs]
          exact .awake hp
        · exact .wakeup ha hp hzombie hs
    · cases hs
  | sleep =>
    rw [step] at hs
    split at hs
    · rename_i hc
      rw [← Option.some.inj hs]
      exact .quiet ⟨rfl, rfl, Or.inr ⟨rfl, hc.1, ProcState.noConfusion⟩⟩ (Or.inl rfl)
    · cases hs
  | exit =>
    rw [step] at hs
    split at hs
    · rename_i hc
      rw [← Option.some.inj hs]
      exact .quiet ⟨rfl, rfl, Or.inr ⟨rfl, hc.1, ProcState.noConfusion⟩⟩ (Or.inr (Or.inl rfl))
    · cases hs
  | reap p =>
    rw [step] at hs
    split at hs
    · rename_i hc
      rw [← Option.some.inj hs]
      exact .reap hc.2.1 hc.2.2
    · cases hs
  | setPriority priority =>
    rw [← Option.some.inj hs]
    exact .quiet ⟨rfl, rfl, Or.inl rfl⟩ (Or.inr (Or.inr (Or.inl ⟨priority, rfl⟩)))
  | tick =>
    rw [← Option.some.inj hs]
    simp only [schedClassProcTick]
    split
    · exact .quiet ⟨rfl, rfl, Or.inl rfl⟩ (Or.inr (Or.inr (Or.inr rfl)))
    · exact .quiet ⟨rfl, rfl, Or.inl rfl⟩ (Or.inr (Or.inr (Or.inr rfl)))
  | schedule => exact .schedule hs

/-- The pool stays a heap whatever the comparator says. -/
theorem Shape.step {ev : Event P} (h : k.Shape (fun _ _ => True)) (hs : k.step ev = some k') :
    k'.Shape (fun _ _ => True) := by
  have hdec : ∀ S : P → Prop, Decided k.proc (fun _ _ => True) S := fun _ _ _ _ _ =>
    ⟨fun _ => trivial, fun _ => trivial⟩
  cases Takes.of_step hs with
  | alloc hfree => exact h.allocProc hfree
  | wakeup ha hp hzombie hwoken =>
    obtain ⟨k₁, hrun, hshape, -⟩ :=
      wakeupProc_spec h (fun _ _ _ _ _ => trivial) ha hp hzombie (hdec _)
    exact Option.some.inj (hrun.symm.trans hwoken) ▸ hshape
  | awake => exact h
  | quiet hv => exact h.setProc hv
  | reap hdead hother => exact h.reap hdead hother
  | schedule hrun =>
    obtain ⟨k₁, hrun₁, hshape, -⟩ := schedule_spec h (fun _ _ _ _ _ => trivial) (hdec _)
    exact Option.some.inj (hrun₁.symm.trans hrun) ▸ hshape

end Sched
end Ucore.Schedule
