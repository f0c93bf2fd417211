import Ucore.Schedule.Stride

/-!
The run pool as a heap of the processes whose `rq` is set, and what enqueueing and
dequeueing do to it. The order is a relation that the comparator has to decide among the
processes that are merged.
-/
namespace Ucore.Schedule

open Libs Library Library.LinkedTree

namespace Sched

variable {P : Type*} [DecidableEq P]

/-- The pool holds the nodes of the tree. -/
structure Pool (k : Sched P) (t : BinaryTree P) : Prop where
  heap : Heap k.links t
  pool : k.rq.lab6RunPool = root t
  count : k.rq.procNum = (members t).length
  queued : ∀ p, p ∈ members t ↔ (k.proc p).rq = true

def Queue (k : Sched P) (le : P → P → Prop) : Prop := ∃ t, Pool k t ∧ Ordered le t

/-- The comparator decides the order among these processes. -/
def Decided (proc : P → ProcStruct) (le : P → P → Prop) (S : P → Prop) : Prop :=
  ∀ p, S p → ∀ q, S q → (procStrideCompF proc p q = -1 → le p q) ∧
    (procStrideCompF proc p q ≠ -1 → le q p)

variable {k k' : Sched P} {le le' : P → P → Prop} {t : BinaryTree P} {p q : P}

omit [DecidableEq P] in
theorem procStrideCompF_congr {proc proc' : P → ProcStruct}
    (hp : (proc' p).lab6Stride = (proc p).lab6Stride)
    (hq : (proc' q).lab6Stride = (proc q).lab6Stride) :
    procStrideCompF proc' p q = procStrideCompF proc p q := by
  simp only [procStrideCompF, hp, hq]

omit [DecidableEq P] in
theorem Decided.congr {proc proc' : P → ProcStruct} {S T : P → Prop} (h : Decided proc le S)
    (hsub : ∀ p, T p → S p) (heq : ∀ p, T p → (proc' p).lab6Stride = (proc p).lab6Stride) :
    Decided proc' le T := by
  intro p hp q hq
  rw [procStrideCompF_congr (heq p hp) (heq q hq)]
  exact h p (hsub p hp) q (hsub q hq)

omit [DecidableEq P] in
/-- Two states with the same pool. -/
theorem Pool.congr (h : k.Pool t) (hl : ∀ p, (k.proc p).rq = true → k'.links p = k.links p)
    (hrq : k'.rq = k.rq) (hq : ∀ p, (k'.proc p).rq = (k.proc p).rq) : k'.Pool t where
  heap := h.heap.frame fun p hp => hl p ((h.queued p).mp hp)
  pool := hrq ▸ h.pool
  count := hrq ▸ h.count
  queued p := by rw [hq p, h.queued p]

omit [DecidableEq P] in
theorem Queue.congr (h : k.Queue le) (hl : ∀ p, (k.proc p).rq = true → k'.links p = k.links p)
    (hrq : k'.rq = k.rq) (hq : ∀ p, (k'.proc p).rq = (k.proc p).rq)
    (hle : ∀ p q, (k.proc p).rq = true → (k.proc q).rq = true → le p q → le' p q) :
    k'.Queue le' := by
  obtain ⟨t, ht, hord⟩ := h
  refine ⟨t, ht.congr hl hrq hq, hord.congr ?_⟩
  exact fun x hx y hy => hle x y ((ht.queued x).mp hx) ((ht.queued y).mp hy)

@[simp] theorem setProc_links (v : ProcStruct) : (k.setProc p v).links = k.links := rfl
@[simp] theorem setProc_rq (v : ProcStruct) : (k.setProc p v).rq = k.rq := rfl
@[simp] theorem setProc_current (v : ProcStruct) : (k.setProc p v).current = k.current := rfl
@[simp] theorem setProc_idleproc (v : ProcStruct) : (k.setProc p v).idleproc = k.idleproc := rfl
@[simp] theorem setProc_allocated (v : ProcStruct) :
    (k.setProc p v).allocated = k.allocated := rfl

theorem setProc_self (v : ProcStruct) : (k.setProc p v).proc p = v := Function.update_self _ _ _

theorem setProc_of_ne (v : ProcStruct) (h : q ≠ p) : (k.setProc p v).proc q = k.proc q :=
  Function.update_of_ne h _ _

/-- A change of one process that leaves a field alone. -/
theorem update_field {β : Type*} (f : ProcStruct → β) {proc : P → ProcStruct} {v : ProcStruct}
    (h : f v = f (proc p)) (q : P) : f (Function.update proc p v q) = f (proc q) := by
  by_cases hq : q = p
  · rw [hq, Function.update_self, h]
  · rw [Function.update_of_ne hq]

theorem setProc_field {β : Type*} (f : ProcStruct → β) {v : ProcStruct} (h : f v = f (k.proc p))
    (q : P) : f ((k.setProc p v).proc q) = f (k.proc q) := update_field f h q

theorem enqueued_field {β : Type*} (f : ProcStruct → β) {links : P → SkewHeapEntry P}
    {pool : Option P} (h : ∀ slice, f { k.proc p with timeSlice := slice, rq := true } =
      f (k.proc p)) (q : P) : f ((k.enqueued p links pool).proc q) = f (k.proc q) :=
  update_field f (h _) q

theorem dequeued_field {β : Type*} (f : ProcStruct → β) {links : P → SkewHeapEntry P}
    {pool : Option P} (h : f { k.proc p with rq := false } = f (k.proc p)) (q : P) :
    f ((k.dequeued p links pool).proc q) = f (k.proc q) :=
  update_field f h q

theorem runNext_field {β : Type*} (f : ProcStruct → β)
    (h : ∀ n, f { k.proc p with runs := n } = f (k.proc p)) (q : P) :
    f ((k.runNext p).proc q) = f (k.proc q) :=
  update_field f (h _) q

theorem strideEnqueue_spec (h : k.Queue le) (htrans : ∀ x y z, le x y → le y z → le x z)
    (hp : (k.proc p).rq = false)
    (hdec : Decided k.proc le (fun q => (k.proc q).rq = true ∨ q = p)) :
    ∃ links pool, k.strideEnqueue p = some (k.enqueued p links pool) ∧
      (k.enqueued p links pool).Queue le := by
  obtain ⟨t, ht, hord⟩ := h
  have hout : p ∉ members t := fun hin => by
    rw [(ht.queued p).mp hin] at hp
    cases hp
  have hdepth : (members t).length + 1 < k.rq.procNum + 2 := by
    rw [ht.count]
    omega
  obtain ⟨links, t', hrun, hheap, hperm, hord'⟩ :=
    skewHeapInsert_spec (procStrideCompF k.proc) ht.heap hout hdepth
  have hmem : ∀ q, q ∈ members t' ↔ (k.proc q).rq = true ∨ q = p := by
    intro q
    rw [hperm.mem_iff, List.mem_append, List.mem_singleton, ht.queued q]
  refine ⟨links, root t', ?_, t', ⟨hheap, rfl, ?_, ?_⟩, hord' le htrans ?_ hord⟩
  · simp only [strideEnqueue, hp, ht.pool, hrun, Option.map_some, Bool.false_eq_true, if_false]
  · change k.rq.procNum + 1 = _
    rw [hperm.length_eq, List.length_append, ht.count, List.length_singleton]
  · intro q
    rw [hmem q]
    by_cases hq : q = p
    · simp only [enqueued, hq, Function.update_self, or_true]
    · simp only [enqueued, Function.update_of_ne hq, hq, or_false]
  · intro x hx y hy
    exact hdec x ((hmem x).mp (hperm.mem_iff.mpr hx)) y ((hmem y).mp (hperm.mem_iff.mpr hy))

/-- Only the process at the top is ever taken out, and its own stride may have changed. -/
theorem strideDequeue_spec (h : k.Pool t) (htop : root t = some p)
    (htrans : ∀ x y z, le x y → le y z → le x z) (hord : Ordered le t)
    (hdec : Decided k.proc le (fun q => (k.proc q).rq = true ∧ q ≠ p)) :
    ∃ links pool, k.strideDequeue p = some (k.dequeued p links pool) ∧
      (k.dequeued p links pool).Queue le := by
  obtain ⟨l, r, rfl⟩ := exists_node htop
  have hp : (k.proc p).rq = true := (h.queued p).mp List.mem_cons_self
  have hcount : k.rq.procNum = (members l).length + (members r).length + 1 := by
    rw [h.count, members, List.length_cons, List.length_append]
  have hdepth : (members l).length + (members r).length < k.rq.procNum + 1 := by omega
  obtain ⟨links, t', hrun, hheap, hperm, hord'⟩ :=
    skewHeapRemove_root (procStrideCompF k.proc) h.heap hdepth k.rq.lab6RunPool
  have hout := (List.nodup_cons.mp h.heap.nodup).1
  have hmem : ∀ q, q ∈ members t' ↔ (k.proc q).rq = true ∧ q ≠ p := by
    intro q
    rw [hperm.mem_iff, ← h.queued q, members, List.mem_cons]
    constructor
    · intro hq
      exact ⟨Or.inr hq, fun heq => hout (heq ▸ hq)⟩
    · intro hq
      exact hq.1.resolve_left hq.2
  refine ⟨links, root t', ?_, t', ⟨hheap, rfl, ?_, ?_⟩, ?_⟩
  · simp only [strideDequeue, hp, hrun, Option.map_some, if_true]
  · change k.rq.procNum - 1 = _
    rw [hperm.length_eq, List.length_append]
    omega
  · intro q
    rw [hmem q]
    by_cases hq : q = p
    · simp only [dequeued, hq, Function.update_self, ne_eq, not_true, and_false, Bool.false_eq_true]
    · simp only [dequeued, Function.update_of_ne hq, ne_eq, hq, not_false_iff, and_true]
  · refine hord' le htrans ?_ hord.2.2.1 hord.2.2.2
    intro x hx y hy
    exact hdec x ((hmem x).mp (hperm.mem_iff.mpr hx)) y ((hmem y).mp (hperm.mem_iff.mpr hy))

end Sched
end Ucore.Schedule
