import Ucore.Schedule.StrideRuns

/-!
The stride scheduler of lab8 beside the one of lab6. Both are a `sched_class` under the same
`schedule` and `wakeup_proc`; what they have in common is stated as laws on the run pool, and
shown for each of them.
-/
namespace Ucore.Schedule

open Libs Library Library.LinkedTree

/-- A `sched_class` with its `BIG_STRIDE` and the entry that `alloc_proc` fills in. `none` is a
failed assertion or a division by zero. -/
structure StrideClass (P : Type*) where
  bigStride : ℕ
  freshProc : ProcStruct
  enqueue : Sched P → P → Option (Sched P)
  dequeue : Sched P → P → Option (Sched P)
  pickNext : Sched P → Option (Sched P × Option P)

variable {P : Type*} [DecidableEq P]

/-- `stride_sched_class` of lab6 -/
def lab6StrideClass (P : Type*) [DecidableEq P] : StrideClass P where
  bigStride := bigStride
  freshProc := freshProc
  enqueue := Sched.strideEnqueue
  dequeue := Sched.strideDequeue
  pickNext k := some k.stridePickNext

namespace Lab8

def bigStride : ℕ := 1 <<< 30

/-- What `alloc_proc` fills in. -/
def freshProc : ProcStruct := ⟨.uninit, 0, false, false, 0, 0, 0⟩

def enqueued (k : Sched P) (p : P) (links : P → SkewHeapEntry P) (pool : Option P) : Sched P :=
  { k with
    links := links
    rq := { k.rq with lab6RunPool := pool, procNum := k.rq.procNum + 1 }
    proc := Function.update k.proc p { k.proc p with
      timeSlice :=
        if (k.proc p).timeSlice = 0 ∨ (k.proc p).timeSlice > k.rq.maxTimeSlice then
          k.rq.maxTimeSlice
        else (k.proc p).timeSlice
      rq := true } }

/-- `proc->rq` stays as it is. -/
def dequeued (k : Sched P) (links : P → SkewHeapEntry P) (pool : Option P) : Sched P :=
  { k with
    links := links
    rq := { k.rq with lab6RunPool := pool, procNum := k.rq.procNum - 1 } }

def strideEnqueue (k : Sched P) (p : P) : Option (Sched P) :=
  (skewHeapInsert (procStrideCompF k.proc) (k.rq.procNum + 2) k.links
    k.rq.lab6RunPool p).map fun m => enqueued k p m.1 m.2

def strideDequeue (k : Sched P) (p : P) : Option (Sched P) :=
  if (k.proc p).rq = true ∧ k.rq.procNum > 0 then
    (skewHeapRemove (procStrideCompF k.proc) (k.rq.procNum + 1) k.links
      k.rq.lab6RunPool p).map fun m => dequeued k m.1 m.2
  else none

/-- Nothing keeps the divisor from being 0. -/
def stridePickNext (k : Sched P) : Option (Sched P × Option P) :=
  match k.rq.lab6RunPool with
  | none => some (k, none)
  | some p =>
    if (k.proc p).lab6Priority = 0 then none
    else some (k.setProc p { k.proc p with
      lab6Stride := uint32 ((k.proc p).lab6Stride + bigStride / (k.proc p).lab6Priority) },
      some p)

end Lab8

/-- `stride_sched_class` of lab8 -/
def lab8StrideClass (P : Type*) [DecidableEq P] : StrideClass P where
  bigStride := Lab8.bigStride
  freshProc := Lab8.freshProc
  enqueue := Lab8.strideEnqueue
  dequeue := Lab8.strideDequeue
  pickNext := Lab8.stridePickNext

/-! `sched.c`, which is the same in both. -/

namespace Sched

/-- After `sched_init` and the first lines of `proc_init`. -/
def initWith (c : StrideClass P) (idleproc : P) : Sched P where
  proc := Function.update (fun _ => c.freshProc) idleproc
    { c.freshProc with state := .runnable, needResched := true }
  links _ := ⟨none, none, none⟩
  allocated := Function.update (fun _ => false) idleproc true
  rq := strideInit P
  current := idleproc
  idleproc := idleproc

def enqueueWith (c : StrideClass P) (k : Sched P) (p : P) : Option (Sched P) :=
  if p ≠ k.idleproc then c.enqueue k p else some k

def wakeupWith (c : StrideClass P) (k : Sched P) (p : P) : Option (Sched P) :=
  if (k.proc p).state = .zombie then none
  else if (k.proc p).state ≠ .runnable then
    let k := k.setProc p { k.proc p with state := .runnable }
    if p ≠ k.current then k.enqueueWith c p else some k
  else some k

/-- The first lines of `schedule`, up to the pick. -/
def putBackWith (c : StrideClass P) (k : Sched P) : Option (Sched P) :=
  let k := k.setProc k.current { k.proc k.current with needResched := false }
  if (k.proc k.current).state = .runnable then k.enqueueWith c k.current else some k

def scheduleWith (c : StrideClass P) (k : Sched P) : Option (Sched P) :=
  (k.putBackWith c).bind fun k =>
    (c.pickNext k).bind fun (k, next) =>
      match next with
      | some next => (c.dequeue k next).map (fun k => k.runNext next)
      | none => some (k.runNext k.idleproc)

/-- The process that `schedule` would pick. -/
def pickWith (c : StrideClass P) (k : Sched P) : Option P :=
  (k.putBackWith c).bind fun k => k.rq.lab6RunPool

def allocWith (c : StrideClass P) (k : Sched P) (p : P) : Sched P :=
  { k.setProc p c.freshProc with
    links := skewHeapInit k.links p
    allocated := Function.update k.allocated p true }

def stepWith (c : StrideClass P) (k : Sched P) : Event P → Option (Sched P)
  | .alloc p =>
    if k.allocated p then none
    else some (k.allocWith c p)
  | .wakeup p => if k.allocated p then k.wakeupWith c p else none
  | .schedule => k.scheduleWith c
  | ev => k.step ev

/-- With the class of lab6 this is the system of `Sched.step`. -/
theorem stepWith_lab6 (k : Sched P) (ev : Event P) :
    k.stepWith (lab6StrideClass P) ev = k.step ev := by
  cases ev with
  | schedule =>
    have hback : k.putBackWith (lab6StrideClass P) = k.putBack := rfl
    rw [stepWith, step, scheduleWith, schedule, hback]
    refine congrArg k.putBack.bind ?_
    funext k
    have hpick : (lab6StrideClass P).pickNext k = some k.stridePickNext := rfl
    rw [hpick, Option.bind_some]
    cases k.stridePickNext with
    | mk k next =>
      cases next with
      | none => rfl
      | some next => rfl
  | alloc p => rfl
  | wakeup p => rfl
  | sleep => rfl
  | exit => rfl
  | reap p => rfl
  | setPriority priority => rfl
  | tick => rfl

/-- The run pool holds the nodes of the tree, and the `rq` of every other process lets it in. -/
structure Holds (free : Bool → Prop) (k : Sched P) (t : BinaryTree P) : Prop where
  heap : Heap k.links t
  pool : k.rq.lab6RunPool = root t
  count : k.rq.procNum = (members t).length
  marked : ∀ p ∈ members t, (k.proc p).rq = true
  free : ∀ p, p ∉ members t → free (k.proc p).rq

/-- What the operations on the pool leave alone. -/
structure SameProcs (k k' : Sched P) : Prop where
  state : ∀ q, (k'.proc q).state = (k.proc q).state
  stride : ∀ q, (k'.proc q).lab6Stride = (k.proc q).lab6Stride
  priority : ∀ q, (k'.proc q).lab6Priority = (k.proc q).lab6Priority
  allocated : k'.allocated = k.allocated
  current : k'.current = k.current
  idleproc : k'.idleproc = k.idleproc

omit [DecidableEq P] in
theorem SameProcs.trans {k k' k'' : Sched P} (h : k.SameProcs k') (h' : k'.SameProcs k'') :
    k.SameProcs k'' where
  state q := (h'.state q).trans (h.state q)
  stride q := (h'.stride q).trans (h.stride q)
  priority q := (h'.priority q).trans (h.priority q)
  allocated := h'.allocated.trans h.allocated
  current := h'.current.trans h.current
  idleproc := h'.idleproc.trans h.idleproc

/-- Enqueueing and dequeueing keep the heap. -/
structure EnqueueLaw (free : Bool → Prop)
    (enqueue dequeue : Sched P → P → Option (Sched P)) : Prop where
  enters : ∀ {k : Sched P} {t : BinaryTree P} {p : P} {le : P → P → Prop},
    k.Holds free t → p ∉ members t → (∀ x y z, le x y → le y z → le x z) → Ordered le t →
    Decided k.proc le (fun q => q ∈ members t ∨ q = p) →
    ∃ k' t', enqueue k p = some k' ∧ k'.Holds free t' ∧ Ordered le t' ∧
      (∀ q, q ∈ members t' ↔ q ∈ members t ∨ q = p) ∧ k.SameProcs k' ∧
      ((∀ r, root t = some r → procStrideCompF k.proc r p ≠ -1) → root t' = some p)
  leaves : ∀ {k : Sched P} {t : BinaryTree P} {p : P} {le : P → P → Prop},
    k.Holds free t → root t = some p → (∀ x y z, le x y → le y z → le x z) → Ordered le t →
    Decided k.proc le (fun q => q ∈ members t ∧ q ≠ p) →
    ∃ k' t', dequeue k p = some k' ∧ k'.Holds free t' ∧ Ordered le t' ∧
      (∀ q, q ∈ members t' ↔ q ∈ members t ∧ q ≠ p) ∧ k.SameProcs k'

variable {k k' : Sched P} {t : BinaryTree P} {p : P}

omit [DecidableEq P] in
theorem Holds.toPool (h : k.Holds (· = false) t) : k.Pool t where
  heap := h.heap
  pool := h.pool
  count := h.count
  queued p := by
    refine ⟨h.marked p, fun hrq => ?_⟩
    by_contra hout
    rw [h.free p hout] at hrq
    exact absurd hrq (by simp)

omit [DecidableEq P] in
theorem Pool.holds (h : k.Pool t) : k.Holds (· = false) t where
  heap := h.heap
  pool := h.pool
  count := h.count
  marked p hp := (h.queued p).mp hp
  free p hp := by
    refine Bool.eq_false_iff.mpr fun hrq => ?_
    exact hp ((h.queued p).mpr hrq)

theorem sameProcs_update {v : ProcStruct} (hprocs : k'.proc = Function.update k.proc p v)
    (hstate : v.state = (k.proc p).state) (hstride : v.lab6Stride = (k.proc p).lab6Stride)
    (hpriority : v.lab6Priority = (k.proc p).lab6Priority) (halloc : k'.allocated = k.allocated)
    (hcurrent : k'.current = k.current) (hidle : k'.idleproc = k.idleproc) :
    k.SameProcs k' := by
  refine ⟨?_, ?_, ?_, halloc, hcurrent, hidle⟩
  · intro q
    rw [hprocs]
    exact update_field ProcStruct.state hstate q
  · intro q
    rw [hprocs]
    exact update_field ProcStruct.lab6Stride hstride q
  · intro q
    rw [hprocs]
    exact update_field ProcStruct.lab6Priority hpriority q

theorem lab6_enqueueLaw : EnqueueLaw (P := P) (· = false) strideEnqueue strideDequeue where
  enters := by
    intro k t p le h hp htrans hord hdec
    have hpool := h.toPool
    obtain ⟨links, pool, hrun, t', ht', hord'⟩ := strideEnqueue_spec ⟨t, hpool, hord⟩ htrans
      (h.free p hp) (hdec.congr (fun q hq => hq.imp_left (hpool.queued q).mpr) (fun _ _ => rfl))
    refine ⟨_, t', hrun, ht'.holds, hord', ?_, sameProcs_update rfl rfl rfl rfl rfl rfl rfl, ?_⟩
    · intro q
      rw [ht'.queued q, hpool.queued q]
      by_cases hq : q = p
      · simp only [enqueued, hq, Function.update_self, or_true]
      · simp only [enqueued, Function.update_of_ne hq, hq, or_false]
    · intro htop
      have hmark : ¬ (k.proc p).rq = true := by
        rw [h.free p hp]
        simp
      rw [strideEnqueue, if_neg hmark] at hrun
      obtain ⟨m, hm, heq⟩ := Option.map_eq_some_iff.mp hrun
      have hroot : m.2 = root t' := (congrArg (fun k => k.rq.lab6RunPool) heq).trans ht'.pool
      rw [← hroot]
      exact skewHeapInsert_top hm (fun r hr => htop r (h.pool.symm.trans hr))
  leaves := by
    intro k t p le h htop htrans hord hdec
    have hpool := h.toPool
    obtain ⟨links, pool, hrun, t', ht', hord'⟩ := strideDequeue_spec hpool htop htrans hord
      (hdec.congr (fun q hq => ⟨(hpool.queued q).mpr hq.1, hq.2⟩) (fun _ _ => rfl))
    refine ⟨_, t', hrun, ht'.holds, hord', ?_, sameProcs_update rfl rfl rfl rfl rfl rfl rfl⟩
    intro q
    rw [ht'.queued q, hpool.queued q]
    by_cases hq : q = p
    · simp only [dequeued, hq, Function.update_self, ne_eq, not_true, and_false,
        Bool.false_eq_true]
    · simp only [dequeued, Function.update_of_ne hq, ne_eq, hq, not_false_iff, and_true]

theorem lab8_enqueueLaw :
    EnqueueLaw (P := P) (fun _ => True) Lab8.strideEnqueue Lab8.strideDequeue where
  enters := by
    intro k t p le h hp htrans hord hdec
    have hdepth : (members t).length + 1 < k.rq.procNum + 2 := by
      rw [h.count]
      omega
    obtain ⟨links, t', hrun, hheap, hperm, hord'⟩ :=
      skewHeapInsert_spec (procStrideCompF k.proc) h.heap hp hdepth
    have hmem : ∀ q, q ∈ members t' ↔ q ∈ members t ∨ q = p := by
      intro q
      rw [hperm.mem_iff, List.mem_append, List.mem_singleton]
    refine ⟨Lab8.enqueued k p links (root t'), t', ?_, ⟨hheap, rfl, ?_, ?_, fun _ _ => trivial⟩,
      hord' le htrans ?_ hord, hmem, sameProcs_update rfl rfl rfl rfl rfl rfl rfl,
      skewHeapInsert_top hrun⟩
    · rw [Lab8.strideEnqueue, h.pool, hrun, Option.map_some]
    · change k.rq.procNum + 1 = _
      rw [hperm.length_eq, List.length_append, h.count, List.length_singleton]
    · intro q hq
      by_cases heq : q = p
      · simp only [Lab8.enqueued, heq, Function.update_self]
      · simp only [Lab8.enqueued, Function.update_of_ne heq]
        exact h.marked q (((hmem q).mp hq).resolve_right heq)
    · intro x hx y hy
      exact hdec x ((hmem x).mp (hperm.mem_iff.mpr hx)) y ((hmem y).mp (hperm.mem_iff.mpr hy))
  leaves := by
    intro k t p le h htop htrans hord hdec
    obtain ⟨l, r, rfl⟩ := exists_node htop
    have hp : (k.proc p).rq = true := h.marked p List.mem_cons_self
    have hcount : k.rq.procNum = (members l).length + (members r).length + 1 := by
      rw [h.count, members, List.length_cons, List.length_append]
    have hdepth : (members l).length + (members r).length < k.rq.procNum + 1 := by omega
    obtain ⟨links, t', hrun, hheap, hperm, hord'⟩ :=
      skewHeapRemove_root (procStrideCompF k.proc) h.heap hdepth k.rq.lab6RunPool
    have hout := (List.nodup_cons.mp h.heap.nodup).1
    have hmem : ∀ q, q ∈ members t' ↔ q ∈ members (.node p l r) ∧ q ≠ p := by
      intro q
      rw [hperm.mem_iff, members, List.mem_cons]
      constructor
      · intro hq
        exact ⟨Or.inr hq, fun heq => hout (heq ▸ hq)⟩
      · intro hq
        exact hq.1.resolve_left hq.2
    refine ⟨Lab8.dequeued k links (root t'), t', ?_, ⟨hheap, rfl, ?_, ?_, fun _ _ => trivial⟩, ?_,
      hmem, ⟨fun _ => rfl, fun _ => rfl, fun _ => rfl, rfl, rfl, rfl⟩⟩
    · rw [Lab8.strideDequeue, if_pos ⟨hp, by omega⟩, hrun, Option.map_some]
    · change k.rq.procNum - 1 = _
      rw [hperm.length_eq, List.length_append]
      omega
    · exact fun q hq => h.marked q ((hmem q).mp hq).1
    · refine hord' le htrans ?_ hord.2.2.1 hord.2.2.2
      intro x hx y hy
      exact hdec x ((hmem x).mp (hperm.mem_iff.mpr hx)) y ((hmem y).mp (hperm.mem_iff.mpr hy))

end Sched

/-- What the two classes have in common. -/
structure StrideClass.Lawful (c : StrideClass P) (free : Bool → Prop) : Prop where
  queue : Sched.EnqueueLaw free c.enqueue c.dequeue
  pick_none : ∀ {k : Sched P}, k.rq.lab6RunPool = none → c.pickNext k = some (k, none)
  pick_some : ∀ {k : Sched P} {p : P}, k.rq.lab6RunPool = some p →
    (k.proc p).lab6Priority ≠ 0 →
    c.pickNext k = some (k.setProc p { k.proc p with
      lab6Stride := uint32 ((k.proc p).lab6Stride + c.bigStride / (k.proc p).lab6Priority) },
      some p)
  fresh : free c.freshProc.rq ∧ c.freshProc.lab6Stride = 0 ∧ c.freshProc.state = .uninit
  window : c.bigStride < 2 ^ 31

theorem lab6_lawful : (lab6StrideClass P).Lawful (· = false) where
  queue := Sched.lab6_enqueueLaw
  pick_none {k} h := by
    change some k.stridePickNext = _
    rw [Sched.stridePickNext, h]
  pick_some {k p} h hne := by
    change some k.stridePickNext = _
    simp only [Sched.stridePickNext, h, ProcStruct.pass, if_neg hne]
    rfl
  fresh := ⟨rfl, rfl, rfl⟩
  window := by
    change bigStride < 2 ^ 31
    unfold bigStride
    omega

theorem lab8_lawful : (lab8StrideClass P).Lawful (fun _ => True) where
  queue := Sched.lab8_enqueueLaw
  pick_none {k} h := by
    change Lab8.stridePickNext k = _
    rw [Lab8.stridePickNext, h]
  pick_some {k p} h hne := by
    change Lab8.stridePickNext k = _
    simp only [Lab8.stridePickNext, h, if_neg hne]
    rfl
  fresh := ⟨trivial, rfl, rfl⟩
  window := by
    change Lab8.bigStride < 2 ^ 31
    decide

end Ucore.Schedule
