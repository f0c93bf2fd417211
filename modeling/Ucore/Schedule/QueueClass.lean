import Mathlib.Data.List.MinMax
import Ucore.Library.Run
import Ucore.Schedule.Stride

/-!
The three classes of lab6 that keep their processes in `run_list`: round robin, first in first out,
and the one that picks a process with the fewest runs. They differ in `pick_next` alone, and run
under the `sched.c` of the stride scheduler.
-/
namespace Ucore.Schedule

/-- `rq->run_list` from its head on. -/
structure ListQueue (P : Type*) where
  runList : List P
  procNum : ℕ
  maxTimeSlice : ℕ

structure QueueSched (P : Type*) where
  proc : P → ProcStruct
  allocated : P → Bool
  rq : ListQueue P
  current : P
  idleproc : P

/-- A `sched_class`; `none` is a failed assertion. -/
structure QueueClass (P : Type*) where
  init : ListQueue P → ListQueue P
  enqueue : QueueSched P → P → Option (QueueSched P)
  dequeue : QueueSched P → P → Option (QueueSched P)
  pickNext : QueueSched P → Option P
  procTick : QueueSched P → P → QueueSched P

variable {P : Type*} [DecidableEq P]

namespace QueueSched

def setProc (k : QueueSched P) (p : P) (v : ProcStruct) : QueueSched P :=
  { k with proc := Function.update k.proc p v }

end QueueSched

/-! What the classes have in common. -/

def queueInit (rq : ListQueue P) : ListQueue P :=
  ⟨[], 0, if rq.maxTimeSlice ≤ 0 then 1 else rq.maxTimeSlice⟩

/-- `list_add_before` the head is at the end. -/
def queueEnqueue (k : QueueSched P) (p : P) : Option (QueueSched P) :=
  if (k.proc p).rq then none
  else some { k.setProc p { k.proc p with
      timeSlice := if k.rq.maxTimeSlice > 0 then k.rq.maxTimeSlice else 1
      rq := true } with
    rq := { k.rq with runList := k.rq.runList ++ [p], procNum := k.rq.procNum + 1 } }

def queueDequeue (k : QueueSched P) (p : P) : Option (QueueSched P) :=
  if (k.proc p).rq then
    some { k.setProc p { k.proc p with rq := false } with
      rq := { k.rq with
        runList := k.rq.runList.erase p
        procNum := if k.rq.procNum > 0 then k.rq.procNum - 1 else k.rq.procNum } }
  else none

def queueProcTick (k : QueueSched P) (p : P) : QueueSched P :=
  let slice := if (k.proc p).timeSlice > 0 then (k.proc p).timeSlice - 1 else (k.proc p).timeSlice
  k.setProc p { k.proc p with
    timeSlice := slice
    needResched := if slice = 0 then true else (k.proc p).needResched }

/-! `default_sched.c` -/

def rrInit : ListQueue P → ListQueue P := queueInit

def rrEnqueue : QueueSched P → P → Option (QueueSched P) := queueEnqueue

def rrDequeue : QueueSched P → P → Option (QueueSched P) := queueDequeue

def rrPickNext (k : QueueSched P) : Option P := k.rq.runList.head?

def rrProcTick : QueueSched P → P → QueueSched P := queueProcTick

def rrClass (P : Type*) [DecidableEq P] : QueueClass P :=
  ⟨rrInit, rrEnqueue, rrDequeue, rrPickNext, rrProcTick⟩

/-! `sched_fifo.c` -/

def fifoInit : ListQueue P → ListQueue P := queueInit

def fifoEnqueue : QueueSched P → P → Option (QueueSched P) := queueEnqueue

def fifoDequeue : QueueSched P → P → Option (QueueSched P) := queueDequeue

def fifoPickNext (k : QueueSched P) : Option P := k.rq.runList.head?

def fifoProcTick : QueueSched P → P → QueueSched P := queueProcTick

def fifoClass (P : Type*) [DecidableEq P] : QueueClass P :=
  ⟨fifoInit, fifoEnqueue, fifoDequeue, fifoPickNext, fifoProcTick⟩

/-! `sched_sjf.c` -/

def sjfInit : ListQueue P → ListQueue P := queueInit

def sjfEnqueue : QueueSched P → P → Option (QueueSched P) := queueEnqueue

def sjfDequeue : QueueSched P → P → Option (QueueSched P) := queueDequeue

/-- The loop of `SJF_pick_next`, with the best process so far. -/
def sjfLoop (proc : P → ProcStruct) : Option P → List P → Option P
  | best, [] => best
  | none, p :: rest => sjfLoop proc (some p) rest
  | some best, p :: rest =>
    if (proc p).runs < (proc best).runs then sjfLoop proc (some p) rest
    else sjfLoop proc (some best) rest

def sjfPickNext (k : QueueSched P) : Option P :=
  if k.rq.runList = [] then none else sjfLoop k.proc none k.rq.runList

def sjfProcTick : QueueSched P → P → QueueSched P := queueProcTick

def sjfClass (P : Type*) [DecidableEq P] : QueueClass P :=
  ⟨sjfInit, sjfEnqueue, sjfDequeue, sjfPickNext, sjfProcTick⟩

/-! `sched.c` and the places of `proc.c`, as for the stride scheduler. -/

namespace QueueSched

/-- After `sched_init` and the first lines of `proc_init`. -/
def init (c : QueueClass P) (idleproc : P) : QueueSched P where
  proc := Function.update (fun _ => freshProc) idleproc
    { freshProc with state := .runnable, needResched := true }
  allocated := Function.update (fun _ => false) idleproc true
  rq := c.init ⟨[], 0, Schedule.maxTimeSlice⟩
  current := idleproc
  idleproc := idleproc

variable (c : QueueClass P) (k : QueueSched P)

def schedClassEnqueue (p : P) : Option (QueueSched P) :=
  if p ≠ k.idleproc then c.enqueue k p else some k

def schedClassProcTick (p : P) : QueueSched P :=
  if p ≠ k.idleproc then c.procTick k p
  else k.setProc p { k.proc p with needResched := true }

def wakeupProc (p : P) : Option (QueueSched P) :=
  if (k.proc p).state = .zombie then none
  else if (k.proc p).state ≠ .runnable then
    let k := k.setProc p { k.proc p with state := .runnable }
    if p ≠ k.current then k.schedClassEnqueue c p else some k
  else some k

/-- The first lines of `schedule`, up to the pick. -/
def putBack : Option (QueueSched P) :=
  let k := k.setProc k.current { k.proc k.current with needResched := false }
  if (k.proc k.current).state = .runnable then k.schedClassEnqueue c k.current else some k

/-- The last lines of `schedule`. -/
def runNext (next : P) : QueueSched P :=
  { k.setProc next { k.proc next with runs := (k.proc next).runs + 1 } with current := next }

def schedule : Option (QueueSched P) :=
  (k.putBack c).bind fun k =>
    match c.pickNext k with
    | some next => (c.dequeue k next).map (fun k => k.runNext next)
    | none => some (k.runNext k.idleproc)

def step (k : QueueSched P) : Event P → Option (QueueSched P)
  | .alloc p =>
    if k.allocated p then none
    else some { k.setProc p freshProc with allocated := Function.update k.allocated p true }
  | .wakeup p => if k.allocated p then k.wakeupProc c p else none
  | .sleep =>
    if k.current ≠ k.idleproc ∧ (k.proc k.current).state = .runnable then
      some (k.setProc k.current { k.proc k.current with state := .sleeping })
    else none
  | .exit =>
    if k.current ≠ k.idleproc ∧ (k.proc k.current).state = .runnable then
      some (k.setProc k.current { k.proc k.current with state := .zombie })
    else none
  | .reap p =>
    if k.allocated p ∧ (k.proc p).state = .zombie ∧ p ≠ k.current then
      some { k with allocated := Function.update k.allocated p false }
    else none
  | .setPriority priority =>
    some (k.setProc k.current { k.proc k.current with
      lab6Priority := if Libs.uint32 priority = 0 then 1 else Libs.uint32 priority })
  | .tick => some (k.schedClassProcTick c k.current)
  | .schedule => k.schedule c

end QueueSched

/-! What a class has to keep. -/

structure QueueLaw (c : QueueClass P) : Prop where
  init : c.init = queueInit
  enqueue : c.enqueue = queueEnqueue
  dequeue : c.dequeue = queueDequeue
  procTick : c.procTick = queueProcTick
  pick_none : ∀ k, c.pickNext k = none ↔ k.rq.runList = []
  pick_mem : ∀ k p, c.pickNext k = some p → p ∈ k.rq.runList

theorem rr_law : QueueLaw (rrClass P) :=
  ⟨rfl, rfl, rfl, rfl, fun _ => List.head?_eq_none_iff, fun _ _ h => List.mem_of_mem_head? h⟩

theorem fifo_law : QueueLaw (fifoClass P) :=
  ⟨rfl, rfl, rfl, rfl, fun _ => List.head?_eq_none_iff, fun _ _ h => List.mem_of_mem_head? h⟩

omit [DecidableEq P] in
theorem sjfLoop_eq_foldl (proc : P → ProcStruct) (best : Option P) (l : List P) :
    sjfLoop proc best l =
      l.foldl (List.argAux fun p q => (proc p).runs < (proc q).runs) best := by
  induction l generalizing best with
  | nil => cases best <;> rfl
  | cons p rest ih =>
    rw [List.foldl_cons]
    cases best with
    | none => exact ih _
    | some best =>
      rw [sjfLoop]
      by_cases hlt : (proc p).runs < (proc best).runs
      · rw [if_pos hlt, ih]
        exact congrArg (fun b => rest.foldl _ b) (if_pos hlt).symm
      · rw [if_neg hlt, ih]
        exact congrArg (fun b => rest.foldl _ b) (if_neg hlt).symm

omit [DecidableEq P] in
/-- The pick is the first process of the queue with the fewest runs. -/
theorem sjfPickNext_eq (k : QueueSched P) :
    sjfPickNext k = k.rq.runList.argmin (fun p => (k.proc p).runs) := by
  unfold sjfPickNext
  by_cases hempty : k.rq.runList = []
  · rw [if_pos hempty, hempty]
    rfl
  · rw [if_neg hempty, sjfLoop_eq_foldl]
    rfl

theorem sjf_law : QueueLaw (sjfClass P) := by
  refine ⟨rfl, rfl, rfl, rfl, ?_, ?_⟩
  · intro k
    change sjfPickNext k = none ↔ _
    rw [sjfPickNext_eq]
    exact List.argmin_eq_none
  · intro k p hp
    change sjfPickNext k = some p at hp
    rw [sjfPickNext_eq] at hp
    exact List.argmin_mem hp

/-! The queue holds the processes that want to run. -/

namespace QueueSched

variable {c : QueueClass P} {k k' : QueueSched P} {S T : P → Prop} {p : P}

/-- The queue holds these processes, each of them once, and `proc->rq` tells which. -/
structure Lists (k : QueueSched P) (S : P → Prop) : Prop where
  nodup : k.rq.runList.Nodup
  count : k.rq.procNum = k.rq.runList.length
  marked : ∀ p, (k.proc p).rq = true ↔ p ∈ k.rq.runList
  mem : ∀ p, p ∈ k.rq.runList ↔ S p

/-- What the operations on the queue leave alone. -/
structure SameProcs (k k' : QueueSched P) : Prop where
  state : ∀ q, (k'.proc q).state = (k.proc q).state
  runs : ∀ q, (k'.proc q).runs = (k.proc q).runs
  allocated : k'.allocated = k.allocated
  current : k'.current = k.current
  idleproc : k'.idleproc = k.idleproc

omit [DecidableEq P] in
theorem Lists.congr (h : k.Lists S) (hiff : ∀ p, S p ↔ T p) : k.Lists T :=
  ⟨h.nodup, h.count, h.marked, fun p => (h.mem p).trans (hiff p)⟩

omit [DecidableEq P] in
theorem SameProcs.trans {k'' : QueueSched P} (h : SameProcs k k') (h' : SameProcs k' k'') :
    SameProcs k k'' where
  state q := (h'.state q).trans (h.state q)
  runs q := (h'.runs q).trans (h.runs q)
  allocated := h'.allocated.trans h.allocated
  current := h'.current.trans h.current
  idleproc := h'.idleproc.trans h.idleproc

/-- A field that an update leaves. -/
theorem setProc_field {α : Type*} {v : ProcStruct} (field : ProcStruct → α)
    (hv : field v = field (k.proc p)) (q : P) :
    field ((k.setProc p v).proc q) = field (k.proc q) := by
  unfold setProc
  by_cases hq : q = p
  · obtain rfl := hq
    dsimp only
    rw [Function.update_self, hv]
  · dsimp only
    rw [Function.update_of_ne hq]

theorem Lists.setProc (h : k.Lists S) {v : ProcStruct} (hv : v.rq = (k.proc p).rq) :
    (k.setProc p v).Lists S :=
  ⟨h.nodup, h.count, fun q => by rw [setProc_field ProcStruct.rq hv]; exact h.marked q, h.mem⟩

theorem sameProcs_setProc {v : ProcStruct} (hstate : v.state = (k.proc p).state)
    (hruns : v.runs = (k.proc p).runs) : SameProcs k (k.setProc p v) :=
  ⟨setProc_field ProcStruct.state hstate, setProc_field ProcStruct.runs hruns, rfl, rfl, rfl⟩

theorem Lists.enqueue (h : k.Lists S) (hp : ¬ S p) :
    ∃ k', queueEnqueue k p = some k' ∧ k'.Lists (fun q => S q ∨ q = p) ∧ SameProcs k k' ∧
      k'.rq.runList = k.rq.runList ++ [p] := by
  have hout : p ∉ k.rq.runList := fun hin => hp ((h.mem p).mp hin)
  have hrq : ¬ (k.proc p).rq = true := fun hrq => hout ((h.marked p).mp hrq)
  have hmem : ∀ q, q ∈ k.rq.runList ++ [p] ↔ q ∈ k.rq.runList ∨ q = p := by
    intro q
    rw [List.mem_append, List.mem_singleton]
  unfold queueEnqueue
  rw [if_neg hrq]
  refine ⟨_, rfl, ⟨?_, ?_, ?_, ?_⟩, ?_, rfl⟩
  · refine List.nodup_append.mpr ⟨h.nodup, List.nodup_singleton p, ?_⟩
    intro q hq r hr heq
    obtain rfl := List.mem_singleton.mp hr
    exact hout (heq ▸ hq)
  · change k.rq.procNum + 1 = (k.rq.runList ++ [p]).length
    rw [h.count, List.length_append, List.length_singleton]
  · intro q
    change (Function.update k.proc p _ q).rq = true ↔ q ∈ k.rq.runList ++ [p]
    rw [hmem]
    by_cases hq : q = p
    · obtain rfl := hq
      rw [Function.update_self]
      exact ⟨fun _ => Or.inr rfl, fun _ => rfl⟩
    · rw [Function.update_of_ne hq, h.marked]
      exact ⟨Or.inl, fun hor => hor.resolve_right hq⟩
  · intro q
    change q ∈ k.rq.runList ++ [p] ↔ _
    rw [hmem, h.mem]
  · exact ⟨setProc_field ProcStruct.state rfl, setProc_field ProcStruct.runs rfl, rfl, rfl, rfl⟩

theorem Lists.dequeue (h : k.Lists S) (hp : S p) :
    ∃ k', queueDequeue k p = some k' ∧ k'.Lists (fun q => S q ∧ q ≠ p) ∧ SameProcs k k' ∧
      k'.rq.runList = k.rq.runList.erase p := by
  have hin : p ∈ k.rq.runList := (h.mem p).mpr hp
  have hmem : ∀ q, q ∈ k.rq.runList.erase p ↔ q ≠ p ∧ q ∈ k.rq.runList :=
    fun q => h.nodup.mem_erase_iff
  have hpos : 0 < k.rq.procNum := by
    rw [h.count]
    exact List.length_pos_of_mem hin
  unfold queueDequeue
  rw [if_pos ((h.marked p).mpr hin)]
  refine ⟨_, rfl, ⟨h.nodup.erase p, ?_, ?_, ?_⟩, ?_, rfl⟩
  · change (if k.rq.procNum > 0 then k.rq.procNum - 1 else k.rq.procNum) =
      (k.rq.runList.erase p).length
    rw [if_pos hpos, List.length_erase_of_mem hin, h.count]
  · intro q
    change (Function.update k.proc p _ q).rq = true ↔ q ∈ k.rq.runList.erase p
    rw [hmem]
    by_cases hq : q = p
    · obtain rfl := hq
      rw [Function.update_self]
      simp
    · rw [Function.update_of_ne hq, h.marked]
      exact ⟨fun hin => ⟨hq, hin⟩, fun hor => hor.2⟩
  · intro q
    change q ∈ k.rq.runList.erase p ↔ _
    rw [hmem, h.mem, and_comm]
  · exact ⟨setProc_field ProcStruct.state rfl, setProc_field ProcStruct.runs rfl, rfl, rfl, rfl⟩

/-- A process wants to run. -/
def Wants (k : QueueSched P) (p : P) : Prop :=
  k.allocated p = true ∧ (k.proc p).state = .runnable ∧ p ≠ k.idleproc

/-- The queue holds the processes that want to run, without the running one. -/
structure Queued (k : QueueSched P) : Prop where
  lists : k.Lists (fun p => k.Wants p ∧ p ≠ k.current)
  current : k.allocated k.current = true
  idle : k.allocated k.idleproc = true ∧ (k.proc k.idleproc).state = .runnable

/-- The queue when `schedule` picks. -/
def waiting (k : QueueSched P) : List P :=
  if k.current ≠ k.idleproc ∧ (k.proc k.current).state = .runnable then
    k.rq.runList ++ [k.current]
  else k.rq.runList

omit [DecidableEq P] in
theorem SameProcs.wants (h : SameProcs k k') : k'.Wants p ↔ k.Wants p := by
  unfold Wants
  rw [h.allocated, h.state, h.idleproc]

theorem Queued.putBack (hc : QueueLaw c) (h : k.Queued) :
    ∃ k', k.putBack c = some k' ∧ k'.Lists k.Wants ∧ SameProcs k k' ∧
      k'.rq.runList = k.waiting := by
  have hclear := @sameProcs_setProc P _ k k.current
    { k.proc k.current with needResched := false } rfl rfl
  have hlists : (k.setProc k.current { k.proc k.current with needResched := false }).Lists
      (fun p => k.Wants p ∧ p ≠ k.current) := h.lists.setProc rfl
  unfold QueueSched.putBack waiting schedClassEnqueue
  dsimp only
  rw [hc.enqueue, hclear.state]
  change ∃ k', (if (k.proc k.current).state = .runnable then
    if k.current ≠ k.idleproc then queueEnqueue _ k.current else some _ else some _) = some k' ∧ _
  by_cases hrun : (k.proc k.current).state = .runnable
  · rw [if_pos hrun]
    by_cases hidle : k.current ≠ k.idleproc
    · obtain ⟨k', hk', hlists', hsame, hqueue⟩ :=
        hlists.enqueue (p := k.current) (fun hbad => hbad.2 rfl)
      rw [if_pos hidle, if_pos ⟨hidle, hrun⟩]
      refine ⟨k', hk', hlists'.congr ?_, hclear.trans hsame, hqueue⟩
      intro p
      refine ⟨?_, fun hp => (em (p = k.current)).elim Or.inr fun hne => Or.inl ⟨hp, hne⟩⟩
      rintro (hp | rfl)
      · exact hp.1
      · exact ⟨h.current, hrun, hidle⟩
    · rw [if_neg hidle, if_neg (fun hbad => hidle hbad.1)]
      refine ⟨_, rfl, hlists.congr ?_, hclear, rfl⟩
      intro p
      refine ⟨fun hp => hp.1, fun hp => ⟨hp, ?_⟩⟩
      rintro rfl
      exact hidle hp.2.2
  · rw [if_neg hrun, if_neg (fun hbad => hrun hbad.2)]
    refine ⟨_, rfl, hlists.congr ?_, hclear, rfl⟩
    intro p
    refine ⟨fun hp => hp.1, fun hp => ⟨hp, ?_⟩⟩
    rintro rfl
    exact hrun hp.2.1

end QueueSched

end Ucore.Schedule
