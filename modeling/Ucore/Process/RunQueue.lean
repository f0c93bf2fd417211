import Ucore.Process.ProcTable

/-!
The run queue of lab 8: whenever `schedule` has chosen, the queue holds the runnable processes
other than `idleproc` and the one that was chosen, each of them once.
-/
namespace Ucore.Process.Table

open Library Libs ProcTable
open Schedule (Timers addLoop wtInterrupted wtTimer)
open Sync (wtKsem)

variable {s t u : ProcTable} {p q : ℕ} {queue : List ℕ}

/-- The processes and their relations stay; what is written belongs to the scheduler. -/
structure Still (s t : ProcTable) : Prop where
  rel : t.rel = s.rel
  procList : t.procList = s.procList
  nrProcess : t.nrProcess = s.nrProcess
  created : t.created = s.created
  timerList : t.timerList = s.timerList
  state : ∀ q, (t.proc q).state = (s.proc q).state
  waitState : ∀ q, (t.proc q).waitState = (s.proc q).waitState
  exitCode : ∀ q, (t.proc q).exitCode = (s.proc q).exitCode
  waitPid : ∀ q, (t.proc q).waitPid = (s.proc q).waitPid

theorem Still.refl (s : ProcTable) : Still s s :=
  ⟨rfl, rfl, rfl, rfl, rfl, fun _ => rfl, fun _ => rfl, fun _ => rfl, fun _ => rfl⟩

theorem Still.trans (h : Still s t) (h' : Still t u) : Still s u :=
  ⟨h'.rel.trans h.rel, h'.procList.trans h.procList, h'.nrProcess.trans h.nrProcess,
    h'.created.trans h.created, h'.timerList.trans h.timerList,
    fun q => (h'.state q).trans (h.state q), fun q => (h'.waitState q).trans (h.waitState q),
    fun q => (h'.exitCode q).trans (h.exitCode q), fun q => (h'.waitPid q).trans (h.waitPid q)⟩

theorem setProc_self (s : ProcTable) (p : ℕ) (f : ProcStruct → ProcStruct) :
    (s.setProc p f).proc p = f (s.proc p) := Function.update_self ..

theorem setProc_of_ne (s : ProcTable) {f : ProcStruct → ProcStruct} (h : q ≠ p) :
    (s.setProc p f).proc q = s.proc q := Function.update_of_ne h _ _

/-- A field that an update leaves. -/
theorem setProc_field {α : Type} (s : ProcTable) (p : ℕ) {f : ProcStruct → ProcStruct}
    {field : ProcStruct → α} (hf : ∀ x, field (f x) = field x) (q : ℕ) :
    field ((s.setProc p f).proc q) = field (s.proc q) := by
  by_cases hq : q = p
  · obtain rfl := hq
    rw [setProc_self]
    exact hf _
  · rw [setProc_of_ne s hq]

theorem Still.setProc {f : ProcStruct → ProcStruct} (hstate : ∀ x, (f x).state = x.state)
    (hwait : ∀ x, (f x).waitState = x.waitState) (hcode : ∀ x, (f x).exitCode = x.exitCode)
    (hpid : ∀ x, (f x).waitPid = x.waitPid) : Still s (s.setProc p f) :=
  ⟨rfl, rfl, rfl, rfl, rfl, setProc_field s p hstate, setProc_field s p hwait,
    setProc_field s p hcode, setProc_field s p hpid⟩

/-- The links of the queue, with the number that `proc_num` counts. -/
structure Linked (s : ProcTable) (queue : List ℕ) : Prop where
  ring : s.runLink.Ring none (queue.map some)
  apart : ∀ p, p ∉ queue → s.runLink.next (some p) = some p
  count : s.procNum = queue.length
  rq : ∀ p ∈ queue, (s.proc p).rq = true

namespace Linked

theorem notMem_map (h : p ∉ queue) : some p ∉ (none :: queue.map some : List (Option ℕ)) := by
  simp only [List.mem_cons, List.mem_map, Option.some.injEq, exists_eq_right, reduceCtorEq,
    false_or]
  exact h

theorem nodup (h : Linked s queue) : queue.Nodup :=
  List.Nodup.of_map some h.ring.nodup

/-- Enqueuing a process that is not queued. -/
theorem enqueue (h : Linked s queue) (hp : p ∉ queue) :
    ∃ t, s.rrEnqueue p = some t ∧ Linked t (queue ++ [p]) ∧ Still s t ∧ t.current = s.current := by
  have hempty : listEmpty s.runLink (some p) = true := by
    unfold listEmpty
    rw [h.apart p hp]
    exact decide_eq_true rfl
  have hstill : Still s (s.setProc p refill) :=
    Still.setProc (fun _ => rfl) (fun _ => rfl) (fun _ => rfl) (fun _ => rfl)
  unfold rrEnqueue
  rw [if_pos hempty]
  refine ⟨_, rfl, ⟨?_, ?_, ?_, ?_⟩, ?_, rfl⟩
  · have hring : s.runLink.Ring none (queue.map some ++ []) := by
      rw [List.append_nil]
      exact h.ring
    have hout : some p ∉ (none :: (queue.map some ++ []) : List (Option ℕ)) := by
      rw [List.append_nil]
      exact notMem_map hp
    rw [List.map_append]
    exact hring.insert hout h.ring.prev_head rfl
  · intro q hq
    rw [List.mem_append, List.mem_singleton, not_or] at hq
    have hold := h.apart q hq.1
    have hne : some q ≠ some p := fun heq => hq.2 (Option.some.inj heq)
    have hprev : some q ≠ s.runLink.prev none := by
      intro heq
      have hmem := h.ring.prev_mem_ring List.mem_cons_self
      rw [← heq] at hmem
      exact notMem_map hq.1 hmem
    change Function.update (Function.update s.runLink.next (s.runLink.prev none) (some p)) (some p)
      none (some q) = some q
    rw [Function.update_of_ne hne, Function.update_of_ne hprev]
    exact hold
  · change s.procNum + 1 = (queue ++ [p]).length
    rw [h.count, List.length_append]
    rfl
  · intro q hq
    change ((s.setProc p refill).proc q).rq = true
    by_cases hqp : q = p
    · rw [hqp, setProc_self]
      rfl
    · rw [List.mem_append, List.mem_singleton] at hq
      rw [setProc_of_ne s hqp]
      exact h.rq q (hq.resolve_right hqp)
  · exact ⟨rfl, rfl, rfl, rfl, rfl, hstill.state, hstill.waitState, hstill.exitCode, hstill.waitPid⟩

/-- The process at the front goes. -/
theorem dequeue (h : Linked s (p :: queue)) :
    ∃ t, s.rrDequeue p = some t ∧ Linked t queue ∧ Still s t ∧ t.current = s.current := by
  have hnodup := List.nodup_cons.mp h.nodup
  have hring : s.runLink.Ring none ([] ++ some p :: queue.map some) := h.ring
  have hlinked : listEmpty s.runLink (some p) = false := by
    have hnext := hring.next_mem
    unfold listEmpty
    rw [hnext, decide_eq_false_iff_not]
    intro heq
    have hmem := Links.headD_mem_cons none (queue.map some)
    rw [heq] at hmem
    exact notMem_map hnodup.1 hmem
  unfold rrDequeue
  rw [if_pos ⟨by rw [hlinked]; exact Bool.false_ne_true, h.rq p List.mem_cons_self⟩]
  refine ⟨_, rfl, ⟨?_, ?_, ?_, ?_⟩, ?_, rfl⟩
  · have hout : ∀ x ∈ (none :: queue.map some : List (Option ℕ)), x ≠ some p :=
      fun x hx heq => notMem_map hnodup.1 (heq ▸ hx)
    refine (ring_listDel hring).congr ?_ ?_
    · exact fun x hx => Function.update_of_ne (hout x hx) _ _
    · exact fun x hx => Function.update_of_ne (hout x hx) _ _
  · intro q hq
    change Function.update (listDel s.runLink (some p)).next (some p) (some p) (some q) = some q
    by_cases hqp : q = p
    · rw [hqp, Function.update_self]
    · have hne : some q ≠ some p := fun heq => hqp (Option.some.inj heq)
      have hprev : some q ≠ s.runLink.prev (some p) := by
        rw [hring.prev_mem]
        exact Option.some_ne_none q
      rw [Function.update_of_ne hne]
      refine (Function.update_of_ne hprev _ _).trans (h.apart q ?_)
      rw [List.mem_cons, not_or]
      exact ⟨hqp, hq⟩
  · change s.procNum - 1 = queue.length
    rw [h.count, List.length_cons, Nat.add_sub_cancel]
  · exact fun q hq => h.rq q (List.mem_cons_of_mem p hq)
  · exact ⟨rfl, rfl, rfl, rfl, rfl, fun _ => rfl, fun _ => rfl, fun _ => rfl, fun _ => rfl⟩

theorem pickNext (h : Linked s queue) : s.rrPickNext = queue.head? := by
  unfold rrPickNext
  rw [h.ring.next_head]
  cases queue with
  | nil => rfl
  | cons p queue => rfl

/-- Only the links and `proc->rq` matter. -/
theorem congr (h : Linked s queue) (hlink : t.runLink = s.runLink) (hnum : t.procNum = s.procNum)
    (hrq : ∀ p, (t.proc p).rq = (s.proc p).rq) : Linked t queue := by
  refine ⟨hlink ▸ h.ring, ?_, hnum.trans h.count, fun p hp => (hrq p).trans (h.rq p hp)⟩
  rw [hlink]
  exact h.apart

theorem runNext (h : Linked s queue) : Linked (s.runNext p) queue := by
  have hrq : ∀ q, ((s.setProc p fun x => { x with runs := x.runs + 1 }).proc q).rq =
      (s.proc q).rq := setProc_field s p (fun _ => rfl)
  exact h.congr rfl rfl hrq

end Linked

theorem runNext_still (s : ProcTable) (p : ℕ) : Still s (s.runNext p) := by
  have hruns : Still s (s.setProc p fun x => { x with runs := x.runs + 1 }) :=
    Still.setProc (fun _ => rfl) (fun _ => rfl) (fun _ => rfl) (fun _ => rfl)
  exact ⟨rfl, rfl, rfl, rfl, rfl, hruns.state, hruns.waitState, hruns.exitCode, hruns.waitPid⟩

/-- A process that was woken: it is runnable now, and it was no zombie. -/
structure Woken (p : ℕ) (s t : ProcTable) : Prop where
  rel : t.rel = s.rel
  procList : t.procList = s.procList
  nrProcess : t.nrProcess = s.nrProcess
  created : t.created = s.created
  current : t.current = s.current
  timerList : t.timerList = s.timerList
  exitCode : ∀ q, (t.proc q).exitCode = (s.proc q).exitCode
  waitPid : ∀ q, (t.proc q).waitPid = (s.proc q).waitPid
  state : ∀ q, q ≠ p → (t.proc q).state = (s.proc q).state
  waitState : ∀ q, q ≠ p → (t.proc q).waitState = (s.proc q).waitState
  alive : (s.proc p).state ≠ .zombie
  runnable : (t.proc p).state = .runnable
  kept : (t.proc p).waitState = 0 ∨
    (s.proc p).state = .runnable ∧ (t.proc p).waitState = (s.proc p).waitState

theorem setProc_awake (halive : (s.proc p).state ≠ .zombie) : Woken p s (s.setProc p awake) := by
  refine ⟨rfl, rfl, rfl, rfl, rfl, rfl, setProc_field s p (fun _ => rfl),
    setProc_field s p (fun _ => rfl), ?_, ?_, halive, ?_, ?_⟩
  · intro q hq
    rw [setProc_of_ne s hq]
  · intro q hq
    rw [setProc_of_ne s hq]
  · rw [setProc_self]
    rfl
  · left
    rw [setProc_self]
    rfl

theorem Woken.still (h : Woken p s t) (ht : Still t u) (hcurrent : u.current = t.current) :
    Woken p s u :=
  ⟨ht.rel.trans h.rel, ht.procList.trans h.procList, ht.nrProcess.trans h.nrProcess,
    ht.created.trans h.created, hcurrent.trans h.current, ht.timerList.trans h.timerList,
    fun q => (ht.exitCode q).trans (h.exitCode q), fun q => (ht.waitPid q).trans (h.waitPid q),
    fun q hq => (ht.state q).trans (h.state q hq),
    fun q hq => (ht.waitState q).trans (h.waitState q hq), h.alive,
    (ht.state p).trans h.runnable, by
      rw [ht.waitState]
      exact h.kept⟩

theorem rrEnqueue_still (h : s.rrEnqueue p = some t) : Still s t ∧ t.current = s.current := by
  have hstill : Still s (s.setProc p refill) :=
    Still.setProc (fun _ => rfl) (fun _ => rfl) (fun _ => rfl) (fun _ => rfl)
  unfold rrEnqueue at h
  split at h
  · obtain rfl := Option.some.inj h
    exact ⟨⟨rfl, rfl, rfl, rfl, rfl, hstill.state, hstill.waitState, hstill.exitCode,
      hstill.waitPid⟩, rfl⟩
  · exact absurd h (by simp)

theorem schedClassEnqueue_still (h : s.schedClassEnqueue p = some t) :
    Still s t ∧ t.current = s.current := by
  unfold schedClassEnqueue at h
  split at h
  · exact rrEnqueue_still h
  · obtain rfl := Option.some.inj h
    exact ⟨Still.refl _, rfl⟩

theorem wakeupProc_woken (h : s.wakeupProc p = some t) : Woken p s t := by
  unfold wakeupProc at h
  split at h
  · exact absurd h (by simp)
  · rename_i halive
    split at h
    · have hwoken := setProc_awake halive
      dsimp only at h
      split at h
      · obtain ⟨hstill, hcurrent⟩ := schedClassEnqueue_still h
        exact hwoken.still hstill hcurrent
      · exact Option.some.inj h ▸ hwoken
    · rename_i hrun
      obtain rfl := Option.some.inj h
      exact ⟨rfl, rfl, rfl, rfl, rfl, rfl, fun _ => rfl, fun _ => rfl, fun _ _ => rfl,
        fun _ _ => rfl, halive, not_not.mp hrun, Or.inr ⟨not_not.mp hrun, rfl⟩⟩

/-- The queue holds the runnable processes other than `idleproc` and the current one. -/
structure RunQueue (s : ProcTable) (queue : List ℕ) : Prop extends Linked s queue where
  mem : ∀ p, p ∈ queue ↔ (s.proc p).state = .runnable ∧ p ≠ idleproc ∧ p ≠ s.current
  idle : (s.proc idleproc).state = .runnable
  fresh : ∀ p, s.created ≤ p → (s.proc p).state = .uninit ∧ (s.proc p).waitState = 0
  current : s.current < s.created
  listed : ∀ p ∈ s.procList, p < s.created
  timed : ∀ p ∈ s.timerList, p < s.created

/-- Changes that the queue does not notice: the current process may stop being runnable, other
processes keep their states. -/
structure Quiet (s t : ProcTable) : Prop where
  runLink : t.runLink = s.runLink
  procNum : t.procNum = s.procNum
  current : t.current = s.current
  created : t.created = s.created
  rq : ∀ p, (t.proc p).rq = (s.proc p).rq
  idle : (t.proc idleproc).state = (s.proc idleproc).state
  state : ∀ p, p ≠ s.current → (t.proc p).state = (s.proc p).state
  waitState : ∀ p, p ≠ s.current → (t.proc p).waitState = (s.proc p).waitState
  procList : ∀ p ∈ t.procList, p ∈ s.procList
  timerList : ∀ p ∈ t.timerList, p ∈ s.timerList ∨ p = s.current

namespace RunQueue

theorem lt_of_waitState (h : RunQueue s queue) (hp : (s.proc p).waitState ≠ 0) :
    p < s.created := by
  by_contra hge
  exact hp (h.fresh p (Nat.not_lt.mp hge)).2

theorem quiet (h : RunQueue s queue) (ht : Quiet s t) : RunQueue t queue := by
  have hcurrent := h.current
  refine ⟨h.toLinked.congr ht.runLink ht.procNum ht.rq, ?_, ht.idle.trans h.idle, ?_, ?_, ?_, ?_⟩
  · intro p
    rw [h.mem, ht.current]
    by_cases hp : p = s.current
    · exact iff_of_false (fun hbad => hbad.2.2 hp) (fun hbad => hbad.2.2 hp)
    · rw [ht.state p hp]
  · intro p hp
    rw [ht.created] at hp
    rw [ht.state p (by omega), ht.waitState p (by omega)]
    exact h.fresh p hp
  · rw [ht.current, ht.created]
    exact hcurrent
  · intro p hp
    rw [ht.created]
    exact h.listed p (ht.procList p hp)
  · intro p hp
    rw [ht.created]
    rcases ht.timerList p hp with hold | hnew
    · exact h.timed p hold
    · exact hnew ▸ hcurrent

/-- A process that sleeps goes to the end of the queue, unless it is the current one. -/
theorem wakeup (h : RunQueue s queue) (hp : p < s.created) (hw : s.wakeupProc p = some t) :
    ∃ queue', RunQueue t queue' := by
  have hwoken := wakeupProc_woken hw
  have hidle : (t.proc idleproc).state = .runnable := by
    by_cases heq : idleproc = p
    · rw [heq]
      exact hwoken.runnable
    · rw [hwoken.state _ heq]
      exact h.idle
  have hfresh : ∀ q, t.created ≤ q → (t.proc q).state = .uninit ∧ (t.proc q).waitState = 0 := by
    intro q hq
    rw [hwoken.created] at hq
    have hne : q ≠ p := by omega
    rw [hwoken.state q hne, hwoken.waitState q hne]
    exact h.fresh q hq
  have hbuild : ∀ queue', Linked t queue' →
      (∀ q, q ∈ queue' ↔ (t.proc q).state = .runnable ∧ q ≠ idleproc ∧ q ≠ s.current) →
      RunQueue t queue' := by
    intro queue' hlinked hmem
    refine ⟨hlinked, hwoken.current.symm ▸ hmem, hidle, hfresh, ?_, ?_, ?_⟩
    · rw [hwoken.current, hwoken.created]
      exact h.current
    · rw [hwoken.procList, hwoken.created]
      exact h.listed
    · rw [hwoken.timerList, hwoken.created]
      exact h.timed
  have hlinked : Linked (s.setProc p awake) queue :=
    h.toLinked.congr rfl rfl (setProc_field s p (fun _ => rfl))
  unfold wakeupProc at hw
  rw [if_neg hwoken.alive] at hw
  by_cases hrun : (s.proc p).state = .runnable
  · rw [if_neg (not_not.mpr hrun)] at hw
    exact ⟨queue, Option.some.inj hw ▸ h⟩
  rw [if_pos hrun] at hw
  have hout : p ∉ queue := fun hin => hrun ((h.mem p).mp hin).1
  by_cases hcurrent : p = s.current
  · rw [if_neg (not_not.mpr hcurrent)] at hw
    obtain rfl := Option.some.inj hw
    refine ⟨queue, hbuild queue hlinked ?_⟩
    intro q
    rw [h.mem]
    by_cases hq : q = p
    · exact iff_of_false (fun hbad => hbad.2.2 (hq.trans hcurrent))
        (fun hbad => hbad.2.2 (hq.trans hcurrent))
    · rw [hwoken.state q hq]
  · have hpidle : p ≠ idleproc := fun heq => hrun (heq ▸ h.idle)
    rw [if_pos hcurrent] at hw
    unfold schedClassEnqueue at hw
    rw [if_pos hpidle] at hw
    obtain ⟨t', ht', hlinked', -⟩ := hlinked.enqueue hout
    rw [ht'] at hw
    obtain rfl := Option.some.inj hw
    refine ⟨queue ++ [p], hbuild _ hlinked' ?_⟩
    intro q
    rw [List.mem_append, List.mem_singleton, h.mem]
    by_cases hq : q = p
    · rw [hq]
      exact iff_of_true (Or.inr rfl) ⟨hwoken.runnable, hpidle, hcurrent⟩
    · rw [hwoken.state q hq, or_iff_left hq]

/-- A process that is woken is not linked yet. -/
theorem wakeup_total (h : RunQueue s queue) (halive : (s.proc p).state ≠ .zombie) :
    ∃ t, s.wakeupProc p = some t := by
  have hlinked : Linked (s.setProc p awake) queue :=
    h.toLinked.congr rfl rfl (setProc_field s p (fun _ => rfl))
  unfold wakeupProc
  rw [if_neg halive]
  by_cases hrun : (s.proc p).state = .runnable
  · rw [if_neg (not_not.mpr hrun)]
    exact ⟨s, rfl⟩
  rw [if_pos hrun]
  dsimp only
  split
  · unfold schedClassEnqueue
    split
    · have hout : p ∉ queue := fun hin => hrun ((h.mem p).mp hin).1
      obtain ⟨t, ht, -⟩ := hlinked.enqueue hout
      exact ⟨t, ht⟩
    · exact ⟨_, rfl⟩
  · exact ⟨_, rfl⟩

/-- What `schedule` chooses from. -/
theorem ready (h : RunQueue s queue) :
    ∃ t queue', (if (s.proc s.current).state = .runnable then s.schedClassEnqueue s.current
      else some s) = some t ∧ Linked t queue' ∧ Still s t ∧
      ∀ p, p ∈ queue' ↔ (s.proc p).state = .runnable ∧ p ≠ idleproc := by
  have hkept : ¬ ((s.proc s.current).state = .runnable ∧ s.current ≠ idleproc) →
      ∀ p, p ∈ queue ↔ (s.proc p).state = .runnable ∧ p ≠ idleproc := by
    intro hnot p
    rw [h.mem]
    constructor
    · intro hp
      exact ⟨hp.1, hp.2.1⟩
    · intro hp
      exact ⟨hp.1, hp.2, fun heq => hnot (heq ▸ hp)⟩
  by_cases hrun : (s.proc s.current).state = .runnable
  · rw [if_pos hrun]
    unfold schedClassEnqueue
    by_cases hidle : s.current = idleproc
    · rw [if_neg (not_not.mpr hidle)]
      exact ⟨s, queue, rfl, h.toLinked, Still.refl s, hkept fun hnot => hnot.2 hidle⟩
    · rw [if_pos hidle]
      have hout : s.current ∉ queue := fun hin => ((h.mem _).mp hin).2.2 rfl
      obtain ⟨t, ht, hlinked, hstill, -⟩ := h.toLinked.enqueue hout
      refine ⟨t, _, ht, hlinked, hstill, ?_⟩
      intro p
      rw [List.mem_append, List.mem_singleton, h.mem]
      by_cases hp : p = s.current
      · rw [hp]
        exact iff_of_true (Or.inr rfl) ⟨hrun, hidle⟩
      · rw [or_iff_left hp]
        exact ⟨fun hq => ⟨hq.1, hq.2.1⟩, fun hq => ⟨hq.1, hq.2, hp⟩⟩
  · rw [if_neg hrun]
    exact ⟨s, queue, rfl, h.toLinked, Still.refl s, hkept fun hnot => hrun hnot.1⟩

theorem of_still (h : RunQueue s queue) {queue' : List ℕ} (hstill : Still s t)
    (hlinked : Linked t queue') (hcurrent : t.current < s.created)
    (hmem : ∀ p, p ∈ queue' ↔ (s.proc p).state = .runnable ∧ p ≠ idleproc ∧ p ≠ t.current) :
    RunQueue t queue' := by
  refine ⟨hlinked, ?_, (hstill.state _).trans h.idle, ?_, ?_, ?_, ?_⟩
  · intro p
    rw [hmem, hstill.state]
  · intro p hp
    rw [hstill.state, hstill.waitState]
    exact h.fresh p (hstill.created ▸ hp)
  · rw [hstill.created]
    exact hcurrent
  · rw [hstill.procList, hstill.created]
    exact h.listed
  · rw [hstill.timerList, hstill.created]
    exact h.timed

/-- The chosen process is taken from what `ready` left. -/
theorem choose (h : RunQueue s queue) {next : ℕ} {rest : List ℕ} (hstill : Still s t)
    (hlinked : Linked t rest) (hnext : (s.proc next).state = .runnable)
    (hmem : ∀ p, p ∈ rest ↔ (s.proc p).state = .runnable ∧ p ≠ idleproc ∧ p ≠ next) :
    RunQueue (t.runNext next) rest := by
  refine h.of_still (hstill.trans (runNext_still t next)) hlinked.runNext ?_ hmem
  by_contra hge
  have hfresh := (h.fresh next (Nat.not_lt.mp hge)).1
  rw [hnext] at hfresh
  exact absurd hfresh (by decide)

theorem schedule (h : RunQueue s queue) : ∃ t queue', s.schedule = some t ∧ RunQueue t queue' ∧
    Still s t ∧ (t.proc t.current).state = .runnable ∧ (t.current = idleproc → queue' = []) := by
  have hstart : Still s (s.setProc s.current fun q => { q with needResched := false }) :=
    Still.setProc (fun _ => rfl) (fun _ => rfl) (fun _ => rfl) (fun _ => rfl)
  have hwarned : RunQueue (s.setProc s.current fun q => { q with needResched := false }) queue := by
    refine h.of_still hstart (h.toLinked.congr rfl rfl ?_) h.current h.mem
    exact setProc_field s _ (fun _ => rfl)
  obtain ⟨t, queue', ht, hlinked, hready, hmem⟩ := hwarned.ready
  have hstill := hstart.trans hready
  simp only [hstart.state] at hmem
  unfold ProcTable.schedule
  dsimp only
  rw [ht, Option.bind_some, hlinked.pickNext]
  cases queue' with
  | nil =>
    refine ⟨t.runNext idleproc, [], rfl, h.choose hstill hlinked h.idle ?_,
      hstill.trans (runNext_still t idleproc), ?_, fun _ => rfl⟩
    · intro p
      rw [hmem]
      exact ⟨fun hp => ⟨hp.1, hp.2, hp.2⟩, fun hp => ⟨hp.1, hp.2.1⟩⟩
    · rw [(runNext_still t idleproc).state, hstill.state]
      exact h.idle
  | cons next rest =>
    obtain ⟨u, hu, hrest, htaken, -⟩ := hlinked.dequeue
    have hnodup := List.nodup_cons.mp hlinked.nodup
    have hnext := (hmem next).mp List.mem_cons_self
    have hstill' := hstill.trans htaken
    refine ⟨u.runNext next, rest, ?_, h.choose hstill' hrest hnext.1 ?_,
      hstill'.trans (runNext_still u next), ?_, fun hbad => absurd hbad hnext.2⟩
    · rw [List.head?_cons]
      simp only [hu]
      rfl
    · intro p
      have hin := hmem p
      by_cases hp : p = next
      · rw [hp]
        exact iff_of_false hnodup.1 (fun hbad => hbad.2.2 rfl)
      · rw [List.mem_cons, or_iff_right hp] at hin
        rw [hin]
        exact ⟨fun hq => ⟨hq.1, hq.2, hp⟩, fun hq => ⟨hq.1, hq.2.1⟩⟩
    · rw [(runNext_still u next).state, hstill'.state]
      exact hnext.1

end RunQueue

end Ucore.Process.Table
