import Ucore.Process.RunQueueRuns

/-!
Round robin in lab 8. A process joins the run queue at its end and leaves it only when `schedule`
takes it from the front, and whoever is chosen has a time slice of one tick at least and of
`MAX_TIME_SLICE` ticks at most. So a process that waits knows its turn, and when it comes.
-/
namespace Ucore.Process.Table

open Library Libs ProcTable
open Schedule (maxTimeSlice wtInterrupted wtTimer)
open Sync (wtKsem)

variable {s t u : ProcTable} {p q : ℕ} {queue : List ℕ}

theorem Linked.mem_iff (h : Linked s queue) : p ∈ queue ↔ s.runLink.next (some p) ≠ some p := by
  constructor
  · intro hp heq
    obtain ⟨front, back, rfl⟩ := List.append_of_mem hp
    have hring : s.runLink.Ring none (front.map some ++ some p :: back.map some) := by
      have hall := h.ring
      rw [List.map_append, List.map_cons] at hall
      exact hall
    have hback := (List.nodup_cons.mp (h.nodup.of_append_right)).1
    have hmem := Links.headD_mem_cons none (back.map some)
    rw [← hring.next_mem, heq] at hmem
    exact Linked.notMem_map hback hmem
  · intro hne
    by_contra hp
    exact hne (h.apart p hp)

/-- The processes that follow in the queue. -/
def walkQueue (next : Option ℕ → Option ℕ) : ℕ → Option ℕ → List ℕ
  | 0, _ => []
  | n + 1, x =>
    match next x with
    | none => []
    | some p => p :: walkQueue next n (some p)

/-- The processes in the run queue, the one that is chosen next at the front. -/
def ProcTable.waiting (s : ProcTable) : List ℕ := walkQueue s.runLink.next s.procNum none

theorem Linked.waiting (h : Linked s queue) : s.waiting = queue := by
  have hwalk : ∀ (x : Option ℕ), s.runLink.Path x (queue.map some) none →
      walkQueue s.runLink.next queue.length x = queue := by
    clear h
    induction queue with
    | nil => exact fun _ _ => rfl
    | cons p queue ih =>
      intro x hpath
      obtain ⟨⟨hnext, -⟩, hrest⟩ := hpath
      rw [List.length_cons, walkQueue, hnext]
      exact congrArg (List.cons p) (ih (some p) hrest)
  unfold ProcTable.waiting
  rw [h.count]
  exact hwalk none h.ring.2

/-- How many ticks the current process has until it is asked to give the processor up. -/
def ProcTable.left (s : ProcTable) : ℕ :=
  if (s.proc s.current).needResched then 0
  else if s.current = idleproc then 1
  else (s.proc s.current).timeSlice

/-- The run queue with the time slices. -/
structure Sliced (s : ProcTable) (queue : List ℕ) : Prop extends Linked s queue where
  out : s.current ∉ queue
  slice : ∀ p ∈ queue, 0 < (s.proc p).timeSlice ∧ (s.proc p).timeSlice ≤ maxTimeSlice
  own : s.current ≠ idleproc → (s.proc s.current).timeSlice ≤ maxTimeSlice ∧
    ((s.proc s.current).needResched = false → 0 < (s.proc s.current).timeSlice)

/-- What happens between two choices of `schedule`: others may join the queue, and the time of the
current process does not grow. -/
structure Later (s : ProcTable) (queue : List ℕ) (t : ProcTable) : Prop where
  current : t.current = s.current
  left : t.left ≤ s.left
  sliced : ∃ more, Sliced t (queue ++ more)

theorem Sliced.refl (h : Sliced s queue) : Later s queue s :=
  ⟨rfl, le_rfl, [], by rwa [List.append_nil]⟩

theorem Later.trans (h : Later s queue t)
    (h' : ∀ more, Sliced t (queue ++ more) → Later t (queue ++ more) u) : Later s queue u := by
  obtain ⟨more, hmore⟩ := h.sliced
  have hlater := h' more hmore
  obtain ⟨more', hmore'⟩ := hlater.sliced
  refine ⟨hlater.current.trans h.current, hlater.left.trans h.left, more ++ more', ?_⟩
  rw [← List.append_assoc]
  exact hmore'

/-- A step that leaves the queue, the time slices and the current process alone. -/
structure Untimed (s t : ProcTable) : Prop where
  runLink : t.runLink = s.runLink
  procNum : t.procNum = s.procNum
  current : t.current = s.current
  rq : ∀ p, (t.proc p).rq = (s.proc p).rq
  timeSlice : ∀ p, (t.proc p).timeSlice = (s.proc p).timeSlice
  needResched : (t.proc s.current).needResched = (s.proc s.current).needResched

theorem Untimed.sliced (ht : Untimed s t) (h : Sliced s queue) : Sliced t queue := by
  refine ⟨h.toLinked.congr ht.runLink ht.procNum ht.rq, ht.current.symm ▸ h.out, ?_, ?_⟩
  · intro p hp
    rw [ht.timeSlice]
    exact h.slice p hp
  · rw [ht.current, ht.timeSlice, ht.needResched]
    exact h.own

theorem Sliced.untimed (h : Sliced s queue) (ht : Untimed s t) : Later s queue t := by
  have hleft : t.left = s.left := by
    unfold ProcTable.left
    rw [ht.current, ht.timeSlice, ht.needResched]
  refine ⟨ht.current, hleft.le, [], ?_⟩
  rw [List.append_nil]
  exact ht.sliced h

theorem Untimed.setProc {f : ProcStruct → ProcStruct} (hrq : ∀ x, (f x).rq = x.rq)
    (hslice : ∀ x, (f x).timeSlice = x.timeSlice)
    (hresched : ∀ x, (f x).needResched = x.needResched) : Untimed s (s.setProc p f) :=
  ⟨rfl, rfl, rfl, setProc_field s p hrq, setProc_field s p hslice,
    setProc_field s p hresched s.current⟩

/-- Only other fields than those of the scheduler change. -/
theorem Untimed.of_eq (hlink : t.runLink = s.runLink) (hnum : t.procNum = s.procNum)
    (hcurrent : t.current = s.current) (hproc : t.proc = s.proc) : Untimed s t := by
  refine ⟨hlink, hnum, hcurrent, ?_, ?_, ?_⟩
  all_goals rw [hproc]
  all_goals exact fun _ => rfl

theorem refill_slice (x : ProcStruct) :
    0 < (refill x).timeSlice ∧ (refill x).timeSlice ≤ maxTimeSlice := by
  unfold refill maxTimeSlice
  dsimp only
  split
  · exact ⟨by decide, le_rfl⟩
  · rename_i hnot
    rw [not_or] at hnot
    exact ⟨Nat.pos_of_ne_zero hnot.1, Nat.not_lt.mp hnot.2⟩

/-- Another process goes to the end of the queue. -/
theorem Sliced.enqueue (h : Sliced s queue) (hp : p ≠ s.current) (he : s.rrEnqueue p = some t) :
    Later s queue t := by
  have hout : p ∉ queue := by
    rw [h.mem_iff, not_not]
    exact of_decide_eq_true (Option.ite_none_right_eq_some.mp he).1
  obtain ⟨t', ht', hlinked, -, hcurrent⟩ := h.toLinked.enqueue hout
  obtain rfl := Option.some.inj (ht'.symm.trans he)
  obtain ⟨-, ht⟩ := Option.ite_none_right_eq_some.mp he
  have hproc : t'.proc = Function.update s.proc p (refill (s.proc p)) := by
    rw [← Option.some.inj ht]
    rfl
  have hsame : ∀ q, q ≠ p → t'.proc q = s.proc q := by
    intro q hq
    rw [hproc, Function.update_of_ne hq]
  have hown : t'.proc t'.current = s.proc s.current := by
    rw [hcurrent]
    exact hsame _ hp.symm
  refine ⟨hcurrent, ?_, [p], hlinked, ?_, ?_, ?_⟩
  · unfold ProcTable.left
    rw [hown, hcurrent]
  · rw [hcurrent, List.mem_append, List.mem_singleton, not_or]
    exact ⟨h.out, hp.symm⟩
  · intro q hq
    by_cases hqp : q = p
    · rw [hqp, hproc, Function.update_self]
      exact refill_slice _
    · rw [hsame q hqp]
      rw [List.mem_append, List.mem_singleton] at hq
      exact h.slice q (hq.resolve_right hqp)
  · rw [hown, hcurrent]
    exact h.own

theorem Sliced.wakeup (h : Sliced s queue) (hw : s.wakeupProc p = some t) : Later s queue t := by
  have hawake : Later s queue (s.setProc p awake) :=
    h.untimed (Untimed.setProc (fun _ => rfl) (fun _ => rfl) fun _ => rfl)
  unfold wakeupProc at hw
  split at hw
  · exact absurd hw (Option.some_ne_none t).symm
  split at hw
  · dsimp only at hw
    split at hw
    · rename_i hcurrent
      refine hawake.trans fun more hmore => ?_
      unfold schedClassEnqueue at hw
      split at hw
      · exact hmore.enqueue hcurrent hw
      · exact Option.some.inj hw ▸ hmore.refl
    · exact Option.some.inj hw ▸ hawake
  · exact Option.some.inj hw ▸ h.refl

theorem Sliced.wakeup_if (h : Sliced s queue) {c : Prop} [Decidable c]
    (hw : (if c then s.wakeupProc p else some s) = some t) : Later s queue t := by
  split at hw
  · exact h.wakeup hw
  · exact Option.some.inj hw ▸ h.refl

/-- A new process is linked to itself. -/
theorem Sliced.made (h : Sliced s queue) (hout : s.created ∉ queue)
    (hcurrent : s.current ≠ s.created) : Later s queue (s.allocProc.setLinks s.created) := by
  have hold : ∀ p, p ≠ s.created → (s.allocProc.setLinks s.created).proc p = s.proc p :=
    fun p hp => Function.update_of_ne hp _ _
  have hown : (s.allocProc.setLinks s.created).proc s.current = s.proc s.current := hold _ hcurrent
  refine ⟨rfl, ?_, [], ?_⟩
  · unfold ProcTable.left
    change (if ((s.allocProc.setLinks s.created).proc s.current).needResched then 0 else
      if s.current = idleproc then 1 else
        ((s.allocProc.setLinks s.created).proc s.current).timeSlice) ≤ _
    rw [hown]
  · rw [List.append_nil]
    refine ⟨⟨h.ring.isolate_frame (Linked.notMem_map hout), ?_, h.count, ?_⟩, h.out, ?_, ?_⟩
    · intro p hp
      change Function.update s.runLink.next (some s.created) (some s.created) (some p) = some p
      by_cases hnew : p = s.created
      · rw [hnew, Function.update_self]
      · rw [Function.update_of_ne (fun heq => hnew (Option.some.inj heq))]
        exact h.apart p hp
    · intro p hp
      rw [hold p (fun heq => hout (heq ▸ hp))]
      exact h.rq p hp
    · intro p hp
      rw [hold p (fun heq => hout (heq ▸ hp))]
      exact h.slice p hp
    · intro hne
      have howned := h.own hne
      rw [← hown] at howned
      exact howned

theorem Sliced.fork (h : Sliced s queue) (hout : s.created ∉ queue)
    (hcurrent : s.current ≠ s.created) {alloc ok : Bool} (hfork : s.doFork alloc ok = some t) :
    Later s queue t := by
  unfold doFork at hfork
  split at hfork
  · exact Option.some.inj hfork ▸ h.refl
  · have huntimed : Untimed s (s.setProc s.current fun p => { p with waitState := 0 }) :=
      Untimed.setProc (fun _ => rfl) (fun _ => rfl) fun _ => rfl
    have hmade : Later _ queue _ := (huntimed.sliced h).made hout hcurrent
    have hstart := h.untimed huntimed
    dsimp only at hfork
    split at hfork
    · have hforked : Later _ queue t := hmade.trans fun more hmore => hmore.wakeup hfork
      exact ⟨hforked.current, hforked.left.trans hstart.left, hforked.sliced⟩
    · exact Option.some.inj hfork ▸ hstart

theorem Sliced.adoptLoop {turns : ℕ} (h : Sliced s queue) (hloop : adoptLoop turns s = some t) :
    Later s queue t := by
  induction turns generalizing s queue with
  | zero => exact Option.some.inj hloop ▸ h.refl
  | succ turns ih =>
    rw [ProcTable.adoptLoop] at hloop
    split at hloop
    · exact Option.some.inj hloop ▸ h.refl
    · rename_i c hc
      obtain ⟨u, hu, hrest⟩ := Option.bind_eq_some_iff.mp hloop
      have hadopted : Later s queue (s.adopt c) := h.untimed (Untimed.of_eq rfl rfl rfl rfl)
      refine hadopted.trans fun more hmore => (hmore.wakeup_if hu).trans fun more' hmore' => ?_
      exact ih hmore' hrest

theorem Sliced.exit (h : Sliced s queue) {code : ℤ} (hexit : s.doExit code = some t) :
    Later s queue t := by
  unfold doExit at hexit
  split at hexit
  · exact absurd hexit (Option.some_ne_none t).symm
  · obtain ⟨u, hu, hloop⟩ := Option.bind_eq_some_iff.mp hexit
    have hzombie : Later s queue (s.setProc s.current fun p =>
        { p with state := .zombie, exitCode := code }) :=
      h.untimed (Untimed.setProc (fun _ => rfl) (fun _ => rfl) fun _ => rfl)
    refine hzombie.trans fun more hmore => (hmore.wakeup_if hu).trans fun more' hmore' => ?_
    exact hmore'.adoptLoop hloop

theorem Sliced.wait (h : Sliced s queue) {pid : Option ℕ} {found : Option (ℕ × ℤ)}
    (hwait : s.doWait pid = some (found, t)) : Later s queue t := by
  unfold doWait at hwait
  split at hwait
  · split at hwait
    · exact absurd hwait (Option.some_ne_none _).symm
    · obtain ⟨-, rfl⟩ := Prod.mk.inj (Option.some.inj hwait)
      exact h.untimed (Untimed.of_eq rfl rfl rfl rfl)
  · obtain ⟨-, rfl⟩ := Prod.mk.inj (Option.some.inj hwait)
    exact h.untimed (Untimed.setProc (fun _ => rfl) (fun _ => rfl) fun _ => rfl)
  · obtain ⟨-, rfl⟩ := Prod.mk.inj (Option.some.inj hwait)
    exact h.refl

theorem Sliced.kill (h : Sliced s queue) (hkill : s.doKill p = some t) : Later s queue t := by
  unfold doKill at hkill
  split at hkill
  · have hflag : Later s queue (s.setProc p fun q => { q with exiting := true }) :=
      h.untimed (Untimed.setProc (fun _ => rfl) (fun _ => rfl) fun _ => rfl)
    dsimp only at hkill
    split at hkill
    · exact hflag.trans fun more hmore => hmore.wakeup hkill
    · exact Option.some.inj hkill ▸ hflag
  · exact Option.some.inj hkill ▸ h.refl

theorem Sliced.sleep (h : Sliced s queue) {time : ℕ} (hsleep : s.doSleep time = some t) :
    Later s queue t := by
  unfold doSleep at hsleep
  split at hsleep
  · exact Option.some.inj hsleep ▸ h.refl
  · have hset : Later s queue
        { s with expires := Function.update s.expires s.current time } :=
      h.untimed (Untimed.of_eq rfl rfl rfl rfl)
    refine hset.trans fun more hmore => ?_
    have hasleep := hmore.untimed (Untimed.setProc (p := s.current) (f := fun p =>
      { p with state := .sleeping, waitState := wtTimer })
      (fun _ => rfl) (fun _ => rfl) fun _ => rfl)
    refine hasleep.trans fun more' hmore' => ?_
    obtain ⟨timers, -, rfl⟩ := Option.map_eq_some_iff.mp hsleep
    exact hmore'.untimed (Untimed.of_eq rfl rfl rfl rfl)

theorem Sliced.setSem (h : Sliced s queue) (m : ℕ) (f : Sync.Semaphore ℕ → Sync.Semaphore ℕ) :
    Later s queue (s.setSem m f) := h.untimed (Untimed.of_eq rfl rfl rfl rfl)

theorem Sliced.down (h : Sliced s queue) (m : ℕ) : Later s queue (s.down m) := by
  unfold ProcTable.down
  split
  · exact h.setSem m _
  · have hasleep := h.untimed (Untimed.setProc (p := s.current) (f := fun p =>
      { p with state := .sleeping, waitState := wtKsem, wakeupFlags := wtInterrupted })
      (fun _ => rfl) (fun _ => rfl) fun _ => rfl)
    exact hasleep.trans fun more hmore => hmore.setSem m _

theorem Sliced.up (h : Sliced s queue) {m : ℕ} (hup : s.up m = some t) : Later s queue t := by
  unfold ProcTable.up at hup
  split at hup
  · exact Option.some.inj hup ▸ h.setSem m _
  · split at hup
    · rename_i p rest hqueue hwait
      refine (h.setSem m fun x => { x with queue := rest }).trans fun more hmore => ?_
      have hflags := hmore.untimed (Untimed.setProc (p := p) (f := fun q =>
        { q with wakeupFlags := wtKsem }) (fun _ => rfl) (fun _ => rfl) fun _ => rfl)
      exact hflags.trans fun more' hmore' => hmore'.wakeup hup
    · exact absurd hup (Option.some_ne_none t).symm

theorem Sliced.delTimer (h : Sliced s queue) (p : ℕ) : Later s queue (s.delTimer p) :=
  h.untimed (Untimed.of_eq rfl rfl rfl rfl)

theorem Sliced.expireLoop {xs : List ℕ} (h : Sliced s queue)
    (hloop : s.expireLoop xs = some t) : Later s queue t := by
  induction xs generalizing s queue with
  | nil => exact Option.some.inj hloop ▸ h.refl
  | cons p rest ih =>
    rw [ProcTable.expireLoop] at hloop
    split at hloop
    · obtain ⟨u, hu, hrest⟩ := Option.bind_eq_some_iff.mp hloop
      unfold wakeTimer at hu
      split at hu
      · exact absurd hu (Option.some_ne_none u).symm
      · refine (h.wakeup hu).trans fun more hmore => ?_
        exact (hmore.delTimer p).trans fun more' hmore' => ih hmore' hrest
    · exact Option.some.inj hloop ▸ h.refl

theorem Sliced.expireTimers (h : Sliced s queue) (he : s.expireTimers = some t) :
    Later s queue t := by
  unfold ProcTable.expireTimers at he
  split at he
  · exact Option.some.inj he ▸ h.refl
  · split at he
    · exact absurd he (Option.some_ne_none t).symm
    · refine Later.trans (h.untimed (Untimed.of_eq ?_ ?_ ?_ ?_))
        fun more hmore => hmore.expireLoop he
      all_goals rfl

/-- A tick takes one from the time that is left. -/
theorem Sliced.procTick (h : Sliced s queue) :
    Sliced (s.schedClassProcTick s.current) queue ∧
      (s.schedClassProcTick s.current).left ≤ s.left - 1 := by
  have hkeep : ∀ f : ProcStruct → ProcStruct, (∀ x, (f x).rq = x.rq) →
      Linked (s.setProc s.current f) queue ∧ ∀ p ∈ queue,
        0 < ((s.setProc s.current f).proc p).timeSlice ∧
          ((s.setProc s.current f).proc p).timeSlice ≤ maxTimeSlice := by
    intro f hf
    refine ⟨h.toLinked.congr rfl rfl (setProc_field s _ hf), ?_⟩
    intro p hp
    have hne : p ≠ s.current := fun heq => h.out (heq.symm ▸ hp)
    rw [setProc_of_ne s hne]
    exact h.slice p hp
  unfold schedClassProcTick
  by_cases hidle : s.current = idleproc
  · rw [if_neg (not_not.mpr hidle)]
    obtain ⟨hlinked, hslice⟩ := hkeep (fun q => { q with needResched := true }) fun _ => rfl
    refine ⟨⟨hlinked, h.out, hslice, fun hne => absurd hidle hne⟩, ?_⟩
    unfold ProcTable.left
    rw [if_pos ?_]
    · exact Nat.zero_le _
    · change ((s.setProc s.current _).proc s.current).needResched = true
      rw [setProc_self]
  · rw [if_pos hidle]
    obtain ⟨hmax, hpos⟩ := h.own hidle
    have hself := setProc_self s s.current fun q => { q with
      timeSlice := q.timeSlice - 1
      needResched := if q.timeSlice - 1 = 0 then true else q.needResched }
    obtain ⟨hlinked, hslice⟩ := hkeep (fun q => { q with
      timeSlice := q.timeSlice - 1
      needResched := if q.timeSlice - 1 = 0 then true else q.needResched }) fun _ => rfl
    refine ⟨⟨hlinked, h.out, hslice, ?_⟩, ?_⟩
    · intro _
      unfold rrProcTick
      change ((s.setProc s.current _).proc s.current).timeSlice ≤ _ ∧
        (((s.setProc s.current _).proc s.current).needResched = false →
          0 < ((s.setProc s.current _).proc s.current).timeSlice)
      rw [hself]
      refine ⟨(Nat.sub_le _ 1).trans hmax, ?_⟩
      intro hnot
      by_contra hzero
      rw [if_pos (Nat.eq_zero_of_not_pos hzero)] at hnot
      exact Bool.false_ne_true hnot.symm
    · unfold ProcTable.left rrProcTick
      change (if ((s.setProc s.current _).proc s.current).needResched then 0 else
        if s.current = idleproc then 1 else ((s.setProc s.current _).proc s.current).timeSlice) ≤ _
      rw [hself, if_neg hidle, if_neg hidle]
      by_cases hzero : (s.proc s.current).timeSlice - 1 = 0
      · rw [if_pos hzero, if_pos rfl]
        exact Nat.zero_le _
      · rw [if_neg hzero]
        cases (s.proc s.current).needResched with
        | true => exact Nat.zero_le _
        | false => exact le_rfl

theorem Sliced.left_pos (h : Sliced s queue) (hasked : (s.proc s.current).needResched = false) :
    0 < s.left := by
  unfold ProcTable.left
  rw [hasked, if_neg Bool.false_ne_true]
  split
  · exact Nat.one_pos
  · exact (h.own ‹_›).2 hasked

theorem Sliced.left_le (h : Sliced s queue) : s.left ≤ maxTimeSlice := by
  unfold ProcTable.left
  split
  · exact Nat.zero_le _
  split
  · decide
  · exact (h.own ‹_›).1

theorem Sliced.tick (h : Sliced s queue) (htick : s.runTimerList = some t) :
    t.left ≤ s.left - 1 ∧ ∃ more, Sliced t (queue ++ more) := by
  unfold runTimerList at htick
  obtain ⟨u, hu, rfl⟩ := Option.map_eq_some_iff.mp htick
  have hexpired := h.expireTimers hu
  obtain ⟨more, hmore⟩ := hexpired.sliced
  obtain ⟨hsliced, hleft⟩ := hmore.procTick
  exact ⟨hleft.trans (Nat.sub_le_sub_right hexpired.left 1), more, hsliced⟩

/-! What `schedule` does to the queue. -/

/-- The queue from which `schedule` takes, and what it makes of it. -/
structure Chosen (t : ProcTable) (queue : List ℕ) : Prop where
  none : queue = [] → t.current = idleproc ∧ Sliced t []
  some : ∀ p rest, queue = p :: rest → t.current = p ∧ Sliced t rest

theorem Sliced.runNext (h : Linked s queue) (hout : p ∉ queue)
    (hslice : ∀ q ∈ queue, 0 < (s.proc q).timeSlice ∧ (s.proc q).timeSlice ≤ maxTimeSlice)
    (hp : p ≠ idleproc → 0 < (s.proc p).timeSlice ∧ (s.proc p).timeSlice ≤ maxTimeSlice) :
    Sliced (s.runNext p) queue := by
  have hsame : ∀ q, ((s.setProc p fun x => { x with runs := x.runs + 1 }).proc q).timeSlice =
      (s.proc q).timeSlice := setProc_field s p (fun _ => rfl)
  refine ⟨h.runNext, hout, ?_, ?_⟩
  · intro q hq
    rw [show ((s.runNext p).proc q).timeSlice = (s.proc q).timeSlice from hsame q]
    exact hslice q hq
  · intro hne
    have hown : ((s.runNext p).proc p).timeSlice = (s.proc p).timeSlice := hsame p
    change ((s.runNext p).proc p).timeSlice ≤ _ ∧ (_ → 0 < ((s.runNext p).proc p).timeSlice)
    rw [hown]
    exact ⟨(hp hne).2, fun _ => (hp hne).1⟩

/-- The queue that `schedule` chooses from, with the current process at its end if that goes on. -/
theorem Sliced.ready (h : Linked s queue) (hout : s.current ∉ queue)
    (hslice : ∀ q ∈ queue, 0 < (s.proc q).timeSlice ∧ (s.proc q).timeSlice ≤ maxTimeSlice)
    (ht : (if (s.proc s.current).state = .runnable then s.schedClassEnqueue s.current
      else some s) = some t) :
    ∃ more, Linked t (queue ++ more) ∧
      ∀ q ∈ queue ++ more, 0 < (t.proc q).timeSlice ∧ (t.proc q).timeSlice ≤ maxTimeSlice := by
  have hkept : s = t → ∃ more, Linked t (queue ++ more) ∧
      ∀ q ∈ queue ++ more, 0 < (t.proc q).timeSlice ∧ (t.proc q).timeSlice ≤ maxTimeSlice := by
    intro heq
    refine ⟨[], ?_⟩
    rw [List.append_nil, ← heq]
    exact ⟨h, hslice⟩
  split at ht
  · unfold schedClassEnqueue at ht
    split at ht
    · obtain ⟨t', ht', hlinked, -⟩ := h.enqueue hout
      obtain rfl := Option.some.inj (ht'.symm.trans ht)
      obtain ⟨-, heq⟩ := Option.ite_none_right_eq_some.mp ht
      have hproc : t'.proc = Function.update s.proc s.current (refill (s.proc s.current)) := by
        rw [← Option.some.inj heq]
        rfl
      refine ⟨[s.current], hlinked, ?_⟩
      intro q hq
      rw [hproc]
      by_cases hqc : q = s.current
      · rw [hqc, Function.update_self]
        exact refill_slice _
      · rw [Function.update_of_ne hqc]
        rw [List.mem_append, List.mem_singleton] at hq
        exact hslice q (hq.resolve_right hqc)
    · exact hkept (Option.some.inj ht)
  · exact hkept (Option.some.inj ht)

theorem Sliced.schedule (h : Sliced s queue) (hs : s.schedule = some t) :
    ∃ more, Chosen t (queue ++ more) := by
  have hslice : ∀ q ∈ queue,
      0 < ((s.setProc s.current fun q => { q with needResched := false }).proc q).timeSlice ∧
      ((s.setProc s.current fun q => { q with needResched := false }).proc q).timeSlice ≤
        maxTimeSlice := by
    intro q hq
    have hne : q ≠ s.current := fun heq => h.out (heq.symm ▸ hq)
    rw [setProc_of_ne s hne]
    exact h.slice q hq
  have hlinked : Linked (s.setProc s.current fun q => { q with needResched := false }) queue :=
    h.toLinked.congr rfl rfl (setProc_field s _ fun _ => rfl)
  obtain ⟨u, hu, hchoose⟩ := Option.bind_eq_some_iff.mp hs
  obtain ⟨more, hready, hbounds⟩ := Sliced.ready hlinked h.out hslice hu
  refine ⟨more, ?_⟩
  rw [hready.pickNext] at hchoose
  generalize queue ++ more = waiting at hready hbounds hchoose ⊢
  cases waiting with
  | nil =>
    obtain rfl := Option.some.inj hchoose
    refine ⟨fun _ => ⟨rfl, ?_⟩, nofun⟩
    exact Sliced.runNext hready List.not_mem_nil nofun fun hne => absurd rfl hne
  | cons p rest =>
    obtain ⟨v, hv, hrest, -⟩ := hready.dequeue
    have hv' : (u.rrDequeue p).map (fun s => s.runNext p) = some t := hchoose
    rw [hv] at hv'
    obtain rfl := Option.some.inj hv'
    have hproc : v.proc = u.proc := by
      obtain ⟨-, heq⟩ := Option.ite_none_right_eq_some.mp hv
      rw [← Option.some.inj heq]
    refine ⟨nofun, ?_⟩
    rintro p' rest' ⟨⟩
    refine ⟨rfl, Sliced.runNext hrest (List.nodup_cons.mp hready.nodup).1 ?_ ?_⟩
    · rw [hproc]
      exact fun q hq => hbounds q (List.mem_cons_of_mem p hq)
    · rw [hproc]
      exact fun _ => hbounds p List.mem_cons_self

/-! Runs. -/

deriving instance DecidableEq for ProcOp

theorem Sliced.congr (h : Sliced s queue) {queue' : List ℕ} (h' : Linked s queue') :
    Sliced s queue' := by
  have hsame : ∀ p, p ∈ queue' ↔ p ∈ queue := fun p => h'.mem_iff.trans h.mem_iff.symm
  exact ⟨h', mt (hsame _).mp h.out, fun p hp => h.slice p ((hsame p).mp hp), h.own⟩

/-- The processes that are made are not queued. -/
theorem RunQueue.created_out (h : RunQueue s queue) {queue' : List ℕ} (h' : Linked s queue') :
    s.created ∉ queue' := by
  intro hin
  have hrun := (h.mem _).mp (h.mem_iff.mpr (h'.mem_iff.mp hin))
  have hfresh := (h.fresh s.created le_rfl).1
  rw [hrun.1] at hfresh
  exact Schedule.ProcState.noConfusion hfresh

theorem Sliced.yield (h : Sliced s queue) :
    Later s queue (s.setProc s.current fun p => { p with needResched := true }) := by
  have hslice : ∀ q,
      ((s.setProc s.current fun p => { p with needResched := true }).proc q).timeSlice =
      (s.proc q).timeSlice := setProc_field s s.current fun _ => rfl
  have hasked := setProc_self s s.current fun p => { p with needResched := true }
  refine ⟨rfl, ?_, [], ?_⟩
  · unfold ProcTable.left
    rw [if_pos]
    · exact Nat.zero_le _
    · exact congrArg ProcStruct.needResched hasked
  · rw [List.append_nil]
    refine ⟨h.toLinked.congr rfl rfl (setProc_field s _ fun _ => rfl), h.out, ?_, ?_⟩
    · intro p hp
      rw [hslice]
      exact h.slice p hp
    · intro hne
      refine ⟨(hslice s.current).le.trans (h.own hne).1, ?_⟩
      intro hnot
      exact Bool.noConfusion (hnot.symm.trans (congrArg ProcStruct.needResched hasked))

theorem Sliced.call (h : Sliced s queue) (hout : s.created ∉ queue)
    (hcurrent : s.current ≠ s.created) {op : ProcOp} (hcall : s.call op = some t) :
    Later s queue t := by
  cases op with
  | fork alloc ok => exact h.fork hout hcurrent (Option.ite_none_right_eq_some.mp hcall).2
  | exit code => exact h.exit hcall
  | wait pid =>
    obtain ⟨-, hwait⟩ := Option.ite_none_right_eq_some.mp hcall
    obtain ⟨r, hr, rfl⟩ := Option.map_eq_some_iff.mp hwait
    exact h.wait hr
  | kill p => exact h.kill hcall
  | sleep time => exact h.sleep (Option.ite_none_right_eq_some.mp hcall).2
  | sleepEnd => exact Option.some.inj hcall ▸ h.delTimer s.current
  | down m =>
    obtain ⟨-, hdown⟩ := Option.ite_none_right_eq_some.mp hcall
    exact Option.some.inj hdown ▸ h.down m
  | downEnd m =>
    obtain ⟨-, hdown⟩ := Option.ite_none_right_eq_some.mp hcall
    exact Option.some.inj hdown ▸ h.setSem m _
  | up m => exact h.up hcall
  | wakeup p => exact h.wakeup (Option.ite_none_right_eq_some.mp hcall).2
  | yield =>
    exact Option.some.inj hcall ▸ h.yield
  | tick => exact absurd hcall (Option.some_ne_none t).symm
  | schedule => exact absurd hcall (Option.some_ne_none t).symm

/-- No other step than `schedule` takes a process from the queue, and only ticks count time. -/
theorem Sliced.step (h : Sliced s queue) (hqueue : ∃ queue, RunQueue s queue) {op : ProcOp}
    (hop : op ≠ .schedule) (hstep : s.step op = some t) :
    t.left ≤ s.left - (if op = .tick then 1 else 0) ∧ ∃ more, Sliced t (queue ++ more) := by
  obtain ⟨queue', hqueue'⟩ := hqueue
  have hout := hqueue'.created_out h.toLinked
  have hcurrent := hqueue'.current.ne
  cases op with
  | tick => exact h.tick hstep
  | schedule => exact absurd rfl hop
  | fork | exit | wait | kill | sleep | sleepEnd | down | downEnd | up | wakeup | yield =>
    have hlater := h.call hout hcurrent (Option.ite_none_right_eq_some.mp hstep).2
    exact ⟨hlater.left, hlater.sliced⟩

/-- The one who waits behind `pre` has its turn when `schedule` has chosen as many others. -/
theorem turn_run {ops : List ProcOp} {pre post : List ℕ} (h : Sliced s (pre ++ p :: post))
    (hqueue : ∃ queue, RunQueue s queue) (hrun : runOps ProcTable.step s ops = some t)
    (hcount : pre.length < ops.count .schedule) :
    ∃ before after u, ops = before ++ .schedule :: after ∧ before.count .schedule = pre.length ∧
      runOps ProcTable.step s (before ++ [.schedule]) = some u ∧ u.current = p := by
  induction ops generalizing s pre post with
  | nil => exact absurd hcount (Nat.not_lt_zero _)
  | cons op ops ih =>
    obtain ⟨s', hstep, hrest⟩ := runOps_cons hrun
    have hqueue' : ∃ queue, RunQueue s' queue := hqueue.elim fun _ hq => hq.step hstep
    have hahead : ∀ before after u, ops = before ++ .schedule :: after →
        runOps ProcTable.step s' (before ++ [.schedule]) = some u →
        op :: ops = (op :: before) ++ .schedule :: after ∧
          runOps ProcTable.step s ((op :: before) ++ [.schedule]) = some u := by
      intro before after u hops hu
      refine ⟨congrArg (List.cons op) hops, ?_⟩
      rw [List.cons_append, runOps, hstep]
      exact hu
    by_cases hop : op = .schedule
    · obtain rfl := hop
      obtain ⟨more, hchosen⟩ := h.schedule hstep
      cases pre with
      | nil =>
        obtain ⟨hcurrent, -⟩ := hchosen.some p (post ++ more) rfl
        refine ⟨[], ops, s', rfl, rfl, ?_, hcurrent⟩
        rw [List.nil_append, runOps, hstep]
        rfl
      | cons x pre =>
        obtain ⟨-, hsliced⟩ := hchosen.some x (pre ++ p :: (post ++ more)) (by simp)
        rw [List.count_cons_self, List.length_cons] at hcount
        obtain ⟨before, after, u, hops, hbefore, hu, hcurrent⟩ :=
          ih hsliced hqueue' hrest (Nat.lt_of_succ_lt_succ hcount)
        obtain ⟨hops', hu'⟩ := hahead before after u hops hu
        refine ⟨.schedule :: before, after, u, hops', ?_, hu', hcurrent⟩
        rw [List.count_cons_self, hbefore, List.length_cons]
    · obtain ⟨-, more, hsliced⟩ := h.step hqueue hop hstep
      rw [List.append_assoc, List.cons_append] at hsliced
      rw [List.count_cons_of_ne hop] at hcount
      obtain ⟨before, after, u, hops, hbefore, hu, hcurrent⟩ := ih hsliced hqueue' hrest hcount
      obtain ⟨hops', hu'⟩ := hahead before after u hops hu
      refine ⟨op :: before, after, u, hops', ?_, hu', hcurrent⟩
      rw [List.count_cons_of_ne hop, hbefore]

/-- No tick comes while the process is asked to give the processor up. -/
def Answered (s : ProcTable) (op : ProcOp) : Prop :=
  op = .tick → (s.proc s.current).needResched = false

theorem Chosen.sliced (h : Chosen t queue) : ∃ queue', Sliced t queue' := by
  cases queue with
  | nil => exact ⟨[], (h.none rfl).2⟩
  | cons p rest => exact ⟨rest, (h.some p rest rfl).2⟩

/-- Between two choices there are as many ticks as a time slice has at most. -/
theorem ticks_run {ops : List ProcOp} (h : ∃ queue, Sliced s queue)
    (hqueue : ∃ queue, RunQueue s queue) (hrun : runOps ProcTable.step s ops = some t)
    (hanswered : RunMeets ProcTable.step Answered s ops) :
    ops.count .tick ≤ s.left + maxTimeSlice * ops.count .schedule := by
  induction ops generalizing s with
  | nil => exact Nat.zero_le _
  | cons op ops ih =>
    obtain ⟨s', hstep, hrest⟩ := runOps_cons hrun
    have hqueue' : ∃ queue, RunQueue s' queue := hqueue.elim fun _ hq => hq.step hstep
    obtain ⟨queue, hsliced⟩ := h
    by_cases hop : op = .schedule
    · obtain rfl := hop
      obtain ⟨more, hchosen⟩ := hsliced.schedule hstep
      obtain ⟨queue', hsliced'⟩ := hchosen.sliced
      have hticks := ih ⟨queue', hsliced'⟩ hqueue' hrest (hanswered.2 s' hstep)
      have hleft := hsliced'.left_le
      rw [List.count_cons_of_ne (by decide), List.count_cons_self, Nat.mul_succ]
      omega
    · obtain ⟨hleft, more, hsliced'⟩ := hsliced.step hqueue hop hstep
      have hticks := ih ⟨_, hsliced'⟩ hqueue' hrest (hanswered.2 s' hstep)
      rw [List.count_cons_of_ne hop]
      by_cases htick : op = .tick
      · rw [if_pos htick] at hleft
        have hpos := hsliced.left_pos (hanswered.1 htick)
        rw [htick, List.count_cons_self]
        omega
      · rw [if_neg htick] at hleft
        rw [List.count_cons_of_ne htick]
        omega

theorem sliced_boot (values : ℕ → ℤ) : Sliced (boot values) [] :=
  ⟨(RunQueue.boot values).toLinked, List.not_mem_nil, nofun, fun hne => absurd rfl hne⟩

theorem sliced_run {ops : List ProcOp} {values : ℕ → ℤ}
    (hrun : runOps ProcTable.step (boot values) ops = some s) :
    (∃ queue, RunQueue s queue) ∧ ∃ queue, Sliced s queue := by
  have hstep : ∀ s op s', ((∃ queue, RunQueue s queue) ∧ ∃ queue, Sliced s queue) →
      ProcTable.step s op = some s' → (∃ queue, RunQueue s' queue) ∧ ∃ queue, Sliced s' queue := by
    rintro s op s' ⟨hqueue, queue, hsliced⟩ hop
    refine ⟨hqueue.elim fun _ hq => hq.step hop, ?_⟩
    by_cases hchoose : op = .schedule
    · rw [hchoose] at hop
      obtain ⟨more, hchosen⟩ := hsliced.schedule hop
      exact hchosen.sliced
    · obtain ⟨-, more, hsliced'⟩ := hsliced.step hqueue hchoose hop
      exact ⟨_, hsliced'⟩
  exact runOps_invariant hstep ⟨⟨[], RunQueue.boot values⟩, [], sliced_boot values⟩ hrun

/-- Whoever waits behind `pre` is the next one to be chosen when all of them have been, and that
takes no more ticks than their time slices and the current one. -/
theorem round_robin_turn (values : ℕ → ℤ) (ops : List ProcOp) (s : ProcTable)
    (h : runOps ProcTable.step (boot values) ops = some s) (pre post : List ℕ) (p : ℕ)
    (hwaiting : s.waiting = pre ++ p :: post) (later : List ProcOp) (t : ProcTable)
    (hlater : runOps ProcTable.step s later = some t)
    (hlong : pre.length < later.count .schedule ∨ RunMeets ProcTable.step Answered s later ∧
      maxTimeSlice * (pre.length + 1) < later.count .tick) :
    ∃ before after u, later = before ++ .schedule :: after ∧
      before.count .schedule = pre.length ∧
      runOps ProcTable.step s (before ++ [.schedule]) = some u ∧ u.current = p ∧
      (RunMeets ProcTable.step Answered s later →
        before.count .tick ≤ maxTimeSlice * (pre.length + 1)) := by
  obtain ⟨hqueue, queue, hsliced⟩ := sliced_run h
  have hpre : Sliced s (pre ++ p :: post) := by
    rw [← hwaiting, hsliced.toLinked.waiting]
    exact hsliced
  have hleft := hpre.left_le
  have hcount : pre.length < later.count .schedule := by
    rcases hlong with hcount | ⟨hanswered, hticks⟩
    · exact hcount
    · by_contra hnot
      have hall := ticks_run ⟨_, hpre⟩ hqueue hlater hanswered
      have hfew := Nat.mul_le_mul_left maxTimeSlice (Nat.not_lt.mp hnot)
      rw [Nat.mul_succ] at hticks
      omega
  obtain ⟨before, after, u, rfl, hbefore, hu, hcurrent⟩ := turn_run hpre hqueue hlater hcount
  refine ⟨before, after, u, rfl, hbefore, hu, hcurrent, ?_⟩
  intro hanswered
  rw [runOps_append] at hu
  obtain ⟨v, hv, -⟩ := Option.bind_eq_some_iff.mp hu
  have hall := ticks_run ⟨_, hpre⟩ hqueue hv hanswered.front
  rw [hbefore] at hall
  rw [Nat.mul_succ]
  omega

/-- Three processes share the processor, and the last one of the queue waits for its turn. -/
def threeShare : List ProcOp :=
  [.fork true true, .schedule, .fork true true, .fork true true]

theorem round_robin_turn_three : ∃ s t u before after,
    runOps ProcTable.step (boot fun _ => 1) threeShare = some s ∧ s.waiting = [2, 3] ∧
    runOps ProcTable.step s [.tick, .schedule, .yield, .schedule] = some t ∧
    [.tick, .schedule, .yield, .schedule] = before ++ ProcOp.schedule :: after ∧
    runOps ProcTable.step s (before ++ [.schedule]) = some u ∧ u.current = 3 := by
  have hwaiting : ((runOps ProcTable.step (boot fun _ => 1) threeShare).map
      ProcTable.waiting) = some [2, 3] := by decide
  obtain ⟨s, hs, hqueue⟩ := Option.map_eq_some_iff.mp hwaiting
  have hlater : ((runOps ProcTable.step (boot fun _ => 1) threeShare).bind fun s =>
      (runOps ProcTable.step s [.tick, .schedule, .yield, .schedule]).map
        ProcTable.current) = some 3 := by decide
  obtain ⟨s', hs', ht⟩ := Option.bind_eq_some_iff.mp hlater
  obtain rfl := Option.some.inj (hs.symm.trans hs')
  obtain ⟨t, ht, -⟩ := Option.map_eq_some_iff.mp ht
  obtain ⟨before, after, u, hlist, -, hu, hcurrent, -⟩ := round_robin_turn (fun _ => 1) threeShare s
    hs [2] [] 3 hqueue _ t ht (Or.inl (by decide))
  exact ⟨s, t, u, before, after, hs, hqueue, ht, hlist, hu, hcurrent⟩

end Ucore.Process.Table
