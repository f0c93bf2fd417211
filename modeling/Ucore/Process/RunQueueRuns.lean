import Ucore.Process.RunQueue

/-!
The runs of lab 8 seen from the run queue. Each call changes the state of the current process or
wakes others, and what it leaves behind is what `schedule` needs.
-/
namespace Ucore.Process.Table

open Library Libs ProcTable
open Schedule (addLoop wtInterrupted wtTimer)
open Sync (wtKsem)

variable {s t : ProcTable} {p q : ℕ} {queue : List ℕ}

theorem Quiet.of_current {f : ProcStruct → ProcStruct} (hrq : ∀ x, (f x).rq = x.rq)
    (hidle : s.current = idleproc → (f (s.proc idleproc)).state = (s.proc idleproc).state) :
    Quiet s (s.setProc s.current f) := by
  refine ⟨rfl, rfl, rfl, rfl, setProc_field s _ hrq, ?_, ?_, ?_, fun _ hp => hp,
    fun _ hp => Or.inl hp⟩
  · by_cases heq : idleproc = s.current
    · rw [← heq, setProc_self]
      exact hidle heq.symm
    · rw [setProc_of_ne s heq]
  · intro p hp
    rw [setProc_of_ne s hp]
  · intro p hp
    rw [setProc_of_ne s hp]

theorem Quiet.of_field {f : ProcStruct → ProcStruct} (hrq : ∀ x, (f x).rq = x.rq)
    (hstate : ∀ x, (f x).state = x.state) (hwait : ∀ x, (f x).waitState = x.waitState) :
    Quiet s (s.setProc p f) :=
  ⟨rfl, rfl, rfl, rfl, setProc_field s p hrq, setProc_field s p hstate idleproc,
    fun q _ => setProc_field s p hstate q, fun q _ => setProc_field s p hwait q,
    fun _ hq => hq, fun _ hq => Or.inl hq⟩

theorem addLoop_mem {expires : ℕ → ℕ} {xs : List ℕ} (hq : q ∈ (addLoop expires p xs).2) :
    q ∈ xs ∨ q = p := by
  induction xs generalizing expires with
  | nil =>
    right
    exact List.mem_singleton.mp hq
  | cons next rest ih =>
    rw [addLoop] at hq
    split at hq
    · rcases List.mem_cons.mp hq with heq | hin
      · right
        exact heq
      · left
        exact hin
    · rcases List.mem_cons.mp hq with heq | hin
      · left
        exact List.mem_cons.mpr (Or.inl heq)
      · exact (ih hin).imp_left (List.mem_cons_of_mem next)

theorem delTimer_mem (hq : q ∈ (s.delTimer p).timerList) : q ∈ s.timerList := by
  have hlist : (s.delTimer p).timerList = if p ∈ s.timerList then s.timerList.erase p
      else s.timerList := by
    change (s.timers.delTimer p).timerList = _
    unfold Schedule.Timers.delTimer
    change (if p ∈ s.timerList then _ else _ : Schedule.Timers ℕ ℕ).timerList = _
    split
    · rfl
    · rfl
  rw [hlist] at hq
  split at hq
  · exact List.mem_of_mem_erase hq
  · exact hq

theorem quiet_delTimer (s : ProcTable) (p : ℕ) : Quiet s (s.delTimer p) :=
  ⟨rfl, rfl, rfl, rfl, fun _ => rfl, rfl, fun _ _ => rfl, fun _ _ => rfl, fun _ hq => hq,
    fun _ hq => Or.inl (delTimer_mem hq)⟩

theorem quiet_addTimer (h : s.addTimer s.current = some t) : Quiet s t := by
  unfold addTimer at h
  obtain ⟨timers, htimers, rfl⟩ := Option.map_eq_some_iff.mp h
  refine ⟨rfl, rfl, rfl, rfl, fun _ => rfl, rfl, fun _ _ => rfl, fun _ _ => rfl,
    fun _ hq => hq, ?_⟩
  intro q hq
  unfold Schedule.Timers.addTimer at htimers
  split at htimers
  · exact absurd htimers (Option.some_ne_none _).symm
  · split at htimers
    · exact absurd htimers (Option.some_ne_none _).symm
    · obtain rfl := Option.some.inj htimers
      exact addLoop_mem hq

theorem quiet_expires (s : ProcTable) (p e : ℕ) :
    Quiet s { s with expires := Function.update s.expires p e } :=
  ⟨rfl, rfl, rfl, rfl, fun _ => rfl, rfl, fun _ _ => rfl, fun _ _ => rfl, fun _ hq => hq,
    fun _ hq => Or.inl hq⟩

theorem quiet_setSem (s : ProcTable) (m : ℕ) (f : Sync.Semaphore ℕ → Sync.Semaphore ℕ) :
    Quiet s (s.setSem m f) :=
  ⟨rfl, rfl, rfl, rfl, fun _ => rfl, rfl, fun _ _ => rfl, fun _ _ => rfl, fun _ hq => hq,
    fun _ hq => Or.inl hq⟩

theorem quiet_removeLinks (s : ProcTable) (p : ℕ) : Quiet s (s.removeLinks p) :=
  ⟨rfl, rfl, rfl, rfl, fun _ => rfl, rfl, fun _ _ => rfl, fun _ _ => rfl,
    fun _ hq => List.mem_of_mem_erase hq, fun _ hq => Or.inl hq⟩

theorem quiet_adopt (s : ProcTable) (p : ℕ) : Quiet s (s.adopt p) :=
  ⟨rfl, rfl, rfl, rfl, fun _ => rfl, rfl, fun _ _ => rfl, fun _ _ => rfl, fun _ hq => hq,
    fun _ hq => Or.inl hq⟩

namespace RunQueue

/-- A new process is not runnable yet. -/
theorem made (h : RunQueue s queue) : RunQueue (s.allocProc.setLinks s.created) queue := by
  have hout : s.created ∉ queue := by
    intro hin
    have hfresh := (h.fresh s.created le_rfl).1
    rw [((h.mem _).mp hin).1] at hfresh
    exact absurd hfresh (by decide)
  have hself : (s.allocProc.setLinks s.created).proc s.created = freshProc :=
    Function.update_self ..
  have hold : ∀ p, p ≠ s.created → (s.allocProc.setLinks s.created).proc p = s.proc p :=
    fun p hp => Function.update_of_ne hp _ _
  have hcurrent := h.current
  have hidle : idleproc ≠ s.created := by
    unfold idleproc
    omega
  refine ⟨⟨h.ring.isolate_frame (Linked.notMem_map hout), ?_, h.count, ?_⟩, ?_, ?_, ?_, ?_, ?_, ?_⟩
  · intro p hp
    change Function.update s.runLink.next (some s.created) (some s.created) (some p) = some p
    by_cases hnew : p = s.created
    · rw [hnew, Function.update_self]
    · rw [Function.update_of_ne (fun heq => hnew (Option.some.inj heq))]
      exact h.apart p hp
  · intro p hp
    rw [hold p (fun heq => hout (heq ▸ hp))]
    exact h.rq p hp
  · intro p
    by_cases hnew : p = s.created
    · rw [hnew, hself]
      exact iff_of_false hout (fun hbad => absurd hbad.1 (by decide))
    · rw [hold p hnew]
      exact h.mem p
  · rw [hold _ hidle]
    exact h.idle
  · intro p hp
    have hlt : s.created + 1 ≤ p := hp
    rw [hold p (by omega)]
    exact h.fresh p (by omega)
  · exact Nat.lt_succ_of_lt hcurrent
  · intro p hp
    rcases List.mem_cons.mp hp with heq | hin
    · rw [heq]
      exact Nat.lt_succ_self s.created
    · exact Nat.lt_succ_of_lt (h.listed p hin)
  · exact fun p hp => Nat.lt_succ_of_lt (h.timed p hp)

theorem fork (h : RunQueue s queue) {alloc ok : Bool} (hfork : s.doFork alloc ok = some t) :
    ∃ queue', RunQueue t queue' := by
  unfold doFork at hfork
  split at hfork
  · exact ⟨queue, Option.some.inj hfork ▸ h⟩
  · have hstart : RunQueue (s.setProc s.current fun p => { p with waitState := 0 }) queue :=
      h.quiet (Quiet.of_current (fun _ => rfl) fun _ => rfl)
    dsimp only at hfork
    split at hfork
    · exact hstart.made.wakeup (Nat.lt_succ_self s.created) hfork
    · exact ⟨queue, Option.some.inj hfork ▸ hstart⟩

theorem wakeup_if (h : RunQueue s queue) {c : Prop} [Decidable c]
    (hp : c → (s.proc p).waitState ≠ 0)
    (hw : (if c then s.wakeupProc p else some s) = some t) : ∃ queue', RunQueue t queue' := by
  split at hw
  · exact h.wakeup (h.lt_of_waitState (hp ‹c›)) hw
  · exact ⟨queue, Option.some.inj hw ▸ h⟩

theorem adoptLoop {turns : ℕ} (h : RunQueue s queue) (hloop : adoptLoop turns s = some t) :
    ∃ queue', RunQueue t queue' := by
  induction turns generalizing s queue with
  | zero => exact ⟨queue, Option.some.inj hloop ▸ h⟩
  | succ turns ih =>
    rw [ProcTable.adoptLoop] at hloop
    split at hloop
    · exact ⟨queue, Option.some.inj hloop ▸ h⟩
    · rename_i c hc
      obtain ⟨u, hu, hrest⟩ := Option.bind_eq_some_iff.mp hloop
      have hadopted := h.quiet (quiet_adopt s c)
      obtain ⟨queue', hqueue⟩ := hadopted.wakeup_if (fun hw => by rw [hw.2]; decide) hu
      exact ih hqueue hrest

theorem exit (h : RunQueue s queue) {code : ℤ} (hexit : s.doExit code = some t) :
    ∃ queue', RunQueue t queue' := by
  unfold doExit at hexit
  split at hexit
  · exact absurd hexit (Option.some_ne_none t).symm
  · rename_i hnot
    obtain ⟨u, hu, hloop⟩ := Option.bind_eq_some_iff.mp hexit
    have hzombie : RunQueue (s.setProc s.current fun p =>
        { p with state := .zombie, exitCode := code }) queue :=
      h.quiet (Quiet.of_current (fun _ => rfl) fun heq => absurd (Or.inl heq) hnot)
    obtain ⟨queue', hqueue⟩ := hzombie.wakeup_if (fun hw => by rw [hw]; decide) hu
    exact hqueue.adoptLoop hloop

theorem wait (h : RunQueue s queue) (hcurrent : s.current ≠ idleproc) {pid : Option ℕ}
    {found : Option (ℕ × ℤ)} (hwait : s.doWait pid = some (found, t)) : RunQueue t queue := by
  unfold doWait at hwait
  split at hwait
  · split at hwait
    · exact absurd hwait (Option.some_ne_none _).symm
    · obtain ⟨-, rfl⟩ := Prod.mk.inj (Option.some.inj hwait)
      exact h.quiet (quiet_removeLinks s _)
  · obtain ⟨-, rfl⟩ := Prod.mk.inj (Option.some.inj hwait)
    exact h.quiet (Quiet.of_current (fun _ => rfl) fun heq => absurd heq hcurrent)
  · obtain ⟨-, rfl⟩ := Prod.mk.inj (Option.some.inj hwait)
    exact h

theorem kill (h : RunQueue s queue) (hkill : s.doKill p = some t) :
    ∃ queue', RunQueue t queue' := by
  unfold doKill at hkill
  split at hkill
  · rename_i hp
    have hflag : RunQueue (s.setProc p fun q => { q with exiting := true }) queue :=
      h.quiet (Quiet.of_field (fun _ => rfl) (fun _ => rfl) fun _ => rfl)
    dsimp only at hkill
    split at hkill
    · exact hflag.wakeup (h.listed p hp.1) hkill
    · exact ⟨queue, Option.some.inj hkill ▸ hflag⟩
  · exact ⟨queue, Option.some.inj hkill ▸ h⟩

theorem sleep (h : RunQueue s queue) (hcurrent : s.current ≠ idleproc) {time : ℕ}
    (hsleep : s.doSleep time = some t) : RunQueue t queue := by
  unfold doSleep at hsleep
  split at hsleep
  · exact Option.some.inj hsleep ▸ h
  · have hset := h.quiet (quiet_expires s s.current time)
    have hasleep := hset.quiet (Quiet.of_current (f := fun p =>
      { p with state := .sleeping, waitState := wtTimer }) (fun _ => rfl)
      fun heq => absurd heq hcurrent)
    exact hasleep.quiet (quiet_addTimer hsleep)

theorem down (h : RunQueue s queue) (hcurrent : s.current ≠ idleproc) (m : ℕ) :
    RunQueue (s.down m) queue := by
  unfold ProcTable.down
  split
  · exact h.quiet (quiet_setSem s m _)
  · refine RunQueue.quiet ?_ (quiet_setSem _ m _)
    exact h.quiet (Quiet.of_current (fun _ => rfl) fun heq => absurd heq hcurrent)

theorem downEnd (h : RunQueue s queue) {m : ℕ} (hdown : s.downEnd m = some t) :
    RunQueue t queue := by
  unfold ProcTable.downEnd at hdown
  split at hdown
  · exact Option.some.inj hdown ▸ h.quiet (quiet_setSem s m _)
  · exact absurd hdown (Option.some_ne_none t).symm

theorem up (h : RunQueue s queue) {m : ℕ} (hup : s.up m = some t) :
    ∃ queue', RunQueue t queue' := by
  unfold ProcTable.up at hup
  split at hup
  · exact ⟨queue, Option.some.inj hup ▸ h.quiet (quiet_setSem s m _)⟩
  · split at hup
    · rename_i p rest hqueue hwait
      have htaken := h.quiet (quiet_setSem s m fun x => { x with queue := rest })
      have hset := htaken.quiet (Quiet.of_field (p := p) (f := fun q =>
        { q with wakeupFlags := wtKsem }) (fun _ => rfl) (fun _ => rfl) fun _ => rfl)
      exact hset.wakeup (h.lt_of_waitState (by rw [hwait]; decide)) hup
    · exact absurd hup (Option.some_ne_none t).symm

theorem expireLoop {xs : List ℕ} (h : RunQueue s queue) (hxs : ∀ p ∈ xs, p < s.created)
    (hloop : s.expireLoop xs = some t) : ∃ queue', RunQueue t queue' := by
  induction xs generalizing s queue with
  | nil => exact ⟨queue, Option.some.inj hloop ▸ h⟩
  | cons p rest ih =>
    rw [ProcTable.expireLoop] at hloop
    split at hloop
    · obtain ⟨u, hu, hrest⟩ := Option.bind_eq_some_iff.mp hloop
      unfold wakeTimer at hu
      split at hu
      · exact absurd hu (Option.some_ne_none u).symm
      · obtain ⟨queue', hqueue⟩ := h.wakeup (hxs p List.mem_cons_self) hu
        refine ih (hqueue.quiet (quiet_delTimer u p)) ?_ hrest
        intro q hq
        change q < u.created
        rw [(wakeupProc_woken hu).created]
        exact hxs q (List.mem_cons_of_mem p hq)
    · exact ⟨queue, Option.some.inj hloop ▸ h⟩

theorem tick (h : RunQueue s queue) (htick : s.runTimerList = some t) :
    ∃ queue', RunQueue t queue' := by
  unfold runTimerList at htick
  obtain ⟨u, hu, rfl⟩ := Option.map_eq_some_iff.mp htick
  have hexpired : ∃ queue', RunQueue u queue' := by
    unfold expireTimers at hu
    split at hu
    · exact ⟨queue, Option.some.inj hu ▸ h⟩
    · rename_i p rest hlist
      split at hu
      · exact absurd hu (Option.some_ne_none u).symm
      · exact (h.quiet (quiet_expires s p _)).expireLoop (hlist ▸ h.timed) hu
  obtain ⟨queue', hqueue⟩ := hexpired
  refine ⟨queue', ?_⟩
  unfold schedClassProcTick
  split
  · exact hqueue.quiet (Quiet.of_field (fun _ => rfl) (fun _ => rfl) fun _ => rfl)
  · exact hqueue.quiet (Quiet.of_field (fun _ => rfl) (fun _ => rfl) fun _ => rfl)

theorem call (h : RunQueue s queue) {op : ProcOp} (hcall : s.call op = some t) :
    ∃ queue', RunQueue t queue' := by
  cases op with
  | fork alloc ok =>
    obtain ⟨-, hfork⟩ := Option.ite_none_right_eq_some.mp hcall
    exact h.fork hfork
  | exit code => exact h.exit hcall
  | wait pid =>
    obtain ⟨hcurrent, hwait⟩ := Option.ite_none_right_eq_some.mp hcall
    obtain ⟨r, hr, rfl⟩ := Option.map_eq_some_iff.mp hwait
    exact ⟨queue, h.wait hcurrent hr⟩
  | kill p => exact h.kill hcall
  | sleep time =>
    obtain ⟨hcurrent, hsleep⟩ := Option.ite_none_right_eq_some.mp hcall
    exact ⟨queue, h.sleep hcurrent hsleep⟩
  | sleepEnd =>
    obtain rfl := Option.some.inj hcall
    exact ⟨queue, h.quiet (quiet_delTimer s s.current)⟩
  | down m =>
    obtain ⟨hcurrent, hdown⟩ := Option.ite_none_right_eq_some.mp hcall
    obtain rfl := Option.some.inj hdown
    exact ⟨queue, h.down hcurrent m⟩
  | downEnd m => exact ⟨queue, h.downEnd hcall⟩
  | up m => exact h.up hcall
  | wakeup p =>
    obtain ⟨hp, hw⟩ := Option.ite_none_right_eq_some.mp hcall
    exact h.wakeup (h.listed p hp) hw
  | yield =>
    obtain rfl := Option.some.inj hcall
    exact ⟨queue, h.quiet (Quiet.of_field (fun _ => rfl) (fun _ => rfl) fun _ => rfl)⟩
  | tick => exact absurd hcall (Option.some_ne_none t).symm
  | schedule => exact absurd hcall (Option.some_ne_none t).symm

theorem step (h : RunQueue s queue) {op : ProcOp} (hstep : s.step op = some t) :
    ∃ queue', RunQueue t queue' := by
  cases op with
  | tick => exact h.tick hstep
  | schedule =>
    obtain ⟨t', queue', ht', hqueue, -⟩ := h.schedule
    obtain rfl := Option.some.inj (hstep.symm.trans ht')
    exact ⟨queue', hqueue⟩
  | fork | exit | wait | kill | sleep | sleepEnd | down | downEnd | up | wakeup | yield =>
    exact h.call (Option.ite_none_right_eq_some.mp hstep).2

theorem run {ops : List ProcOp} (h : RunQueue s queue)
    (hrun : runOps ProcTable.step s ops = some t) : ∃ queue', RunQueue t queue' := by
  have hstep : ∀ s op s', (∃ queue, RunQueue s queue) → ProcTable.step s op = some s' →
      ∃ queue, RunQueue s' queue := by
    intro s op s' hs hop
    obtain ⟨queue, hqueue⟩ := hs
    exact hqueue.step hop
  exact runOps_invariant hstep ⟨queue, h⟩ hrun

theorem boot (values : ℕ → ℤ) : RunQueue (boot values) [] := by
  have hother : ∀ p, p ≠ idleproc → (ProcTable.boot values).proc p = freshProc :=
    fun p hp => Function.update_of_ne hp _ fun _ => freshProc
  refine ⟨⟨⟨List.nodup_singleton none, rfl, rfl⟩, fun _ _ => rfl, rfl, ?_⟩, ?_, rfl, ?_, ?_, ?_, ?_⟩
  · exact fun p hp => absurd hp List.not_mem_nil
  · intro p
    refine iff_of_false List.not_mem_nil ?_
    intro hbad
    rw [hother p hbad.2.1] at hbad
    exact absurd hbad.1 (by decide)
  · intro p hp
    rw [hother p (Nat.one_le_iff_ne_zero.mp hp)]
    exact ⟨rfl, rfl⟩
  · exact Nat.one_pos
  · exact fun p hp => absurd hp List.not_mem_nil
  · exact fun p hp => absurd hp List.not_mem_nil

end RunQueue

/-- The queue behind `schedule`: it links the runnable processes other than `idleproc` and the
current one, each of them once, and no others. -/
structure Scheduled (t : ProcTable) (queue : List ℕ) : Prop where
  linked : t.runLink.Ring none (queue.map some)
  once : queue.Nodup
  apart : ∀ p, p ∉ queue → t.runLink.next (some p) = some p
  mem : ∀ p, p ∈ queue ↔ (t.proc p).state = .runnable ∧ p ≠ idleproc ∧ p ≠ t.current
  count : t.procNum = queue.length
  blocked : ∀ p, (t.proc p).state = .sleeping ∨ (t.proc p).state = .zombie →
    p ∉ queue ∧ p ≠ t.current
  idle : t.current = idleproc → queue = []

theorem RunQueue.scheduled (h : RunQueue t queue) (hrun : (t.proc t.current).state = .runnable)
    (hidle : t.current = idleproc → queue = []) : Scheduled t queue := by
  refine ⟨h.ring, h.toLinked.nodup, h.apart, h.mem, h.count, ?_, hidle⟩
  intro p hp
  have hnot : (t.proc p).state ≠ .runnable := by
    intro heq
    rw [heq] at hp
    exact absurd hp (by decide)
  exact ⟨fun hin => hnot ((h.mem p).mp hin).1, fun heq => hnot (heq ▸ hrun)⟩

/-- Neither `schedule` nor `wakeup_proc` finds a process linked that it enqueues. -/
theorem schedule_chooses (values : ℕ → ℤ) (ops : List ProcOp) (s : ProcTable)
    (h : runOps step (boot values) ops = some s) :
    (∃ t queue, s.schedule = some t ∧ Scheduled t queue) ∧
      ∀ p, (s.proc p).state ≠ .zombie → ∃ t, s.wakeupProc p = some t := by
  obtain ⟨queue, hqueue⟩ := (RunQueue.boot values).run h
  obtain ⟨t, queue', ht, hqueue', -, hrun, hidle⟩ := hqueue.schedule
  exact ⟨⟨t, queue', ht, hqueue'.scheduled hrun hidle⟩, fun p hp => hqueue.wakeup_total hp⟩

/-- A process exits while its parent waits for it and its own child is queued. -/
def lateParent : List ProcOp :=
  [.fork true true, .schedule, .fork true true, .wait none, .schedule, .fork true true, .exit 7]

theorem schedule_chooses_child : ∃ s t queue, runOps step (boot fun _ => 1) lateParent = some s ∧
    s.schedule = some t ∧ Scheduled t queue ∧ t.current = 3 := by
  have hrun : ((runOps step (boot fun _ => 1) lateParent).bind fun s =>
      s.schedule.map fun t => t.current) = some 3 := by decide
  obtain ⟨s, hs, ht⟩ := Option.bind_eq_some_iff.mp hrun
  obtain ⟨t, ht, hcurrent⟩ := Option.map_eq_some_iff.mp ht
  obtain ⟨t', queue, ht', hqueue⟩ := (schedule_chooses (fun _ => 1) lateParent s hs).1
  obtain rfl := Option.some.inj (ht.symm.trans ht')
  exact ⟨s, t, queue, hs, ht, hqueue, hcurrent⟩

end Ucore.Process.Table
