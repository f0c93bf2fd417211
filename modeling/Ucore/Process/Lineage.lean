import Mathlib.Data.List.Perm.Subperm
import Ucore.Process.ProcTree
import Ucore.Process.RunQueueRuns

/-!
Families of lab 8: what `do_fork`, `do_exit` and `do_wait` do to the children of the processes, and
what a process knows that waits for them. Everything else leaves the families as they are.
-/
namespace Ucore.Process.Table

open Library ProcTable
open Schedule (wtInterrupted wtTimer)
open Sync (wtKsem)

variable {s t u : ProcTable} {p q c : ℕ} {queue : List ℕ} {children : ℕ → List ℕ}
  {before : ℕ → Option ℕ}

/-- Nobody is created, exits or is reaped, and nobody begins to wait for a child. -/
structure Mild (s t : ProcTable) : Prop where
  rel : t.rel = s.rel
  procList : t.procList = s.procList
  nrProcess : t.nrProcess = s.nrProcess
  created : t.created = s.created
  zombie : ∀ p, (t.proc p).state = .zombie ↔ (s.proc p).state = .zombie
  exitCode : ∀ p, (t.proc p).exitCode = (s.proc p).exitCode
  waiting : ∀ p, (t.proc p).waitState = wtChild → (s.proc p).waitState = wtChild ∧
    (t.proc p).waitPid = (s.proc p).waitPid ∧ (t.proc p).state = (s.proc p).state

namespace Mild

theorem refl (s : ProcTable) : Mild s s :=
  ⟨rfl, rfl, rfl, rfl, fun _ => Iff.rfl, fun _ => rfl, fun _ hp => ⟨hp, rfl, rfl⟩⟩

theorem trans (h : Mild s t) (h' : Mild t u) : Mild s u := by
  refine ⟨h'.rel.trans h.rel, h'.procList.trans h.procList, h'.nrProcess.trans h.nrProcess,
    h'.created.trans h.created, fun p => (h'.zombie p).trans (h.zombie p),
    fun p => (h'.exitCode p).trans (h.exitCode p), ?_⟩
  intro p hp
  obtain ⟨hwait, hpid, hstate⟩ := h'.waiting p hp
  obtain ⟨hwait', hpid', hstate'⟩ := h.waiting p hwait
  exact ⟨hwait', hpid.trans hpid', hstate.trans hstate'⟩

theorem of_still (h : Still s t) : Mild s t := by
  refine ⟨h.rel, h.procList, h.nrProcess, h.created, ?_, h.exitCode, ?_⟩
  · intro p
    rw [h.state]
  · intro p hp
    exact ⟨(h.waitState p).symm.trans hp, h.waitPid p, h.state p⟩

theorem of_woken (h : Woken p s t) : Mild s t := by
  refine ⟨h.rel, h.procList, h.nrProcess, h.created, ?_, h.exitCode, ?_⟩
  · intro q
    by_cases hq : q = p
    · rw [hq, h.runnable]
      exact iff_of_false (by decide) h.alive
    · rw [h.state q hq]
  · intro q hq
    by_cases heq : q = p
    · rw [heq] at hq ⊢
      rcases h.kept with hzero | ⟨hrun, hkept⟩
      · rw [hzero] at hq
        exact absurd hq (by decide)
      · exact ⟨hkept.symm.trans hq, h.waitPid p, h.runnable.trans hrun.symm⟩
    · exact ⟨(h.waitState q heq).symm.trans hq, h.waitPid q, h.state q heq⟩

theorem wakeup_if {d : Prop} [Decidable d]
    (hw : (if d then s.wakeupProc p else some s) = some t) : Mild s t := by
  split at hw
  · exact of_woken (wakeupProc_woken hw)
  · exact Option.some.inj hw ▸ refl s

/-- A process that is no zombie goes on, or falls asleep for something other than a child. -/
theorem of_alive {f : ProcStruct → ProcStruct} (halive : (s.proc p).state ≠ .zombie)
    (hstate : (f (s.proc p)).state ≠ .zombie) (hwait : (f (s.proc p)).waitState ≠ wtChild)
    (hcode : ∀ x, (f x).exitCode = x.exitCode) : Mild s (s.setProc p f) := by
  refine ⟨rfl, rfl, rfl, rfl, ?_, setProc_field s p hcode, ?_⟩
  · intro q
    by_cases hq : q = p
    · rw [hq, setProc_self]
      exact iff_of_false hstate halive
    · rw [setProc_of_ne s hq]
  · intro q hq
    by_cases heq : q = p
    · rw [heq, setProc_self] at hq
      exact absurd hq hwait
    · rw [setProc_of_ne s heq] at hq ⊢
      exact ⟨hq, rfl, rfl⟩

theorem of_field {f : ProcStruct → ProcStruct} (hstate : ∀ x, (f x).state = x.state)
    (hwait : ∀ x, (f x).waitState = x.waitState) (hcode : ∀ x, (f x).exitCode = x.exitCode)
    (hpid : ∀ x, (f x).waitPid = x.waitPid) : Mild s (s.setProc p f) :=
  of_still (Still.setProc hstate hwait hcode hpid)

/-- What does not touch the processes. -/
theorem of_eq (hproc : t.proc = s.proc) (hrel : t.rel = s.rel) (hlist : t.procList = s.procList)
    (hnr : t.nrProcess = s.nrProcess) (hcreated : t.created = s.created) : Mild s t := by
  refine ⟨hrel, hlist, hnr, hcreated, ?_, ?_, ?_⟩
  · intro p
    rw [hproc]
  · intro p
    rw [hproc]
  · intro p hp
    rw [hproc] at hp ⊢
    exact ⟨hp, rfl, rfl⟩

theorem kill (h : s.doKill p = some t) : Mild s t := by
  unfold doKill at h
  split at h
  · have hflag : Mild s (s.setProc p fun q => { q with exiting := true }) :=
      of_field (fun _ => rfl) (fun _ => rfl) (fun _ => rfl) fun _ => rfl
    exact hflag.trans (wakeup_if h)
  · exact Option.some.inj h ▸ refl s

theorem of_expires (s : ProcTable) (p e : ℕ) :
    Mild s { s with expires := Function.update s.expires p e } := of_eq rfl rfl rfl rfl rfl

theorem of_setSem (s : ProcTable) (m : ℕ) (f : Sync.Semaphore ℕ → Sync.Semaphore ℕ) :
    Mild s (s.setSem m f) := of_eq rfl rfl rfl rfl rfl

theorem sleep (hrun : (s.proc s.current).state = .runnable) {time : ℕ}
    (h : s.doSleep time = some t) : Mild s t := by
  have halive : (s.proc s.current).state ≠ .zombie := fun hbad => by
    rw [hrun] at hbad
    exact absurd hbad (by decide)
  have htimer : wtTimer ≠ wtChild := by decide
  unfold doSleep at h
  split at h
  · exact Option.some.inj h ▸ refl s
  · obtain ⟨timers, -, rfl⟩ := Option.map_eq_some_iff.mp h
    refine (of_expires s s.current time).trans (Mild.trans (of_alive (p := s.current) halive
      (f := fun p => { p with state := .sleeping, waitState := wtTimer }) ?_ htimer fun _ => rfl)
      (of_eq rfl rfl rfl rfl rfl))
    exact Schedule.ProcState.noConfusion

theorem down (hrun : (s.proc s.current).state = .runnable) (m : ℕ) : Mild s (s.down m) := by
  have halive : (s.proc s.current).state ≠ .zombie := fun hbad => by
    rw [hrun] at hbad
    exact absurd hbad (by decide)
  have hksem : wtKsem ≠ wtChild := by decide
  unfold ProcTable.down
  split
  · exact of_setSem s m _
  · refine Mild.trans (of_alive halive (f := fun p => { p with
      state := .sleeping, waitState := wtKsem, wakeupFlags := wtInterrupted }) ?_ hksem
      fun _ => rfl) (of_setSem _ m _)
    exact Schedule.ProcState.noConfusion

theorem downEnd {m : ℕ} (h : s.downEnd m = some t) : Mild s t := by
  unfold ProcTable.downEnd at h
  split at h
  · exact Option.some.inj h ▸ of_eq rfl rfl rfl rfl rfl
  · exact absurd h (Option.some_ne_none t).symm

theorem up {m : ℕ} (h : s.up m = some t) : Mild s t := by
  unfold ProcTable.up at h
  split at h
  · exact Option.some.inj h ▸ of_eq rfl rfl rfl rfl rfl
  · split at h
    · rename_i p rest _ _
      have htaken := of_setSem s m fun x => { x with queue := rest }
      have hset := htaken.trans (of_field (p := p) (f := fun q =>
        { q with wakeupFlags := wtKsem }) (fun _ => rfl) (fun _ => rfl) (fun _ => rfl) fun _ => rfl)
      exact hset.trans (of_woken (wakeupProc_woken h))
    · exact absurd h (Option.some_ne_none t).symm

theorem expireLoop {xs : List ℕ} (h : s.expireLoop xs = some t) : Mild s t := by
  induction xs generalizing s with
  | nil => exact Option.some.inj h ▸ refl s
  | cons p rest ih =>
    rw [ProcTable.expireLoop] at h
    split at h
    · obtain ⟨u, hu, hrest⟩ := Option.bind_eq_some_iff.mp h
      unfold wakeTimer at hu
      split at hu
      · exact absurd hu (Option.some_ne_none u).symm
      · have hdel : Mild u (u.delTimer p) := of_eq rfl rfl rfl rfl rfl
        exact (of_woken (wakeupProc_woken hu)).trans (hdel.trans (ih hrest))
    · exact Option.some.inj h ▸ refl s

theorem tick (h : s.runTimerList = some t) : Mild s t := by
  unfold runTimerList at h
  obtain ⟨u, hu, rfl⟩ := Option.map_eq_some_iff.mp h
  have hexpired : Mild s u := by
    unfold expireTimers at hu
    split at hu
    · exact Option.some.inj hu ▸ refl s
    · split at hu
      · exact absurd hu (Option.some_ne_none u).symm
      · exact (of_expires s _ _).trans (expireLoop hu)
  refine hexpired.trans ?_
  unfold schedClassProcTick
  split
  · exact of_field (fun _ => rfl) (fun _ => rfl) (fun _ => rfl) fun _ => rfl
  · exact of_field (fun _ => rfl) (fun _ => rfl) (fun _ => rfl) fun _ => rfl

end Mild

/-- Who is whose child. -/
structure Lineage (s : ProcTable) (children : ℕ → List ℕ) (before : ℕ → Option ℕ) : Prop where
  kin : Kin s.rel (fun p => p ∈ s.procList) children before
  distinct : s.procList.Nodup
  count : s.nrProcess = s.procList.length + 1
  idle : idleproc ∉ s.procList
  parent : ∀ c ∈ s.procList, (s.rel c).parent < s.created ∧ (s.rel c).parent ≠ c
  init : 1 < s.created → initproc ∈ s.procList ∧ (s.rel initproc).parent = idleproc
  alive : (s.proc initproc).state ≠ .zombie
  gone : ∀ p < s.created, p ∈ s.procList ∨ p = idleproc ∨ (s.proc p).state = .zombie
  waiting : ∀ p, (s.proc p).waitState = wtChild → (s.proc p).state = .sleeping

namespace Lineage

theorem mild (h : Lineage s children before) (hm : Mild s t) : Lineage t children before := by
  refine ⟨?_, ?_, ?_, ?_, ?_, ?_, ?_, ?_, ?_⟩
  · rw [hm.rel, hm.procList]
    exact h.kin
  · rw [hm.procList]
    exact h.distinct
  · rw [hm.nrProcess, hm.procList]
    exact h.count
  · rw [hm.procList]
    exact h.idle
  · rw [hm.procList, hm.rel, hm.created]
    exact h.parent
  · rw [hm.created, hm.procList, hm.rel]
    exact h.init
  · exact fun hbad => h.alive ((hm.zombie _).mp hbad)
  · intro p hp
    rw [hm.created] at hp
    rw [hm.procList, hm.zombie]
    exact h.gone p hp
  · intro p hp
    obtain ⟨hwait, -, hstate⟩ := hm.waiting p hp
    exact hstate.trans (h.waiting p hwait)

theorem live_of_runnable (h : Lineage s children before) (hcreated : p < s.created)
    (hidle : p ≠ idleproc) (hrun : (s.proc p).state = .runnable) : p ∈ s.procList := by
  rcases h.gone p hcreated with hin | heq | hbad
  · exact hin
  · exact absurd heq hidle
  · rw [hrun] at hbad
    exact absurd hbad (by decide)

/-- There are no more children than processes were made. -/
theorem length_children (h : Lineage s children before) (hqueue : RunQueue s queue) (p : ℕ) :
    (children p).length ≤ s.created := by
  have hsub : children p ⊆ List.range s.created := by
    intro c hc
    exact List.mem_range.mpr (hqueue.listed c ((h.kin.mem p c).mp hc).1)
  have hle := ((h.kin.nodup p).subperm hsub).length_le
  rw [List.length_range] at hle
  exact hle

end Lineage

/-- A process that waits for any child knows of every zombie among them. -/
structure Family (s : ProcTable) (children : ℕ → List ℕ) (before : ℕ → Option ℕ) : Prop
    extends Lineage s children before where
  notified : ∀ p, (s.proc p).waitState = wtChild → (s.proc p).waitPid = none →
    ∀ c ∈ children p, (s.proc c).state ≠ .zombie

theorem Family.mild (h : Family s children before) (hm : Mild s t) : Family t children before := by
  refine ⟨h.toLineage.mild hm, ?_⟩
  intro p hp hpid c hc hbad
  obtain ⟨hwait, hkept, -⟩ := hm.waiting p hp
  exact h.notified p hwait (hkept.symm.trans hpid) c hc ((hm.zombie c).mp hbad)

theorem wakeup_if_current {d : Prop} [Decidable d]
    (hw : (if d then s.wakeupProc p else some s) = some t) : t.current = s.current := by
  split at hw
  · exact (wakeupProc_woken hw).current
  · exact Option.some.inj hw ▸ rfl

/-- Where a process waits for a child, `wakeup_proc` ends that. -/
theorem Lineage.wakeup_if_waitState (h : Lineage s children before) {d : Prop} [Decidable d]
    (hd : (s.proc p).waitState = wtChild → d)
    (hw : (if d then s.wakeupProc p else some s) = some t) : (t.proc p).waitState ≠ wtChild := by
  intro hbad
  split at hw
  · rcases (wakeupProc_woken hw).kept with hzero | ⟨hrun, hkept⟩
    · rw [hzero] at hbad
      exact absurd hbad (by decide)
    · have hsleep := h.waiting p (hkept.symm.trans hbad)
      rw [hrun] at hsleep
      exact absurd hsleep (by decide)
  · rename_i hnot
    obtain rfl := Option.some.inj hw
    exact hnot (hd hbad)

/-! The children of a process that exits go to `initproc`. -/

theorem adopt_parent (s : ProcTable) (c y : ℕ) :
    ((s.adopt c).rel y).parent = if y = c then initproc else (s.rel y).parent := by
  unfold adopt
  rw [pushChild_parent]
  simp only [setRel_apply]
  split_ifs <;> rfl

theorem Lineage.adopt {b : Option ℕ} {rest : List ℕ}
    (h : Lineage s children (Function.update (fun _ => none) s.current b))
    (hchildren : children s.current = c :: rest) (hidle : s.current ≠ idleproc)
    (hinit : s.current ≠ initproc) (hcreated : 1 < s.created) :
    Lineage (s.adopt c) (Function.update (Function.update children s.current rest) initproc
      (c :: children initproc)) (Function.update (fun _ => none) s.current (some c)) := by
  have hc : c ∈ s.procList ∧ (s.rel c).parent = s.current := by
    rw [← h.kin.mem, hchildren]
    exact List.mem_cons_self
  have hne : initproc ≠ c := by
    intro heq
    rw [← heq, (h.init hcreated).2] at hc
    exact hidle hc.2.symm
  refine ⟨?_, h.distinct, h.count, h.idle, ?_, ?_, h.alive, h.gone, h.waiting⟩
  · have hkin := h.kin.adopt hchildren (Ne.symm hinit) (Function.update_of_ne (Ne.symm hinit) _ _)
    rw [Function.update_idem] at hkin
    exact hkin
  · intro d hd
    rw [adopt_parent]
    split
    · rename_i heq
      exact ⟨hcreated, heq ▸ hne⟩
    · exact h.parent d hd
  · intro _
    rw [adopt_parent, if_neg hne]
    exact h.init hcreated

/-- One turn of the loop of `do_exit`. -/
theorem Family.adopt {b : Option ℕ} {rest : List ℕ}
    (h : Family s children (Function.update (fun _ => none) s.current b))
    (hchildren : children s.current = c :: rest) (hidle : s.current ≠ idleproc)
    (hinit : s.current ≠ initproc) (hcreated : 1 < s.created)
    (hu : (if ((s.adopt c).proc c).state = .zombie ∧
        ((s.adopt c).proc initproc).waitState = wtChild then (s.adopt c).wakeupProc initproc
      else some (s.adopt c)) = some u) :
    Family u (Function.update (Function.update children s.current rest) initproc
      (c :: children initproc)) (Function.update (fun _ => none) s.current (some c)) := by
  have hlineage := h.toLineage.adopt hchildren hidle hinit hcreated
  have hm := Mild.wakeup_if hu
  refine ⟨hlineage.mild hm, ?_⟩
  intro p hp hpid d hd hbad
  obtain ⟨hwait, hkept, -⟩ := hm.waiting p hp
  have hzombie : (s.proc d).state = .zombie := (hm.zombie d).mp hbad
  have hold : d ∉ children p := by
    intro hin
    exact h.notified p hwait (hkept.symm.trans hpid) d hin hzombie
  by_cases hpinit : p = initproc
  · rw [hpinit] at hp hold
    rw [hpinit, Function.update_self, List.mem_cons, or_iff_left hold] at hd
    rw [hd] at hzombie
    exact hlineage.wakeup_if_waitState (fun hw => ⟨hzombie, hw⟩) hu hp
  · rw [Function.update_of_ne hpinit] at hd
    by_cases hpcurrent : p = s.current
    · rw [hpcurrent, Function.update_self] at hd
      rw [hpcurrent, hchildren] at hold
      exact hold (List.mem_cons_of_mem c hd)
    · rw [Function.update_of_ne hpcurrent] at hd
      exact hold hd

/-- Nobody is created, exits or is reaped, whoever is whose child. -/
structure Stirred (s t : ProcTable) : Prop where
  procList : t.procList = s.procList
  created : t.created = s.created
  current : t.current = s.current
  zombie : ∀ p, (t.proc p).state = .zombie ↔ (s.proc p).state = .zombie
  exitCode : ∀ p, (t.proc p).exitCode = (s.proc p).exitCode

theorem Stirred.refl (s : ProcTable) : Stirred s s :=
  ⟨rfl, rfl, rfl, fun _ => Iff.rfl, fun _ => rfl⟩

theorem Stirred.trans (h : Stirred s t) (h' : Stirred t u) : Stirred s u :=
  ⟨h'.procList.trans h.procList, h'.created.trans h.created, h'.current.trans h.current,
    fun p => (h'.zombie p).trans (h.zombie p), fun p => (h'.exitCode p).trans (h.exitCode p)⟩

theorem Mild.stirred (h : Mild s t) (hcurrent : t.current = s.current) : Stirred s t :=
  ⟨h.procList, h.created, hcurrent, h.zombie, h.exitCode⟩

theorem stirred_adopt (s : ProcTable) (c : ℕ) : Stirred s (s.adopt c) :=
  ⟨rfl, rfl, rfl, fun _ => Iff.rfl, fun _ => rfl⟩

/-- The children of the processes when `p` has none left. -/
def handedOver (children : ℕ → List ℕ) (p : ℕ) : ℕ → List ℕ :=
  Function.update (Function.update children p []) initproc
    ((children p).reverse ++ children initproc)

theorem handedOver_nil (hp : children p = []) : handedOver children p = children := by
  unfold handedOver
  rw [hp, List.reverse_nil, List.nil_append]
  funext q
  by_cases hq : q = initproc
  · rw [hq, Function.update_self]
  · rw [Function.update_of_ne hq]
    by_cases hqp : q = p
    · rw [hqp, Function.update_self, hp]
    · rw [Function.update_of_ne hqp]

theorem handedOver_cons {rest : List ℕ} (hp : children p = c :: rest) (hne : p ≠ initproc) :
    handedOver (Function.update (Function.update children p rest) initproc
      (c :: children initproc)) p = handedOver children p := by
  unfold handedOver
  funext q
  by_cases hq : q = initproc
  · rw [hq, Function.update_self, Function.update_self, Function.update_self,
      Function.update_of_ne hne, Function.update_self, hp, List.reverse_cons, List.append_assoc]
    rfl
  · rw [Function.update_of_ne hq, Function.update_of_ne hq]
    by_cases hqp : q = p
    · rw [hqp, Function.update_self, Function.update_self]
    · rw [Function.update_of_ne hqp, Function.update_of_ne hqp, Function.update_of_ne hq,
        Function.update_of_ne hqp]

/-- The loop of `do_exit` comes to its end with every child. -/
theorem Family.adoptLoop {b : Option ℕ} {rest : List ℕ} {turns : ℕ}
    (h : Family s children (Function.update (fun _ => none) s.current b))
    (hqueue : RunQueue s queue) (hidle : s.current ≠ idleproc) (hinit : s.current ≠ initproc)
    (hchildren : children s.current = rest) (hturns : rest.length ≤ turns) :
    ∃ t queue', adoptLoop turns s = some t ∧ RunQueue t queue' ∧ Stirred s t ∧
      Family t (handedOver children s.current) fun _ => none := by
  induction rest generalizing s children b queue turns with
  | nil =>
    have hend : ProcTable.adoptLoop turns s = some s := by
      cases turns with
      | zero => rfl
      | succ turns =>
        have hnone := (h.kin.row s.current).first_eq
        rw [hchildren] at hnone
        rw [ProcTable.adoptLoop]
        simp only [hnone, List.head?_nil]
    refine ⟨s, queue, hend, hqueue, Stirred.refl s, ?_⟩
    rw [handedOver_nil hchildren]
    exact ⟨{ h.toLineage with kin := h.kin.settle hchildren }, h.notified⟩
  | cons c rest ih =>
    cases turns with
    | zero => exact absurd hturns (Nat.not_succ_le_zero rest.length)
    | succ turns =>
      have hcurrent := hqueue.current
      have hcreated : 1 < s.created := by
        unfold idleproc at hidle
        unfold initproc at hinit
        omega
      have hfirst := (h.kin.row s.current).first_eq
      rw [hchildren, List.head?_cons] at hfirst
      have hadopted := hqueue.quiet (quiet_adopt s c)
      obtain ⟨u, hu⟩ : ∃ u, (if ((s.adopt c).proc c).state = .zombie ∧
          ((s.adopt c).proc initproc).waitState = wtChild then (s.adopt c).wakeupProc initproc
        else some (s.adopt c)) = some u := by
        split
        · exact hadopted.wakeup_total h.alive
        · exact ⟨_, rfl⟩
      obtain ⟨queue', hqueue'⟩ := hadopted.wakeup_if (fun hw => by rw [hw.2]; decide) hu
      have hsame := wakeup_if_current hu
      have hstirred := (stirred_adopt s c).trans ((Mild.wakeup_if hu).stirred hsame)
      have hfamily := h.adopt hchildren hidle hinit hcreated hu
      rw [← hstirred.current] at hfamily hidle hinit
      obtain ⟨t, queue'', ht, hrun, hstirred', hfamily'⟩ := ih hfamily hqueue' hidle hinit
        (by rw [Function.update_of_ne hinit, hstirred.current, Function.update_self])
        (Nat.le_of_succ_le_succ hturns)
      refine ⟨t, queue'', ?_, hrun, hstirred.trans hstirred', ?_⟩
      · rw [ProcTable.adoptLoop]
        simp only [hfirst]
        rw [hu, Option.bind_some]
        exact ht
      · rw [hstirred.current] at hfamily' hinit
        rw [handedOver_cons hchildren hinit] at hfamily'
        exact hfamily'

/-- Between two calls no zombie has children. -/
structure Settled (s : ProcTable) (children : ℕ → List ℕ) : Prop
    extends Family s children fun _ => none where
  barren : ∀ p, (s.proc p).state = .zombie → children p = []

theorem Settled.mild (h : Settled s children) (hm : Mild s t) : Settled t children :=
  ⟨h.toFamily.mild hm, fun p hp => h.barren p ((hm.zombie p).mp hp)⟩

/-- The state of a process that has begun to exit. -/
def toZombie (s : ProcTable) (code : ℤ) : ProcTable :=
  s.setProc s.current fun p => { p with state := .zombie, exitCode := code }

theorem toZombie_zombie (s : ProcTable) (code : ℤ) (p : ℕ) :
    ((toZombie s code).proc p).state = .zombie ↔ p = s.current ∨ (s.proc p).state = .zombie := by
  unfold toZombie
  by_cases hp : p = s.current
  · rw [hp, setProc_self]
    exact iff_of_true rfl (Or.inl rfl)
  · rw [setProc_of_ne s hp, or_iff_right hp]

theorem toZombie_waitState (s : ProcTable) (code : ℤ) :
    ∀ p, ((toZombie s code).proc p).waitState = (s.proc p).waitState := by
  unfold toZombie
  exact setProc_field s s.current (fun _ => rfl)

theorem toZombie_waitPid (s : ProcTable) (code : ℤ) :
    ∀ p, ((toZombie s code).proc p).waitPid = (s.proc p).waitPid := by
  unfold toZombie
  exact setProc_field s s.current (fun _ => rfl)

theorem Settled.lineage_toZombie (h : Settled s children)
    (hrun : (s.proc s.current).state = .runnable) (hinit : s.current ≠ initproc) (code : ℤ) :
    Lineage (toZombie s code) children fun _ => none := by
  refine ⟨h.kin, h.distinct, h.count, h.idle, h.parent, h.init, ?_, ?_, ?_⟩
  · rw [ne_eq, toZombie_zombie, not_or]
    exact ⟨Ne.symm hinit, h.alive⟩
  · intro p hp
    rw [toZombie_zombie]
    exact (h.gone p hp).imp_right fun hgone => hgone.imp_right Or.inr
  · intro p hp
    rw [toZombie_waitState] at hp
    have hsleep := h.waiting p hp
    have hne : p ≠ s.current := by
      intro heq
      rw [heq, hrun] at hsleep
      exact absurd hsleep (by decide)
    unfold toZombie
    rw [setProc_of_ne s hne]
    exact hsleep

theorem Settled.exit (h : Settled s children) (hqueue : RunQueue s queue)
    (hrun : (s.proc s.current).state = .runnable) (hidle : s.current ≠ idleproc)
    (hinit : s.current ≠ initproc) (code : ℤ) :
    ∃ t queue', s.doExit code = some t ∧ RunQueue t queue' ∧ Stirred (toZombie s code) t ∧
      Settled t (handedOver children s.current) := by
  have hlive := h.live_of_runnable hqueue.current hidle hrun
  have hlineage := h.lineage_toZombie hrun hinit code
  have hzombie : RunQueue (toZombie s code) queue :=
    hqueue.quiet (Quiet.of_current (fun _ => rfl) fun heq => absurd heq hidle)
  have hchild := (h.kin.mem (s.rel s.current).parent s.current).mpr ⟨hlive, rfl⟩
  have hparent : ((toZombie s code).proc (s.rel s.current).parent).state ≠ .zombie := by
    rw [ne_eq, toZombie_zombie, not_or]
    refine ⟨(h.parent _ hlive).2, fun hbad => ?_⟩
    rw [h.barren _ hbad] at hchild
    exact absurd hchild List.not_mem_nil
  obtain ⟨u, hu⟩ : ∃ u, (if ((toZombie s code).proc (s.rel s.current).parent).waitState = wtChild
      then (toZombie s code).wakeupProc (s.rel s.current).parent else some (toZombie s code)) =
        some u := by
    split
    · exact hzombie.wakeup_total hparent
    · exact ⟨_, rfl⟩
  have hm := Mild.wakeup_if hu
  have hsame : u.current = (toZombie s code).current := wakeup_if_current hu
  change u.current = s.current at hsame
  obtain ⟨queue', hqueue'⟩ := hzombie.wakeup_if (fun hw => by rw [hw]; decide) hu
  have hfamily : Family u children (Function.update (fun _ => none) u.current none) := by
    rw [Function.update_eq_self]
    refine ⟨hlineage.mild hm, ?_⟩
    intro p hp hpid c hc hbad
    obtain ⟨hwait, hkept, -⟩ := hm.waiting p hp
    rcases (toZombie_zombie s code c).mp ((hm.zombie c).mp hbad) with heq | hold
    · -- The zombie is the current process, and its parent was woken.
      rw [heq] at hc
      rw [← ((h.kin.mem p s.current).mp hc).2] at hp
      exact hlineage.wakeup_if_waitState id hu hp
    · rw [toZombie_waitState] at hwait
      rw [toZombie_waitPid] at hkept
      exact h.notified p hwait (hkept.symm.trans hpid) c hc hold
  rw [← hsame] at hidle hinit
  obtain ⟨t, queue'', ht, hrun', hstirred, hfamily'⟩ := hfamily.adoptLoop hqueue' hidle hinit rfl
    (h.length_children hqueue u.current)
  rw [hsame] at hidle hinit hfamily'
  have hall : Stirred (toZombie s code) t := (hm.stirred (wakeup_if_current hu)).trans hstirred
  refine ⟨t, queue'', ?_, hrun', hall, hfamily', ?_⟩
  · unfold doExit
    rw [if_neg (not_or.mpr ⟨hidle, hinit⟩)]
    change (Option.bind (if ((toZombie s code).proc (s.rel s.current).parent).waitState = wtChild
      then (toZombie s code).wakeupProc (s.rel s.current).parent else some (toZombie s code))
        (adoptLoop s.created)) = some t
    rw [hu, Option.bind_some]
    exact ht
  · intro p hp
    have hpinit : p ≠ initproc := by
      intro heq
      rw [heq] at hp
      exact hfamily'.alive hp
    unfold handedOver
    rw [Function.update_of_ne hpinit]
    by_cases hpcurrent : p = s.current
    · rw [hpcurrent, Function.update_self]
    · rw [Function.update_of_ne hpcurrent]
      exact h.barren p (((toZombie_zombie s code p).mp ((hall.zombie p).mp hp)).resolve_left
        hpcurrent)

/-! A turn of `do_wait`. -/

/-- The state of a process that has begun to wait. -/
def toWaiter (s : ProcTable) (pid : Option ℕ) : ProcTable :=
  s.setProc s.current fun p => { p with state := .sleeping, waitState := wtChild, waitPid := pid }

theorem toWaiter_of_ne {pid : Option ℕ} (h : q ≠ s.current) :
    (toWaiter s pid).proc q = s.proc q := setProc_of_ne s h

theorem toWaiter_zombie (hrun : (s.proc s.current).state = .runnable) (pid : Option ℕ) (q : ℕ) :
    ((toWaiter s pid).proc q).state = .zombie ↔ (s.proc q).state = .zombie := by
  by_cases hq : q = s.current
  · unfold toWaiter
    rw [hq, setProc_self, hrun]
    exact iff_of_false Schedule.ProcState.noConfusion Schedule.ProcState.noConfusion
  · rw [toWaiter_of_ne hq]

/-- How the turn ends: a zombie is reaped, the process falls asleep, or it has no such child. -/
theorem Settled.doWait_cases (h : Settled s children) (hqueue : RunQueue s queue)
    {pid : Option ℕ} {found : Option (ℕ × ℤ)} (hwait : s.doWait pid = some (found, t)) :
    (∃ c ∈ children s.current, (s.proc c).state = .zombie ∧
      found = some (c, (s.proc c).exitCode) ∧ t = s.removeLinks c) ∨
    (found = none ∧ (pid = none → ∀ c ∈ children s.current, (s.proc c).state ≠ .zombie) ∧
      t = toWaiter s pid) ∨
    (found = none ∧ t = s) := by
  have hfind : (∀ c b, s.findChild pid = (b, some c) →
      c ∈ children s.current ∧ (s.proc c).state = .zombie) ∧
      (∀ b, s.findChild pid = (b, none) → pid = none →
        ∀ c ∈ children s.current, (s.proc c).state ≠ .zombie) := by
    cases pid with
    | none =>
      unfold findChild
      rw [scanChildren_eq (h.kin.row s.current) (h.length_children hqueue s.current)]
      constructor
      · intro c b heq
        have hc := (Prod.mk.inj heq).2
        have hzombie := List.find?_some hc
        exact ⟨List.mem_of_find?_eq_some hc, of_decide_eq_true hzombie⟩
      · intro b heq _ c hc
        have hnone := List.find?_eq_none.mp (Prod.mk.inj heq).2 c hc
        exact fun hbad => hnone (decide_eq_true hbad)
    | some c =>
      refine ⟨?_, fun _ _ hbad => absurd hbad (Option.some_ne_none c)⟩
      intro d b heq
      unfold findChild at heq
      dsimp only at heq
      split at heq
      · rename_i hchild
        have hd := (Prod.mk.inj heq).2
        split at hd
        · rename_i hzombie
          obtain rfl := Option.some.inj hd
          exact ⟨(h.kin.mem _ _).mpr hchild, hzombie⟩
        · exact absurd hd (Option.some_ne_none d).symm
      · exact absurd (Prod.mk.inj heq).2 (Option.some_ne_none d).symm
  unfold doWait at hwait
  split at hwait
  · rename_i b c heq
    split at hwait
    · exact absurd hwait (Option.some_ne_none _).symm
    · obtain ⟨rfl, rfl⟩ := Prod.mk.inj (Option.some.inj hwait)
      obtain ⟨hc, hzombie⟩ := hfind.1 c b heq
      exact Or.inl ⟨c, hc, hzombie, rfl, rfl⟩
  · rename_i heq
    obtain ⟨rfl, rfl⟩ := Prod.mk.inj (Option.some.inj hwait)
    exact Or.inr (Or.inl ⟨rfl, hfind.2 true heq, rfl⟩)
  · obtain ⟨rfl, rfl⟩ := Prod.mk.inj (Option.some.inj hwait)
    exact Or.inr (Or.inr ⟨rfl, rfl⟩)

theorem Settled.reap (h : Settled s children) (hc : c ∈ children p)
    (hzombie : (s.proc c).state = .zombie) :
    Settled (s.removeLinks c) (Function.update children p ((children p).erase c)) := by
  obtain ⟨hlive, hp⟩ := (h.kin.mem p c).mp hc
  have hmem : ∀ d, d ∈ s.procList.erase c ↔ d ≠ c ∧ d ∈ s.procList :=
    fun d => h.distinct.mem_erase_iff
  have hsub : ∀ q, ∀ d ∈ Function.update children p ((children p).erase c) q, d ∈ children q := by
    intro q d hd
    by_cases hq : q = p
    · rw [hq, Function.update_self] at hd
      rw [hq]
      exact List.mem_of_mem_erase hd
    · rw [Function.update_of_ne hq] at hd
      exact hd
  refine ⟨⟨⟨(h.kin.drop hlive hp rfl).congr hmem, h.distinct.erase c, ?_, ?_, ?_, ?_, h.alive, ?_,
    h.waiting⟩, ?_⟩, ?_⟩
  · change s.nrProcess - 1 = (s.procList.erase c).length + 1
    have hpos := List.length_pos_of_mem hlive
    rw [h.count, List.length_erase_of_mem hlive]
    omega
  · exact fun hbad => h.idle (List.mem_of_mem_erase hbad)
  · intro d hd
    change (dropChild s.rel c d).parent < s.created ∧ (dropChild s.rel c d).parent ≠ d
    rw [dropChild_parent]
    exact h.parent d (List.mem_of_mem_erase hd)
  · intro hcreated
    obtain ⟨hin, hidle⟩ := h.init hcreated
    change initproc ∈ s.procList.erase c ∧ (dropChild s.rel c initproc).parent = idleproc
    rw [dropChild_parent, hmem]
    refine ⟨⟨?_, hin⟩, hidle⟩
    intro heq
    rw [← heq] at hzombie
    exact h.alive hzombie
  · intro q hq
    change q ∈ s.procList.erase c ∨ _
    by_cases hqc : q = c
    · right
      right
      rw [hqc]
      exact hzombie
    · rw [hmem, and_iff_right hqc]
      exact h.gone q hq
  · exact fun q hq hpid d hd => h.notified q hq hpid d (hsub q d hd)
  · intro q hq
    have hnone : children q = [] := h.barren q hq
    refine List.eq_nil_iff_forall_not_mem.mpr ?_
    intro d hd
    have hin := hsub q d hd
    rw [hnone] at hin
    exact List.not_mem_nil hin

theorem Settled.asleep (h : Settled s children) (hrun : (s.proc s.current).state = .runnable)
    {pid : Option ℕ}
    (hnone : pid = none → ∀ c ∈ children s.current, (s.proc c).state ≠ .zombie) :
    Settled (toWaiter s pid) children := by
  have hself : (toWaiter s pid).proc s.current = { s.proc s.current with
      state := .sleeping, waitState := wtChild, waitPid := pid } := setProc_self s s.current _
  have hzombie := toWaiter_zombie hrun pid
  refine ⟨⟨⟨h.kin, h.distinct, h.count, h.idle, h.parent, h.init, ?_, ?_, ?_⟩, ?_⟩, ?_⟩
  · exact fun hbad => h.alive ((hzombie _).mp hbad)
  · intro q hq
    rw [hzombie]
    exact h.gone q hq
  · intro q hq
    by_cases heq : q = s.current
    · rw [heq, hself]
    · rw [toWaiter_of_ne heq] at hq ⊢
      exact h.waiting q hq
  · intro q hq hpid d hd
    rw [ne_eq, hzombie]
    by_cases heq : q = s.current
    · rw [heq, hself] at hpid
      rw [heq] at hd
      exact hnone hpid d hd
    · rw [toWaiter_of_ne heq] at hq hpid
      exact h.notified q hq hpid d hd
  · exact fun q hq => h.barren q ((hzombie q).mp hq)

/-! The child of a fork. -/

theorem Settled.made (h : Settled s children) (hqueue : RunQueue s queue)
    (halive : (s.proc s.current).state ≠ .zombie) :
    Settled (s.allocProc.setLinks s.created)
      (Function.update children s.current (s.created :: children s.current)) := by
  have hcurrent := hqueue.current
  have hout : s.created ∉ s.procList := fun hin => Nat.lt_irrefl _ (hqueue.listed _ hin)
  have hnone : children s.created = [] := by
    refine List.eq_nil_iff_forall_not_mem.mpr ?_
    intro d hd
    obtain ⟨hin, hparent⟩ := (h.kin.mem s.created d).mp hd
    exact Nat.lt_irrefl _ (hparent ▸ (h.parent d hin).1)
  have hself : (s.allocProc.setLinks s.created).proc s.created = freshProc :=
    Function.update_self ..
  have hother : ∀ q, q ≠ s.created → (s.allocProc.setLinks s.created).proc q = s.proc q :=
    fun q hq => Function.update_of_ne hq _ _
  have hrel : s.allocProc.rel s.created = ⟨s.current, none, none, none⟩ := Function.update_self ..
  have hkin := (h.kin.fresh hout hnone s.current).push hout (congrArg Relations.parent hrel) rfl
  have hparent : ∀ q, ((s.allocProc.setLinks s.created).rel q).parent =
      if q = s.created then s.current else (s.rel q).parent := by
    intro q
    change (pushChild s.allocProc.rel (s.allocProc.rel s.created).parent s.created q).parent = _
    rw [pushChild_parent]
    by_cases hq : q = s.created
    · rw [if_pos hq, hq, hrel]
    · rw [if_neg hq]
      change (Function.update s.rel s.created _ q).parent = _
      rw [Function.update_of_ne hq]
  have hmem : ∀ q, ∀ d ∈ Function.update children s.current (s.created :: children s.current) q,
      d = s.created ∨ d ∈ children q ∧ d ≠ s.created := by
    intro q d hd
    have hold : d ∈ children q → d ≠ s.created := fun hin heq =>
      hout (heq ▸ ((h.kin.mem q d).mp hin).1)
    by_cases hq : q = s.current
    · rw [hq, Function.update_self, List.mem_cons] at hd
      rw [hq] at hold ⊢
      exact hd.imp_right fun hin => ⟨hin, hold hin⟩
    · rw [Function.update_of_ne hq] at hd
      exact Or.inr ⟨hd, hold hd⟩
  refine ⟨⟨⟨?_, List.nodup_cons.mpr ⟨hout, h.distinct⟩, ?_, ?_, ?_, ?_, ?_, ?_, ?_⟩, ?_⟩, ?_⟩
  · have hlinked : (s.allocProc.setLinks s.created).rel =
        pushChild s.allocProc.rel s.current s.created := by
      change pushChild s.allocProc.rel (s.allocProc.rel s.created).parent s.created = _
      rw [hrel]
    rw [hlinked]
    exact hkin.congr fun d => List.mem_cons
  · change s.nrProcess + 1 = (s.created :: s.procList).length + 1
    rw [h.count, List.length_cons]
  · intro hin
    rcases List.mem_cons.mp hin with heq | hold
    · unfold idleproc at heq
      omega
    · exact h.idle hold
  · intro d hd
    change _ < s.created + 1 ∧ _
    rw [hparent]
    rcases List.mem_cons.mp hd with heq | hold
    · rw [if_pos heq, heq]
      exact ⟨by omega, by omega⟩
    · have hold' := h.parent d hold
      have hne : d ≠ s.created := fun heq => hout (heq ▸ hold)
      rw [if_neg hne]
      exact ⟨by omega, hold'.2⟩
  · intro _
    change initproc ∈ s.created :: s.procList ∧ _
    rw [hparent, List.mem_cons]
    by_cases hfirst : 1 < s.created
    · obtain ⟨hin, hidle⟩ := h.init hfirst
      have hne : initproc ≠ s.created := fun heq => hout (heq ▸ hin)
      rw [if_neg hne]
      exact ⟨Or.inr hin, hidle⟩
    · have hone : initproc = s.created := by
        unfold initproc
        omega
      rw [if_pos hone]
      refine ⟨Or.inl hone, ?_⟩
      unfold idleproc
      omega
  · by_cases hone : initproc = s.created
    · rw [hone, hself]
      exact Schedule.ProcState.noConfusion
    · rw [hother _ hone]
      exact h.alive
  · intro q hq
    change q ∈ s.created :: s.procList ∨ _
    by_cases hnew : q = s.created
    · exact Or.inl (List.mem_cons.mpr (Or.inl hnew))
    · rw [hother q hnew, List.mem_cons, or_iff_right hnew]
      have hlt : q < s.created + 1 := hq
      exact h.gone q (by omega)
  · intro q hq
    by_cases hnew : q = s.created
    · rw [hnew, hself] at hq
      exact absurd hq (by decide)
    · rw [hother q hnew] at hq ⊢
      exact h.waiting q hq
  · intro q hq hpid d hd
    by_cases hnew : q = s.created
    · rw [hnew, hself] at hq
      exact absurd hq (by decide)
    · rw [hother q hnew] at hq hpid
      rcases hmem q d hd with heq | ⟨hin, hne⟩
      · rw [heq, hself]
        exact Schedule.ProcState.noConfusion
      · rw [hother d hne]
        exact h.notified q hq hpid d hin
  · intro q hq
    by_cases hnew : q = s.created
    · rw [hnew, hself] at hq
      exact absurd hq Schedule.ProcState.noConfusion
    · rw [hother q hnew] at hq
      have hne : q ≠ s.current := fun heq => halive (heq ▸ hq)
      rw [Function.update_of_ne hne]
      exact h.barren q hq

/-- A fork does not change anything, or it makes the next process a child. -/
theorem doFork_cases (hrun : (s.proc s.current).state = .runnable) {alloc ok : Bool}
    (h : s.doFork alloc ok = some t) : Mild s t ∨ ∃ u, Mild s u ∧ u.current = s.current ∧
      Mild (u.allocProc.setLinks u.created) t ∧ ∀ queue, RunQueue s queue → RunQueue u queue := by
  have halive : (s.proc s.current).state ≠ .zombie := fun hbad => by
    rw [hrun] at hbad
    exact absurd hbad (by decide)
  have hzero : 0 ≠ wtChild := by decide
  have hstart : Mild s (s.setProc s.current fun p => { p with waitState := 0 }) :=
    Mild.of_alive halive halive hzero fun _ => rfl
  unfold doFork at h
  split at h
  · left
    exact Option.some.inj h ▸ Mild.refl s
  · dsimp only at h
    split at h
    · right
      refine ⟨_, hstart, rfl, Mild.of_woken (wakeupProc_woken h), ?_⟩
      exact fun queue hqueue => hqueue.quiet (Quiet.of_current (fun _ => rfl) fun _ => rfl)
    · left
      exact Option.some.inj h ▸ hstart

end Ucore.Process.Table
