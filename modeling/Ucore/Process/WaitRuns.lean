import Ucore.Process.Lineage

/-!
The runs of lab 8 seen from `do_wait`: which processes have exited with which codes, and which of
them were reaped.
-/
namespace Ucore.Process.Table

open Library ProcTable

variable {s t : ProcTable} {p q c : ℕ} {queue : List ℕ} {children : ℕ → List ℕ}

structure WaitRun where
  table : ProcTable
  exits : List (ℕ × ℤ)
  reaped : List (ℕ × ℤ)

namespace WaitRun

def boot (values : ℕ → ℤ) : WaitRun := ⟨ProcTable.boot values, [], []⟩

/-- The child that `do_wait` reaps, and its exit code. -/
def stored (s : WaitRun) (pid : Option ℕ) : Option (ℕ × ℤ) := (s.table.doWait pid).bind Prod.fst

def record (s : WaitRun) (op : ProcOp) (t : ProcTable) : WaitRun :=
  match op with
  | .exit code => ⟨t, (s.table.current, code) :: s.exits, s.reaped⟩
  | .wait pid => ⟨t, s.exits, (s.stored pid).toList ++ s.reaped⟩
  | _ => ⟨t, s.exits, s.reaped⟩

def step (s : WaitRun) (op : ProcOp) : Option WaitRun := (s.table.step op).map (s.record op)

end WaitRun

/-- Zombies are the processes that exited, and a process is listed until it is reaped. -/
structure Reaped (t : ProcTable) (exits reaped : List (ℕ × ℤ)) : Prop where
  exits_once : (exits.map Prod.fst).Nodup
  reaped_once : (reaped.map Prod.fst).Nodup
  stored : ∀ e ∈ reaped, e ∈ exits
  zombie : ∀ p code, (p, code) ∈ exits ↔
    (t.proc p).state = .zombie ∧ (t.proc p).exitCode = code
  listed : ∀ p, p ∈ t.procList ↔ p ≠ idleproc ∧ p < t.created ∧ p ∉ reaped.map Prod.fst

namespace Reaped

variable {exits reaped : List (ℕ × ℤ)}

theorem congr (h : Reaped s exits reaped) (hlist : t.procList = s.procList)
    (hcreated : t.created = s.created)
    (hzombie : ∀ p, (t.proc p).state = .zombie ↔ (s.proc p).state = .zombie)
    (hcode : ∀ p, (t.proc p).exitCode = (s.proc p).exitCode) : Reaped t exits reaped := by
  refine ⟨h.exits_once, h.reaped_once, h.stored, ?_, ?_⟩
  · intro p code
    rw [h.zombie, hzombie, hcode]
  · intro p
    rw [hlist, hcreated]
    exact h.listed p

theorem mild (h : Reaped s exits reaped) (hm : Mild s t) : Reaped t exits reaped :=
  h.congr hm.procList hm.created hm.zombie hm.exitCode

theorem asleep (h : Reaped s exits reaped) (hrun : (s.proc s.current).state = .runnable)
    (pid : Option ℕ) : Reaped (toWaiter s pid) exits reaped := by
  refine h.congr rfl rfl (toWaiter_zombie hrun pid) ?_
  unfold toWaiter
  exact setProc_field s s.current (fun _ => rfl)

theorem zombie_of_mem (h : Reaped s exits reaped) (hp : p ∈ exits.map Prod.fst) :
    (s.proc p).state = .zombie := by
  obtain ⟨e, he, rfl⟩ := List.mem_map.mp hp
  exact ((h.zombie e.1 e.2).mp he).1

theorem exits_of_reaped (h : Reaped s exits reaped) (hp : p ∈ reaped.map Prod.fst) :
    p ∈ exits.map Prod.fst := by
  obtain ⟨e, he, rfl⟩ := List.mem_map.mp hp
  exact List.mem_map_of_mem (h.stored e he)

theorem exit (h : Reaped s exits reaped) (hrun : (s.proc s.current).state = .runnable) {code : ℤ}
    (ht : Stirred (toZombie s code) t) : Reaped t ((s.current, code) :: exits) reaped := by
  have hnot : (s.proc s.current).state ≠ .zombie := by
    rw [hrun]
    exact Schedule.ProcState.noConfusion
  refine ⟨?_, h.reaped_once, ?_, ?_, ?_⟩
  · rw [List.map_cons, List.nodup_cons]
    exact ⟨fun hin => hnot (h.zombie_of_mem hin), h.exits_once⟩
  · exact fun e he => List.mem_cons_of_mem _ (h.stored e he)
  · intro p code'
    rw [ht.zombie, ht.exitCode, toZombie_zombie, List.mem_cons, h.zombie]
    by_cases hp : p = s.current
    · have hself : ((toZombie s code).proc p).exitCode = code := by
        unfold toZombie
        rw [hp, setProc_self]
      rw [hself, hp, and_iff_right (Or.inl rfl), or_iff_left (fun hbad => hnot hbad.1),
        Prod.mk.injEq, and_iff_right rfl]
      exact eq_comm
    · have hother : ((toZombie s code).proc p).exitCode = (s.proc p).exitCode := by
        unfold toZombie
        rw [setProc_of_ne s hp]
      rw [hother, or_iff_right hp, or_iff_right (fun hbad => hp (Prod.mk.inj hbad).1)]
  · intro p
    rw [ht.procList, ht.created]
    exact h.listed p

theorem reap (h : Reaped s exits reaped) (hdistinct : s.procList.Nodup) (hlive : c ∈ s.procList)
    (hzombie : (s.proc c).state = .zombie) :
    Reaped (s.removeLinks c) exits ((c, (s.proc c).exitCode) :: reaped) := by
  refine ⟨h.exits_once, ?_, ?_, h.zombie, ?_⟩
  · rw [List.map_cons, List.nodup_cons]
    exact ⟨((h.listed c).mp hlive).2.2, h.reaped_once⟩
  · intro e he
    rcases List.mem_cons.mp he with rfl | hold
    · exact (h.zombie c _).mpr ⟨hzombie, rfl⟩
    · exact h.stored e hold
  · intro p
    change p ∈ s.procList.erase c ↔ p ≠ idleproc ∧ p < s.created ∧ _
    rw [hdistinct.mem_erase_iff, h.listed, List.map_cons, List.mem_cons, not_or]
    constructor
    · intro hp
      exact ⟨hp.2.1, hp.2.2.1, hp.1, hp.2.2.2⟩
    · intro hp
      exact ⟨hp.2.2.1, hp.1, hp.2.1, hp.2.2.2⟩

theorem made (h : Reaped s exits reaped) (hqueue : RunQueue s queue) :
    Reaped (s.allocProc.setLinks s.created) exits reaped := by
  have hfresh : (s.proc s.created).state ≠ .zombie := by
    rw [(hqueue.fresh s.created le_rfl).1]
    exact Schedule.ProcState.noConfusion
  have hout : s.created ∉ exits.map Prod.fst := fun hin => hfresh (h.zombie_of_mem hin)
  have hcurrent := hqueue.current
  refine ⟨h.exits_once, h.reaped_once, h.stored, ?_, ?_⟩
  · intro p code
    change _ ↔ (Function.update s.proc s.created freshProc p).state = .zombie ∧
      (Function.update s.proc s.created freshProc p).exitCode = code
    by_cases hp : p = s.created
    · rw [hp, Function.update_self]
      exact iff_of_false (fun hin => hout (List.mem_map_of_mem hin))
        (fun hbad => absurd hbad.1 Schedule.ProcState.noConfusion)
    · rw [Function.update_of_ne hp]
      exact h.zombie p code
  · intro p
    change p ∈ s.created :: s.procList ↔ p ≠ idleproc ∧ p < s.created + 1 ∧ _
    rw [List.mem_cons, h.listed]
    by_cases hp : p = s.created
    · rw [hp]
      have hreaped : s.created ∉ reaped.map Prod.fst := fun hin => hout (h.exits_of_reaped hin)
      refine iff_of_true (Or.inl rfl) ⟨?_, Nat.lt_succ_self _, hreaped⟩
      unfold idleproc
      omega
    · rw [or_iff_right hp]
      refine and_congr_right fun _ => and_congr_left' ?_
      omega

end Reaped

theorem doExit_guard {code : ℤ} (h : s.doExit code = some t) :
    s.current ≠ idleproc ∧ s.current ≠ initproc := by
  unfold doExit at h
  split at h
  · exact absurd h (Option.some_ne_none t).symm
  · rename_i hnot
    exact not_or.mp hnot

/-- What every run keeps. -/
def Consistent (s : WaitRun) : Prop :=
  ∃ queue children, RunQueue s.table queue ∧ Settled s.table children ∧
    Reaped s.table s.exits s.reaped

theorem consistent_boot (values : ℕ → ℤ) : Consistent (WaitRun.boot values) := by
  have hproc : ∀ p, ((ProcTable.boot values).proc p).state ≠ .zombie ∧
      ((ProcTable.boot values).proc p).waitState = 0 := by
    intro p
    by_cases hp : p = idleproc
    · rw [hp]
      exact ⟨Schedule.ProcState.noConfusion, rfl⟩
    · have hfresh : (ProcTable.boot values).proc p = freshProc :=
        Function.update_of_ne hp _ fun _ => freshProc
      rw [hfresh]
      exact ⟨Schedule.ProcState.noConfusion, rfl⟩
  have hwait : ∀ p, ((ProcTable.boot values).proc p).waitState ≠ wtChild := by
    intro p
    rw [(hproc p).2]
    decide
  refine ⟨[], fun _ => [], RunQueue.boot values, ⟨⟨⟨⟨fun _ => rfl, ?_, fun _ => List.nodup_nil⟩,
    List.nodup_nil, rfl, List.not_mem_nil, ?_, ?_, (hproc _).1, ?_, ?_⟩, ?_⟩, fun _ _ => rfl⟩,
    ⟨List.nodup_nil, List.nodup_nil, ?_, ?_, ?_⟩⟩
  · exact fun p c => iff_of_false List.not_mem_nil fun hbad => List.not_mem_nil hbad.1
  · exact fun c hc => absurd hc List.not_mem_nil
  · exact fun hbad => absurd hbad (Nat.lt_irrefl 1)
  · exact fun p hp => Or.inr (Or.inl (Nat.lt_one_iff.mp hp))
  · exact fun p hp => absurd hp (hwait p)
  · exact fun p hp => absurd hp (hwait p)
  · exact fun e he => absurd he List.not_mem_nil
  · exact fun p code => iff_of_false List.not_mem_nil fun hbad => (hproc p).1 hbad.1
  · refine fun p => iff_of_false List.not_mem_nil fun hbad => ?_
    exact hbad.1 (Nat.lt_one_iff.mp hbad.2.1)

theorem consistent_step (s : WaitRun) (op : ProcOp) (s' : WaitRun) (h : Consistent s)
    (hstep : s.step op = some s') : Consistent s' := by
  obtain ⟨queue, children, hqueue, hsettled, hreaped⟩ := h
  obtain ⟨t, ht, rfl⟩ := Option.map_eq_some_iff.mp hstep
  have hmild : (s.record op t).table = t → (s.record op t).exits = s.exits →
      (s.record op t).reaped = s.reaped → Mild s.table t → Consistent (s.record op t) := by
    intro htable hexits hreaps hm
    obtain ⟨queue', hqueue'⟩ := hqueue.step ht
    refine ⟨queue', children, ?_, ?_, ?_⟩
    · rw [htable]
      exact hqueue'
    · rw [htable]
      exact hsettled.mild hm
    · rw [htable, hexits, hreaps]
      exact hreaped.mild hm
  cases op with
  | tick => exact hmild rfl rfl rfl (Mild.tick ht)
  | schedule =>
    obtain ⟨t', queue', ht', -, hstill, -⟩ := hqueue.schedule
    obtain rfl := Option.some.inj (ht'.symm.trans ht)
    exact hmild rfl rfl rfl (Mild.of_still hstill)
  | fork alloc ok =>
    obtain ⟨hrun, hcall⟩ := Option.ite_none_right_eq_some.mp ht
    rcases doFork_cases hrun (Option.ite_none_right_eq_some.mp hcall).2 with
      hm | ⟨u, hm, hcurrent, hmade, hquiet⟩
    · exact hmild rfl rfl rfl hm
    · have halive : (u.proc u.current).state ≠ .zombie := by
        rw [hcurrent, ne_eq, hm.zombie, hrun]
        exact Schedule.ProcState.noConfusion
      have hqueue₁ := hquiet queue hqueue
      obtain ⟨queue', hqueue'⟩ := hqueue.step ht
      exact ⟨queue', _, hqueue', ((hsettled.mild hm).made hqueue₁ halive).mild hmade,
        ((hreaped.mild hm).made hqueue₁).mild hmade⟩
  | exit code =>
    obtain ⟨hrun, hcall⟩ := Option.ite_none_right_eq_some.mp ht
    obtain ⟨hidle, hinit⟩ := doExit_guard hcall
    obtain ⟨t', queue', ht', hqueue', hstirred, hsettled'⟩ :=
      hsettled.exit hqueue hrun hidle hinit code
    obtain rfl := Option.some.inj (ht'.symm.trans hcall)
    exact ⟨queue', _, hqueue', hsettled', hreaped.exit hrun hstirred⟩
  | wait pid =>
    obtain ⟨hrun, hcall⟩ := Option.ite_none_right_eq_some.mp ht
    obtain ⟨⟨found, t'⟩, hwait, rfl⟩ :=
      Option.map_eq_some_iff.mp (Option.ite_none_right_eq_some.mp hcall).2
    have hstored : s.stored pid = found := by
      unfold WaitRun.stored
      rw [hwait]
      rfl
    have hkept : found = none → (s.record (.wait pid) t').reaped = s.reaped := by
      intro hnone
      change (s.stored pid).toList ++ s.reaped = s.reaped
      rw [hstored, hnone]
      rfl
    obtain ⟨queue', hqueue'⟩ := hqueue.step ht
    rcases hsettled.doWait_cases hqueue hwait with
      ⟨c, hc, hzombie, hfound, rfl⟩ | ⟨hfound, hnone, rfl⟩ | ⟨hfound, rfl⟩
    · refine ⟨queue', _, hqueue', hsettled.reap hc hzombie, ?_⟩
      change Reaped _ s.exits ((s.stored pid).toList ++ s.reaped)
      rw [hstored, hfound]
      exact hreaped.reap hsettled.distinct ((hsettled.kin.mem _ _).mp hc).1 hzombie
    · refine ⟨queue', _, hqueue', hsettled.asleep hrun hnone, ?_⟩
      rw [hkept hfound]
      exact hreaped.asleep hrun pid
    · exact hmild rfl rfl (hkept hfound) (Mild.refl _)
  | kill p =>
    obtain ⟨hrun, hcall⟩ := Option.ite_none_right_eq_some.mp ht
    exact hmild rfl rfl rfl (Mild.kill hcall)
  | sleep time =>
    obtain ⟨hrun, hcall⟩ := Option.ite_none_right_eq_some.mp ht
    exact hmild rfl rfl rfl (Mild.sleep hrun (Option.ite_none_right_eq_some.mp hcall).2)
  | sleepEnd =>
    obtain ⟨hrun, hcall⟩ := Option.ite_none_right_eq_some.mp ht
    obtain rfl := Option.some.inj hcall
    exact hmild rfl rfl rfl (Mild.of_eq rfl rfl rfl rfl rfl)
  | down m =>
    obtain ⟨hrun, hcall⟩ := Option.ite_none_right_eq_some.mp ht
    obtain rfl := Option.some.inj (Option.ite_none_right_eq_some.mp hcall).2
    exact hmild rfl rfl rfl (Mild.down hrun m)
  | downEnd m =>
    obtain ⟨hrun, hcall⟩ := Option.ite_none_right_eq_some.mp ht
    exact hmild rfl rfl rfl (Mild.downEnd hcall)
  | up m =>
    obtain ⟨hrun, hcall⟩ := Option.ite_none_right_eq_some.mp ht
    exact hmild rfl rfl rfl (Mild.up hcall)
  | wakeup p =>
    obtain ⟨hrun, hcall⟩ := Option.ite_none_right_eq_some.mp ht
    have hw := (Option.ite_none_right_eq_some.mp hcall).2
    exact hmild rfl rfl rfl (Mild.of_woken (wakeupProc_woken hw))
  | yield =>
    obtain ⟨hrun, hcall⟩ := Option.ite_none_right_eq_some.mp ht
    obtain rfl := Option.some.inj hcall
    exact hmild rfl rfl rfl
      (Mild.of_field (fun _ => rfl) (fun _ => rfl) (fun _ => rfl) fun _ => rfl)

/-- The links of each process run through its children, and no process sleeps that waits for
any child while one of them is a zombie. -/
structure ProcTree (s : ProcTable) (children : ℕ → List ℕ) : Prop where
  row : ∀ p, Row (fun c => (s.rel c).optr) (fun c => (s.rel c).yptr) none (s.rel p).cptr
    (children p)
  mem : ∀ p c, c ∈ children p ↔ c ∈ s.procList ∧ (s.rel c).parent = p
  once : ∀ p, (children p).Nodup
  distinct : s.procList.Nodup
  count : s.nrProcess = s.procList.length + 1
  notified : ∀ p, (s.proc p).state = .sleeping → (s.proc p).waitState = wtChild →
    (s.proc p).waitPid = none → ∀ c ∈ children p, (s.proc c).state ≠ .zombie
  barren : ∀ p, (s.proc p).state = .zombie → children p = []

theorem Settled.procTree (h : Settled s children) : ProcTree s children :=
  ⟨h.kin.row, h.kin.mem, h.kin.nodup, h.distinct, h.count, fun p _ => h.notified p, h.barren⟩

/-- The last part is about the next exit: the children of that process go to `initproc`. -/
theorem process_tree (values : ℕ → ℤ) (ops : List ProcOp) (s : WaitRun)
    (h : runOps WaitRun.step (WaitRun.boot values) ops = some s) :
    ∃ children, ProcTree s.table children ∧ Reaped s.table s.exits s.reaped ∧
      ∀ code, (s.table.proc s.table.current).state = .runnable → s.table.current ≠ idleproc →
        s.table.current ≠ initproc → ∃ t, s.table.step (.exit code) = some t ∧
          ProcTree t (handedOver children s.table.current) := by
  obtain ⟨queue, children, hqueue, hsettled, hreaped⟩ :=
    runOps_invariant consistent_step (consistent_boot values) h
  refine ⟨children, hsettled.procTree, hreaped, ?_⟩
  intro code hrun hidle hinit
  obtain ⟨t, queue', ht, -, -, htree⟩ := hsettled.exit hqueue hrun hidle hinit code
  refine ⟨t, ?_, htree.procTree⟩
  change (if (s.table.proc s.table.current).state = .runnable then s.table.doExit code else none) =
    some t
  rw [if_pos hrun]
  exact ht

/-- A process exits with a zombie among its children while `initproc` waits for any child. -/
def twoExits : List ProcOp :=
  [.fork true true, .schedule, .fork true true, .wait none, .schedule, .fork true true, .schedule,
    .exit 9, .schedule, .exit 7, .schedule, .wait none, .wait none]

theorem process_tree_two_exits : ∃ s children,
    runOps WaitRun.step (WaitRun.boot fun _ => 1) twoExits = some s ∧
      ProcTree s.table children ∧ s.exits = [(2, 7), (3, 9)] ∧ s.reaped = [(2, 7), (3, 9)] := by
  have hrun : ((runOps WaitRun.step (WaitRun.boot fun _ => 1) twoExits).map fun s =>
      (s.exits, s.reaped)) = some ([(2, 7), (3, 9)], [(2, 7), (3, 9)]) := by decide
  obtain ⟨s, hs, hlists⟩ := Option.map_eq_some_iff.mp hrun
  obtain ⟨hexits, hreaped⟩ := Prod.mk.inj hlists
  obtain ⟨children, htree, -⟩ := process_tree (fun _ => 1) twoExits s hs
  exact ⟨s, children, hs, htree, hexits, hreaped⟩

end Ucore.Process.Table
