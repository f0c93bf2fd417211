import Ucore.Schedule.QueueRuns

/-!
How long a process waits in the queue of a class that keeps a list: behind the processes in front of
it, or behind those with no more runs than it has.
-/
namespace Ucore.Schedule

open Library

variable {P : Type*} [DecidableEq P]

namespace QueueSched

variable {c : QueueClass P} {k k' : QueueSched P} {p q : P} {ev : Event P} {evs : List (Event P)}

/-- The processes that a run picks, one for each `schedule`. -/
def picks (c : QueueClass P) : QueueSched P → List (Event P) → List P
  | _, [] => []
  | k, ev :: evs =>
    match k.step c ev with
    | none => []
    | some k' => if ev = .schedule then k'.current :: picks c k' evs else picks c k' evs

theorem picks_quiet (hs : k.step c ev = some k') (hev : ev ≠ .schedule) :
    picks c k (ev :: evs) = picks c k' evs := by
  rw [picks, hs]
  exact if_neg hev

theorem picks_schedule (hs : k.step c .schedule = some k') :
    picks c k (.schedule :: evs) = k'.current :: picks c k' evs := by
  rw [picks, hs]
  exact if_pos rfl

theorem picks_none (hs : k.step c ev = none) : picks c k (ev :: evs) = [] := by
  rw [picks, hs]

omit [DecidableEq P] in
/-- A shorter front of two lists that agree as far as one of them goes. -/
theorem take_agree {l m m' : List P} (hm : m <+: m') (h : l.take m'.length = m'.take l.length) :
    l.take m.length = m.take l.length := by
  obtain ⟨t, rfl⟩ := hm
  have hle : m.length ≤ (m ++ t).length := by
    rw [List.length_append]
    exact Nat.le_add_right _ _
  calc l.take m.length = (l.take (m ++ t).length).take m.length := by
        rw [List.take_take, Nat.min_eq_left hle]
    _ = ((m ++ t).take m.length).take l.length := by
        rw [h, List.take_take, List.take_take, Nat.min_comm]
    _ = m.take l.length := by rw [List.take_left]

/-- A class that picks the head serves the processes of the queue in their order. -/
theorem picks_in_order (hc : QueueLaw c) (hhead : ∀ k, c.pickNext k = k.rq.runList.head?)
    (h : k.Queued) (evs : List (Event P)) :
    (picks c k evs).take k.rq.runList.length = k.rq.runList.take (picks c k evs).length := by
  induction evs generalizing k with
  | nil =>
    rw [picks, List.take_nil]
    exact (List.take_zero).symm
  | cons ev evs ih =>
    cases hs : k.step c ev with
    | none =>
      rw [picks_none hs, List.take_nil]
      exact (List.take_zero).symm
    | some k' =>
      have hrest := ih (h.next hc hs)
      rcases h.step_cases hc hs with ⟨rfl, hsched⟩ | ⟨hev, hquiet⟩
      · rw [picks_schedule hs]
        cases hqueue : k.rq.runList with
        | nil => exact (List.take_nil).symm
        | cons x rest =>
          obtain ⟨behind, hbehind⟩ := k.waiting_eq
          rw [hqueue, List.cons_append] at hbehind
          obtain ⟨k₁, hwaiting, -, ⟨-, hempty, -⟩ | ⟨hpick, -, herase⟩⟩ := hsched.pick
          · exact absurd (hbehind.symm.trans hempty) (List.cons_ne_nil x _)
          · have hfirst : k'.current = x := by
              rw [hhead, hwaiting, hbehind, List.head?_cons] at hpick
              exact (Option.some.inj hpick).symm
            have hfront : rest <+: k'.rq.runList := by
              rw [herase, hfirst, hbehind, List.erase_cons_head]
              exact List.prefix_append _ _
            rw [hfirst, List.length_cons, List.length_cons, List.take_succ_cons,
              List.take_succ_cons, take_agree hfront hrest]
      · rw [picks_quiet hs hev]
        exact take_agree hquiet.queue hrest

/-- Round robin and first in first out pick what waits in the order of the queue: no process that
comes in later is before one that is there. -/
theorem first_come_first_served (kind : QueueKind) (hkind : kind ≠ .sjf) (idleproc : P)
    {before : List (Event P)}
    (hrun : runOps (step (kind.schedClass P)) (init (kind.schedClass P) idleproc) before = some k)
    (evs : List (Event P)) :
    (picks (kind.schedClass P) k evs).take k.rq.runList.length =
      k.rq.runList.take (picks (kind.schedClass P) k evs).length := by
  have hq := queued_of_run kind.law hrun
  refine picks_in_order kind.law ?_ hq evs
  cases kind with
  | rr => exact fun _ => rfl
  | fifo => exact fun _ => rfl
  | sjf => exact absurd rfl hkind

theorem first_come_first_served_two : ∃ k,
    runOps (step (rrClass ℕ)) (init (rrClass ℕ) 0) twoWoken = some k ∧ k.rq.runList = [2] ∧
      (picks (rrClass ℕ) k [.tick, .schedule, .schedule]).take 1 = [2] := by
  have hview : ((runOps (step (rrClass ℕ)) (init (rrClass ℕ) 0) twoWoken).map fun k =>
      (k.rq.runList, (picks (rrClass ℕ) k [.tick, .schedule, .schedule]).length)) =
        some ([2], 2) := by decide
  obtain ⟨k, hrun, hk⟩ := Option.map_eq_some_iff.mp hview
  obtain ⟨hqueue, hlength⟩ := Prod.mk.inj hk
  have horder := first_come_first_served .rr (by decide) 0 hrun [.tick, .schedule, .schedule]
  refine ⟨k, hrun, hqueue, ?_⟩
  change (picks (rrClass ℕ) k _).take _ = _ at horder
  rw [hqueue] at horder
  refine horder.trans (List.take_of_length_le ?_)
  change 1 ≤ (picks (rrClass ℕ) k _).length
  rw [hlength]
  decide

/-! `sched_sjf.c` -/

/-- What is picked before a process that waits has no more runs than that process. -/
theorem Scheduled.runs_le (h : k.Queued) (hs : Scheduled (sjfClass P) k k')
    (hp : p ∈ k.rq.runList) (hne : k'.current ≠ p) :
    (k.proc k'.current).runs ≤ (k.proc p).runs ∧ p ∈ k'.rq.runList := by
  have hin : p ∈ k.waiting := h.mem_waiting.mpr ((h.lists.mem p).mp hp).1
  obtain ⟨k₁, hwaiting, hsame, ⟨-, hempty, -⟩ | ⟨hpick, -, herase⟩⟩ := hs.pick
  · rw [hempty] at hin
    exact absurd hin List.not_mem_nil
  · constructor
    · change sjfPickNext k₁ = some k'.current at hpick
      rw [sjfPickNext_eq, hwaiting] at hpick
      have hle := List.le_of_mem_argmin hin hpick
      rwa [hsame.runs, hsame.runs] at hle
    · rw [herase]
      exact (List.mem_erase_of_ne (Ne.symm hne)).mpr hin

theorem sjf_count_le (h : k.Queued) (hp : p ∈ k.rq.runList) (evs : List (Event P))
    (hwait : p ∉ picks (sjfClass P) k evs) (q : P) :
    (picks (sjfClass P) k evs).count q ≤
      ((k.proc p).runs + 1 - (k.proc q).runs) +
        ((k.proc p).runs + 1) * evs.count (.alloc q) := by
  induction evs generalizing k with
  | nil =>
    rw [picks, List.count_nil]
    exact Nat.zero_le _
  | cons ev evs ih =>
    cases hs : k.step (sjfClass P) ev with
    | none =>
      rw [picks_none hs, List.count_nil]
      exact Nat.zero_le _
    | some k' =>
      have hwants := ((h.lists.mem p).mp hp).1
      rcases h.step_cases sjf_law hs with ⟨rfl, hsched⟩ | ⟨hev, hquiet⟩
      · rw [picks_schedule hs] at hwait ⊢
        obtain ⟨hne, hwait⟩ := not_or.mp (mt List.mem_cons.mpr hwait)
        obtain ⟨hle, hin⟩ := hsched.runs_le h hp (Ne.symm hne)
        have hbound := ih hsched.queued hin hwait
        rw [hsched.runs, hsched.runs, if_neg hne, Nat.add_zero] at hbound
        rw [List.count_cons, List.count_cons_of_ne (by simp)]
        by_cases hq : q = k'.current
        · obtain rfl := hq
          rw [if_pos rfl] at hbound
          rw [if_pos (beq_self_eq_true _)]
          omega
        · rw [if_neg hq, Nat.add_zero] at hbound
          rw [if_neg (by simpa using Ne.symm hq), Nat.add_zero]
          exact hbound
      · rw [picks_quiet hs hev] at hwait ⊢
        have hkept : ev ≠ .alloc p := by
          rintro rfl
          exact absurd hwants.1 (by rw [show k.allocated p = false from legal_of_step hs]; decide)
        have hbound := ih hquiet.queued (hquiet.queue.subset hp) hwait
        rw [hquiet.runs, hquiet.runs, if_neg hkept] at hbound
        by_cases hq : ev = .alloc q
        · subst hq
          rw [if_pos rfl, Nat.sub_zero] at hbound
          rw [List.count_cons_self, Nat.mul_succ]
          omega
        · rw [if_neg hq] at hbound
          rw [List.count_cons_of_ne hq]
          exact hbound

end QueueSched

end Ucore.Schedule
