import Ucore.Schedule.QueueClass

/-!
Runs of the classes that keep their processes in a list. Whatever happens, no process that wants to
run is lost.
-/
namespace Ucore.Schedule

open Library

variable {P : Type*} [DecidableEq P]

namespace QueueSched

variable {c : QueueClass P} {k k' : QueueSched P} {p q : P} {ev : Event P} {evs : List (Event P)}

/-! `schedule` -/

/-- What `schedule` does: it picks from the processes that wait, and takes the pick out. -/
structure Scheduled (c : QueueClass P) (k k' : QueueSched P) : Prop where
  queued : k'.Queued
  state : ∀ q, (k'.proc q).state = (k.proc q).state
  allocated : k'.allocated = k.allocated
  idleproc : k'.idleproc = k.idleproc
  runs : ∀ q, (k'.proc q).runs = (k.proc q).runs + if q = k'.current then 1 else 0
  pick : ∃ k₁, k₁.rq.runList = k.waiting ∧ SameProcs k k₁ ∧
    ((c.pickNext k₁ = none ∧ k.waiting = [] ∧ k'.current = k.idleproc ∧ k'.rq.runList = []) ∨
      (c.pickNext k₁ = some k'.current ∧ k'.current ∈ k.waiting ∧
        k'.rq.runList = k.waiting.erase k'.current))

theorem runNext_lists {S : P → Prop} (h : k.Lists S) : (k.runNext p).Lists S := by
  have hset : (k.setProc p { k.proc p with runs := (k.proc p).runs + 1 }).Lists S := h.setProc rfl
  exact ⟨hset.nodup, hset.count, hset.marked, hset.mem⟩

theorem runNext_state (k : QueueSched P) (p q : P) :
    ((k.runNext p).proc q).state = (k.proc q).state := by
  change (Function.update k.proc p _ q).state = _
  by_cases hq : q = p
  · obtain rfl := hq
    rw [Function.update_self]
  · rw [Function.update_of_ne hq]

theorem runNext_runs (k : QueueSched P) (p q : P) :
    ((k.runNext p).proc q).runs = (k.proc q).runs + if q = p then 1 else 0 := by
  change (Function.update k.proc p _ q).runs = _
  by_cases hq : q = p
  · obtain rfl := hq
    rw [Function.update_self, if_pos rfl]
  · rw [Function.update_of_ne hq, if_neg hq, Nat.add_zero]

/-- The chosen process runs, and the queue holds the others. -/
theorem runNext_queued {k₁ : QueueSched P} (h : k.Queued) (hsame : SameProcs k k₁)
    (hlists : k₁.Lists fun q => k.Wants q ∧ q ≠ p) (hp : k.allocated p = true) :
    (k₁.runNext p).Queued where
  lists := by
    refine (runNext_lists hlists).congr ?_
    intro q
    unfold Wants
    rw [runNext_state, hsame.state]
    change _ ↔ (k₁.allocated q = true ∧ _ ∧ q ≠ k₁.idleproc) ∧ q ≠ p
    rw [hsame.allocated, hsame.idleproc]
  current := by
    change k₁.allocated p = true
    rw [hsame.allocated, hp]
  idle := by
    rw [runNext_state, hsame.state]
    change k₁.allocated k₁.idleproc = true ∧ (k.proc k₁.idleproc).state = .runnable
    rw [hsame.allocated, hsame.idleproc]
    exact h.idle

theorem Queued.schedule (hc : QueueLaw c) (h : k.Queued) :
    ∃ k', k.schedule c = some k' ∧ Scheduled c k k' := by
  obtain ⟨k₁, hback, hlists, hsame, hqueue⟩ := h.putBack hc
  have hruns : ∀ {k₂ : QueueSched P} {p : P}, SameProcs k k₂ → ∀ q,
      ((k₂.runNext p).proc q).runs = (k.proc q).runs + if q = p then 1 else 0 := by
    intro k₂ p hsame₂ q
    rw [runNext_runs, hsame₂.runs]
  have hstate : ∀ {k₂ : QueueSched P} {p : P}, SameProcs k k₂ → ∀ q,
      ((k₂.runNext p).proc q).state = (k.proc q).state := by
    intro k₂ p hsame₂ q
    rw [runNext_state, hsame₂.state]
  unfold QueueSched.schedule
  rw [hback, Option.bind_some, hc.dequeue]
  cases hpick : c.pickNext k₁ with
  | none =>
    have hempty := (hc.pick_none k₁).mp hpick
    have hidle : k₁.Lists fun q => k.Wants q ∧ q ≠ k.idleproc :=
      hlists.congr fun q => ⟨fun hq => ⟨hq, hq.2.2⟩, fun hq => hq.1⟩
    refine ⟨_, rfl, ?_, hstate hsame, hsame.allocated, hsame.idleproc, hruns hsame, ?_⟩
    · rw [hsame.idleproc]
      exact runNext_queued h hsame hidle h.idle.1
    · refine ⟨k₁, hqueue, hsame, Or.inl ⟨hpick, ?_, hsame.idleproc, hempty⟩⟩
      rw [← hqueue, hempty]
  | some p =>
    have hin := hc.pick_mem k₁ p hpick
    have hwants := (hlists.mem p).mp hin
    obtain ⟨k₂, hdeq, hlists₂, hsame₂, herase⟩ := hlists.dequeue hwants
    have hall := hsame.trans hsame₂
    refine ⟨k₂.runNext p, ?_, runNext_queued h hall hlists₂ hwants.1, hstate hall, hall.allocated,
      hall.idleproc, hruns hall, k₁, hqueue, hsame, Or.inr ⟨hpick, hqueue ▸ hin, ?_⟩⟩
    · dsimp only
      rw [hdeq]
      rfl
    · rw [← hqueue]
      exact herase

/-! The other events. -/

/-- The caller of an event keeps to what `proc.c` does: a block is not handed out twice, a zombie is
not woken up, and only a running process puts itself to sleep or ends. -/
def Legal (k : QueueSched P) : Event P → Prop
  | .alloc p => k.allocated p = false
  | .wakeup p => k.allocated p = true ∧ (k.proc p).state ≠ .zombie
  | .sleep => k.current ≠ k.idleproc ∧ (k.proc k.current).state = .runnable
  | .exit => k.current ≠ k.idleproc ∧ (k.proc k.current).state = .runnable
  | .reap p => k.allocated p = true ∧ (k.proc p).state = .zombie ∧ p ≠ k.current
  | .setPriority _ => True
  | .tick => True
  | .schedule => True

/-- What an event other than `schedule` leaves: the running process, and the queue but for a process
that comes in at its end. -/
structure Quiet (k k' : QueueSched P) (ev : Event P) : Prop where
  queued : k'.Queued
  current : k'.current = k.current
  idleproc : k'.idleproc = k.idleproc
  queue : k.rq.runList <+: k'.rq.runList
  runs : ∀ q, (k'.proc q).runs = if ev = .alloc q then 0 else (k.proc q).runs

omit [DecidableEq P] in
/-- The queue and the other processes that want to run stay. -/
theorem Lists.queued (hlists : k'.Lists fun q => k.Wants q ∧ q ≠ k.current)
    (hwants : ∀ q, q ≠ k.current → (k'.Wants q ↔ k.Wants q)) (hcur : k'.current = k.current)
    (hcurrent : k'.allocated k.current = true)
    (hidle : k'.allocated k'.idleproc = true ∧ (k'.proc k'.idleproc).state = .runnable) :
    k'.Queued where
  lists := by
    refine hlists.congr ?_
    intro q
    rw [hcur]
    exact ⟨fun hq => ⟨(hwants q hq.2).mpr hq.1, hq.2⟩, fun hq => ⟨(hwants q hq.2).mp hq.1, hq.2⟩⟩
  current := by
    rw [hcur]
    exact hcurrent
  idle := hidle

/-- The running process changes outside of the queue. -/
theorem Queued.setCurrent (h : k.Queued) {v : ProcStruct} (hrq : v.rq = (k.proc k.current).rq)
    (hruns : v.runs = (k.proc k.current).runs)
    (hstate : k.current = k.idleproc → v.state = .runnable) (hev : ∀ q, ev ≠ .alloc q) :
    Quiet k (k.setProc k.current v) ev where
  queued := by
    refine (h.lists.setProc hrq).queued ?_ rfl h.current ⟨h.idle.1, ?_⟩
    · intro q hq
      unfold Wants QueueSched.setProc
      dsimp only
      rw [Function.update_of_ne hq]
    · unfold QueueSched.setProc
      dsimp only
      by_cases hcur : k.idleproc = k.current
      · rw [hcur, Function.update_self]
        exact hstate hcur.symm
      · rw [Function.update_of_ne hcur]
        exact h.idle.2
  current := rfl
  idleproc := rfl
  queue := List.prefix_refl _
  runs q := by
    rw [if_neg (hev q)]
    exact setProc_field ProcStruct.runs hruns q

theorem Queued.quiet_refl (h : k.Queued) (hev : ∀ q, ev ≠ .alloc q) : Quiet k k ev :=
  ⟨h, rfl, rfl, List.prefix_refl _, fun q => (if_neg (hev q)).symm⟩

/-- A new process is in a block that was not in use. -/
theorem Queued.alloc (h : k.Queued) (hp : k.allocated p = false) :
    Quiet k { k.setProc p freshProc with allocated := Function.update k.allocated p true }
      (.alloc p) where
  queued := by
    have hcur : k.current ≠ p := by
      rintro rfl
      exact absurd h.current (by rw [hp]; decide)
    have hidle : k.idleproc ≠ p := by
      rintro rfl
      exact absurd h.idle.1 (by rw [hp]; decide)
    have hrq : freshProc.rq = (k.proc p).rq := by
      refine (Bool.eq_false_iff.mpr fun hrq => ?_).symm
      have hwants := ((h.lists.mem p).mp ((h.lists.marked p).mp hrq)).1
      exact absurd hwants.1 (by rw [hp]; decide)
    have hset : (k.setProc p freshProc).Lists fun q => k.Wants q ∧ q ≠ k.current :=
      h.lists.setProc hrq
    refine Lists.queued ⟨hset.nodup, hset.count, hset.marked, hset.mem⟩ ?_ rfl ?_ ⟨?_, ?_⟩
    · intro q _
      change (Function.update k.allocated p true q = true ∧
        (Function.update k.proc p freshProc q).state = .runnable ∧ q ≠ k.idleproc) ↔ k.Wants q
      by_cases hq : q = p
      · obtain rfl := hq
        rw [Function.update_self, Function.update_self]
        refine ⟨fun hbad => absurd hbad.2.1 (by decide), fun hwants => ?_⟩
        exact absurd hwants.1 (by rw [hp]; decide)
      · rw [Function.update_of_ne hq, Function.update_of_ne hq]
        exact Iff.rfl
    · change Function.update k.allocated p true k.current = true
      rw [Function.update_of_ne hcur]
      exact h.current
    · change Function.update k.allocated p true k.idleproc = true
      rw [Function.update_of_ne hidle]
      exact h.idle.1
    · change (Function.update k.proc p freshProc k.idleproc).state = .runnable
      rw [Function.update_of_ne hidle]
      exact h.idle.2
  current := rfl
  idleproc := rfl
  queue := List.prefix_refl _
  runs q := by
    change (Function.update k.proc p freshProc q).runs = _
    by_cases hq : q = p
    · obtain rfl := hq
      rw [Function.update_self, if_pos rfl]
      rfl
    · rw [Function.update_of_ne hq, if_neg (fun heq => hq (Event.alloc.inj heq).symm)]

/-- A dead process does not want to run. -/
theorem Queued.reap (h : k.Queued) (hp : Legal k (.reap p)) :
    Quiet k { k with allocated := Function.update k.allocated p false } (.reap p) where
  queued := by
    have hidle : k.idleproc ≠ p := by
      rintro rfl
      exact absurd (h.idle.2.symm.trans hp.2.1) (by decide)
    refine Lists.queued ⟨h.lists.nodup, h.lists.count, h.lists.marked, h.lists.mem⟩ ?_ rfl ?_
      ⟨?_, h.idle.2⟩
    · intro q _
      change (Function.update k.allocated p false q = true ∧ _ ∧ _) ↔ k.Wants q
      by_cases hq : q = p
      · obtain rfl := hq
        refine ⟨fun hbad => ?_, fun hwants => ?_⟩
        · exact absurd (hbad.2.1.symm.trans hp.2.1) (by decide)
        · exact absurd (hwants.2.1.symm.trans hp.2.1) (by decide)
      · rw [Function.update_of_ne hq]
        exact Iff.rfl
    · change Function.update k.allocated p false k.current = true
      rw [Function.update_of_ne hp.2.2.symm]
      exact h.current
    · change Function.update k.allocated p false k.idleproc = true
      rw [Function.update_of_ne hidle]
      exact h.idle.1
  current := rfl
  idleproc := rfl
  queue := List.prefix_refl _
  runs q := (if_neg (by simp)).symm

/-- A process that is woken up comes in at the end, unless it still runs. -/
theorem Queued.wakeup (hc : QueueLaw c) (h : k.Queued) (hp : Legal k (.wakeup p)) :
    ∃ k', k.wakeupProc c p = some k' ∧ Quiet k k' (.wakeup p) := by
  have hev : ∀ q, Event.wakeup p ≠ .alloc q := by simp
  unfold wakeupProc
  rw [if_neg hp.2]
  by_cases hrun : (k.proc p).state = .runnable
  · rw [if_neg (not_not.mpr hrun)]
    exact ⟨k, rfl, h.quiet_refl hev⟩
  · rw [if_pos hrun]
    have hidle : p ≠ k.idleproc := by
      rintro rfl
      exact hrun h.idle.2
    dsimp only
    by_cases hcur : p = k.current
    · subst hcur
      rw [if_neg (by simp [QueueSched.setProc])]
      exact ⟨_, rfl, h.setCurrent rfl rfl (fun _ => rfl) hev⟩
    · have hset : (k.setProc p { k.proc p with state := .runnable }).Lists
          (fun q => k.Wants q ∧ q ≠ k.current) := h.lists.setProc rfl
      obtain ⟨k', hk', hlists, hsame, hqueue⟩ := hset.enqueue (fun hbad => hrun hbad.1.2.1)
      have hstate : ∀ q, (k'.proc q).state = if q = p then .runnable else (k.proc q).state := by
        intro q
        rw [hsame.state]
        change (Function.update k.proc p _ q).state = _
        by_cases hq : q = p
        · obtain rfl := hq
          rw [Function.update_self, if_pos rfl]
        · rw [Function.update_of_ne hq, if_neg hq]
      have halloc : k'.allocated = k.allocated := hsame.allocated
      have hidle' : k'.idleproc = k.idleproc := hsame.idleproc
      have hcur' : k'.current = k.current := hsame.current
      have hrq : (if p ≠ (k.setProc p { k.proc p with state := .runnable }).current then
          (k.setProc p { k.proc p with state := .runnable }).schedClassEnqueue c p
          else some (k.setProc p { k.proc p with state := .runnable })) = some k' := by
        refine (if_pos hcur).trans ((if_pos hidle).trans ?_)
        rw [hc.enqueue]
        exact hk'
      refine ⟨k', hrq, ⟨hlists.congr ?_, ?_, ?_⟩, hcur', hidle', ?_, ?_⟩
      · intro q
        unfold Wants
        rw [halloc, hidle', hcur', hstate]
        by_cases hq : q = p
        · obtain rfl := hq
          rw [if_pos rfl]
          exact ⟨fun _ => ⟨⟨hp.1, rfl, hidle⟩, hcur⟩, fun _ => Or.inr rfl⟩
        · rw [if_neg hq]
          exact ⟨fun hor => hor.resolve_right hq, Or.inl⟩
      · rw [halloc, hcur']
        exact h.current
      · rw [halloc, hidle', hstate, if_neg (Ne.symm hidle)]
        exact h.idle
      · rw [hqueue]
        exact List.prefix_append _ _
      · intro q
        rw [if_neg (hev q), hsame.runs]
        exact setProc_field (v := { k.proc p with state := .runnable }) ProcStruct.runs rfl q

/-- Every event that its caller may cause has a result, so no assertion fails. -/
theorem Queued.step (hc : QueueLaw c) (h : k.Queued) (hlegal : k.Legal ev) :
    ∃ k', k.step c ev = some k' ∧
      ((ev = .schedule ∧ Scheduled c k k') ∨ (ev ≠ .schedule ∧ Quiet k k' ev)) := by
  cases ev with
  | alloc p =>
    refine ⟨_, if_neg ?_, Or.inr ⟨by simp, h.alloc hlegal⟩⟩
    change k.allocated p = false at hlegal
    simp [hlegal]
  | wakeup p =>
    obtain ⟨k', hk', hquiet⟩ := h.wakeup hc hlegal
    exact ⟨k', (if_pos hlegal.1).trans hk', Or.inr ⟨by simp, hquiet⟩⟩
  | sleep =>
    refine ⟨_, if_pos hlegal, Or.inr ⟨by simp, h.setCurrent rfl rfl ?_ (by simp)⟩⟩
    exact fun hidle => absurd hidle hlegal.1
  | exit =>
    refine ⟨_, if_pos hlegal, Or.inr ⟨by simp, h.setCurrent rfl rfl ?_ (by simp)⟩⟩
    exact fun hidle => absurd hidle hlegal.1
  | reap p => exact ⟨_, if_pos hlegal, Or.inr ⟨by simp, h.reap hlegal⟩⟩
  | setPriority priority =>
    refine ⟨_, rfl, Or.inr ⟨by simp, h.setCurrent rfl rfl ?_ (by simp)⟩⟩
    intro hidle
    dsimp only
    rw [hidle]
    exact h.idle.2
  | tick =>
    have hrunning : k.current = k.idleproc → (k.proc k.current).state = .runnable := by
      intro hidle
      rw [hidle]
      exact h.idle.2
    refine ⟨_, rfl, Or.inr ⟨by simp, ?_⟩⟩
    unfold schedClassProcTick
    rw [hc.procTick]
    split
    · exact h.setCurrent rfl rfl hrunning (by simp)
    · exact h.setCurrent rfl rfl hrunning (by simp)
  | schedule =>
    obtain ⟨k', hk', hsched⟩ := h.schedule hc
    exact ⟨k', hk', Or.inl ⟨rfl, hsched⟩⟩

theorem legal_of_step (h : k.step c ev = some k') : k.Legal ev := by
  cases ev with
  | alloc p =>
    refine Bool.eq_false_iff.mpr fun hp => ?_
    exact absurd ((if_pos hp).symm.trans h) (by simp)
  | wakeup p =>
    refine ⟨?_, fun hz => ?_⟩
    · by_contra hp
      exact absurd ((if_neg hp).symm.trans h) (by simp)
    · have hnone : k.wakeupProc c p = none := if_pos hz
      rw [step, hnone, ite_self] at h
      exact absurd h (by simp)
  | sleep =>
    by_contra hno
    exact absurd ((if_neg hno).symm.trans h) (by simp)
  | exit =>
    by_contra hno
    exact absurd ((if_neg hno).symm.trans h) (by simp)
  | reap p =>
    by_contra hno
    exact absurd ((if_neg hno).symm.trans h) (by simp)
  | setPriority priority => trivial
  | tick => trivial
  | schedule => trivial

/-- What a step does in a state of a run. -/
theorem Queued.step_cases (hc : QueueLaw c) (h : k.Queued) (hs : k.step c ev = some k') :
    (ev = .schedule ∧ Scheduled c k k') ∨ (ev ≠ .schedule ∧ Quiet k k' ev) := by
  obtain ⟨k₁, hk₁, hcases⟩ := h.step hc (legal_of_step hs)
  obtain rfl := Option.some.inj (hs.symm.trans hk₁)
  exact hcases

theorem queued_init (hc : QueueLaw c) (idleproc : P) : (init c idleproc).Queued := by
  have hempty : (init c idleproc).rq.runList = [] := by
    unfold init
    rw [hc.init]
    rfl
  have hcount : (init c idleproc).rq.procNum = 0 := by
    unfold init
    rw [hc.init]
    rfl
  have halloc : ∀ p, (init c idleproc).allocated p = true ↔ p = idleproc := by
    intro p
    change Function.update (fun _ => false) idleproc true p = true ↔ _
    by_cases hp : p = idleproc
    · subst hp
      rw [Function.update_self]
      simp
    · rw [Function.update_of_ne hp]
      simp [hp]
  refine ⟨⟨?_, ?_, ?_, ?_⟩, (halloc idleproc).mpr rfl, (halloc idleproc).mpr rfl, ?_⟩
  · rw [hempty]
    exact List.nodup_nil
  · rw [hempty, hcount]
    rfl
  · intro p
    rw [hempty]
    change (Function.update (fun _ => freshProc) idleproc _ p).rq = true ↔ _
    by_cases hp : p = idleproc
    · subst hp
      rw [Function.update_self]
      exact ⟨fun hbad => absurd hbad (by decide), fun hbad => absurd hbad List.not_mem_nil⟩
    · rw [Function.update_of_ne hp]
      exact ⟨fun hbad => absurd hbad (by decide), fun hbad => absurd hbad List.not_mem_nil⟩
  · intro p
    rw [hempty]
    refine ⟨fun hbad => absurd hbad List.not_mem_nil, fun hp => ?_⟩
    exact absurd ((halloc p).mp hp.1.1) hp.1.2.2
  · change (Function.update (fun _ => freshProc) idleproc _ idleproc).state = .runnable
    rw [Function.update_self]

theorem Queued.next (hc : QueueLaw c) (h : k.Queued) (hs : k.step c ev = some k') : k'.Queued := by
  rcases h.step_cases hc hs with ⟨-, hsched⟩ | ⟨-, hquiet⟩
  · exact hsched.queued
  · exact hquiet.queued

theorem queued_of_run (hc : QueueLaw c) {idleproc : P}
    (hrun : runOps (step c) (init c idleproc) evs = some k) : k.Queued :=
  runOps_invariant (fun _ _ _ h hs => h.next hc hs) (queued_init hc idleproc) hrun

/-- Only the running process joins the queue, at its end. -/
theorem waiting_eq (k : QueueSched P) :
    ∃ behind, k.waiting = k.rq.runList ++ behind := by
  unfold waiting
  split
  · exact ⟨[k.current], rfl⟩
  · exact ⟨[], (List.append_nil _).symm⟩

/-- All that wait for the pick want to run, and no other process does. -/
theorem Queued.mem_waiting (h : k.Queued) : p ∈ k.waiting ↔ k.Wants p := by
  have hlisted := h.lists.mem p
  unfold waiting
  split
  · rename_i hcur
    rw [List.mem_append, List.mem_singleton, hlisted]
    constructor
    · rintro (hp | rfl)
      · exact hp.1
      · exact ⟨h.current, hcur.2, hcur.1⟩
    · exact fun hp => (em (p = k.current)).elim Or.inr fun hne => Or.inl ⟨hp, hne⟩
  · rename_i hcur
    rw [hlisted]
    refine ⟨fun hp => hp.1, fun hp => ⟨hp, ?_⟩⟩
    rintro rfl
    exact hcur ⟨hp.2.2, hp.2.1⟩

theorem Scheduled.wants (hs : Scheduled c k k') : k'.Wants p ↔ k.Wants p := by
  unfold Wants
  rw [hs.allocated, hs.state, hs.idleproc]

theorem Scheduled.current_wants (h : k.Queued) (hs : Scheduled c k k')
    (hcur : k'.current ≠ k'.idleproc) : k'.Wants k'.current := by
  obtain ⟨k₁, -, -, ⟨-, -, hidle, -⟩ | ⟨-, hin, -⟩⟩ := hs.pick
  · exact absurd (hidle.trans hs.idleproc.symm) hcur
  · exact hs.wants.mpr (h.mem_waiting.mp hin)

/-- The processor idles only if no process wants to run. -/
theorem Scheduled.idle_iff (h : k.Queued) (hs : Scheduled c k k') :
    k'.current = k'.idleproc ↔ ∀ p, ¬ k'.Wants p := by
  obtain ⟨k₁, -, -, hnone | hsome⟩ := hs.pick
  · obtain ⟨-, hempty, hcur, -⟩ := hnone
    refine ⟨fun _ p hp => ?_, fun _ => by rw [hcur, hs.idleproc]⟩
    have hin := h.mem_waiting.mpr (hs.wants.mp hp)
    rw [hempty] at hin
    exact absurd hin List.not_mem_nil
  · obtain ⟨-, hin, -⟩ := hsome
    have hwants := hs.wants.mpr (h.mem_waiting.mp hin)
    exact ⟨fun hidle => absurd hidle hwants.2.2, fun hno => absurd hwants (hno _)⟩

/-! The three classes. -/

inductive QueueKind where
  | rr
  | fifo
  | sjf
deriving DecidableEq

/-- The class that `sched_init` installs. -/
def QueueKind.schedClass (P : Type*) [DecidableEq P] : QueueKind → QueueClass P
  | .rr => rrClass P
  | .fifo => fifoClass P
  | .sjf => sjfClass P

theorem QueueKind.law (kind : QueueKind) : QueueLaw (kind.schedClass P) :=
  match kind with
  | .rr => rr_law
  | .fifo => fifo_law
  | .sjf => sjf_law

/-- After any run the queue holds the processes that want to run and do not run yet, each of them
once. An assertion fails only if a caller breaks its own rules, and the processor idles only if no
process wants to run. -/
theorem queue_classes_conserve (kind : QueueKind) (idleproc : P)
    (hrun : runOps (step (kind.schedClass P)) (init (kind.schedClass P) idleproc) evs = some k) :
    (k.rq.runList.Nodup ∧ k.rq.procNum = k.rq.runList.length ∧
      (∀ p, (k.proc p).rq = true ↔ p ∈ k.rq.runList) ∧
      ∀ p, p ∈ k.rq.runList ↔ k.Wants p ∧ p ≠ k.current) ∧
    (∀ ev, (k.step (kind.schedClass P) ev).isSome = true ↔ k.Legal ev) ∧
    ∀ k', k.step (kind.schedClass P) .schedule = some k' →
      (∀ p, k'.Wants p ↔ k.Wants p) ∧ (k'.current ≠ k'.idleproc → k'.Wants k'.current) ∧
      (k'.current = k'.idleproc ↔ ∀ p, ¬ k'.Wants p) := by
  have hq := queued_of_run kind.law hrun
  refine ⟨⟨hq.lists.nodup, hq.lists.count, hq.lists.marked, hq.lists.mem⟩, ?_, ?_⟩
  · intro ev
    constructor
    · intro hsome
      obtain ⟨k', hk'⟩ := Option.isSome_iff_exists.mp hsome
      exact legal_of_step hk'
    · intro hlegal
      obtain ⟨k', hk', -⟩ := hq.step kind.law hlegal
      rw [hk']
      rfl
  · intro k' hk'
    rcases hq.step_cases kind.law hk' with ⟨-, hsched⟩ | ⟨hno, -⟩
    · exact ⟨fun p => hsched.wants, hsched.current_wants hq, hsched.idle_iff hq⟩
    · exact absurd rfl hno

/-- Two processes that are woken up, of which one is picked. -/
def twoWoken : List (Event ℕ) := [.alloc 1, .wakeup 1, .alloc 2, .wakeup 2, .schedule]

theorem queue_classes_conserve_two : ∃ k,
    runOps (step (sjfClass ℕ)) (init (sjfClass ℕ) 0) twoWoken = some k ∧
      k.current = 1 ∧ k.rq.runList = [2] ∧ (2 ∈ k.rq.runList ↔ k.Wants 2 ∧ 2 ≠ k.current) := by
  have hview : ((runOps (step (sjfClass ℕ)) (init (sjfClass ℕ) 0) twoWoken).map
      fun k => (k.current, k.rq.runList)) = some (1, [2]) := by decide
  obtain ⟨k, hrun, hk⟩ := Option.map_eq_some_iff.mp hview
  obtain ⟨hcurrent, hqueue⟩ := Prod.mk.inj hk
  obtain ⟨⟨-, -, -, hmem⟩, -⟩ := queue_classes_conserve .sjf 0 hrun
  exact ⟨k, hrun, hcurrent, hqueue, hmem 2⟩

end QueueSched

end Ucore.Schedule
