import Ucore.Sync.Monitor

/-!
Any number of threads in the routines of a monitor, in any order: at most one is inside, the
counters are right, and a thread that is signalled runs next.
-/
namespace Ucore.Sync

open Library

variable {P C D : Type*} [DecidableEq P] [DecidableEq C]

/-- The stage from which a thread calls `down` on a semaphore. -/
def beforeStage : MonitorSem C → Stage C
  | .mutex => .outside
  | .next => .beforeNext
  | .cv c => .beforeWait c

namespace Monitor

/-- A thread waiting on a condition was woken and did not run yet. -/
def Woken (m : Monitor P C D) (c : C) : Prop :=
  0 < (m.sems.sem (.cv c)).value ∨ ∃ q, m.stage q = .waiting c ∧ q ∉ (m.sems.sem (.cv c)).queue

/-- The variables that only a thread inside the monitor changes. -/
structure Unchanged (m m' : Monitor P C D) : Prop where
  nextCount : m'.nextCount = m.nextCount
  count : m'.count = m.count
  data : m'.data = m.data

/-- The discipline of a Hoare monitor. -/
structure Discipline (m : Monitor P C D) : Prop where
  exclusive : ∀ p q, m.stage p = .inside → m.stage q = .inside → p = q
  counted : Counted m
  signals : ∀ p c m', m.stage p = .inside → 0 < m.count c → m.step (.condSignal p c) = some m' →
    m'.Woken c
  handOver : ∀ c, m.Woken c → (∀ p, m.stage p ≠ .inside) ∧
    ∀ op m', m.Enabled op → m.step op = some m' → m'.Woken c ∧ m.Unchanged m' ∨
      ∃ p, (m.stage p = .beforeWait c ∨ m.stage p = .waiting c) ∧ m'.stage p = .inside

structure Inv (m : Monitor P C D) : Prop where
  tokened : ∃ tok, Tokened m.sems m.stage tok
  counted : Counted m

variable {m : Monitor P C D} {p : P} {s : MonitorSem C}

omit [DecidableEq P] in
theorem inv_init (data : D) : (init data : Monitor P C D).Inv := by
  refine ⟨⟨.unit .mutex, Sems.sound_init ?_, fun _ => rfl, ?_, ?_, ?_⟩,
    ⟨Headcount.zero (fun _ => id), fun c => Headcount.zero (fun _ => id)⟩⟩
  · intro t
    split
    · omega
    · omega
  · intro t ht
    rw [← Token.unit.inj ht]
    rfl
  · intro t ht
    have hne : t ≠ .mutex := fun heq => ht (heq ▸ rfl)
    simp only [init, Sems.init, hne, if_false]
  · intro q
    refine ⟨?_, fun heq => by cases heq⟩
    intro hholds
    rcases hholds with hin | ⟨t, ht, _⟩
    · cases hin
    · have hbad := congrArg placeOf ht
      rw [placeOf_sleepStage] at hbad
      cases hbad

omit [DecidableEq C] in
/-- A change of stage of one thread that no counter is about. -/
theorem Counted.setStage (h : Counted m) {st : Stage C}
    (hnext : st.Signalling ↔ (m.stage p).Signalling)
    (hcv : ∀ c, st.WaitsOn c ↔ (m.stage p).WaitsOn c) : Counted (m.setStage p st) :=
  ⟨h.next.update_same (R := Stage.Signalling) hnext,
    fun c => (h.cv c).update_same (R := Stage.WaitsOn c) (hcv c)⟩

omit [DecidableEq C] in
/-- Going to sleep in a `down` does not change who is counted. -/
theorem Counted.sleep (h : Counted m) (hp : m.stage p = beforeStage s) :
    Counted (m.setStage p (sleepStage s)) := by
  apply h.setStage
  · rw [hp]
    cases s <;> exact Iff.rfl
  · intro c
    rw [hp]
    cases s <;> exact Iff.rfl

/-- The code behind a `down` brings the counters up to date. -/
theorem Counted.afterDown (h : Counted m)
    (hp : m.stage p = beforeStage s ∨ m.stage p = sleepStage s) : Counted (m.afterDown p s) := by
  cases s with
  | mutex =>
    apply h.setStage
    · rcases hp with hp | hp <;> rw [hp] <;> exact Iff.rfl
    · intro c
      rcases hp with hp | hp <;> rw [hp] <;> exact Iff.rfl
  | next =>
    constructor
    · refine h.next.update_remove (R := Stage.Signalling) ?_ id
      rcases hp with hp | hp <;> rw [hp] <;> trivial
    · intro c
      apply (h.cv c).update_same (R := Stage.WaitsOn c)
      rcases hp with hp | hp <;> rw [hp] <;> exact Iff.rfl
  | cv d =>
    constructor
    · apply h.next.update_same (R := Stage.Signalling)
      rcases hp with hp | hp <;> rw [hp] <;> exact Iff.rfl
    · intro c
      change Headcount (fun q => (Function.update m.stage p .inside q).WaitsOn c)
        (Function.update m.count d (m.count d - 1) c)
      by_cases hc : c = d
      · subst hc
        rw [Function.update_self]
        refine (h.cv c).update_remove (R := Stage.WaitsOn c) ?_ id
        rcases hp with hp | hp <;> rw [hp] <;> exact rfl
      · rw [Function.update_of_ne hc]
        apply (h.cv c).update_same (R := Stage.WaitsOn c)
        have hdc : ¬ d = c := fun heq => hc heq.symm
        constructor
        · intro hin
          cases hin
        · intro hwait
          rcases hp with hp | hp
          · rw [hp] at hwait
            exact absurd hwait hdc
          · rw [hp] at hwait
            exact absurd hwait hdc

theorem sems_afterDown (m : Monitor P C D) (p : P) (s : MonitorSem C) :
    (m.afterDown p s).sems = m.sems := by
  cases s with
  | mutex => rfl
  | next => rfl
  | cv c => rfl

theorem stage_afterDown (m : Monitor P C D) (p : P) (s : MonitorSem C) :
    (m.afterDown p s).stage = Function.update m.stage p .inside := by
  cases s with
  | mutex => rfl
  | next => rfl
  | cv c => rfl

omit [DecidableEq C] in
theorem placeOf_beforeStage (s : MonitorSem C) : placeOf (beforeStage s) = .outside := by
  cases s with
  | mutex => rfl
  | next => rfl
  | cv c => rfl

omit [DecidableEq C] in
theorem beforeStage_ne_inside (s : MonitorSem C) : beforeStage s ≠ .inside := by
  cases s with
  | mutex => intro h; cases h
  | next => intro h; cases h
  | cv c => intro h; cases h

/-- `down` in a routine: the thread goes inside with the unit it found, or sleeps. -/
theorem Inv.startDown (h : m.Inv) (hp : m.stage p = beforeStage s) : (m.startDown p s).Inv := by
  obtain ⟨tok, htok⟩ := h.tokened
  have hout : placeOf (m.stage p) = .outside := by rw [hp, placeOf_beforeStage]
  have hne : m.stage p ≠ .inside := by
    rw [hp]
    exact beforeStage_ne_inside s
  unfold Monitor.startDown
  rcases htok.acquire hout hne s with ⟨hv, _, hnew⟩ | ⟨hv, hnew⟩
  · rw [if_pos hv]
    refine ⟨⟨.thread p, ?_⟩, ?_⟩
    · rw [sems_afterDown, stage_afterDown]
      exact hnew
    · apply Counted.afterDown
      · exact ⟨h.counted.next, h.counted.cv⟩
      · exact Or.inl hp
  · rw [if_neg hv]
    refine ⟨⟨tok, hnew⟩, ?_⟩
    apply Counted.sleep
    · exact ⟨h.counted.next, h.counted.cv⟩
    · exact hp

/-- `down` behind `schedule`. -/
theorem Inv.endDown (h : m.Inv) (hp : m.stage p = sleepStage s)
    (hrun : (m.sems.proc p).state = .runnable) :
    ∃ m', m.endDown p s = some m' ∧ m'.Inv ∧ m'.stage = Function.update m.stage p .inside := by
  obtain ⟨tok, htok⟩ := h.tokened
  obtain ⟨sems, hend, _, hnew⟩ := htok.resume hp hrun
  refine ⟨_, by rw [Monitor.endDown, hend]; rfl, ⟨⟨.thread p, ?_⟩, ?_⟩, ?_⟩
  · rw [sems_afterDown, stage_afterDown]
    exact hnew
  · apply Counted.afterDown
    · exact ⟨h.counted.next, h.counted.cv⟩
    · exact Or.inr hp
  · rw [stage_afterDown]

omit [DecidableEq P] [DecidableEq C] in
/-- The thread inside has the token. -/
theorem token_of_inside {tok : Token P C} (htok : Tokened m.sems m.stage tok)
    (hp : m.stage p = .inside) : tok = .thread p := (htok.holder p).mp (Or.inl hp)

/-- The thread inside raises a semaphore and stops being inside. -/
theorem Inv.upThen (h : m.Inv) (hp : m.stage p = .inside) (s : MonitorSem C) (st : Stage C)
    {m₁ : Monitor P C D} (hcounted : Counted m₁) (hsems : m₁.sems = m.sems)
    (hstage : m₁.stage = Function.update m.stage p st) (hst : placeOf st = .outside)
    (hne : st ≠ .inside) :
    ∃ m' tok', m₁.upThen s = some m' ∧ m'.Inv ∧ Tokened m'.sems m'.stage tok' ∧
      m'.stage = m₁.stage ∧ (tok' = .unit s ∨ ∃ q, tok' = .thread q ∧ m.stage q = sleepStage s) := by
  obtain ⟨tok, htok⟩ := h.tokened
  obtain rfl := token_of_inside htok hp
  obtain ⟨sems, tok', hup, hnew, hwho⟩ := htok.release hp hst hne s
  rw [← hstage] at hnew
  refine ⟨{ m₁ with sems := sems }, tok', by rw [Monitor.upThen, hsems, hup]; rfl,
    ⟨⟨tok', hnew⟩, ?_⟩, hnew, rfl, hwho⟩
  exact ⟨hcounted.next, hcounted.cv⟩

theorem Inv.condWait (h : m.Inv) (hp : m.stage p = .inside) (c : C) :
    ∃ m', m.condWait p c = some m' ∧ m'.Inv := by
  have hcounted : Counted
      ({ m with count := Function.update m.count c (m.count c + 1) }.setStage p (.beforeWait c)) := by
    constructor
    · apply h.counted.next.update_same (R := Stage.Signalling)
      rw [hp]
      exact Iff.rfl
    · intro d
      change Headcount (fun q => (Function.update m.stage p (.beforeWait c) q).WaitsOn d)
        (Function.update m.count c (m.count c + 1) d)
      by_cases hd : d = c
      · subst hd
        rw [Function.update_self]
        refine (h.counted.cv d).update_add (R := Stage.WaitsOn d) ?_ rfl
        rw [hp]
        exact id
      · rw [Function.update_of_ne hd]
        apply (h.counted.cv d).update_same (R := Stage.WaitsOn d)
        rw [hp]
        exact ⟨fun hcd => hd hcd.symm, fun hin => hin.elim⟩
  obtain ⟨m', _, hup, hinv, _⟩ :=
    h.upThen hp m.exitSem (.beforeWait c) hcounted rfl rfl rfl (fun hbad => by cases hbad)
  exact ⟨m', hup, hinv⟩

theorem Inv.leave (h : m.Inv) (hp : m.stage p = .inside) :
    ∃ m', m.leave p = some m' ∧ m'.Inv := by
  have hcounted : Counted (m.setStage p .outside) := by
    apply h.counted.setStage
    · rw [hp]
      exact Iff.rfl
    · intro c
      rw [hp]
      exact Iff.rfl
  obtain ⟨m', _, hup, hinv, _⟩ :=
    h.upThen hp m.exitSem .outside hcounted rfl rfl rfl (fun hbad => by cases hbad)
  exact ⟨m', hup, hinv⟩

/-- A signal to a condition somebody waits on hands the monitor over. -/
theorem Inv.condSignal (h : m.Inv) (hp : m.stage p = .inside) (c : C) :
    ∃ m', m.condSignal p c = some m' ∧ m'.Inv ∧ (0 < m.count c → m'.Woken c) := by
  unfold Monitor.condSignal
  by_cases hc : m.count c > 0
  · rw [if_pos hc]
    have hcounted : Counted ({ m with nextCount := m.nextCount + 1 }.setStage p .beforeNext) := by
      constructor
      · refine h.counted.next.update_add (R := Stage.Signalling) ?_ trivial
        rw [hp]
        exact id
      · intro d
        apply (h.counted.cv d).update_same (R := Stage.WaitsOn d)
        rw [hp]
        exact Iff.rfl
    obtain ⟨m', tok', hup, hinv, htok, hstage, hwho⟩ :=
      h.upThen hp (.cv c) .beforeNext hcounted rfl rfl rfl (fun hbad => by cases hbad)
    refine ⟨m', hup, hinv, fun _ => ?_⟩
    rcases hwho with htok' | ⟨q, htok', hq⟩
    · left
      have hone := htok.one (.cv c) htok'
      omega
    · right
      have hqp : q ≠ p := by
        intro heq
        rw [heq, hp] at hq
        cases hq
      have hstage' : m'.stage q = .waiting c := by
        rw [hstage]
        change Function.update m.stage p .beforeNext q = _
        rw [Function.update_of_ne hqp]
        exact hq
      refine ⟨q, hstage', ?_⟩
      rcases (htok.holder q).mpr htok' with hin | ⟨s, hs, hout⟩
      · rw [hstage'] at hin
        cases hin
      · rw [hstage'] at hs
        obtain rfl := @sleepStage_inj C (.cv c) s hs
        exact hout
  · rw [if_neg hc]
    exact ⟨m, rfl, h, fun hpos => absurd hpos hc⟩

theorem Inv.goOn (h : m.Inv) (hout : m.stage p ≠ .outside) (hin : m.stage p ≠ .inside)
    (hrun : (m.sems.proc p).state = .runnable) : ∃ m', m.goOn p = some m' ∧ m'.Inv := by
  unfold Monitor.goOn
  rcases hst : m.stage p with _ | _ | _ | c | c | _ | _
  · exact absurd hst hout
  · obtain ⟨m', hend, hinv, _⟩ := h.endDown (s := .mutex) hst hrun
    exact ⟨m', hend, hinv⟩
  · exact absurd hst hin
  · exact ⟨_, rfl, h.startDown (s := .cv c) hst⟩
  · obtain ⟨m', hend, hinv, _⟩ := h.endDown (s := .cv c) hst hrun
    exact ⟨m', hend, hinv⟩
  · exact ⟨_, rfl, h.startDown (s := .next) hst⟩
  · obtain ⟨m', hend, hinv, _⟩ := h.endDown (s := .next) hst hrun
    exact ⟨m', hend, hinv⟩

/-- Every enabled step has a result, so no assertion fails, and keeps the invariant. -/
theorem Inv.step (h : m.Inv) {op : MonitorOp P C D} (hop : m.Enabled op) :
    ∃ m', m.step op = some m' ∧ m'.Inv := by
  cases op with
  | enter p => exact ⟨_, rfl, h.startDown (s := .mutex) hop⟩
  | work p data => exact ⟨_, rfl, h.tokened, ⟨h.counted.next, h.counted.cv⟩⟩
  | condWait p c => exact h.condWait hop c
  | condSignal p c =>
    obtain ⟨m', hstep, hinv, _⟩ := h.condSignal hop c
    exact ⟨m', hstep, hinv⟩
  | leave p => exact h.leave hop
  | goOn p => exact h.goOn hop.1 hop.2.1 hop.2.2

/-- The thread that takes a step. -/
def actor : MonitorOp P C D → P
  | .enter p => p
  | .work p _ => p
  | .condWait p _ => p
  | .condSignal p _ => p
  | .leave p => p
  | .goOn p => p

/-- Where a thread can be after a step. -/
def Next (m : Monitor P C D) : MonitorOp P C D → Stage C → Prop
  | .enter _, st => st = .entering ∨ st = .inside
  | .work _ _, st => st = .inside
  | .condWait _ c, st => st = .beforeWait c
  | .condSignal _ _, st => st = .beforeNext ∨ st = .inside
  | .leave _, st => st = .outside
  | .goOn p, st =>
    match m.stage p with
    | .beforeWait c => st = .waiting c ∨ st = .inside ∧ m.Woken c
    | .waiting c => st = .inside ∧ m.Woken c
    | .beforeNext => st = .suspended ∨ st = .inside
    | _ => st = .inside

/-- What a step of a thread can do. -/
structure StepTo (m : Monitor P C D) (op : MonitorOp P C D) (m' : Monitor P C D) : Prop where
  inv : m'.Inv
  next : m.Next op (m'.stage (actor op))
  others : ∀ q, q ≠ actor op → m'.stage q = m.stage q
  data : (∀ p d, op ≠ .work p d) → m'.data = m.data
  woken : ∀ c, m'.Woken c → m.Woken c ∨ ∃ p, op = .condSignal p c

theorem stage_startDown (m : Monitor P C D) (p : P) (s : MonitorSem C) :
    (m.startDown p s).stage = Function.update m.stage p
      (if 0 < (m.sems.sem s).value then .inside else sleepStage s) := by
  unfold Monitor.startDown
  by_cases hv : 0 < (m.sems.sem s).value
  · rw [if_pos hv, if_pos hv, stage_afterDown]
  · rw [if_neg hv, if_neg hv]
    rfl

theorem data_afterDown (m : Monitor P C D) (p : P) (s : MonitorSem C) :
    (m.afterDown p s).data = m.data := by
  cases s with
  | mutex => rfl
  | next => rfl
  | cv c => rfl

/-- `down` wakes nobody. -/
theorem woken_startDown {c : C} (h : (m.startDown p s).Woken c) : m.Woken c := by
  have hsems : (m.startDown p s).sems = m.sems.downStart p s := by
    unfold Monitor.startDown
    by_cases hv : 0 < (m.sems.sem s).value
    · rw [if_pos hv, sems_afterDown]
    · rw [if_neg hv]
      rfl
  unfold Woken at h
  rw [hsems, stage_startDown] at h
  rcases Sems.downStart_eq m.sems p s with ⟨hv, _, hsem⟩ | ⟨hv, _, hsem⟩
  · rw [hsem, if_pos hv] at h
    by_cases hs : MonitorSem.cv c = s
    · left
      rw [hs]
      exact hv
    · rw [Function.update_of_ne hs] at h
      rcases h with h | ⟨q, hq, hout⟩
      · exact Or.inl h
      · by_cases hqp : q = p
        · rw [hqp, Function.update_self] at hq
          cases hq
        · rw [Function.update_of_ne hqp] at hq
          exact Or.inr ⟨q, hq, hout⟩
  · rw [hsem, if_neg hv] at h
    rcases h with h | ⟨q, hq, hout⟩
    · left
      by_cases hs : MonitorSem.cv c = s
      · rw [hs, Function.update_self] at h
        exact absurd h hv
      · rwa [Function.update_of_ne hs] at h
    · by_cases hqp : q = p
      · rw [hqp, Function.update_self] at hq
        obtain rfl := @sleepStage_inj C s (.cv c) hq
        rw [hqp, Function.update_self] at hout
        exact absurd (List.mem_append_right _ List.mem_cons_self) hout
      · rw [Function.update_of_ne hqp] at hq
        refine Or.inr ⟨q, hq, fun hin => hout ?_⟩
        by_cases hs : MonitorSem.cv c = s
        · rw [hs, Function.update_self]
          rw [hs] at hin
          exact List.mem_append_left _ hin
        · rwa [Function.update_of_ne hs]

theorem data_startDown (m : Monitor P C D) (p : P) (s : MonitorSem C) :
    (m.startDown p s).data = m.data := by
  unfold Monitor.startDown
  by_cases hv : 0 < (m.sems.sem s).value
  · rw [if_pos hv, data_afterDown]
  · rw [if_neg hv]
    rfl

/-- `down` behind `schedule` wakes nobody. -/
theorem Inv.endDown_to (h : m.Inv) (hp : m.stage p = sleepStage s)
    (hrun : (m.sems.proc p).state = .runnable) {m' : Monitor P C D}
    (hend : m.endDown p s = some m') :
    m'.data = m.data ∧ (∀ c, m'.Woken c → m.Woken c) ∧ ∀ c, s = .cv c → m.Woken c := by
  obtain ⟨tok, htok⟩ := h.tokened
  have hplace : m.sems.place p = .inDown s := by rw [htok.place, hp, placeOf_sleepStage]
  have hq := (htok.sound.runnable_iff hplace).mp hrun
  obtain ⟨sems, hend', _, _, hsem⟩ := htok.sound.downEnd hplace hq
  rw [Monitor.endDown, hend'] at hend
  obtain rfl := Option.some.inj hend
  refine ⟨data_afterDown _ p s, ?_, ?_⟩
  · intro c hw
    unfold Woken at hw
    rw [sems_afterDown, stage_afterDown] at hw
    simp only [hsem] at hw
    rcases hw with hw | ⟨q, hq', hout⟩
    · exact Or.inl hw
    · by_cases hqp : q = p
      · rw [hqp, Function.update_self] at hq'
        cases hq'
      · rw [Function.update_of_ne hqp] at hq'
        exact Or.inr ⟨q, hq', hout⟩
  · intro c hs
    subst hs
    exact Or.inr ⟨p, hp, hq⟩

/-- Raising another semaphore wakes nobody that waits on a condition. -/
theorem woken_upThen {m₁ m' : Monitor P C D} {c : C} {st : Stage C} (h : m.Inv)
    (hup : m₁.upThen s = some m') (hsems : m₁.sems = m.sems)
    (hstage : m₁.stage = Function.update m.stage p st) (hst : placeOf st = .outside)
    (hs : s ≠ .cv c) (hw : m'.Woken c) : m.Woken c := by
  obtain ⟨tok, htok⟩ := h.tokened
  obtain ⟨sems, hup', _, _, hsem⟩ := htok.sound.up s
  rw [Monitor.upThen, hsems, hup'] at hup
  obtain rfl := Option.some.inj hup
  unfold Woken at hw
  simp only [hsem, hstage, Function.update_of_ne hs.symm] at hw
  rcases hw with hw | ⟨q, hq, hout⟩
  · exact Or.inl hw
  · by_cases hqp : q = p
    · rw [hqp, Function.update_self] at hq
      rw [hq] at hst
      cases hst
    · rw [Function.update_of_ne hqp] at hq
      exact Or.inr ⟨q, hq, hout⟩

omit [DecidableEq P] [DecidableEq C] in
theorem exitSem_ne (m : Monitor P C D) (c : C) : m.exitSem ≠ .cv c := by
  unfold exitSem
  by_cases hn : m.nextCount > 0
  · rw [if_pos hn]
    intro heq
    cases heq
  · rw [if_neg hn]
    intro heq
    cases heq

theorem upThen_eq {m₁ m' : Monitor P C D} (h : m₁.upThen s = some m') :
    m'.stage = m₁.stage ∧ m'.data = m₁.data := by
  rw [Monitor.upThen, Option.map_eq_some_iff] at h
  obtain ⟨sems, _, rfl⟩ := h
  exact ⟨rfl, rfl⟩

theorem Inv.step_to (h : m.Inv) {op : MonitorOp P C D} (hop : m.Enabled op) :
    ∃ m', m.step op = some m' ∧ m.StepTo op m' := by
  obtain ⟨m', hstep, hinv⟩ := h.step hop
  refine ⟨m', hstep, ?_⟩
  have hstart : ∀ p s, m' = m.startDown p s → (∀ q, q ≠ p → m'.stage q = m.stage q) ∧
      m'.data = m.data ∧ (∀ c, m'.Woken c → m.Woken c) ∧
      (m'.stage p = sleepStage s ∨ m'.stage p = .inside ∧ 0 < (m.sems.sem s).value) := by
    intro p s heq
    subst heq
    refine ⟨?_, data_startDown m p s, fun _ => woken_startDown, ?_⟩
    · intro q hq
      rw [stage_startDown, Function.update_of_ne hq]
    · rw [stage_startDown, Function.update_self]
      by_cases hv : 0 < (m.sems.sem s).value
      · rw [if_pos hv]
        exact Or.inr ⟨rfl, hv⟩
      · rw [if_neg hv]
        exact Or.inl rfl
  have hup : ∀ p s st (m₁ : Monitor P C D), m₁.upThen s = some m' → m₁.sems = m.sems → m₁.data = m.data →
      m₁.stage = Function.update m.stage p st → placeOf st = .outside →
      (∀ q, q ≠ p → m'.stage q = m.stage q) ∧ m'.data = m.data ∧
      (∀ c, s ≠ .cv c → m'.Woken c → m.Woken c) ∧ m'.stage p = st := by
    intro p s st m₁ hup hsems hdata hstage hst
    obtain ⟨hstage', hdata'⟩ := upThen_eq hup
    refine ⟨?_, hdata'.trans hdata, ?_, ?_⟩
    · intro q hq
      rw [hstage', hstage, Function.update_of_ne hq]
    · intro c hs
      exact woken_upThen h hup hsems hstage hst hs
    · rw [hstage', hstage, Function.update_self]
  cases op with
  | enter p =>
    obtain ⟨hothers, hdata, hwoken, hnext⟩ := hstart p .mutex (Option.some.inj hstep).symm
    exact ⟨hinv, hnext.imp id And.left, hothers, fun _ => hdata, fun c hc => Or.inl (hwoken c hc)⟩
  | work p data =>
    obtain rfl := Option.some.inj hstep
    exact ⟨hinv, hop, fun _ _ => rfl, fun hne => absurd rfl (hne p data), fun c hc => Or.inl hc⟩
  | condWait p c =>
    obtain ⟨hothers, hdata, hwoken, hnext⟩ := hup p m.exitSem (.beforeWait c) _ hstep rfl rfl rfl rfl
    exact ⟨hinv, hnext, hothers, fun _ => hdata, fun d hd => Or.inl (hwoken d (m.exitSem_ne d) hd)⟩
  | condSignal p c =>
    simp only [Monitor.step, Monitor.condSignal] at hstep
    by_cases hc : m.count c > 0
    · rw [if_pos hc] at hstep
      obtain ⟨hothers, hdata, hwoken, hnext⟩ := hup p (.cv c) .beforeNext _ hstep rfl rfl rfl rfl
      refine ⟨hinv, Or.inl hnext, hothers, fun _ => hdata, ?_⟩
      intro d hd
      by_cases hdc : d = c
      · exact Or.inr ⟨p, by rw [hdc]⟩
      · exact Or.inl (hwoken d (fun heq => hdc (MonitorSem.cv.inj heq).symm) hd)
    · rw [if_neg hc] at hstep
      obtain rfl := Option.some.inj hstep
      exact ⟨hinv, Or.inr hop, fun _ _ => rfl, fun _ => rfl, fun d hd => Or.inl hd⟩
  | leave p =>
    obtain ⟨hothers, hdata, hwoken, hnext⟩ := hup p m.exitSem .outside _ hstep rfl rfl rfl rfl
    exact ⟨hinv, hnext, hothers, fun _ => hdata, fun d hd => Or.inl (hwoken d (m.exitSem_ne d) hd)⟩
  | goOn p =>
    obtain ⟨hout, hin, hrun⟩ := hop
    have hwake : ∀ s, m.stage p = sleepStage s → m.endDown p s = some m' →
        (∀ q, q ≠ p → m'.stage q = m.stage q) ∧ m'.data = m.data ∧ (∀ c, m'.Woken c → m.Woken c) ∧
        m'.stage p = .inside ∧ ∀ c, s = .cv c → m.Woken c := by
      intro s hs hend
      obtain ⟨m₁, hend₁, _, hstage⟩ := h.endDown hs hrun
      obtain rfl := Option.some.inj (hend₁.symm.trans hend)
      obtain ⟨hdata, hwoken, hwas⟩ := h.endDown_to hs hrun hend
      refine ⟨?_, hdata, hwoken, ?_, hwas⟩
      · intro q hq
        rw [hstage, Function.update_of_ne hq]
      · rw [hstage, Function.update_self]
    simp only [Monitor.step, Monitor.goOn] at hstep
    rcases hst : m.stage p with _ | _ | _ | c | c | _ | _ <;> rw [hst] at hstep
    · exact absurd hst hout
    · obtain ⟨hothers, hdata, hwoken, hnext, _⟩ := hwake .mutex hst hstep
      refine ⟨hinv, ?_, hothers, fun _ => hdata, fun c hc => Or.inl (hwoken c hc)⟩
      simp only [Next, hst]
      exact hnext
    · exact absurd hst hin
    · obtain ⟨hothers, hdata, hwoken, hnext⟩ := hstart p (.cv c) (Option.some.inj hstep).symm
      refine ⟨hinv, ?_, hothers, fun _ => hdata, fun c hc => Or.inl (hwoken c hc)⟩
      simp only [Next, hst]
      exact hnext.imp id (fun hgot => ⟨hgot.1, Or.inl hgot.2⟩)
    · obtain ⟨hothers, hdata, hwoken, hnext, hwas⟩ := hwake (.cv c) hst hstep
      refine ⟨hinv, ?_, hothers, fun _ => hdata, fun c hc => Or.inl (hwoken c hc)⟩
      simp only [Next, hst]
      exact ⟨hnext, hwas c rfl⟩
    · obtain ⟨hothers, hdata, hwoken, hnext⟩ := hstart p .next (Option.some.inj hstep).symm
      refine ⟨hinv, ?_, hothers, fun _ => hdata, fun c hc => Or.inl (hwoken c hc)⟩
      simp only [Next, hst]
      exact hnext.imp id And.left
    · obtain ⟨hothers, hdata, hwoken, hnext, _⟩ := hwake .next hst hstep
      refine ⟨hinv, ?_, hothers, fun _ => hdata, fun c hc => Or.inl (hwoken c hc)⟩
      simp only [Next, hst]
      exact hnext

omit [DecidableEq P] [DecidableEq C] in
/-- The token of a thread that was signalled. -/
theorem Woken.token {c : C} (h : m.Woken c) {tok : Token P C} (htok : Tokened m.sems m.stage tok) :
    tok = .unit (.cv c) ∨ ∃ q, tok = .thread q ∧ m.stage q = .waiting c := by
  rcases h with hv | ⟨q, hq, hout⟩
  · left
    by_contra hne
    have hzero := htok.none (.cv c) hne
    omega
  · exact Or.inr ⟨q, (htok.holder q).mp (Or.inr ⟨.cv c, hq, hout⟩), hq⟩

/-- Another thread that goes to sleep does not take the turn. -/
theorem Woken.sleep {c : C} (h : m.Woken c) (hp : m.stage p = beforeStage s)
    (hv : ¬ 0 < (m.sems.sem s).value) :
    ({ m with sems := m.sems.downStart p s }.setStage p (sleepStage s)).Woken c := by
  rcases Sems.downStart_eq m.sems p s with ⟨hv', _, _⟩ | ⟨_, _, hsem⟩
  · exact absurd hv' hv
  · have hne : ∀ q, m.stage q = .waiting c → q ≠ p := by
      intro q hq heq
      rw [heq, hp] at hq
      have hbad := congrArg placeOf hq
      rw [placeOf_beforeStage] at hbad
      cases hbad
    unfold Woken setStage
    simp only [hsem]
    by_cases hs : s = .cv c
    · subst hs
      rw [Function.update_self]
      rcases h with hv' | ⟨q, hq, hout⟩
      · exact absurd hv' hv
      · right
        refine ⟨q, ?_, ?_⟩
        · rw [Function.update_of_ne (hne q hq)]
          exact hq
        · simp only [List.mem_append, List.mem_singleton, hne q hq, or_false]
          exact hout
    · have hs' : MonitorSem.cv c ≠ s := fun heq => hs heq.symm
      rw [Function.update_of_ne hs']
      rcases h with hv' | ⟨q, hq, hout⟩
      · exact Or.inl hv'
      · right
        refine ⟨q, ?_, hout⟩
        rw [Function.update_of_ne (hne q hq)]
        exact hq

/-- A thread that does not find the unit it was signalled with goes to sleep. -/
theorem Woken.startDown {c : C} (h : m.Woken c) {tok : Token P C}
    (htok : Tokened m.sems m.stage tok) (hp : m.stage p = beforeStage s) :
    (m.startDown p s).Woken c ∧ m.Unchanged (m.startDown p s) ∨
      s = .cv c ∧ (m.startDown p s).stage p = .inside := by
  unfold Monitor.startDown
  by_cases hv : 0 < (m.sems.sem s).value
  · right
    rw [if_pos hv]
    refine ⟨?_, by rw [stage_afterDown, Function.update_self]⟩
    have hunit : tok = .unit s := by
      by_contra hne
      have hzero := htok.none s hne
      omega
    rcases h.token htok with hcv | ⟨q, hq, _⟩
    · exact Token.unit.inj (hunit.symm.trans hcv)
    · rw [hunit] at hq
      cases hq
  · left
    rw [if_neg hv]
    exact ⟨h.sleep hp hv, rfl, rfl, rfl⟩

/-- After a signal, nobody is inside until a thread that waited on the condition is, and the
variables of the monitor stay. -/
theorem Inv.handOver (h : m.Inv) {c : C} (hw : m.Woken c) : (∀ p, m.stage p ≠ .inside) ∧
    ∀ op m', m.Enabled op → m.step op = some m' → m'.Woken c ∧ m.Unchanged m' ∨
      ∃ p, (m.stage p = .beforeWait c ∨ m.stage p = .waiting c) ∧ m'.stage p = .inside := by
  obtain ⟨tok, htok⟩ := h.tokened
  have hnone : ∀ p, m.stage p ≠ .inside := by
    intro p hp
    have hthread := token_of_inside htok hp
    rcases hw.token htok with hunit | ⟨q, hq, hwait⟩
    · rw [hunit] at hthread
      cases hthread
    · obtain rfl := Token.thread.inj (hthread.symm.trans hq)
      rw [hp] at hwait
      cases hwait
  have hresume : ∀ p s m', m.stage p = sleepStage s → (m.sems.proc p).state = .runnable →
      m.endDown p s = some m' → s = .cv c ∧ m'.stage p = .inside := by
    intro p s m' hp hrun hend
    obtain ⟨m₁, hend₁, _, hstage⟩ := h.endDown hp hrun
    obtain rfl := Option.some.inj (hend₁.symm.trans hend)
    refine ⟨?_, by rw [hstage, Function.update_self]⟩
    obtain ⟨_, _, hthread, _⟩ := htok.resume hp hrun
    rcases hw.token htok with hunit | ⟨q, hq, hwait⟩
    · rw [hunit] at hthread
      cases hthread
    · obtain rfl := Token.thread.inj (hthread.symm.trans hq)
      rw [hp] at hwait
      exact @sleepStage_inj C s (.cv c) hwait
  refine ⟨hnone, ?_⟩
  intro op m' hop hstep
  cases op with
  | enter p =>
    obtain rfl := Option.some.inj hstep
    rcases hw.startDown (s := .mutex) htok hop with hkeep | ⟨hbad, _⟩
    · exact Or.inl hkeep
    · cases hbad
  | work p data => exact absurd hop (hnone p)
  | condWait p d => exact absurd hop (hnone p)
  | condSignal p d => exact absurd hop (hnone p)
  | leave p => exact absurd hop (hnone p)
  | goOn p =>
    obtain ⟨hout, hin, hrun⟩ := hop
    simp only [Monitor.step, Monitor.goOn] at hstep
    rcases hst : m.stage p with _ | _ | _ | d | d | _ | _
    · exact absurd hst hout
    · rw [hst] at hstep
      cases (hresume p .mutex m' hst hrun hstep).1
    · exact absurd hst hin
    · rw [hst] at hstep
      obtain rfl := Option.some.inj hstep
      rcases hw.startDown (s := .cv d) htok hst with hkeep | ⟨hd, hinside⟩
      · exact Or.inl hkeep
      · exact Or.inr ⟨p, Or.inl (MonitorSem.cv.inj hd ▸ hst), hinside⟩
    · rw [hst] at hstep
      obtain ⟨hd, hinside⟩ := hresume p (.cv d) m' hst hrun hstep
      exact Or.inr ⟨p, Or.inr (MonitorSem.cv.inj hd ▸ hst), hinside⟩
    · rw [hst] at hstep
      obtain rfl := Option.some.inj hstep
      rcases hw.startDown (s := .next) htok hst with hkeep | ⟨hbad, _⟩
      · exact Or.inl hkeep
      · cases hbad
    · rw [hst] at hstep
      cases (hresume p .next m' hst hrun hstep).1

theorem Inv.discipline (h : m.Inv) : m.Discipline := by
  refine ⟨?_, h.counted, ?_, fun c => h.handOver⟩
  · intro p q hp hq
    obtain ⟨tok, htok⟩ := h.tokened
    exact Token.thread.inj ((token_of_inside htok hp).symm.trans (token_of_inside htok hq))
  · intro p c m' hp hc hstep
    obtain ⟨m₁, hstep₁, _, hwoken⟩ := h.condSignal hp c
    obtain rfl := Option.some.inj (hstep₁.symm.trans hstep)
    exact hwoken hc

/-- In every run of any number of threads through the routines of a monitor no assertion
fails and the discipline of a Hoare monitor is kept. -/
theorem monitor_discipline (data : D) {ops : List (MonitorOp P C D)}
    (hops : RunMeets step Enabled (init data) ops) :
    ∃ t, runOps step (init data) ops = some t ∧ t.Discipline := by
  obtain ⟨t, hrun, hinv⟩ := runOps_total (fun m op (h : m.Inv) hop => h.step hop)
    (inv_init data) hops
  exact ⟨t, hrun, hinv.discipline⟩

/-- One thread waits, another one signals it and is suspended, and the first one goes on. -/
theorem monitor_discipline_signal : ∃ t, runOps step (init () : Monitor (Fin 2) (Fin 1) Unit)
    [.enter 0, .condWait 0 0, .goOn 0, .enter 1, .condSignal 1 0, .goOn 1, .goOn 0] = some t ∧
    t.Discipline := by
  refine monitor_discipline () ?_
  refine RunMeets.cons rfl rfl (RunMeets.cons rfl rfl (RunMeets.cons ⟨?_, ?_, rfl⟩ rfl
    (RunMeets.cons rfl rfl (RunMeets.cons rfl rfl (RunMeets.cons ⟨?_, ?_, rfl⟩ rfl
      (RunMeets.cons ⟨?_, ?_, rfl⟩ rfl trivial))))))
  all_goals decide

end Monitor
end Ucore.Sync
