import Ucore.Library.Headcount
import Ucore.Library.Run
import Ucore.Sync.Sem

/-!
The monitors of `monitor.c`, built from semaphores. A step of a thread is one operation on a
semaphore with the code around it. One token goes around: it is a unit of one of the
semaphores, or the right of one thread to run inside.
-/
namespace Ucore.Sync

open Library

/-- The semaphores of a monitor; `cv c` is the one of the condition variable `c`. -/
inductive MonitorSem (C : Type*) where
  | mutex
  | next
  | cv (c : C)
  deriving DecidableEq

/-- Where a thread is in its routine: asleep in `down(&mtp->mutex)`, inside, in `cond_wait`
before `down(&cvp->sem)` or asleep in it, in `cond_signal` before `down(&mtp->next)` or
asleep in it. -/
inductive Stage (C : Type*) where
  | outside
  | entering
  | inside
  | beforeWait (c : C)
  | waiting (c : C)
  | beforeNext
  | suspended
  deriving DecidableEq

/-- `data` are the variables that the routines of the monitor share. -/
structure Monitor (P C D : Type*) where
  sems : Sems P (MonitorSem C)
  nextCount : ℤ
  count : C → ℤ
  data : D
  stage : P → Stage C

inductive MonitorOp (P C D : Type*) where
  | enter (p : P)
  | work (p : P) (data : D)
  | condWait (p : P) (c : C)
  | condSignal (p : P) (c : C)
  | leave (p : P)
  | goOn (p : P)

variable {P C D : Type*} [DecidableEq P] [DecidableEq C]

/-- Where a thread is that sleeps in `down` on a semaphore. -/
def sleepStage : MonitorSem C → Stage C
  | .mutex => .entering
  | .next => .suspended
  | .cv c => .waiting c

/-- The `down` a thread sleeps in. -/
def placeOf : Stage C → Place (MonitorSem C)
  | .entering => .inDown .mutex
  | .suspended => .inDown .next
  | .waiting c => .inDown (.cv c)
  | _ => .outside

namespace Monitor

def setStage (m : Monitor P C D) (p : P) (st : Stage C) : Monitor P C D :=
  { m with stage := Function.update m.stage p st }

/-- The code behind a `down`, up to the next operation on a semaphore. -/
def afterDown (m : Monitor P C D) (p : P) : MonitorSem C → Monitor P C D
  | .mutex => m.setStage p .inside
  | .next => { m with nextCount := m.nextCount - 1 }.setStage p .inside
  | .cv c => { m with count := Function.update m.count c (m.count c - 1) }.setStage p .inside

/-- `down` in a routine, up to `schedule` or through to the code behind. -/
def startDown (m : Monitor P C D) (p : P) (s : MonitorSem C) : Monitor P C D :=
  if 0 < (m.sems.sem s).value then { m with sems := m.sems.downStart p s }.afterDown p s
  else { m with sems := m.sems.downStart p s }.setStage p (sleepStage s)

/-- `down` behind `schedule`. -/
def endDown (m : Monitor P C D) (p : P) (s : MonitorSem C) : Option (Monitor P C D) :=
  (m.sems.downEnd p s).map (fun sems => { m with sems := sems }.afterDown p s)

def upThen (m : Monitor P C D) (s : MonitorSem C) : Option (Monitor P C D) :=
  (m.sems.up s).map (fun sems => { m with sems := sems })

/-- The semaphore that is raised by a thread that leaves or waits. -/
def exitSem (m : Monitor P C D) : MonitorSem C := if m.nextCount > 0 then .next else .mutex

/-- `cond_wait` up to `down(&cvp->sem)`. -/
def condWait (m : Monitor P C D) (p : P) (c : C) : Option (Monitor P C D) :=
  ({ m with count := Function.update m.count c (m.count c + 1) }.setStage p (.beforeWait c)).upThen
    m.exitSem

/-- `cond_signal` up to `down(&mtp->next)`. -/
def condSignal (m : Monitor P C D) (p : P) (c : C) : Option (Monitor P C D) :=
  if m.count c > 0 then
    ({ m with nextCount := m.nextCount + 1 }.setStage p .beforeNext).upThen (.cv c)
  else some m

/-- The end of a routine. -/
def leave (m : Monitor P C D) (p : P) : Option (Monitor P C D) :=
  (m.setStage p .outside).upThen m.exitSem

/-- A thread goes on with the `down` it has reached, or behind `schedule`. -/
def goOn (m : Monitor P C D) (p : P) : Option (Monitor P C D) :=
  match m.stage p with
  | .entering => m.endDown p .mutex
  | .beforeWait c => some (m.startDown p (.cv c))
  | .waiting c => m.endDown p (.cv c)
  | .beforeNext => some (m.startDown p .next)
  | .suspended => m.endDown p .next
  | _ => some m

/-- What a thread may do where it is; one that sleeps has to be woken first. -/
def Enabled (m : Monitor P C D) : MonitorOp P C D → Prop
  | .enter p => m.stage p = .outside
  | .work p _ => m.stage p = .inside
  | .condWait p _ => m.stage p = .inside
  | .condSignal p _ => m.stage p = .inside
  | .leave p => m.stage p = .inside
  | .goOn p => m.stage p ≠ .outside ∧ m.stage p ≠ .inside ∧ (m.sems.proc p).state = .runnable

/-- A step; `none` is a failed assertion in `up` or `down`. -/
def step (m : Monitor P C D) : MonitorOp P C D → Option (Monitor P C D)
  | .enter p => some (m.startDown p .mutex)
  | .work _ data => some { m with data := data }
  | .condWait p c => m.condWait p c
  | .condSignal p c => m.condSignal p c
  | .leave p => m.leave p
  | .goOn p => m.goOn p

/-- `monitor_init`, with all threads outside. -/
def init (data : D) : Monitor P C D where
  sems := Sems.init (fun s => if s = .mutex then 1 else 0)
  nextCount := 0
  count := fun _ => 0
  data := data
  stage := fun _ => .outside

end Monitor

/-- The right to run inside: a unit of a semaphore, or a thread that runs or can run. -/
inductive Token (P C : Type*) where
  | unit (s : MonitorSem C)
  | thread (p : P)

/-- A thread that is inside, or was woken from a `down` and has not gone on. -/
def Holds (x : Sems P (MonitorSem C)) (stage : P → Stage C) (p : P) : Prop :=
  stage p = .inside ∨ ∃ s, stage p = sleepStage s ∧ p ∉ (x.sem s).queue

/-- There is one token. -/
structure Tokened (x : Sems P (MonitorSem C)) (stage : P → Stage C) (tok : Token P C) : Prop where
  sound : x.Sound
  place : ∀ p, x.place p = placeOf (stage p)
  one : ∀ s, tok = .unit s → (x.sem s).value = 1
  none : ∀ s, tok ≠ .unit s → (x.sem s).value = 0
  holder : ∀ p, Holds x stage p ↔ tok = .thread p

/-- A thread in `cond_signal`. -/
def Stage.Signalling : Stage C → Prop
  | .beforeNext => True
  | .suspended => True
  | _ => False

/-- A thread in `cond_wait` on a condition. -/
def Stage.WaitsOn (c : C) : Stage C → Prop
  | .beforeWait d => d = c
  | .waiting d => d = c
  | _ => False

/-- The counters of the monitor count the threads they are about. -/
structure Monitor.Counted (m : Monitor P C D) : Prop where
  next : Headcount (fun p => (m.stage p).Signalling) m.nextCount
  cv : ∀ c, Headcount (fun p => (m.stage p).WaitsOn c) (m.count c)

omit [DecidableEq C] in
theorem placeOf_sleepStage (s : MonitorSem C) : placeOf (sleepStage s) = .inDown s := by
  cases s with
  | mutex => rfl
  | next => rfl
  | cv c => rfl

omit [DecidableEq C] in
theorem eq_sleepStage {st : Stage C} {s : MonitorSem C} (h : placeOf st = .inDown s) :
    st = sleepStage s := by
  cases st with
  | entering => exact (Place.inDown.inj h) ▸ rfl
  | suspended => exact (Place.inDown.inj h) ▸ rfl
  | waiting c => exact (Place.inDown.inj h) ▸ rfl
  | outside => cases h
  | inside => cases h
  | beforeWait c => cases h
  | beforeNext => cases h

omit [DecidableEq C] in
theorem sleepStage_inj {s t : MonitorSem C} (h : sleepStage s = sleepStage t) : s = t := by
  have hplace : placeOf (sleepStage s) = placeOf (sleepStage t) := congrArg placeOf h
  rw [placeOf_sleepStage, placeOf_sleepStage] at hplace
  exact Place.inDown.inj hplace

namespace Tokened

variable {x : Sems P (MonitorSem C)} {stage : P → Stage C} {tok : Token P C} {p : P}
  {s : MonitorSem C}

omit [DecidableEq P] [DecidableEq C] in
/-- The first in a queue sleeps there. -/
theorem stage_of_mem (h : Tokened x stage tok) (hp : p ∈ (x.sem s).queue) :
    stage p = sleepStage s := by
  have hplace := (h.sound.queued s p hp).1
  rw [h.place] at hplace
  exact eq_sleepStage hplace

/-- The thread with the token raises a semaphore and is outside or before a `down` then: the
token is a unit of the semaphore or goes to a thread that slept there. -/
theorem release (h : Tokened x stage (.thread p)) (hp : stage p = .inside) {st : Stage C}
    (hst : placeOf st = .outside) (hne : st ≠ .inside) (s : MonitorSem C) :
    ∃ x' tok', x.up s = some x' ∧ Tokened x' (Function.update stage p st) tok' ∧
      (tok' = .unit s ∨ ∃ q, tok' = .thread q ∧ stage q = sleepStage s) := by
  obtain ⟨x', hup, hsound, hplace, hsem⟩ := h.sound.up s
  have hvalue : ∀ t, (x.sem t).value = 0 := fun t => h.none t (fun heq => by cases heq)
  have honly : ∀ q, q ≠ p → ¬ Holds x stage q := by
    intro q hq hholds
    exact hq (Token.thread.inj ((h.holder q).mp hholds)).symm
  have hplace' : ∀ q, x'.place q = placeOf (Function.update stage p st q) := by
    intro q
    rw [hplace, h.place]
    by_cases hq : q = p
    · rw [hq, Function.update_self, hp, hst]
      rfl
    · rw [Function.update_of_ne hq]
  have hpnot : ∀ y : Sems P (MonitorSem C), ¬ Holds y (Function.update stage p st) p := by
    intro y hholds
    rcases hholds with hin | ⟨t, ht, _⟩
    · rw [Function.update_self] at hin
      exact hne hin
    · rw [Function.update_self] at ht
      rw [ht, placeOf_sleepStage] at hst
      cases hst
  rcases hq : (x.sem s).queue with _ | ⟨q, rest⟩
  · have hnew : (x.sem s).up = ⟨1, []⟩ := by
      rw [Semaphore.up, hq, hvalue]
      rfl
    refine ⟨x', .unit s, hup, ⟨hsound, hplace', ?_, ?_, ?_⟩, Or.inl rfl⟩
    · intro t ht
      rw [hsem, ← Token.unit.inj ht, Function.update_self, hnew]
    · intro t ht
      have hts : t ≠ s := fun heq => ht (heq ▸ rfl)
      rw [hsem, Function.update_of_ne hts]
      exact hvalue t
    · intro r
      refine ⟨?_, fun heq => by cases heq⟩
      intro hholds
      exfalso
      by_cases hr : r = p
      · exact hpnot x' (hr ▸ hholds)
      · apply honly r hr
        rcases hholds with hin | ⟨t, ht, hrt⟩
        · rw [Function.update_of_ne hr] at hin
          exact Or.inl hin
        · rw [Function.update_of_ne hr] at ht
          refine Or.inr ⟨t, ht, ?_⟩
          by_cases hts : t = s
          · rw [hts, hq]
            exact List.not_mem_nil
          · rw [hsem, Function.update_of_ne hts] at hrt
            exact hrt
  · have hnew : (x.sem s).up = ⟨0, rest⟩ := by
      rw [Semaphore.up, hq, hvalue]
    have hqmem : q ∈ (x.sem s).queue := by
      rw [hq]
      exact List.mem_cons_self
    have hqstage := h.stage_of_mem hqmem
    have hqp : q ≠ p := by
      intro heq
      rw [heq, hp] at hqstage
      have hbad := congrArg placeOf hqstage
      rw [placeOf_sleepStage] at hbad
      cases hbad
    have hnodup := h.sound.nodup s
    rw [hq] at hnodup
    refine ⟨x', .thread q, hup, ⟨hsound, hplace', ?_, ?_, ?_⟩, Or.inr ⟨q, rfl, hqstage⟩⟩
    · intro t ht
      cases ht
    · intro t _
      by_cases hts : t = s
      · rw [hsem, hts, Function.update_self, hnew]
      · rw [hsem, Function.update_of_ne hts]
        exact hvalue t
    · intro r
      constructor
      · intro hholds
        by_cases hr : r = p
        · exact absurd (hr ▸ hholds) (hpnot x')
        · rcases hholds with hin | ⟨t, ht, hrt⟩
          · rw [Function.update_of_ne hr] at hin
            exact absurd (Or.inl hin) (honly r hr)
          · rw [Function.update_of_ne hr] at ht
            by_cases hts : t = s
            · rw [hts, hsem, Function.update_self, hnew] at hrt
              rw [hts] at ht
              by_cases hrq : r = q
              · rw [hrq]
              · exfalso
                apply honly r hr
                refine Or.inr ⟨s, ht, ?_⟩
                rw [hq, List.mem_cons, not_or]
                exact ⟨hrq, hrt⟩
            · rw [hsem, Function.update_of_ne hts] at hrt
              exact absurd (Or.inr ⟨t, ht, hrt⟩) (honly r hr)
      · intro heq
        obtain rfl := Token.thread.inj heq
        refine Or.inr ⟨s, ?_, ?_⟩
        · rw [Function.update_of_ne hqp]
          exact hqstage
        · rw [hsem, Function.update_self, hnew]
          exact (List.nodup_cons.mp hnodup).1

/-- A thread that is not inside calls `down`: it gets the token if that is a unit of the
semaphore, and sleeps otherwise. -/
theorem acquire (h : Tokened x stage tok) (hp : placeOf (stage p) = .outside)
    (hne : stage p ≠ .inside) (s : MonitorSem C) :
    0 < (x.sem s).value ∧ tok = .unit s ∧
      Tokened (x.downStart p s) (Function.update stage p .inside) (.thread p) ∨
    ¬ 0 < (x.sem s).value ∧
      Tokened (x.downStart p s) (Function.update stage p (sleepStage s)) tok := by
  have hout : x.place p = .outside := (h.place p).trans hp
  have hsound := h.sound.downStart hout s
  have hpnot : ¬ Holds x stage p := by
    intro hholds
    rcases hholds with hin | ⟨t, ht, _⟩
    · exact hne hin
    · rw [ht, placeOf_sleepStage] at hp
      cases hp
  rcases Sems.downStart_eq x p s with ⟨hv, hplace, hsem⟩ | ⟨hv, hplace, hsem⟩
  · left
    have htok : tok = .unit s := by
      by_contra hbad
      have hzero := h.none s hbad
      omega
    have hone := h.one s htok
    have hqueue : ∀ t, ((x.downStart p s).sem t).queue = (x.sem t).queue := by
      intro t
      by_cases hts : t = s
      · rw [hsem, hts, Function.update_self]
      · rw [hsem, Function.update_of_ne hts]
    refine ⟨hv, htok, hsound, ?_, ?_, ?_, ?_⟩
    · intro q
      rw [hplace, h.place]
      by_cases hq : q = p
      · rw [hq, Function.update_self, hp]
        rfl
      · rw [Function.update_of_ne hq]
    · intro t ht
      cases ht
    · intro t _
      by_cases hts : t = s
      · rw [hsem, hts, Function.update_self]
        simp only
        omega
      · rw [hsem, Function.update_of_ne hts]
        apply h.none
        intro heq
        rw [htok] at heq
        exact hts (Token.unit.inj heq).symm
    · intro q
      by_cases hq : q = p
      · refine ⟨fun _ => by rw [hq], fun _ => Or.inl ?_⟩
        rw [hq, Function.update_self]
      · constructor
        · intro hholds
          exfalso
          have hold : Holds x stage q := by
            rcases hholds with hin | ⟨t, ht, hqt⟩
            · rw [Function.update_of_ne hq] at hin
              exact Or.inl hin
            · rw [Function.update_of_ne hq] at ht
              rw [hqueue] at hqt
              exact Or.inr ⟨t, ht, hqt⟩
          have hbad := (h.holder q).mp hold
          rw [htok] at hbad
          cases hbad
        · intro heq
          exact absurd (Token.thread.inj heq).symm hq
  · right
    refine ⟨hv, hsound, ?_, ?_, ?_, ?_⟩
    · intro q
      rw [hplace]
      by_cases hq : q = p
      · rw [hq, Function.update_self, Function.update_self, placeOf_sleepStage]
      · rw [Function.update_of_ne hq, Function.update_of_ne hq, h.place]
    · intro t ht
      rw [hsem]
      by_cases hts : t = s
      · rw [hts, Function.update_self]
        exact h.one s (hts ▸ ht)
      · rw [Function.update_of_ne hts]
        exact h.one t ht
    · intro t ht
      rw [hsem]
      by_cases hts : t = s
      · rw [hts, Function.update_self]
        exact h.none s (hts ▸ ht)
      · rw [Function.update_of_ne hts]
        exact h.none t ht
    · intro q
      rw [← h.holder q]
      by_cases hq : q = p
      · subst hq
        constructor
        · intro hholds
          exfalso
          rcases hholds with hin | ⟨t, ht, hqt⟩
          · rw [Function.update_self] at hin
            have hbad := congrArg placeOf hin
            rw [placeOf_sleepStage] at hbad
            cases hbad
          · rw [Function.update_self] at ht
            obtain rfl := sleepStage_inj ht
            rw [hsem, Function.update_self] at hqt
            exact hqt (List.mem_append_right _ List.mem_cons_self)
        · intro hholds
          exact absurd hholds hpnot
      · have hqueue : ∀ t, q ∉ ((x.downStart p s).sem t).queue ↔ q ∉ (x.sem t).queue := by
          intro t
          rw [hsem]
          by_cases hts : t = s
          · rw [hts, Function.update_self]
            simp only [List.mem_append, List.mem_singleton, hq, or_false]
          · rw [Function.update_of_ne hts]
        unfold Holds
        simp only [Function.update_of_ne hq, hqueue]

/-- A thread that was woken goes on: it has the token. -/
theorem resume (h : Tokened x stage tok) (hp : stage p = sleepStage s)
    (hrun : (x.proc p).state = .runnable) :
    ∃ x', x.downEnd p s = some x' ∧ tok = .thread p ∧
      Tokened x' (Function.update stage p .inside) (.thread p) := by
  have hdown : x.place p = .inDown s := by
    rw [h.place, hp, placeOf_sleepStage]
  have hq := (h.sound.runnable_iff hdown).mp hrun
  obtain ⟨x', hend, hsound, hplace, hsem⟩ := h.sound.downEnd hdown hq
  have htok : tok = .thread p := (h.holder p).mp (Or.inr ⟨s, hp, hq⟩)
  refine ⟨x', hend, htok, hsound, ?_, ?_, ?_, ?_⟩
  · intro q
    rw [hplace]
    by_cases hqp : q = p
    · rw [hqp, Function.update_self, Function.update_self]
      rfl
    · rw [Function.update_of_ne hqp, Function.update_of_ne hqp, h.place]
  · intro t ht
    cases ht
  · intro t _
    rw [hsem]
    apply h.none
    intro heq
    rw [htok] at heq
    cases heq
  · intro q
    by_cases hqp : q = p
    · refine ⟨fun _ => by rw [hqp], fun _ => Or.inl ?_⟩
      rw [hqp, Function.update_self]
    · rw [← htok, ← h.holder q]
      unfold Holds
      simp only [Function.update_of_ne hqp, hsem]

end Tokened
end Ucore.Sync
