import Ucore.Sync.MonitorRuns
import Ucore.Sync.PhiSema

/-!
The philosophers of `check_sync.c` with a monitor. The entries `state_condvar` are the
variables of the monitor, and each step of a philosopher is a step of the monitor with the
code around it.
-/
namespace Ucore.Sync

open Library

/-- Where a philosopher is: what is done next, or the `down` on its way. -/
inductive CondvarPc where
  | thinking
  | takeEnter
  | takeTest
  | takeSignal
  | takeWait
  | takeWaiting
  | takeLeave
  | eating
  | putEnter
  | putTestLeft
  | putSignalLeft
  | putTestRight
  | putSignalRight
  | putLeave
  deriving DecidableEq

abbrev PhiMonitor (k : ℕ) := Monitor (Fin (k + 3)) (Fin (k + 3)) (Fin (k + 3) → PhiState)

structure PhiCondvar (k : ℕ) where
  mtp : PhiMonitor k
  pc : Fin (k + 3) → CondvarPc

namespace PhiCondvar

variable {k : ℕ}

def stateCondvar (x : PhiCondvar k) : Fin (k + 3) → PhiState := x.mtp.data

def setState (x : PhiCondvar k) (i : Fin (k + 3)) (v : PhiState) : PhiCondvar k :=
  { x with mtp := { x.mtp with data := Function.update x.mtp.data i v } }

/-- A step of the monitor for a philosopher, which is at `after` if it is inside then, and
at `asleep` if it has another `down` before it. -/
def run (x : PhiCondvar k) (i : Fin (k + 3))
    (op : MonitorOp (Fin (k + 3)) (Fin (k + 3)) (Fin (k + 3) → PhiState))
    (asleep after : CondvarPc) : Option (PhiCondvar k) :=
  (x.mtp.step op).map (fun mtp =>
    ⟨mtp, Function.update x.pc i (if mtp.stage i = .inside then after else asleep)⟩)

/-- `phi_test_condvar` for the philosopher `j`, called by `i`. -/
def phiTestCondvar (x : PhiCondvar k) (i j : Fin (k + 3)) (asleep after : CondvarPc) :
    Option (PhiCondvar k) :=
  if CanEat x.stateCondvar j then (x.setState j .eating).run i (.condSignal i j) asleep after
  else some { x with pc := Function.update x.pc i after }

/-- The next step of a philosopher; `none` is a failed assertion. `phi_take_forks_condvar`
and `phi_put_forks_condvar` are cut behind each operation on a semaphore. -/
def step (x : PhiCondvar k) (i : Fin (k + 3)) : Option (PhiCondvar k) :=
  match x.pc i with
  | .thinking => x.run i (.enter i) .takeEnter .takeTest
  | .takeEnter => x.run i (.goOn i) .takeEnter .takeTest
  | .takeTest => (x.setState i .hungry).phiTestCondvar i i .takeSignal .takeWait
  | .takeSignal => x.run i (.goOn i) .takeSignal .takeWait
  | .takeWait =>
    if x.stateCondvar i = .hungry then x.run i (.condWait i i) .takeWaiting .takeLeave
    else x.run i (.leave i) .eating .eating
  | .takeWaiting => x.run i (.goOn i) .takeWaiting .takeLeave
  | .takeLeave => x.run i (.leave i) .eating .eating
  | .eating => x.run i (.enter i) .putEnter .putTestLeft
  | .putEnter => x.run i (.goOn i) .putEnter .putTestLeft
  | .putTestLeft =>
    (x.setState i .thinking).phiTestCondvar i (left i) .putSignalLeft .putTestRight
  | .putSignalLeft => x.run i (.goOn i) .putSignalLeft .putTestRight
  | .putTestRight => x.phiTestCondvar i (right i) .putSignalRight .putLeave
  | .putSignalRight => x.run i (.goOn i) .putSignalRight .putLeave
  | .putLeave => x.run i (.leave i) .thinking .thinking

/-- A philosopher that sleeps has to be woken first. -/
def Enabled (x : PhiCondvar k) (i : Fin (k + 3)) : Prop := (x.mtp.sems.proc i).state = .runnable

def init (k : ℕ) : PhiCondvar k := ⟨Monitor.init (fun _ => .thinking), fun _ => .thinking⟩

structure Safe (x : PhiCondvar k) : Prop where
  apart : Apart x.stateCondvar
  returned : ∀ i, x.pc i = .eating → x.stateCondvar i = .eating

/-- Where a philosopher is in the monitor. -/
def At (i : Fin (k + 3)) (st : Stage (Fin (k + 3))) : CondvarPc → Prop
  | .thinking => st = .outside
  | .takeEnter => st = .entering
  | .takeTest => st = .inside
  | .takeSignal => st = .beforeNext ∨ st = .suspended
  | .takeWait => st = .inside
  | .takeWaiting => st = .beforeWait i ∨ st = .waiting i
  | .takeLeave => st = .inside
  | .eating => st = .outside
  | .putEnter => st = .entering
  | .putTestLeft => st = .inside
  | .putSignalLeft => st = .beforeNext ∨ st = .suspended
  | .putTestRight => st = .inside
  | .putSignalRight => st = .beforeNext ∨ st = .suspended
  | .putLeave => st = .inside

/-- The entry of a philosopher, by where it is. -/
def Entry (v : PhiState) : CondvarPc → Prop
  | .thinking => v = .thinking
  | .takeEnter => v = .thinking
  | .takeTest => v = .thinking
  | .takeSignal => v = .eating
  | .takeWait => v ≠ .thinking
  | .takeWaiting => v ≠ .thinking
  | .takeLeave => v = .eating
  | .eating => v = .eating
  | .putEnter => v = .eating
  | .putTestLeft => v = .eating
  | .putSignalLeft => v = .thinking
  | .putTestRight => v = .thinking
  | .putSignalRight => v = .thinking
  | .putLeave => v = .thinking

/-- A philosopher that is signalled may eat. -/
structure Inv (x : PhiCondvar k) : Prop where
  monitor : x.mtp.Inv
  place : ∀ i, At i (x.mtp.stage i) (x.pc i)
  apart : Apart x.stateCondvar
  entry : ∀ i, Entry (x.stateCondvar i) (x.pc i)
  woken : ∀ i, x.mtp.Woken i → x.stateCondvar i = .eating

variable {x : PhiCondvar k} {i : Fin (k + 3)}

theorem inv_init (k : ℕ) : (init k).Inv := by
  refine ⟨Monitor.inv_init _, fun _ => rfl, ?_, fun _ => rfl, ?_⟩
  · intro i hi
    cases hi.1
  · intro i hi
    rcases hi with hi | ⟨q, hq, _⟩
    · have hzero : ((init k).mtp.sems.sem (.cv i)).value = 0 := rfl
      omega
    · cases hq

/-- The entry of a hungry philosopher may become that of an eating one at any time. -/
theorem Entry.eat {pc : CondvarPc} (h : Entry .hungry pc) : Entry .eating pc := by
  cases pc <;> first | cases h | exact fun heq => by cases heq

/-- A step of the monitor: the philosopher ends inside or not, and what it finds as its
entry has to fit. -/
theorem Inv.run (h : x.Inv) {op : MonitorOp (Fin (k + 3)) (Fin (k + 3)) (Fin (k + 3) → PhiState)}
    {asleep after : CondvarPc} (hop : x.mtp.Enabled op) (hi : Monitor.actor op = i)
    (hdata : ∀ p d, op ≠ .work p d)
    (hsignal : ∀ p j, op = .condSignal p j → x.stateCondvar j = .eating)
    (hasleep : ∀ st, x.mtp.Next op st → st ≠ .inside → At i st asleep ∧
      Entry (x.stateCondvar i) asleep)
    (hafter : ∀ st, x.mtp.Next op st → st = .inside → At i st after ∧
      Entry (x.stateCondvar i) after) :
    ∃ x', x.run i op asleep after = some x' ∧ x'.Inv := by
  obtain ⟨mtp, hstep, hto⟩ := h.monitor.step_to hop
  have hsame : mtp.data = x.mtp.data := hto.data hdata
  have hnext := hto.next
  rw [hi] at hnext
  have hothers : ∀ q, q ≠ i → mtp.stage q = x.mtp.stage q := fun q hq => hto.others q (hi ▸ hq)
  have hself : At i (mtp.stage i) (if mtp.stage i = .inside then after else asleep) ∧
      Entry (x.stateCondvar i) (if mtp.stage i = .inside then after else asleep) := by
    by_cases hin : mtp.stage i = .inside
    · rw [if_pos hin]
      exact hafter _ hnext hin
    · rw [if_neg hin]
      exact hasleep _ hnext hin
  refine ⟨⟨mtp, Function.update x.pc i (if mtp.stage i = .inside then after else asleep)⟩,
    by rw [PhiCondvar.run, hstep]; rfl, hto.inv, ?_, ?_, ?_, ?_⟩
  · intro j
    by_cases hj : j = i
    · subst hj
      simp only [Function.update_self]
      exact hself.1
    · simp only [Function.update_of_ne hj, hothers j hj]
      exact h.place j
  · unfold stateCondvar
    rw [hsame]
    exact h.apart
  · intro j
    unfold stateCondvar
    rw [hsame]
    by_cases hj : j = i
    · subst hj
      simp only [Function.update_self]
      exact hself.2
    · simp only [Function.update_of_ne hj]
      exact h.entry j
  · intro j hj
    unfold stateCondvar
    rw [hsame]
    rcases hto.woken j hj with hold | ⟨p, hp⟩
    · exact h.woken j hold
    · exact hsignal p j hp

/-- Nobody is signalled while a philosopher is inside. -/
theorem Inv.not_woken (h : x.Inv) (hi : x.mtp.stage i = .inside) (j : Fin (k + 3)) :
    ¬ x.mtp.Woken j := fun hw => (h.monitor.handOver hw).1 i hi

/-- The philosopher inside writes an entry and moves on. -/
theorem Inv.write (h : x.Inv) (hi : x.mtp.stage i = .inside) {j : Fin (k + 3)} {v : PhiState}
    {c : CondvarPc} (hc : At i .inside c) (hapart : Apart (Function.update x.stateCondvar j v))
    (hentry : ∀ l, Entry (Function.update x.stateCondvar j v l) (Function.update x.pc i c l)) :
    Inv { x.setState j v with pc := Function.update x.pc i c } := by
  refine ⟨⟨h.monitor.tokened, ⟨h.monitor.counted.next, h.monitor.counted.cv⟩⟩, ?_, hapart,
    hentry, ?_⟩
  · intro l
    unfold setState
    by_cases hl : l = i
    · subst hl
      simp only [Function.update_self, hi]
      exact hc
    · simp only [Function.update_of_ne hl]
      exact h.place l
  · intro l hl
    exact absurd hl (h.not_woken hi l)

/-- `phi_test_condvar`: the philosopher `j` gets the right to eat and is signalled if it
waits. -/
theorem Inv.phiTestCondvar (h : x.Inv) (hi : x.mtp.stage i = .inside) {j : Fin (k + 3)}
    {asleep after : CondvarPc} (hafter : At i .inside after)
    (hasleep : At i .beforeNext asleep)
    (hyes : CanEat x.stateCondvar j → Entry (Function.update x.stateCondvar j .eating i) asleep ∧
      Entry (Function.update x.stateCondvar j .eating i) after)
    (hno : ¬ CanEat x.stateCondvar j → Entry (x.stateCondvar i) after) :
    ∃ x', x.phiTestCondvar i j asleep after = some x' ∧ x'.Inv := by
  unfold PhiCondvar.phiTestCondvar
  by_cases hcan : CanEat x.stateCondvar j
  · rw [if_pos hcan]
    have hwrite : (x.setState j .eating).Inv := by
      have hpc : Function.update x.pc i (x.pc i) = x.pc := Function.update_eq_self i x.pc
      have hnew := @Inv.write k x i h hi j .eating (x.pc i) (hi ▸ h.place i)
        (h.apart.eat hcan) ?_
      · rw [hpc] at hnew
        exact hnew
      · intro l
        rw [hpc]
        by_cases hl : l = j
        · rw [hl, Function.update_self]
          apply Entry.eat
          have hold := h.entry j
          rwa [hcan.1] at hold
        · rw [Function.update_of_ne hl]
          exact h.entry l
    obtain ⟨hyes₁, hyes₂⟩ := hyes hcan
    refine hwrite.run hi rfl (fun _ _ heq => by cases heq) ?_ ?_ ?_
    · intro p l heq
      obtain ⟨_, rfl⟩ := MonitorOp.condSignal.inj heq
      exact Function.update_self _ _ _
    · intro st hst hne
      rcases hst with rfl | rfl
      · exact ⟨hasleep, hyes₁⟩
      · exact absurd rfl hne
    · intro st _ hin
      rw [hin]
      exact ⟨hafter, hyes₂⟩
  · rw [if_neg hcan]
    have hnew := @Inv.write k x i h hi i (x.stateCondvar i) after hafter ?_ ?_
    · refine ⟨_, rfl, ?_⟩
      have hsame : x.setState i (x.stateCondvar i) = x := by
        unfold setState stateCondvar
        rw [Function.update_eq_self]
      rw [hsame] at hnew
      exact hnew
    · rw [Function.update_eq_self]
      exact h.apart
    · intro l
      rw [Function.update_eq_self]
      by_cases hl : l = i
      · subst hl
        rw [Function.update_self]
        exact hno hcan
      · rw [Function.update_of_ne hl]
        exact h.entry l

/-- Where the philosopher was before does not matter for what `phi_test_condvar` does. -/
theorem phiTestCondvar_setPc (x : PhiCondvar k) (i j : Fin (k + 3)) (c asleep after : CondvarPc) :
    ({ x with pc := Function.update x.pc i c } : PhiCondvar k).phiTestCondvar i j asleep after =
      x.phiTestCondvar i j asleep after := by
  unfold PhiCondvar.phiTestCondvar PhiCondvar.run setState stateCondvar
  simp only [Function.update_idem]

/-- The philosopher inside writes its own entry, and `phi_test_condvar` follows. -/
theorem Inv.writeTest (h : x.Inv) (hi : x.mtp.stage i = .inside) {j : Fin (k + 3)} {v : PhiState}
    {asleep after : CondvarPc} (hv : v ≠ .eating) (hafter : At i .inside after)
    (hasleep : At i .beforeNext asleep) (hentry : Entry v after)
    (hyes : CanEat (Function.update x.stateCondvar i v) j →
      Entry (Function.update (Function.update x.stateCondvar i v) j .eating i) asleep ∧
      Entry (Function.update (Function.update x.stateCondvar i v) j .eating i) after) :
    ∃ x', (x.setState i v).phiTestCondvar i j asleep after = some x' ∧ x'.Inv := by
  have hwrite : ({ x.setState i v with pc := Function.update x.pc i after } : PhiCondvar k).Inv := by
    refine h.write hi hafter (h.apart.update hv) ?_
    intro l
    by_cases hl : l = i
    · rw [hl, Function.update_self, Function.update_self]
      exact hentry
    · rw [Function.update_of_ne hl, Function.update_of_ne hl]
      exact h.entry l
  have hself : Function.update x.stateCondvar i v i = v := Function.update_self i v x.stateCondvar
  have htest := hwrite.phiTestCondvar hi (j := j) hafter hasleep hyes ?_
  · rw [← phiTestCondvar_setPc (x.setState i v) i j after]
    exact htest
  · intro _
    exact (congrArg (fun w => Entry w after) hself).mpr hentry

theorem Inv.step (h : x.Inv) (hi : x.Enabled i) : ∃ x', x.step i = some x' ∧ x'.Inv := by
  have hplace := h.place i
  have hentry := h.entry i
  have hgo : ∀ asleep after, x.mtp.stage i ≠ .outside → x.mtp.stage i ≠ .inside →
      (∀ st, x.mtp.Next (.goOn i) st → st ≠ .inside → At i st asleep ∧
        Entry (x.stateCondvar i) asleep) →
      (∀ st, x.mtp.Next (.goOn i) st → st = .inside → At i st after ∧
        Entry (x.stateCondvar i) after) →
      ∃ x', x.run i (.goOn i) asleep after = some x' ∧ x'.Inv := by
    intro asleep after hout hin hasleep hafter
    exact h.run ⟨hout, hin, hi⟩ rfl (fun _ _ heq => by cases heq) (fun _ _ heq => by cases heq)
      hasleep hafter
  have hleave : ∀ c, x.mtp.stage i = .inside → At i .outside c → Entry (x.stateCondvar i) c →
      ∃ x', x.run i (.leave i) c c = some x' ∧ x'.Inv := by
    intro c hin hc he
    refine h.run hin rfl (fun _ _ heq => by cases heq) (fun _ _ heq => by cases heq) ?_ ?_
    · intro st hst _
      rw [show st = .outside from hst]
      exact ⟨hc, he⟩
    · intro st hst hbad
      rw [show st = .outside from hst] at hbad
      cases hbad
  have henter : ∀ asleep after, x.mtp.stage i = .outside → At i .entering asleep →
      Entry (x.stateCondvar i) asleep → At i .inside after → Entry (x.stateCondvar i) after →
      ∃ x', x.run i (.enter i) asleep after = some x' ∧ x'.Inv := by
    intro asleep after hout h₁ h₂ h₃ h₄
    refine h.run hout rfl (fun _ _ heq => by cases heq) (fun _ _ heq => by cases heq) ?_ ?_
    · intro st hst hne
      rcases hst with rfl | rfl
      · exact ⟨h₁, h₂⟩
      · exact absurd rfl hne
    · intro st _ hin
      rw [hin]
      exact ⟨h₃, h₄⟩
  have hlocked : ∀ asleep after, x.mtp.stage i = .entering → At i .inside after →
      Entry (x.stateCondvar i) after →
      ∃ x', x.run i (.goOn i) asleep after = some x' ∧ x'.Inv := by
    intro asleep after hst h₁ h₂
    refine hgo asleep after ?_ ?_ ?_ ?_
    · rw [hst]
      intro heq
      cases heq
    · rw [hst]
      intro heq
      cases heq
    · intro st hnext hne
      simp only [Monitor.Next, hst] at hnext
      exact absurd hnext hne
    · intro st _ hin
      rw [hin]
      exact ⟨h₁, h₂⟩
  have hnext : ∀ asleep after, x.mtp.stage i = .beforeNext ∨ x.mtp.stage i = .suspended →
      At i .suspended asleep → Entry (x.stateCondvar i) asleep → At i .inside after →
      Entry (x.stateCondvar i) after →
      ∃ x', x.run i (.goOn i) asleep after = some x' ∧ x'.Inv := by
    intro asleep after hst h₁ h₂ h₃ h₄
    refine hgo asleep after ?_ ?_ ?_ ?_
    · rcases hst with hst | hst <;> rw [hst] <;> intro heq <;> cases heq
    · rcases hst with hst | hst <;> rw [hst] <;> intro heq <;> cases heq
    · intro st hnext hne
      rcases hst with hst | hst
      · simp only [Monitor.Next, hst] at hnext
        rcases hnext with rfl | rfl
        · exact ⟨h₁, h₂⟩
        · exact absurd rfl hne
      · simp only [Monitor.Next, hst] at hnext
        exact absurd hnext hne
    · intro st _ hin
      rw [hin]
      exact ⟨h₃, h₄⟩
  unfold PhiCondvar.step
  rcases hpc : x.pc i with _ | _ | _ | _ | _ | _ | _ | _ | _ | _ | _ | _ | _ | _ <;>
    rw [hpc] at hplace hentry
  case thinking => exact henter _ _ hplace rfl hentry rfl hentry
  case takeEnter => exact hlocked _ _ hplace rfl hentry
  case takeTest =>
    refine h.writeTest hplace (fun heq => by cases heq) rfl (Or.inl rfl) ?_ ?_
    · intro heq
      cases heq
    · intro _
      rw [Function.update_self]
      refine ⟨rfl, ?_⟩
      intro heq
      cases heq
  case takeSignal =>
    refine hnext _ _ hplace (Or.inr rfl) hentry rfl ?_
    intro heq
    rw [hentry] at heq
    cases heq
  case takeWait =>
    by_cases hhungry : x.stateCondvar i = .hungry
    · rw [if_pos hhungry]
      refine h.run hplace rfl (fun _ _ heq => by cases heq) (fun _ _ heq => by cases heq) ?_ ?_
      · intro st hst _
        exact ⟨Or.inl hst, hentry⟩
      · intro st hst hbad
        rw [show st = .beforeWait i from hst] at hbad
        cases hbad
    · rw [if_neg hhungry]
      refine hleave _ hplace rfl ?_
      rcases hv : x.stateCondvar i with _ | _ | _
      · exact absurd hv hentry
      · exact absurd hv hhungry
      · rfl
  case takeWaiting =>
    refine hgo _ _ ?_ ?_ ?_ ?_
    · rcases hplace with hst | hst <;> rw [hst] <;> intro heq <;> cases heq
    · rcases hplace with hst | hst <;> rw [hst] <;> intro heq <;> cases heq
    · intro st hst hne
      rcases hplace with hold | hold
      · simp only [Monitor.Next, hold] at hst
        rcases hst with hst | hst
        · exact ⟨Or.inr hst, hentry⟩
        · exact absurd hst.1 hne
      · simp only [Monitor.Next, hold] at hst
        exact absurd hst.1 hne
    · intro st hst hin
      refine ⟨hin, h.woken i ?_⟩
      rcases hplace with hold | hold
      · simp only [Monitor.Next, hold] at hst
        rcases hst with hst | hst
        · rw [hst] at hin
          cases hin
        · exact hst.2
      · simp only [Monitor.Next, hold] at hst
        exact hst.2
  case takeLeave => exact hleave _ hplace rfl hentry
  case eating => exact henter _ _ hplace rfl hentry rfl hentry
  case putEnter => exact hlocked _ _ hplace rfl hentry
  case putTestLeft =>
    refine h.writeTest hplace (fun heq => by cases heq) rfl (Or.inl rfl) rfl ?_
    intro _
    rw [Function.update_of_ne (left_ne i).symm, Function.update_self]
    exact ⟨rfl, rfl⟩
  case putSignalLeft => exact hnext _ _ hplace (Or.inr rfl) hentry rfl hentry
  case putTestRight =>
    refine h.phiTestCondvar hplace rfl (Or.inl rfl) ?_ (fun _ => hentry)
    intro _
    rw [Function.update_of_ne (right_ne i).symm]
    exact ⟨hentry, hentry⟩
  case putSignalRight => exact hnext _ _ hplace (Or.inr rfl) hentry rfl hentry
  case putLeave => exact hleave _ hplace rfl hentry

theorem Inv.safe (h : x.Inv) : x.Safe := by
  refine ⟨h.apart, ?_⟩
  intro i hpc
  have hentry := h.entry i
  rw [hpc] at hentry
  exact hentry

/-- The philosophers with a monitor, in any order of their steps. -/
theorem run_safe (k : ℕ) {ops : List (Fin (k + 3))}
    (hops : RunMeets step Enabled (init k) ops) :
    ∃ t, runOps step (init k) ops = some t ∧ t.Safe := by
  obtain ⟨t, hrun, hinv⟩ := runOps_total (fun x i (h : x.Inv) hi => h.step hi) (inv_init k) hops
  exact ⟨t, hrun, hinv.safe⟩

end PhiCondvar

/-- Both versions of the philosophers, on every ring of three or more, are safe in all
states that any order of their steps reaches, and no assertion fails. -/
theorem philosophers_safe (k : ℕ) (ops : List (Fin (k + 3))) :
    (RunMeets PhiSema.step PhiSema.Enabled (PhiSema.init k) ops →
      ∃ t, runOps PhiSema.step (PhiSema.init k) ops = some t ∧ t.Safe) ∧
    (RunMeets PhiCondvar.step PhiCondvar.Enabled (PhiCondvar.init k) ops →
      ∃ t, runOps PhiCondvar.step (PhiCondvar.init k) ops = some t ∧ t.Safe) :=
  ⟨PhiSema.run_safe k, PhiCondvar.run_safe k⟩

/-- Five philosophers; the first one takes its forks, in both versions. -/
theorem philosophers_safe_five :
    (∃ t, runOps PhiSema.step (PhiSema.init 2) [0, 0, 0, 0] = some t ∧ t.Safe) ∧
      ∃ t, runOps PhiCondvar.step (PhiCondvar.init 2) [0, 0, 0, 0] = some t ∧ t.Safe := by
  refine ⟨(philosophers_safe 2 [0, 0, 0, 0]).1 ?_, (philosophers_safe 2 [0, 0, 0, 0]).2 ?_⟩
  · exact RunMeets.cons rfl rfl (RunMeets.cons rfl rfl (RunMeets.cons rfl rfl
      (RunMeets.cons rfl rfl trivial)))
  · exact RunMeets.cons rfl rfl (RunMeets.cons rfl rfl (RunMeets.cons rfl rfl
      (RunMeets.cons rfl rfl trivial)))

end Ucore.Sync
