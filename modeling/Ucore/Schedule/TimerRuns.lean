import Ucore.Schedule.Timer

/-!
The differences in the list of timers add up to the ticks at which the timers are due, so
every timer fires at its own tick whatever happens to the others.
-/
namespace Ucore.Schedule

open Library

variable {T P : Type*}

/-! The loops over the list. -/

section Loops

variable [DecidableEq T] {expires time : T → ℕ} {t : T} {b : ℕ} {xs : List T}

/-- The new timer gets its place, and only the timers of the list change. -/
theorem addLoop_spec (h : Deltas expires time b xs) (ht : time t = b + expires t) (hnew : t ∉ xs)
    (hnodup : xs.Nodup) :
    Deltas (addLoop expires t xs).1 time b (addLoop expires t xs).2 ∧
      (addLoop expires t xs).2.Perm (t :: xs) ∧
      ∀ u, u ∉ t :: xs → (addLoop expires t xs).1 u = expires u := by
  induction xs generalizing b expires with
  | nil => exact ⟨⟨ht, trivial⟩, List.Perm.refl _, fun _ _ => rfl⟩
  | cons next rest ih =>
    have hne : t ≠ next := fun heq => hnew (heq ▸ List.mem_cons_self)
    have hrest : t ∉ rest := fun hin => hnew (List.mem_cons_of_mem next hin)
    obtain ⟨hnext, hnodup'⟩ := List.nodup_cons.mp hnodup
    rw [addLoop]
    split
    · next hlt =>
      refine ⟨h.insert ht hlt hne hnodup, List.Perm.refl _, ?_⟩
      intro u hu
      have hun : u ≠ next := fun heq => hu (heq ▸ List.mem_cons_of_mem t List.mem_cons_self)
      exact Function.update_of_ne hun ..
    · next hge =>
      have hfirst := h.1
      have hkept : Deltas (Function.update expires t (expires t - expires next)) time (time next) rest := by
        refine h.2.congr ?_ (fun _ _ => rfl)
        intro u hu
        have hut : u ≠ t := fun heq => hrest (heq ▸ hu)
        exact Function.update_of_ne hut ..
      have htime : time t =
          time next + Function.update expires t (expires t - expires next) t := by
        rw [Function.update_self]
        omega
      obtain ⟨hdeltas, hperm, hother⟩ := ih hkept htime hrest hnodup'
      refine ⟨⟨?_, hdeltas⟩, ?_, ?_⟩
      · have hout : next ∉ t :: rest := by
          intro hin
          rcases List.mem_cons.mp hin with heq | hin
          · exact hne heq.symm
          · exact hnext hin
        rw [hother next hout, Function.update_of_ne hne.symm]
        exact hfirst
      · exact (hperm.cons next).trans (List.Perm.swap t next rest)
      · intro u hu
        have hut : u ≠ t := fun heq => hu (heq ▸ List.mem_cons_self)
        have hout : u ∉ t :: rest := by
          intro hin
          rcases List.mem_cons.mp hin with heq | hin
          · exact hut heq
          · exact hu (List.mem_cons_of_mem t (List.mem_cons_of_mem next hin))
        rw [hother u hout, Function.update_of_ne hut]

theorem timerAfter_mem {n : T} (h : timerAfter t xs = some n) : n ∈ xs.tail := by
  induction xs with
  | nil => cases h
  | cons x rest ih =>
    rw [timerAfter] at h
    split at h
    · exact List.mem_of_head? h
    · exact List.mem_of_mem_tail (ih h)

/-- What `del_timer` does to the differences. -/
theorem del_deltas (h : Deltas expires time b xs) (hnodup : xs.Nodup) (hin : t ∈ xs)
    (hrange : ∀ x ∈ xs, time x < b + 2 ^ 32) :
    Deltas
      (match timerAfter t xs with
        | some n => Function.update expires n ((expires n + expires t) % 2 ^ 32)
        | none => expires) time b (xs.erase t) := by
  induction xs generalizing b with
  | nil => exact absurd hin List.not_mem_nil
  | cons x rest ih =>
    obtain ⟨hx, hnodup'⟩ := List.nodup_cons.mp hnodup
    by_cases hxt : x = t
    · subst hxt
      rw [timerAfter, if_pos rfl, List.erase_cons_head]
      cases rest with
      | nil => trivial
      | cons n rest =>
        have hlt := hrange n (List.mem_cons_of_mem x List.mem_cons_self)
        have hfirst := h.1
        have hsecond := h.2.1
        have hmod : (expires n + expires x) % 2 ^ 32 = expires n + expires x :=
          Nat.mod_eq_of_lt (by omega)
        simp only [List.head?_cons, hmod]
        exact h.remove hnodup'
    · rw [timerAfter, if_neg hxt, List.erase_cons_tail (by simpa only [beq_iff_eq] using hxt)]
      have hin' : t ∈ rest := (List.mem_cons.mp hin).resolve_left fun heq => hxt heq.symm
      have hbase : b ≤ time x := h.le List.mem_cons_self
      have htail := ih h.2 hnodup' hin' fun y hy => by
        have hlt := hrange y (List.mem_cons_of_mem x hy)
        omega
      refine ⟨?_, htail⟩
      cases hafter : timerAfter t rest with
      | none => exact h.1
      | some n =>
        have hne : x ≠ n := fun heq => hx (heq ▸ List.mem_of_mem_tail (timerAfter_mem hafter))
        simp only [Function.update_of_ne hne]
        exact h.1

end Loops

namespace Timers

variable {s s' : Timers T P} {time : T → ℕ} {t : T} {b : ℕ}

section Links

variable [DecidableEq T]

theorem passOn_deltas (h : Deltas s.expires time b s.timerList) (hnodup : s.timerList.Nodup)
    (hin : t ∈ s.timerList) (hrange : ∀ x ∈ s.timerList, time x < b + 2 ^ 32) :
    Deltas (s.passOn t) time b (s.timerList.erase t) := by
  unfold passOn
  split
  · exact del_deltas h hnodup hin hrange
  · next hzero => exact h.erase (not_not.mp hzero)

theorem addTimer_spec (h : Deltas s.expires time b s.timerList) (ht : time t = b + s.expires t)
    (hnodup : s.timerList.Nodup) (hadd : s.addTimer t = .ok s') :
    Deltas s'.expires time b s'.timerList ∧ s'.timerList.Perm (t :: s.timerList) ∧
      s'.proc = s.proc ∧ s.proc t ≠ none := by
  unfold addTimer at hadd
  split at hadd
  · cases hadd
  · next hgood =>
    split at hadd
    · cases hadd
    · next hout =>
      cases hadd
      obtain ⟨hdeltas, hperm, _⟩ := addLoop_spec h ht hout hnodup
      exact ⟨hdeltas, hperm, rfl, (not_not.mp hgood).2⟩

theorem delTimer_mem (hnodup : s.timerList.Nodup) (u : T) :
    u ∈ (s.delTimer t).timerList ↔ u ≠ t ∧ u ∈ s.timerList := by
  unfold delTimer
  split
  · exact hnodup.mem_erase_iff
  · next hout =>
    constructor
    · exact fun hu => ⟨fun heq => hout (heq ▸ hu), hu⟩
    · exact fun hu => hu.2

theorem delTimer_nodup (hnodup : s.timerList.Nodup) : (s.delTimer t).timerList.Nodup := by
  unfold delTimer
  split
  · exact hnodup.erase t
  · exact hnodup

theorem delTimer_proc : (s.delTimer t).proc = s.proc := by
  unfold delTimer
  split <;> rfl

theorem delTimer_deltas (h : Deltas s.expires time b s.timerList) (hnodup : s.timerList.Nodup)
    (hrange : ∀ x ∈ s.timerList, time x < b + 2 ^ 32) :
    Deltas (s.delTimer t).expires time b (s.delTimer t).timerList := by
  unfold delTimer
  split
  · next hin => exact passOn_deltas h hnodup hin hrange
  · exact h

/-- The head of the list goes without changing a difference. -/
theorem delTimer_head {rest : List T} (hlist : s.timerList = t :: rest) (hzero : s.expires t = 0) :
    s.delTimer t = { s with timerList := rest } := by
  unfold delTimer passOn
  rw [if_pos (hlist ▸ List.mem_cons_self), if_neg (not_not.mpr hzero), hlist, List.erase_cons_head]

end Links

section Wake

variable [DecidableEq P]

/-- Waking a process up changes processes only. -/
theorem wakeTimer_eq (h : s.wakeTimer t = .ok s') :
    s'.expires = s.expires ∧ s'.proc = s.proc ∧ s'.timerList = s.timerList := by
  unfold wakeTimer at h
  split at h
  · cases h
  · next p hp =>
    split at h
    · cases h
    · unfold wakeupProc at h
      split at h
      · cases h
      · split at h
        · cases h
          exact ⟨rfl, rfl, rfl⟩
        · cases h
          exact ⟨rfl, rfl, rfl⟩

theorem wakeTimer_ne_headExpired : s.wakeTimer t ≠ .error .headExpired := by
  unfold wakeTimer wakeupProc
  intro h
  split at h
  · cases h
  · split at h
    · cases h
    · split at h
      · cases h
      · split at h <;> cases h

/-- The processes whose state allows it can be woken up, and no other. -/
theorem wakeTimer_ok_iff (hp : s.proc t ≠ none) :
    (∃ s', s.wakeTimer t = .ok s') ↔ TimerRun.CanWake s t := by
  obtain ⟨p, hp⟩ := Option.ne_none_iff_exists'.mp hp
  unfold wakeTimer wakeupProc
  rw [hp]
  constructor
  · intro hok q hq
    obtain ⟨s', hs'⟩ := hok
    rw [hp] at hq
    cases hq
    by_cases hz : (s.procs p).state = .zombie
    · simp only [hz, if_true] at hs'
      split at hs' <;> cases hs'
    · refine ⟨hz, ?_⟩
      intro hw hi
      simp only [hw, hi, ne_eq, not_false_eq_true, and_self, if_true] at hs'
      cases hs'
  · intro hcan
    obtain ⟨hz, hi⟩ := hcan p hp
    have hno : ¬ ((s.procs p).waitState ≠ 0 ∧ (s.procs p).waitState &&& wtInterrupted = 0) :=
      fun hboth => hi hboth.1 hboth.2
    simp only [hno, if_false, hz]
    split
    · exact ⟨_, rfl⟩
    · exact ⟨_, rfl⟩

/-- Waking one process changes nothing for the other timers, also not for those of the same
process. -/
theorem wakeTimer_canWake (h : s.wakeTimer t = .ok s') (u : T) :
    TimerRun.CanWake s' u ↔ TimerRun.CanWake s u := by
  have hcan : s.proc t ≠ none → TimerRun.CanWake s t := fun hp => (wakeTimer_ok_iff hp).mp ⟨s', h⟩
  unfold wakeTimer wakeupProc at h
  split at h
  · cases h
  · next p hp =>
    have ht := hcan (hp ▸ Option.some_ne_none p) p hp
    split at h
    · cases h
    · split at h
      · cases h
      · split at h
        · cases h
          unfold TimerRun.CanWake setProc
          refine forall_congr' fun q => imp_congr_right fun _ => ?_
          by_cases hq : q = p
          · subst hq
            simp only [Function.update_self]
            refine ⟨fun _ => ht, fun _ => ⟨?_, fun hzero => absurd rfl hzero⟩⟩
            exact fun hz => nomatch hz
          · simp only [Function.update_of_ne hq]
        · cases h
          exact Iff.rfl

end Wake

/-! One tick. -/

variable [DecidableEq T] [DecidableEq P]

/-- What the loop of `run_timer_list` leaves when the timers of tick `c` are at the front. -/
structure Expired (s : Timers T P) (time : T → ℕ) (c : ℕ) (fired : List T) (s' : Timers T P) :
    Prop where
  split : s.timerList = fired ++ s'.timerList
  now : ∀ t ∈ fired, time t = c
  later : ∀ t ∈ s'.timerList, c < time t
  deltas : Deltas s'.expires time c s'.timerList
  proc : s'.proc = s.proc

theorem expireLoop_spec {c : ℕ} {xs fired : List T} (hlist : s.timerList = xs)
    (h : Deltas s.expires time c xs) (hend : s.expireLoop xs = .ok (fired, s')) :
    Expired s time c fired s' := by
  induction xs generalizing s fired s' with
  | nil =>
    cases hend
    refine ⟨rfl, fun t ht => absurd ht List.not_mem_nil, ?_, ?_, rfl⟩
    · intro t ht
      rw [hlist] at ht
      exact absurd ht List.not_mem_nil
    · rw [hlist]
      trivial
  | cons t rest ih =>
    have hfirst := h.1
    rw [expireLoop] at hend
    split at hend
    · next hzero =>
      cases hwake : s.wakeTimer t with
      | error e =>
        rw [hwake] at hend
        cases hend
      | ok s₁ =>
        rw [hwake] at hend
        obtain ⟨hexpires, hproc, hkeep⟩ := wakeTimer_eq hwake
        change Except.map _ (expireLoop (s₁.delTimer t) rest) = _ at hend
        rw [delTimer_head (hkeep.trans hlist) (by rw [hexpires]; exact hzero)] at hend
        cases hloop : expireLoop { s₁ with timerList := rest } rest with
        | error e =>
          rw [hloop] at hend
          cases hend
        | ok r =>
          rw [hloop] at hend
          cases hend
          have hnow : time t = c := by omega
          have hrest : Deltas s₁.expires time c rest := by
            rw [hexpires, ← hnow]
            exact h.2
          obtain ⟨hsplit, hfired, hlater, hdeltas, hproc'⟩ :=
            ih (s := { s₁ with timerList := rest }) rfl hrest hloop
          refine ⟨?_, ?_, hlater, hdeltas, hproc'.trans hproc⟩
          · rw [hlist, List.cons_append]
            exact congrArg (List.cons t) hsplit
          · intro u hu
            rcases List.mem_cons.mp hu with heq | hin
            · rw [heq]
              exact hnow
            · exact hfired u hin
    · next hpos =>
      cases hend
      refine ⟨rfl, fun u hu => absurd hu List.not_mem_nil, ?_, ?_, rfl⟩
      · intro u hu
        rw [hlist] at hu
        rcases List.mem_cons.mp hu with heq | hin
        · rw [heq]
          omega
        · have hle := h.2.le hin
          omega
      · rw [hlist]
        exact h

theorem expireLoop_ok_iff {c : ℕ} {xs : List T} (hlist : s.timerList = xs)
    (h : Deltas s.expires time c xs) (hproc : ∀ t ∈ xs, s.proc t ≠ none) :
    (∃ r, s.expireLoop xs = .ok r) ↔ ∀ t ∈ xs, time t = c → TimerRun.CanWake s t := by
  induction xs generalizing s with
  | nil => exact ⟨fun _ t ht => absurd ht List.not_mem_nil, fun _ => ⟨_, rfl⟩⟩
  | cons t rest ih =>
    have hfirst := h.1
    have hcan := wakeTimer_ok_iff (hproc t List.mem_cons_self)
    rw [expireLoop]
    split
    · next hzero =>
      have hnow : time t = c := by omega
      cases hwake : s.wakeTimer t with
      | error e =>
        constructor
        · intro hok
          obtain ⟨r, hr⟩ := hok
          cases hr
        · intro hall
          obtain ⟨s₁, hs₁⟩ := hcan.mpr (hall t List.mem_cons_self hnow)
          rw [hwake] at hs₁
          cases hs₁
      | ok s₁ =>
        obtain ⟨hexpires, hproc₁, hkeep⟩ := wakeTimer_eq hwake
        have hrest : Deltas s₁.expires time c rest := by
          rw [hexpires, ← hnow]
          exact h.2
        have hprocs : ∀ u ∈ rest, s₁.proc u ≠ none := by
          intro u hu
          rw [hproc₁]
          exact hproc u (List.mem_cons_of_mem t hu)
        have hloop := ih (s := { s₁ with timerList := rest }) rfl hrest hprocs
        change (∃ r, Except.map _ (expireLoop (s₁.delTimer t) rest) = _) ↔ _
        rw [delTimer_head (hkeep.trans hlist) (by rw [hexpires]; exact hzero)]
        have hmap : (∃ r, Except.map (fun r => (t :: r.1, r.2))
            (expireLoop { s₁ with timerList := rest } rest) = .ok r) ↔
            ∃ r, expireLoop { s₁ with timerList := rest } rest = .ok r := by
          cases expireLoop { s₁ with timerList := rest } rest with
          | error e =>
            constructor
            · intro hok
              obtain ⟨r, hr⟩ := hok
              cases hr
            · intro hok
              obtain ⟨r, hr⟩ := hok
              cases hr
          | ok r => exact ⟨fun _ => ⟨r, rfl⟩, fun _ => ⟨_, rfl⟩⟩
        rw [hmap, hloop]
        constructor
        · intro hall u hu hunow
          rcases List.mem_cons.mp hu with heq | hin
          · rw [heq]
            exact hcan.mp ⟨s₁, hwake⟩
          · exact (wakeTimer_canWake hwake u).mp (hall u hin hunow)
        · intro hall u hu hunow
          exact (wakeTimer_canWake hwake u).mpr (hall u (List.mem_cons_of_mem t hu) hunow)
    · next hpos =>
      refine ⟨fun _ u hu hnow => ?_, fun _ => ⟨_, rfl⟩⟩
      rcases List.mem_cons.mp hu with heq | hin
      · rw [heq] at hnow
        omega
      · have hle := h.2.le hin
        omega

theorem expireLoop_ne_headExpired (s : Timers T P) (xs : List T) :
    s.expireLoop xs ≠ .error .headExpired := by
  induction xs generalizing s with
  | nil => exact fun h => nomatch h
  | cons t rest ih =>
    rw [expireLoop]
    split
    · cases hwake : s.wakeTimer t with
      | error e =>
        intro h
        cases h
        exact wakeTimer_ne_headExpired hwake
      | ok s₁ =>
        change Except.map _ (expireLoop (s₁.delTimer t) rest) ≠ _
        cases hloop : expireLoop (s₁.delTimer t) rest with
        | error e =>
          intro h
          cases h
          exact ih _ hloop
        | ok r => exact fun h => nomatch h
    · exact fun h => nomatch h

end Timers

/-! Runs. -/

namespace TimerRun

variable {s s' : TimerRun T P} {t u : T} {a e : ℕ}

theorem due_eq (h : s.added t = some (a, e)) : s.due t = a + e := by
  unfold due
  rw [h]
  rfl

/-- When a timer has woken its process. -/
def Fired (s : TimerRun T P) (t : T) (c : ℕ) : Prop :=
  ∃ a e, s.added t = some (a, e) ∧ c = a + e ∧ c ≤ s.clock ∧ ∀ d, s.deleted t = some d → c ≤ d

/-- When a timer is in the list. -/
def Pending (s : TimerRun T P) (t : T) : Prop :=
  ∃ a e, s.added t = some (a, e) ∧ s.clock < a + e ∧ s.deleted t = none

structure Inv (s : TimerRun T P) : Prop where
  deltas : Deltas s.timers.expires s.due s.clock s.timers.timerList
  nodup : s.timers.timerList.Nodup
  pending : ∀ t, t ∈ s.timers.timerList ↔ s.Pending t
  woken : ∀ t c, (t, c) ∈ s.woken ↔ s.Fired t c
  once : s.woken.Nodup
  range : ∀ t a e, s.added t = some (a, e) → a ≤ s.clock ∧ e < 2 ^ 32
  past : ∀ t d, s.deleted t = some d → d ≤ s.clock ∧ s.added t ≠ none
  proc : ∀ t ∈ s.timers.timerList, s.timers.proc t ≠ none

theorem init_inv (procs : P → Waiter) : Inv (init procs : TimerRun T P) where
  deltas := trivial
  nodup := List.nodup_nil
  pending t := by
    constructor
    · intro ht
      exact absurd ht List.not_mem_nil
    · intro ht
      obtain ⟨a, e, hadd, _⟩ := ht
      cases hadd
  woken t c := by
    constructor
    · intro ht
      exact absurd ht List.not_mem_nil
    · intro ht
      obtain ⟨a, e, hadd, _⟩ := ht
      cases hadd
  once := List.nodup_nil
  range t a e hadd := nomatch hadd
  past t d hdel := nomatch hdel
  proc t ht := absurd ht List.not_mem_nil

/-- A pending timer is due after the clock, and not too far. -/
theorem Inv.pending_due (h : Inv s) (ht : t ∈ s.timers.timerList) :
    s.clock < s.due t ∧ s.due t < s.clock + 2 ^ 32 := by
  obtain ⟨a, e, hadd, hlate, _⟩ := (h.pending t).mp ht
  have hrange := h.range t a e hadd
  rw [due_eq hadd]
  omega

theorem Inv.exact (h : Inv s) : Exact s where
  woken := h.woken
  once := h.once
  order := h.deltas.sorted
  pending := h.pending
  head t ht := by
    have hin : t ∈ s.timers.timerList := List.mem_of_head? ht
    have hlt := (h.pending_due hin).1
    obtain ⟨rest, hlist⟩ : ∃ rest, s.timers.timerList = t :: rest :=
      ⟨_, (List.cons_head?_tail ht).symm⟩
    have hdeltas := h.deltas
    rw [hlist] at hdeltas
    have hfirst := hdeltas.1
    omega

variable [DecidableEq T]

/-- Adding a timer that `timer_init` has set up. -/
theorem Inv.add (h : Inv s) {p : P} (hmay : s.mayAdd t e = true) {timers timers' : Timers T P}
    (hexpires : timers.expires = Function.update s.timers.expires t e)
    (hproc : timers.proc = Function.update s.timers.proc t (some p))
    (hlist : timers.timerList = s.timers.timerList) (hadd : timers.addTimer t = .ok timers') :
    Inv (s.recordAdd t e timers') := by
  obtain ⟨hpair, hsmall⟩ := Bool.and_eq_true_iff.mp hmay
  obtain ⟨hnone, hpos⟩ := Bool.and_eq_true_iff.mp hpair
  have hfresh : s.added t = none := Option.isNone_iff_eq_none.mp hnone
  have hpos' : 0 < e := of_decide_eq_true hpos
  have hsmall' : e < 2 ^ 32 := of_decide_eq_true hsmall
  have hout : t ∉ s.timers.timerList := by
    intro hin
    obtain ⟨a, e', hadded, _⟩ := (h.pending t).mp hin
    rw [hfresh] at hadded
    cases hadded
  have hdel : s.deleted t = none := by
    cases hd : s.deleted t with
    | none => rfl
    | some d => exact absurd hfresh (h.past t d hd).2
  have hself : (s.recordAdd t e timers').added t = some (s.clock, e) := Function.update_self ..
  have hother : ∀ u, u ≠ t → (s.recordAdd t e timers').added u = s.added u :=
    fun u hu => Function.update_of_ne hu ..
  have hdue : ∀ u, u ≠ t → (s.recordAdd t e timers').due u = s.due u := by
    intro u hu
    unfold due
    rw [hother u hu]
  have hkept : Deltas timers.expires (s.recordAdd t e timers').due s.clock timers.timerList := by
    rw [hlist, hexpires]
    refine h.deltas.congr ?_ ?_
    · intro u hu
      have hut : u ≠ t := fun heq => hout (heq ▸ hu)
      exact Function.update_of_ne hut ..
    · exact fun u hu => hdue u fun heq => hout (heq ▸ hu)
  have htime : (s.recordAdd t e timers').due t = s.clock + timers.expires t := by
    rw [due_eq hself, hexpires, Function.update_self]
  obtain ⟨hdeltas, hperm, hproc', hown⟩ :=
    Timers.addTimer_spec hkept htime (hlist ▸ h.nodup) hadd
  rw [hlist] at hperm
  refine ⟨hdeltas, hperm.nodup_iff.mpr (List.nodup_cons.mpr ⟨hout, h.nodup⟩), ?_, ?_, h.once, ?_, ?_, ?_⟩
  · intro u
    rw [show (s.recordAdd t e timers').timers.timerList = timers'.timerList from rfl, hperm.mem_iff,
      List.mem_cons, h.pending u]
    by_cases hu : u = t
    · subst hu
      exact ⟨fun _ => ⟨s.clock, e, hself, by change s.clock < _; omega, hdel⟩, fun _ => .inl rfl⟩
    · unfold Pending
      rw [hother u hu]
      exact or_iff_right hu
  · intro u c
    rw [show (s.recordAdd t e timers').woken = s.woken from rfl, h.woken u c]
    by_cases hu : u = t
    · subst hu
      constructor
      · intro hfired
        obtain ⟨a, e', hadded, _⟩ := hfired
        rw [hfresh] at hadded
        cases hadded
      · intro hfired
        obtain ⟨a, e', hadded, hc, hle, _⟩ := hfired
        rw [hself] at hadded
        cases hadded
        have hclock : c ≤ s.clock := hle
        omega
    · unfold Fired
      rw [hother u hu]
      exact Iff.rfl
  · intro u a e' hadded
    by_cases hu : u = t
    · subst hu
      rw [hself] at hadded
      cases hadded
      exact ⟨Nat.le_refl _, hsmall'⟩
    · rw [hother u hu] at hadded
      exact h.range u a e' hadded
  · intro u d hd
    refine ⟨(h.past u d hd).1, ?_⟩
    by_cases hu : u = t
    · subst hu
      rw [hself]
      exact Option.some_ne_none _
    · rw [hother u hu]
      exact (h.past u d hd).2
  · intro u hu
    change timers'.proc u ≠ none
    rw [hproc']
    rcases List.mem_cons.mp (hperm.mem_iff.mp hu) with heq | hin
    · rw [heq]
      exact hown
    · have hut : u ≠ t := fun heq => hout (heq ▸ hin)
      rw [hproc, Function.update_of_ne hut]
      exact h.proc u hin

/-- A timer that is deleted for the first time. -/
theorem recordDel_deleted (s : TimerRun T P) (t u : T) (d : ℕ) :
    (s.recordDel t).deleted u = some d ↔
      s.deleted u = some d ∨ (u = t ∧ s.deleted t = none ∧ d = s.clock) := by
  change Function.update s.deleted t (some ((s.deleted t).getD s.clock)) u = some d ↔ _
  by_cases hu : u = t
  · subst hu
    rw [Function.update_self]
    cases hd : s.deleted u with
    | none =>
      simp only [Option.getD_none, Option.some.injEq, reduceCtorEq, true_and, false_or]
      exact eq_comm
    | some d' => simp only [Option.getD_some, reduceCtorEq, false_and, and_false, or_false]
  · rw [Function.update_of_ne hu]
    simp only [hu, false_and, or_false]

theorem Inv.del (h : Inv s) (hadd : s.added t ≠ none) : Inv (s.recordDel t) where
  deltas := Timers.delTimer_deltas h.deltas h.nodup fun u hu => (h.pending_due hu).2
  nodup := Timers.delTimer_nodup h.nodup
  pending u := by
    change u ∈ (s.timers.delTimer t).timerList ↔ _
    rw [Timers.delTimer_mem h.nodup, h.pending u]
    have hnone : (s.recordDel t).deleted u = none ↔ u ≠ t ∧ s.deleted u = none := by
      change Function.update s.deleted t _ u = none ↔ _
      by_cases hu : u = t
      · rw [hu, Function.update_self]
        simp only [reduceCtorEq, ne_eq, not_true_eq_false, false_and]
      · rw [Function.update_of_ne hu]
        exact (and_iff_right hu).symm
    unfold Pending
    rw [hnone]
    constructor
    · intro hboth
      obtain ⟨hne, a, e, hadded, hlate, hdel⟩ := hboth
      exact ⟨a, e, hadded, hlate, hne, hdel⟩
    · intro hall
      obtain ⟨a, e, hadded, hlate, hne, hdel⟩ := hall
      exact ⟨hne, a, e, hadded, hlate, hdel⟩
  woken u c := by
    change (u, c) ∈ s.woken ↔ _
    rw [h.woken u c]
    unfold Fired
    refine exists_congr fun a => exists_congr fun e => and_congr_right fun _ =>
      and_congr_right fun _ => and_congr_right fun hle => ?_
    have hclock : c ≤ s.clock := hle
    constructor
    · intro hbefore d hd
      rcases (recordDel_deleted s t u d).mp hd with hold | hnew
      · exact hbefore d hold
      · exact hnew.2.2 ▸ hclock
    · intro hbefore d hd
      exact hbefore d ((recordDel_deleted s t u d).mpr (.inl hd))
  once := h.once
  range := h.range
  past u d hd := by
    rcases (recordDel_deleted s t u d).mp hd with hold | hnew
    · exact h.past u d hold
    · obtain ⟨heq, _, hd⟩ := hnew
      exact ⟨Nat.le_of_eq hd, heq ▸ hadd⟩
  proc u hu := by
    change (s.timers.delTimer t).proc u ≠ none
    rw [Timers.delTimer_proc]
    exact h.proc u ((Timers.delTimer_mem h.nodup u).mp hu).2

variable [DecidableEq P]

/-- The timers that are due at the next tick are the ones that fire. -/
theorem Inv.runTimerList (h : Inv s) {fired : List T} {timers : Timers T P}
    (hrun : s.timers.runTimerList = .ok (fired, timers)) :
    Timers.Expired s.timers s.due (s.clock + 1) fired timers := by
  unfold Timers.runTimerList at hrun
  split at hrun
  · next hlist =>
    cases hrun
    refine ⟨rfl, fun t ht => absurd ht List.not_mem_nil, ?_, ?_, rfl⟩
    · intro t ht
      rw [hlist] at ht
      exact absurd ht List.not_mem_nil
    · rw [hlist]
      trivial
  · next t rest hlist =>
    split at hrun
    · cases hrun
    · next hpos =>
      have hdeltas := h.deltas
      have hnodup := h.nodup
      rw [hlist] at hdeltas hnodup
      obtain ⟨hsplit, hnow, hlater, hrest, hproc⟩ :=
        Timers.expireLoop_spec (s := { s.timers with
          expires := Function.update s.timers.expires t (s.timers.expires t - 1) }) hlist
          (hdeltas.tick hpos hnodup) hrun
      exact ⟨hsplit, hnow, hlater, hrest, hproc⟩

theorem Inv.tick (h : Inv s) {fired : List T} {timers : Timers T P}
    (hrun : s.timers.runTimerList = .ok (fired, timers)) : Inv (s.recordTick (fired, timers)) := by
  obtain ⟨hsplit, hnow, hlater, hdeltas, hproc⟩ := h.runTimerList hrun
  have hmem : ∀ t, t ∈ s.timers.timerList ↔ t ∈ fired ∨ t ∈ timers.timerList := by
    intro t
    rw [hsplit, List.mem_append]
  obtain ⟨hnodupFired, hnodupRest, _⟩ := List.nodup_append.mp (hsplit ▸ h.nodup)
  -- a timer fires now if it is pending and due at the next tick
  have hfired : ∀ t, t ∈ fired ↔ t ∈ s.timers.timerList ∧ s.due t = s.clock + 1 := by
    intro t
    rw [hmem]
    constructor
    · exact fun ht => ⟨.inl ht, hnow t ht⟩
    · intro ht
      rcases ht.1 with hin | hin
      · exact hin
      · have hlt := hlater t hin
        omega
  have hlist : ∀ t, t ∈ timers.timerList ↔ t ∈ s.timers.timerList ∧ s.clock + 1 < s.due t := by
    intro t
    rw [hmem]
    constructor
    · exact fun ht => ⟨.inr ht, hlater t ht⟩
    · intro ht
      rcases ht.1 with hin | hin
      · have heq := hnow t hin
        omega
      · exact hin
  refine ⟨hdeltas, hnodupRest, ?_, ?_, ?_, ?_, ?_, ?_⟩
  · intro t
    change t ∈ timers.timerList ↔ _
    rw [hlist, h.pending]
    constructor
    · intro hboth
      obtain ⟨⟨a, e, hadded, _, hdel⟩, hlt⟩ := hboth
      rw [due_eq hadded] at hlt
      exact ⟨a, e, hadded, hlt, hdel⟩
    · intro hall
      obtain ⟨a, e, hadded, hlt, hdel⟩ := hall
      have hlt' : s.clock + 1 < a + e := hlt
      exact ⟨⟨a, e, hadded, by omega, hdel⟩, (due_eq (s := s) hadded).symm ▸ hlt'⟩
  · intro t c
    have hwoken : (t, c) ∈ (s.recordTick (fired, timers)).woken ↔
        (t, c) ∈ s.woken ∨ (t ∈ fired ∧ c = s.clock + 1) := by
      change (t, c) ∈ s.woken ++ fired.map (fun t => (t, s.clock + 1)) ↔ _
      rw [List.mem_append, List.mem_map]
      refine or_congr_right ?_
      constructor
      · intro hmap
        obtain ⟨u, hu, heq⟩ := hmap
        obtain ⟨hut, hc⟩ := Prod.mk.inj heq
        exact ⟨hut ▸ hu, hc.symm⟩
      · intro hboth
        exact ⟨t, hboth.1, by rw [hboth.2]⟩
    rw [hwoken, h.woken, hfired, h.pending]
    constructor
    · intro hor
      rcases hor with hold | hnew
      · obtain ⟨a, e, hadded, hc, hle, hdel⟩ := hold
        exact ⟨a, e, hadded, hc, Nat.le_succ_of_le hle, hdel⟩
      · obtain ⟨⟨⟨a, e, hadded, _, hnone⟩, hdue⟩, hc⟩ := hnew
        rw [due_eq hadded] at hdue
        refine ⟨a, e, hadded, hc.trans hdue.symm, Nat.le_of_eq hc, ?_⟩
        intro d hd
        have hsome : s.deleted t = some d := hd
        rw [hnone] at hsome
        cases hsome
    · intro hall
      obtain ⟨a, e, hadded, hc, hle, hdel⟩ := hall
      have hle' : c ≤ s.clock + 1 := hle
      by_cases hold : c ≤ s.clock
      · exact .inl ⟨a, e, hadded, hc, hold, hdel⟩
      · have hnone : s.deleted t = none := by
          cases hd : s.deleted t with
          | none => rfl
          | some d =>
            have hpast := (h.past t d hd).1
            have hlt := hdel d hd
            omega
        refine .inr ⟨⟨⟨a, e, hadded, by omega, hnone⟩, ?_⟩, by omega⟩
        rw [due_eq (s := s) hadded]
        omega
  · change (s.woken ++ fired.map (fun t => (t, s.clock + 1))).Nodup
    refine List.nodup_append.mpr ⟨h.once, ?_, ?_⟩
    · exact hnodupFired.map fun t u heq => (Prod.mk.inj heq).1
    · intro x hx y hy heq
      obtain ⟨t, c⟩ := x
      obtain ⟨u, _, hu⟩ := List.mem_map.mp hy
      obtain ⟨a, e, _, _, hle, _⟩ := (h.woken t c).mp hx
      rw [← heq] at hu
      have hc := (Prod.mk.inj hu).2
      omega
  · intro t a e hadded
    have hrange := h.range t a e hadded
    exact ⟨Nat.le_succ_of_le hrange.1, hrange.2⟩
  · intro t d hd
    have hpast := h.past t d hd
    exact ⟨Nat.le_succ_of_le hpast.1, hpast.2⟩
  · intro t ht
    change timers.proc t ≠ none
    rw [hproc]
    exact h.proc t ((hlist t).mp ht).1

theorem eq_ok_of_toOption {ε α : Type*} {x : Except ε α} {a : α} (h : x.toOption = some a) :
    x = .ok a := by
  cases x with
  | error e => cases h
  | ok b =>
    cases h
    rfl

theorem Inv.step (h : Inv s) {op : TimerOp T P} (hstep : s.step op = some s') : Inv s' := by
  cases op with
  | add t p e =>
    simp only [TimerRun.step] at hstep
    split at hstep
    · next hmay =>
      obtain ⟨timers, hok, hs'⟩ := Option.map_eq_some_iff.mp hstep
      subst hs'
      have hadd := eq_ok_of_toOption hok
      refine h.add (p := p) hmay ?_ ?_ ?_ hadd
      · rfl
      · rfl
      · rfl
    · cases hstep
  | sleep t p time =>
    simp only [TimerRun.step] at hstep
    split at hstep
    · cases hstep
      exact h
    · next htime =>
      split at hstep
      · next hmay =>
        obtain ⟨timers, hok, hs'⟩ := Option.map_eq_some_iff.mp hstep
        have hsleep := eq_ok_of_toOption hok
        unfold Timers.doSleep at hsleep
        rw [if_neg htime] at hsleep
        subst hs'
        refine h.add (p := p) hmay ?_ ?_ ?_ hsleep
        · rfl
        · rfl
        · rfl
      · cases hstep
  | del t =>
    simp only [TimerRun.step] at hstep
    split at hstep
    · cases hstep
    · next hadded =>
      cases hstep
      exact h.del hadded
  | tick =>
    simp only [TimerRun.step] at hstep
    obtain ⟨r, hok, hs'⟩ := Option.map_eq_some_iff.mp hstep
    subst hs'
    exact h.tick (eq_ok_of_toOption hok)
  | setProc p w =>
    cases hstep
    exact ⟨h.deltas, h.nodup, h.pending, h.woken, h.once, h.range, h.past, h.proc⟩

theorem Inv.runTimerList_ne (h : Inv s) : s.timers.runTimerList ≠ .error .headExpired := by
  intro hpanic
  unfold Timers.runTimerList at hpanic
  split at hpanic
  · cases hpanic
  · next t rest hlist =>
    split at hpanic
    · next hzero =>
      have hhead : s.timers.timerList.head? = some t := by rw [hlist, List.head?_cons]
      exact h.exact.head t hhead hzero
    · exact Timers.expireLoop_ne_headExpired _ _ hpanic

/-- `run_timer_list` stops the kernel only over the state of a process whose time is up. -/
theorem Inv.runTimerList_ok_iff (h : Inv s) : (∃ r, s.timers.runTimerList = .ok r) ↔
    ∀ t ∈ s.timers.timerList, s.due t = s.clock + 1 → CanWake s.timers t := by
  unfold Timers.runTimerList
  split
  · next hlist =>
    rw [hlist]
    exact ⟨fun _ t ht => absurd ht List.not_mem_nil, fun _ => ⟨_, rfl⟩⟩
  · next t rest hlist =>
    have hhead : s.timers.timerList.head? = some t := by rw [hlist, List.head?_cons]
    rw [if_neg (h.exact.head t hhead)]
    have hdeltas := h.deltas
    have hnodup := h.nodup
    have hproc := h.proc
    rw [hlist] at hdeltas hnodup hproc
    rw [Timers.expireLoop_ok_iff (s := { s.timers with
      expires := Function.update s.timers.expires t (s.timers.expires t - 1) }) hlist
      (hdeltas.tick (h.exact.head t hhead) hnodup) hproc, hlist]
    exact Iff.rfl

/-- Every timer fires exactly at its tick, and a tick finds time left at the head of the list. -/
theorem timers_exact (procs : P → Waiter) (ops : List (TimerOp T P)) (s : TimerRun T P)
    (h : runOps TimerRun.step (init procs) ops = some s) :
    Exact s ∧ s.timers.runTimerList ≠ .error .headExpired ∧
      ((∃ r, s.timers.runTimerList = .ok r) ↔
        ∀ t ∈ s.timers.timerList, s.due t = s.clock + 1 → CanWake s.timers t) := by
  have hinv : Inv s := runOps_invariant (fun _ _ _ hs hstep => hs.step hstep) (init_inv procs) h
  exact ⟨hinv.exact, hinv.runTimerList_ne, hinv.runTimerList_ok_iff⟩

/-- Two processes sleep for the same time, a third one is woken early and deletes its timer. -/
def sleepers : List (TimerOp ℕ ℕ) :=
  [.sleep 0 0 2, .sleep 1 1 2, .sleep 2 2 1, .setProc 2 ⟨.runnable, 0⟩, .del 2, .tick, .tick, .del 0]

theorem timers_exact_sleepers : ∃ s,
    runOps TimerRun.step (init fun _ => ⟨.runnable, 0⟩) sleepers = some s ∧
      Exact s ∧ s.timers.runTimerList ≠ .error .headExpired ∧
      ((∃ r, s.timers.runTimerList = .ok r) ↔
        ∀ t ∈ s.timers.timerList, s.due t = s.clock + 1 → CanWake s.timers t) := by
  have hrun : (runOps TimerRun.step (init fun _ => ⟨.runnable, 0⟩) sleepers).isSome = true := by
    decide
  obtain ⟨s, hs⟩ := Option.isSome_iff_exists.mp hrun
  exact ⟨s, hs, timers_exact _ sleepers s hs⟩

end TimerRun
end Ucore.Schedule
