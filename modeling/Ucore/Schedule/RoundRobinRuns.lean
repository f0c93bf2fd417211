import Ucore.Library.Run
import Ucore.Schedule.RoundRobin

/-!
The runs of the lab 5 scheduler. Once around the list, the current process last, is the order in
which `schedule` looks at the processes. What the operations do to the list leaves a runnable
process at its place in that order, so that the scan comes to it before it comes back.
-/
namespace Ucore.Schedule.RoundRobin

open Library

variable {s t : ProcTable} {p q z : ℕ} {op : Op} {b : Bool}

def ProcTable.Runnable (s : ProcTable) (p : ℕ) : Prop := (s.proc p).state = .runnable

section Scan

variable {proc proc' : ℕ → ProcStruct} {next : Option ℕ} {entries : List (Option ℕ)}

theorem scanLoop_congr (h : ∀ p, (proc' p).state = (proc p).state) :
    scanLoop proc' next entries = scanLoop proc next entries := by
  induction entries generalizing next with
  | nil => rfl
  | cons e rest ih =>
    cases e with
    | none => exact ih
    | some p =>
      simp only [scanLoop, h, ih]

/-- The loop stops at the first runnable process, or leaves one that is not runnable in `next`. -/
theorem scanLoop_spec (hnext : ∀ p, next = some p → (proc p).state ≠ .runnable) :
    (∃ a p b, entries = a ++ some p :: b ∧ scanLoop proc next entries = some p ∧
      (proc p).state = .runnable ∧ ∀ x, some x ∈ a → (proc x).state ≠ .runnable) ∨
    ((∀ x, some x ∈ entries → (proc x).state ≠ .runnable) ∧
      ∀ p, scanLoop proc next entries = some p → (proc p).state ≠ .runnable) := by
  induction entries generalizing next with
  | nil =>
    right
    exact ⟨fun x hx => absurd hx List.not_mem_nil, hnext⟩
  | cons e rest ih =>
    cases e with
    | none =>
      rcases ih hnext with ⟨a, p, b, hrest, hscan, hp, ha⟩ | ⟨hall, hlast⟩
      · left
        refine ⟨none :: a, p, b, by rw [hrest]; rfl, hscan, hp, ?_⟩
        intro x hx
        exact ha x (by simpa using hx)
      · right
        refine ⟨?_, hlast⟩
        intro x hx
        exact hall x (by simpa using hx)
    | some p =>
      by_cases hp : (proc p).state = .runnable
      · left
        refine ⟨[], p, rest, rfl, ?_, hp, fun x hx => absurd hx List.not_mem_nil⟩
        rw [scanLoop, if_pos hp]
      · have hhead : ∀ x, some p = some x → (proc x).state ≠ .runnable := by
          intro x hx
          rw [← Option.some.inj hx]
          exact hp
        rw [scanLoop, if_neg hp]
        rcases ih hhead with ⟨a, r, b, hrest, hscan, hr, ha⟩ | ⟨hall, hlast⟩
        · left
          refine ⟨some p :: a, r, b, by rw [hrest]; rfl, hscan, hr, ?_⟩
          intro x hx
          rcases List.mem_cons.mp hx with hx | hx
          · exact hhead x hx.symm
          · exact ha x hx
        · right
          refine ⟨?_, hlast⟩
          intro x hx
          rcases List.mem_cons.mp hx with hx | hx
          · exact hhead x hx.symm
          · exact hall x hx

end Scan

namespace ProcTable

/-- What every table keeps, also behind an operation that goes on to `schedule`. -/
structure Shape (s : ProcTable) : Prop where
  nodup : s.procList.Nodup
  named : ∀ p ∈ s.procList, 0 < p ∧ p < s.created
  created_pos : 0 < s.created
  current_mem : s.current = idleproc ∨ s.current ∈ s.procList
  idle_runnable : s.Runnable idleproc

theorem Shape.ring_nodup (h : s.Shape) : s.ring.Nodup := by
  rw [ring, List.nodup_cons]
  refine ⟨by simp, h.nodup.map (Option.some_injective ℕ)⟩

theorem mem_ring : some p ∈ s.ring ↔ p ∈ s.procList := by
  simp [ring]

theorem Shape.last_mem (h : s.Shape) : s.last ∈ s.ring := by
  rw [last]
  split_ifs with hidle
  · exact List.mem_cons_self
  · exact mem_ring.mpr (h.current_mem.resolve_left hidle)

theorem Shape.mem_walk (h : s.Shape) : some p ∈ around s.ring s.last ↔ p ∈ s.procList := by
  rw [mem_around h.last_mem, mem_ring]

/-- `schedule` chooses the first runnable process of the walk, and `idleproc` where there is
none. -/
theorem Shape.pick_cases (h : s.Shape) :
    (∃ a b, around s.ring s.last = a ++ some s.pick :: b ∧ s.pick ∈ s.procList ∧
      s.Runnable s.pick ∧ ∀ x, some x ∈ a → ¬ s.Runnable x) ∨
    (s.pick = idleproc ∧ ∀ x ∈ s.procList, ¬ s.Runnable x) := by
  have hnone : ∀ p, (none : Option ℕ) = some p → (s.proc p).state ≠ .runnable := by
    intro p hp
    exact absurd hp (Option.some_ne_none p).symm
  rcases @scanLoop_spec s.proc none (around s.ring s.last) hnone with
    ⟨a, p, b, hwalk, hscan, hp, ha⟩ | ⟨hall, hlast⟩
  · have hpick : s.pick = p := by
      simp only [pick, hscan, hp, ne_eq, not_true, if_false]
    left
    refine ⟨a, b, ?_, ?_, ?_, ha⟩
    · rw [hpick]
      exact hwalk
    · rw [hpick, ← h.mem_walk, hwalk]
      exact List.mem_append_right _ List.mem_cons_self
    · rw [hpick]
      exact hp
  · right
    refine ⟨?_, fun x hx => hall x (h.mem_walk.mpr hx)⟩
    rw [pick]
    rcases hscan : scanLoop s.proc none (around s.ring s.last) with _ | p
    · rfl
    · simp only [hlast p hscan, ne_eq, not_false_iff, if_true]

theorem setProc_state {f : ProcStruct → ProcStruct} (hf : ∀ x, (f x).state = x.state) (q : ℕ) :
    ((s.setProc p f).proc q).state = (s.proc q).state := by
  by_cases hq : q = p
  · subst hq
    simp [setProc, hf]
  · simp [setProc, Function.update_of_ne hq]

theorem pick_congr (hstate : ∀ q, (t.proc q).state = (s.proc q).state)
    (hlist : t.procList = s.procList) (hcurrent : t.current = s.current) : t.pick = s.pick := by
  simp only [pick, ring, last, hlist, hcurrent, scanLoop_congr hstate, hstate]

theorem schedule_current (s : ProcTable) : s.schedule.current = s.pick :=
  pick_congr (setProc_state fun _ => rfl) rfl rfl

theorem schedule_state (s : ProcTable) (q : ℕ) :
    (s.schedule.proc q).state = (s.proc q).state := by
  have hruns := @setProc_state (s.setProc s.current fun p => { p with needResched := false })
    (s.setProc s.current fun p => { p with needResched := false }).pick
    (fun p => { p with runs := p.runs + 1 }) (fun _ => rfl) q
  have hresched := @setProc_state s s.current (fun p => { p with needResched := false })
    (fun _ => rfl) q
  exact hruns.trans hresched

/-- The table with its current process on the processor. -/
structure Inv (s : ProcTable) : Prop where
  shape : s.Shape
  current_runnable : s.Runnable s.current

theorem Shape.schedule (h : s.Shape) : s.schedule.Inv := by
  have hpick := h.pick_cases
  have hmem : s.schedule.current = idleproc ∨ s.schedule.current ∈ s.procList := by
    rw [schedule_current]
    rcases hpick with ⟨_, _, _, hmem, _⟩ | ⟨hidle, _⟩
    · right
      exact hmem
    · left
      exact hidle
  refine ⟨⟨h.nodup, h.named, h.created_pos, hmem, ?_⟩, ?_⟩
  · exact (schedule_state s idleproc).trans h.idle_runnable
  · rw [Runnable, schedule_state, schedule_current]
    rcases hpick with ⟨_, _, _, _, hrun, _⟩ | ⟨hidle, _⟩
    · exact hrun
    · rw [hidle]
      exact h.idle_runnable

/-- The process table changes, but not the list, and no runnable process stops being so. -/
structure Calm (s t : ProcTable) : Prop where
  procList : t.procList = s.procList
  current : t.current = s.current
  created : t.created = s.created
  runnable : ∀ q, s.Runnable q → t.Runnable q

theorem Calm.refl (s : ProcTable) : Calm s s := ⟨rfl, rfl, rfl, fun _ h => h⟩

theorem Calm.trans {u : ProcTable} (h : Calm s t) (h' : Calm t u) : Calm s u :=
  ⟨h'.procList.trans h.procList, h'.current.trans h.current, h'.created.trans h.created,
    fun q hq => h'.runnable q (h.runnable q hq)⟩

theorem Calm.setProc {f : ProcStruct → ProcStruct}
    (hf : ∀ x, x.state = .runnable → (f x).state = .runnable) : Calm s (s.setProc p f) := by
  refine ⟨rfl, rfl, rfl, ?_⟩
  intro q hq
  by_cases hqp : q = p
  · subst hqp
    simpa [Runnable, ProcTable.setProc] using hf _ hq
  · simpa [Runnable, ProcTable.setProc, Function.update_of_ne hqp] using hq

theorem Calm.wakeupProc (h : s.wakeupProc p = some t) : Calm s t := by
  unfold ProcTable.wakeupProc at h
  split_ifs at h
  · obtain rfl := Option.some.inj h
    exact Calm.setProc fun _ _ => rfl
  · obtain rfl := Option.some.inj h
    exact Calm.refl s

theorem Calm.adoptLoop {cs : List ℕ} (h : adoptLoop cs s = some t) : Calm s t := by
  induction cs generalizing s with
  | nil =>
    obtain rfl := Option.some.inj h
    exact Calm.refl s
  | cons c rest ih =>
    have hmove : Calm s ((s.setProc c fun p => { p with parent := initproc }).setProc initproc
        fun p => { p with children := c :: p.children }) :=
      Calm.trans (t := s.setProc c fun p => { p with parent := initproc })
        (Calm.setProc fun _ hx => hx) (Calm.setProc fun _ hx => hx)
    simp only [ProcTable.adoptLoop] at h
    split_ifs at h
    · obtain ⟨u, hwake, hrest⟩ := Option.bind_eq_some_iff.mp h
      exact hmove.trans ((Calm.wakeupProc hwake).trans (ih hrest))
    · exact hmove.trans (ih h)

/-- What an operation does to the list, the flag telling whether `schedule` follows. -/
structure Moves (s t : ProcTable) (b : Bool) : Prop where
  current : t.current = s.current
  list : t.procList = s.procList ∧ t.created = s.created ∨
    t.procList = s.created :: s.procList ∧ t.created = s.created + 1 ∨
    ∃ z, ¬ s.Runnable z ∧ t.procList = s.procList.erase z ∧ t.created = s.created
  runnable : ∀ q, s.Runnable q → t.Runnable q ∨
    q = s.current ∧ s.current ≠ idleproc ∧ b = true

theorem Calm.moves (h : Calm s t) : Moves s t b :=
  ⟨h.current, Or.inl ⟨h.procList, h.created⟩, fun q hq => Or.inl (h.runnable q hq)⟩

theorem doFork_moves (s : ProcTable) : Moves s s.doFork false := by
  refine ⟨rfl, Or.inr (Or.inl ⟨rfl, rfl⟩), ?_⟩
  intro q hq
  left
  by_cases hnew : q = s.created
  · subst hnew
    simp [Runnable, doFork, ProcTable.setProc, freshProc]
  · have hparent : Calm s (s.setProc s.current fun p =>
        { p with waitState := 0, children := s.created :: p.children }) :=
      Calm.setProc fun _ hx => hx
    have hkept := hparent.runnable q hq
    simpa [Runnable, doFork, ProcTable.setProc, Function.update_of_ne hnew] using hkept

/-- The current process goes out of the way, and what follows is calm. -/
theorem Calm.movesFrom {f : ProcStruct → ProcStruct} (h : Calm (s.setProc s.current f) t)
    (hidle : s.current ≠ idleproc) : Moves s t true := by
  refine ⟨h.current, Or.inl ⟨h.procList, h.created⟩, ?_⟩
  intro q hq
  by_cases hqc : q = s.current
  · right
    exact ⟨hqc, hidle, rfl⟩
  · left
    apply h.runnable
    simpa [Runnable, ProcTable.setProc, Function.update_of_ne hqc] using hq

theorem doExit_moves (h : s.doExit = some t) : Moves s t true := by
  unfold doExit at h
  split_ifs at h with hpanic
  obtain ⟨u, hwake, hadopt⟩ := Option.bind_eq_some_iff.mp h
  have hfirst : Calm (s.setProc s.current fun p => { p with state := .zombie }) u := by
    split_ifs at hwake
    · exact Calm.wakeupProc hwake
    · obtain rfl := Option.some.inj hwake
      exact Calm.refl _
  have hmiddle : Calm u (u.setProc s.current fun p => { p with children := [] }) :=
    Calm.setProc fun _ hx => hx
  rw [not_or] at hpanic
  exact (hfirst.trans (hmiddle.trans (Calm.adoptLoop hadopt))).movesFrom hpanic.1

theorem removeLinks_moves (hz : (s.proc z).state = .zombie) :
    Moves s (s.removeLinks z) false := by
  have hparent : Calm s (s.setProc (s.proc z).parent
      fun q => { q with children := q.children.erase z }) :=
    Calm.setProc fun _ hx => hx
  refine ⟨rfl, Or.inr (Or.inr ⟨z, ?_, rfl, rfl⟩), fun q hq => Or.inl (hparent.runnable q hq)⟩
  rw [Runnable, hz]
  exact ProcState.noConfusion

theorem doWait_moves {pid : Option ℕ} (h : s.doWait pid = some (t, b))
    (hidle : s.current ≠ idleproc) : Moves s t b := by
  unfold doWait at h
  rcases hfind : (s.waitedFor pid).find? (fun p => decide ((s.proc p).state = .zombie)) with _ | z
  · simp only [hfind] at h
    split_ifs at h
    · obtain ⟨rfl, rfl⟩ := Prod.mk.inj (Option.some.inj h)
      exact (Calm.refl _).movesFrom hidle
    · obtain ⟨rfl, rfl⟩ := Prod.mk.inj (Option.some.inj h)
      exact (Calm.refl s).moves
  · simp only [hfind] at h
    split_ifs at h
    obtain ⟨rfl, rfl⟩ := Prod.mk.inj (Option.some.inj h)
    have hz := List.find?_some hfind
    exact removeLinks_moves (of_decide_eq_true hz)

theorem doKill_calm (h : s.doKill p = some t) : Calm s t := by
  have hflag : Calm s (s.setProc p fun q => { q with exiting := true }) :=
    Calm.setProc fun _ hx => hx
  simp only [doKill] at h
  split_ifs at h
  · exact hflag.trans (Calm.wakeupProc h)
  · obtain rfl := Option.some.inj h
    exact hflag
  · obtain rfl := Option.some.inj h
    exact Calm.refl s

theorem perform_moves (h : s.perform op = some (t, b)) : Moves s t b := by
  cases op with
  | fork =>
    obtain ⟨rfl, rfl⟩ := Prod.mk.inj (Option.some.inj h)
    exact s.doFork_moves
  | exit =>
    obtain ⟨u, hexit, heq⟩ := Option.map_eq_some_iff.mp h
    obtain ⟨rfl, rfl⟩ := Prod.mk.inj heq
    exact doExit_moves hexit
  | wait pid =>
    simp only [perform] at h
    split_ifs at h with hidle
    exact doWait_moves h hidle
  | kill p =>
    simp only [perform] at h
    split_ifs at h
    obtain ⟨u, hkill, heq⟩ := Option.map_eq_some_iff.mp h
    obtain ⟨rfl, rfl⟩ := Prod.mk.inj heq
    exact (doKill_calm hkill).moves
  | resched =>
    obtain ⟨rfl, rfl⟩ := Prod.mk.inj (Option.some.inj h)
    have hflag : Calm s (s.setProc s.current fun p => { p with needResched := true }) :=
      Calm.setProc fun _ hx => hx
    exact hflag.moves
  | schedule =>
    obtain ⟨rfl, rfl⟩ := Prod.mk.inj (Option.some.inj h)
    exact (Calm.refl s).moves

theorem Moves.mem (hmoves : Moves s t b) (hq : s.Runnable q) (hmem : q ∈ s.procList) :
    q ∈ t.procList := by
  rcases hmoves.list with ⟨heq, _⟩ | ⟨heq, _⟩ | ⟨z, hz, heq, _⟩
  · rw [heq]
    exact hmem
  · rw [heq]
    exact List.mem_cons_of_mem _ hmem
  · rw [heq]
    apply (List.mem_erase_of_ne _).mpr hmem
    rintro rfl
    exact hz hq

theorem Inv.shape_moves (h : s.Inv) (hmoves : Moves s t b) : t.Shape := by
  have hcurrent : t.current = idleproc ∨ t.current ∈ t.procList := by
    rw [hmoves.current]
    rcases h.shape.current_mem with hidle | hmem
    · left
      exact hidle
    · right
      exact hmoves.mem h.current_runnable hmem
  have hidle : t.Runnable idleproc := by
    rcases hmoves.runnable idleproc h.shape.idle_runnable with hrun | ⟨hcur, hne, _⟩
    · exact hrun
    · exact absurd hcur.symm hne
  rcases hmoves.list with ⟨heq, hcreated⟩ | ⟨heq, hcreated⟩ | ⟨z, hz, heq, hcreated⟩
  · refine ⟨heq ▸ h.shape.nodup, ?_, hcreated ▸ h.shape.created_pos, hcurrent, hidle⟩
    rw [heq, hcreated]
    exact h.shape.named
  · refine ⟨?_, ?_, by omega, hcurrent, hidle⟩
    · rw [heq, List.nodup_cons]
      refine ⟨?_, h.shape.nodup⟩
      intro hmem
      exact lt_irrefl _ (h.shape.named _ hmem).2
    · rw [heq, hcreated]
      intro p hp
      rcases List.mem_cons.mp hp with rfl | hp
      · exact ⟨h.shape.created_pos, Nat.lt_succ_self _⟩
      · exact ⟨(h.shape.named p hp).1, Nat.lt_succ_of_lt (h.shape.named p hp).2⟩
  · refine ⟨heq ▸ h.shape.nodup.erase z, ?_, hcreated ▸ h.shape.created_pos, hcurrent, hidle⟩
    rw [heq, hcreated]
    intro p hp
    exact h.shape.named p (List.mem_of_mem_erase hp)

theorem Inv.moves (h : s.Inv) (hmoves : Moves s t false) : t.Inv := by
  refine ⟨h.shape_moves hmoves, ?_⟩
  rw [hmoves.current]
  rcases hmoves.runnable s.current h.current_runnable with hrun | ⟨_, _, hfalse⟩
  · exact hrun
  · exact absurd hfalse Bool.false_ne_true

/-- `q` waits for the processor, and the scan comes to it before it comes to `p`. -/
structure Ahead (p q : ℕ) (s : ProcTable) : Prop where
  mem : q ∈ s.procList
  runnable : s.Runnable q
  ne_current : q ≠ s.current
  sooner : Sooner (some p) (some q) (around s.ring s.last)

theorem Moves.last (hmoves : Moves s t b) : t.last = s.last := by
  simp only [ProcTable.last, hmoves.current]

/-- No operation changes the order between the current process and `q` to the worse. -/
theorem Ahead.moves (h : Ahead p q s) (hinv : s.Inv) (hp : p < s.created)
    (hmoves : Moves s t b) : Ahead p q t := by
  have hrun : t.Runnable q := by
    rcases hmoves.runnable q h.runnable with hrun | ⟨hcur, _⟩
    · exact hrun
    · exact absurd hcur h.ne_current
  refine ⟨hmoves.mem h.runnable h.mem, hrun, hmoves.current ▸ h.ne_current, ?_⟩
  rw [hmoves.last]
  have hlast := hinv.shape.last_mem
  rcases hmoves.list with ⟨heq, _⟩ | ⟨heq, _⟩ | ⟨z, hz, heq, _⟩
  · rw [ring, heq]
    exact h.sooner
  · rw [ring, heq]
    apply Sooner.insert_second hlast h.sooner
    · intro hcp
      have := Option.some.inj hcp
      omega
    · intro hcl
      rw [← hcl] at hlast
      exact lt_irrefl _ (hinv.shape.named _ (mem_ring.mp hlast)).2
  · have hring : t.ring = s.ring.erase (some z) := by
      rw [ring, heq, ring, List.erase_cons_tail (by simp),
        List.map_erase (Option.some_injective ℕ)]
    have hzlast : some z ≠ s.last := by
      intro hzl
      rw [ProcTable.last] at hzl
      split_ifs at hzl
      rw [Option.some.inj hzl] at hz
      exact hz hinv.current_runnable
    have hzq : some z ≠ some q := by
      intro hzq
      rw [Option.some.inj hzq] at hz
      exact hz h.runnable
    rw [hring, around_erase hinv.shape.ring_nodup hlast hzlast]
    exact h.sooner.erase hzq

theorem last_schedule (hpick : s.pick ∈ s.procList) (h : s.Shape) :
    s.schedule.last = some s.pick := by
  have hpos := (h.named _ hpick).1
  rw [last, schedule_current, if_neg]
  exact Nat.ne_of_gt hpos

/-- One call of `schedule`: it chooses `q`, or another process than `p`. -/
theorem Ahead.schedule (h : Ahead p q s) (hshape : s.Shape) :
    s.pick = q ∨ s.pick ≠ p ∧ Ahead p q s.schedule := by
  rcases hshape.pick_cases with ⟨xs, ys, hwalk, hmem, hrun, hfirst⟩ | ⟨_, hnone⟩
  · have hq : some q ∉ xs := fun hq => hfirst q hq h.runnable
    rcases h.sooner.turn hshape.ring_nodup hshape.last_mem hwalk hq with heq | ⟨hne, hsooner⟩
    · left
      exact Option.some.inj heq
    · by_cases hpq : s.pick = q
      · left
        exact hpq
      · right
        refine ⟨fun hp => hne (congrArg some hp), h.mem, ?_, ?_, ?_⟩
        · exact (schedule_state s q).trans h.runnable
        · rw [schedule_current]
          exact fun hqp => hpq hqp.symm
        · rw [last_schedule hmem hshape]
          exact hsooner
  · exact absurd h.runnable (hnone q h.mem)

end ProcTable

namespace Scheduled

open ProcTable

variable {s t : Scheduled}

/-- The last process that was chosen is the current one. -/
structure Inv (s : Scheduled) : Prop where
  table : s.table.Inv
  newest : ∀ p rest, s.chosen = p :: rest → s.table.current = p
  named : ∀ p ∈ s.chosen, p < s.table.created

theorem step_cases (h : s.step op = some t) : ∃ u b, Moves s.table u b ∧
    (b = false ∧ t = ⟨u, s.chosen⟩ ∨ b = true ∧ t = ⟨u.schedule, u.pick :: s.chosen⟩) := by
  obtain ⟨⟨u, b⟩, hperform, heq⟩ := Option.map_eq_some_iff.mp h
  refine ⟨u, b, perform_moves hperform, ?_⟩
  cases b with
  | false =>
    left
    exact ⟨rfl, heq.symm⟩
  | true =>
    right
    refine ⟨rfl, ?_⟩
    rw [← u.schedule_current]
    exact heq.symm

theorem Inv.boot : boot.Inv := by
  refine ⟨⟨⟨List.nodup_nil, ?_, Nat.one_pos, Or.inl rfl, rfl⟩, rfl⟩, ?_, ?_⟩
  · intro p hp
    exact absurd hp List.not_mem_nil
  · intro p rest h
    exact absurd h.symm (List.cons_ne_nil p rest)
  · intro p hp
    exact absurd hp List.not_mem_nil

theorem created_le {u : ProcTable} {b : Bool} (h : Moves s.table u b) :
    s.table.created ≤ u.created := by
  rcases h.list with ⟨_, heq⟩ | ⟨_, heq⟩ | ⟨_, _, _, heq⟩
  all_goals omega

theorem Inv.step (h : s.Inv) (hstep : s.step op = some t) : t.Inv := by
  obtain ⟨u, b, hmoves, hcases⟩ := step_cases hstep
  have hle := created_le hmoves
  obtain ⟨rfl, rfl⟩ | ⟨rfl, rfl⟩ := hcases
  · refine ⟨h.table.moves hmoves, ?_, ?_⟩
    · intro p rest hp
      exact hmoves.current.trans (h.newest p rest hp)
    · intro p hp
      exact lt_of_lt_of_le (h.named p hp) hle
  · have hshape := h.table.shape_moves hmoves
    refine ⟨hshape.schedule, ?_, ?_⟩
    · intro p rest hp
      exact u.schedule_current.trans (List.cons.inj hp).1
    · intro p hp
      rcases List.mem_cons.mp hp with rfl | hp
      · rcases hshape.pick_cases with ⟨_, _, _, hmem, _⟩ | ⟨hidle, _⟩
        · exact (hshape.named _ hmem).2
        · rw [hidle]
          exact hshape.created_pos
      · exact lt_of_lt_of_le (h.named p hp) hle

theorem chosen_grows {ops : List Op} (h : runOps step s ops = some t) :
    ∃ mid, t.chosen = mid ++ s.chosen := by
  induction ops generalizing s with
  | nil =>
    obtain rfl := Option.some.inj h
    exact ⟨[], rfl⟩
  | cons op ops ih =>
    obtain ⟨s', hstep, hrest⟩ := runOps_cons h
    obtain ⟨mid, hmid⟩ := ih hrest
    obtain ⟨u, b, -, ⟨rfl, rfl⟩ | ⟨rfl, rfl⟩⟩ := step_cases hstep
    · exact ⟨mid, hmid⟩
    · refine ⟨mid ++ [u.pick], ?_⟩
      rw [hmid, List.append_assoc, List.singleton_append]

/-- From where `q` is ahead of `p`, `schedule` chooses `q` before it chooses `p`. -/
theorem ahead_run {ops : List Op} {p q : ℕ} (h : Ahead p q s.table) (hinv : s.Inv)
    (hp : p < s.table.created) (hrun : runOps step s ops = some t) :
    ∃ mid, t.chosen = mid ++ s.chosen ∧ (q ∈ mid ∨ p ∉ mid) := by
  induction ops generalizing s with
  | nil =>
    obtain rfl := Option.some.inj hrun
    exact ⟨[], rfl, Or.inr List.not_mem_nil⟩
  | cons op ops ih =>
    obtain ⟨s', hstep, hrest⟩ := runOps_cons hrun
    have hinv' := hinv.step hstep
    obtain ⟨u, b, hmoves, hcases⟩ := step_cases hstep
    have hahead := h.moves hinv.table hp hmoves
    have hp' := lt_of_lt_of_le hp (created_le hmoves)
    obtain ⟨rfl, rfl⟩ | ⟨rfl, rfl⟩ := hcases
    · exact @ih ⟨u, s.chosen⟩ hahead hinv' hp' hrest
    · rcases hahead.schedule (hinv.table.shape_moves hmoves) with hq | ⟨hne, hnext⟩
      · obtain ⟨mid, hmid⟩ := chosen_grows hrest
        refine ⟨mid ++ [u.pick], ?_, Or.inl ?_⟩
        · rw [hmid, List.append_assoc, List.singleton_append]
        · rw [hq]
          exact List.mem_append_right _ List.mem_cons_self
      · obtain ⟨mid, hmid, hcases⟩ :=
          ih hnext hinv' hp' hrest
        refine ⟨mid ++ [u.pick], ?_, ?_⟩
        · rw [hmid, List.append_assoc, List.singleton_append]
        · rcases hcases with hq | hnp
          · left
            exact List.mem_append_left _ hq
          · right
            rw [List.mem_append, not_or]
            refine ⟨hnp, fun hmem => hne (List.mem_singleton.mp hmem).symm⟩

/-- Where `p` has just been chosen, every other runnable process is ahead of it. -/
theorem Inv.ahead (h : s.Inv) {p q : ℕ} {older : List ℕ} (hchosen : s.chosen = p :: older)
    (hq : q ∈ s.table.procList) (hrun : s.table.Runnable q) (hne : q ≠ p) :
    Ahead p q s.table := by
  have hcurrent := h.newest p older hchosen
  have hshape := h.table.shape
  refine ⟨hq, hrun, fun hqc => hne (hqc.trans hcurrent), ?_⟩
  by_cases hidle : p = idleproc
  · apply sooner_of_notMem
    · rw [hshape.mem_walk]
      intro hmem
      have := (hshape.named p hmem).1
      rw [hidle] at this
      exact lt_irrefl _ this
    · exact hshape.mem_walk.mpr hq
  · have hlast : s.table.last = some p := by
      rw [ProcTable.last, hcurrent, if_neg hidle]
    have hmem := hshape.last_mem
    rw [hlast] at hmem ⊢
    exact sooner_self hshape.ring_nodup hmem (mem_ring.mpr hq) fun heq => hne (Option.some.inj heq)

/-- `schedule` chooses `idleproc` only where no process of the list is runnable. -/
theorem Inv.idle_chosen (h : s.Inv) (hstep : s.step op = some t)
    (hidle : t.chosen = idleproc :: s.chosen) :
    ∀ q ∈ t.table.procList, (t.table.proc q).state ≠ .runnable := by
  obtain ⟨u, b, hmoves, ⟨rfl, rfl⟩ | ⟨rfl, rfl⟩⟩ := step_cases hstep
  · have hlen := congrArg List.length hidle
    simp at hlen
  · have hshape := h.table.shape_moves hmoves
    have hpick : u.pick = idleproc := (List.cons.inj hidle).1
    intro q hq
    rw [schedule_state]
    rcases hshape.pick_cases with ⟨_, _, _, hmem, _⟩ | ⟨_, hnone⟩
    · rw [hpick] at hmem
      exact absurd (hshape.named _ hmem).1 (lt_irrefl _)
    · exact hnone q hq

theorem inv_of_run {ops : List Op} (h : runOps step boot ops = some s) : s.Inv :=
  runOps_invariant (fun _ _ _ hs hstep => Inv.step hs hstep) Inv.boot h

/-- `schedule` chooses `idleproc` only where no process of the list is runnable, and it does not
choose a process again before it has chosen every other one that is runnable. -/
theorem round_robin_fair {ops : List Op} (h : runOps step boot ops = some s) :
    (∀ op s', s.step op = some s' → s'.chosen = idleproc :: s.chosen →
      ∀ q ∈ s'.table.procList, (s'.table.proc q).state ≠ .runnable) ∧
    ∀ p older ops' t mid, s.chosen = p :: older → runOps step s ops' = some t →
      t.chosen = p :: mid ++ s.chosen →
      ∀ q ∈ s.table.procList, (s.table.proc q).state = .runnable → q ≠ p → q ∈ mid := by
  have hinv := inv_of_run h
  refine ⟨fun op s' hstep hidle => hinv.idle_chosen hstep hidle, ?_⟩
  intro p older ops' t mid hchosen hrun hagain q hq hrunnable hne
  have hp : p < s.table.created := by
    apply hinv.named
    rw [hchosen]
    exact List.mem_cons_self
  obtain ⟨all, hall, hcases⟩ := ahead_run (hinv.ahead hchosen hq hrunnable hne) hinv hp hrun
  have heq : all = p :: mid := List.append_cancel_right (hall.symm.trans hagain)
  rw [heq] at hcases
  rcases hcases with hmem | hnot
  · exact (List.mem_cons.mp hmem).resolve_left hne
  · exact absurd List.mem_cons_self hnot

/-- `init` makes two processes, and is chosen again after both of them. -/
theorem round_robin_fair_three :
    ∃ s t, runOps step boot [.fork, .schedule, .fork, .fork] = some s ∧
      runOps step s [.schedule, .exit, .schedule] = some t ∧
      t.chosen = initproc :: [2, 3] ++ s.chosen ∧ 2 ∈ [2, 3] := by
  have hagain : ∀ s t, runOps step boot [.fork, .schedule, .fork, .fork] = some s →
      runOps step s [.schedule, .exit, .schedule] = some t →
      s.chosen = [initproc] ∧ t.chosen = initproc :: [2, 3] ++ s.chosen ∧
        2 ∈ s.table.procList ∧ (s.table.proc 2).state = .runnable := by
    intro s t hs ht
    obtain rfl := Option.some.inj hs
    obtain rfl := Option.some.inj ht
    decide +kernel
  obtain ⟨s, hs⟩ : ∃ s, runOps step boot [.fork, .schedule, .fork, .fork] = some s := ⟨_, rfl⟩
  obtain ⟨t, ht⟩ : ∃ t, runOps step s [.schedule, .exit, .schedule] = some t := by
    obtain rfl := Option.some.inj hs
    apply Option.isSome_iff_exists.mp
    decide +kernel
  obtain ⟨hchosen, hmid, hmem, hrun⟩ := hagain s t hs ht
  refine ⟨s, t, hs, ht, hmid, ?_⟩
  exact (round_robin_fair hs).2 initproc [] _ t [2, 3] hchosen ht hmid 2 hmem hrun (by decide)

end Scheduled

end Ucore.Schedule.RoundRobin
