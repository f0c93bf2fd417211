import Mathlib.Data.Option.Basic

/-!
Runs of a partial deterministic system: a list of operations is applied one after
the other, and the run exists as long as each operation has a result.
-/
namespace Ucore.Library

variable {σ ι : Type*}

/-- The state after a list of operations. -/
def runOps (step : σ → ι → Option σ) : σ → List ι → Option σ
  | s, [] => some s
  | s, op :: ops => (step s op).bind (fun s' => runOps step s' ops)

/-- Every operation of a run is applied in a state where `cond` holds of it. -/
def RunMeets (step : σ → ι → Option σ) (cond : σ → ι → Prop) : σ → List ι → Prop
  | _, [] => True
  | s, op :: ops => cond s op ∧ ∀ s', step s op = some s' → RunMeets step cond s' ops

/-- A state of a run, after some of its operations. -/
inductive RunReaches (step : σ → ι → Option σ) : σ → List ι → σ → Prop
  | start {s : σ} {ops : List ι} : RunReaches step s ops s
  | next {s s' t : σ} {op : ι} {ops : List ι} (hs : step s op = some s')
      (hrest : RunReaches step s' ops t) : RunReaches step s (op :: ops) t

/-- Whether a run meets a condition can be found out by running it. -/
instance RunMeets.decidable {step : σ → ι → Option σ} {cond : σ → ι → Prop}
    [∀ s op, Decidable (cond s op)] (s : σ) (ops : List ι) :
    Decidable (RunMeets step cond s ops) :=
  match ops with
  | [] => isTrue trivial
  | op :: ops =>
    match hstep : step s op with
    | none => decidable_of_iff (cond s op)
        ⟨fun hc => ⟨hc, fun _ hs' => nomatch hstep.symm.trans hs'⟩, fun h => h.1⟩
    | some s' =>
      have : Decidable (RunMeets step cond s' ops) := RunMeets.decidable s' ops
      decidable_of_iff (cond s op ∧ RunMeets step cond s' ops)
        ⟨fun h => ⟨h.1, fun _ ht => Option.some.inj (hstep.symm.trans ht) ▸ h.2⟩,
          fun h => ⟨h.1, h.2 s' hstep⟩⟩

/-- A first operation with its result, and the condition on the rest of the run. -/
theorem RunMeets.cons {step : σ → ι → Option σ} {cond : σ → ι → Prop} {s s' : σ} {op : ι}
    {ops : List ι} (hc : cond s op) (hs : step s op = some s')
    (hrest : RunMeets step cond s' ops) : RunMeets step cond s (op :: ops) := by
  refine ⟨hc, ?_⟩
  intro t ht
  rw [hs] at ht
  exact Option.some.inj ht ▸ hrest

/-- A condition on the operations alone. -/
theorem RunMeets.of_forall {step : σ → ι → Option σ} {cond : σ → ι → Prop} {s : σ} {ops : List ι}
    (h : ∀ s, ∀ op ∈ ops, cond s op) : RunMeets step cond s ops := by
  induction ops generalizing s with
  | nil => trivial
  | cons op ops ih =>
    refine ⟨h s op List.mem_cons_self, fun s' _ => ih ?_⟩
    exact fun t op' hop => h t op' (List.mem_cons_of_mem op hop)

theorem RunMeets.and {step : σ → ι → Option σ} {c d : σ → ι → Prop} {s : σ} {ops : List ι}
    (hc : RunMeets step c s ops) (hd : RunMeets step d s ops) :
    RunMeets step (fun s op => c s op ∧ d s op) s ops := by
  induction ops generalizing s with
  | nil => trivial
  | cons op ops ih => exact ⟨⟨hc.1, hd.1⟩, fun s' h => ih (hc.2 s' h) (hd.2 s' h)⟩

theorem RunMeets.mono {step : σ → ι → Option σ} {c d : σ → ι → Prop} {s : σ} {ops : List ι}
    (h : ∀ s op, c s op → d s op) (hc : RunMeets step c s ops) : RunMeets step d s ops := by
  induction ops generalizing s with
  | nil => trivial
  | cons op ops ih => exact ⟨h s op hc.1, fun s' hs' => ih (hc.2 s' hs')⟩

/-- Two conditions that agree in the states of an invariant that the first one keeps. -/
theorem RunMeets.iff {step : σ → ι → Option σ} {c d : σ → ι → Prop} {Inv : σ → Prop}
    (hiff : ∀ s op, Inv s → (c s op ↔ d s op))
    (hstep : ∀ s op s', Inv s → c s op → step s op = some s' → Inv s') {s : σ} {ops : List ι}
    (hs : Inv s) : RunMeets step c s ops ↔ RunMeets step d s ops := by
  induction ops generalizing s with
  | nil => exact Iff.rfl
  | cons op ops ih =>
    constructor
    · intro h
      refine ⟨(hiff s op hs).mp h.1, fun s' hs' => ?_⟩
      exact (ih (hstep s op s' hs h.1 hs')).mp (h.2 s' hs')
    · intro h
      have hc := (hiff s op hs).mpr h.1
      refine ⟨hc, fun s' hs' => ?_⟩
      exact (ih (hstep s op s' hs hc hs')).mpr (h.2 s' hs')

theorem runOps_cons {step : σ → ι → Option σ} {s t : σ} {op : ι} {ops : List ι}
    (h : runOps step s (op :: ops) = some t) :
    ∃ s', step s op = some s' ∧ runOps step s' ops = some t := by
  rw [runOps, Option.bind_eq_some_iff] at h
  exact h

/-- The rest of a run meets the condition from the state on that the run has reached. -/
theorem RunMeets.of_append {step : σ → ι → Option σ} {cond : σ → ι → Prop} {s t : σ}
    {ops ops' : List ι} (h : RunMeets step cond s (ops ++ ops'))
    (hrun : runOps step s ops = some t) : RunMeets step cond t ops' := by
  induction ops generalizing s with
  | nil => exact Option.some.inj hrun ▸ h
  | cons op ops ih =>
    obtain ⟨s', h', hrest⟩ := runOps_cons hrun
    exact ih (h.2 s' h') hrest

/-- Two runs in a row. -/
theorem runOps_append (step : σ → ι → Option σ) (s : σ) (ops ops' : List ι) :
    runOps step s (ops ++ ops') = (runOps step s ops).bind (fun t => runOps step t ops') := by
  induction ops generalizing s with
  | nil => rfl
  | cons op ops ih =>
    rw [List.cons_append, runOps, runOps, Option.bind_assoc]
    congr 1
    funext s'
    exact ih s'

/-- A run is one up to each place in it, and meets there what it meets as a whole. -/
theorem RunMeets.front {step : σ → ι → Option σ} {cond : σ → ι → Prop} {s : σ} {ops ops' : List ι}
    (h : RunMeets step cond s (ops ++ ops')) : RunMeets step cond s ops := by
  induction ops generalizing s with
  | nil => trivial
  | cons op ops ih => exact ⟨h.1, fun s' hs' => ih (h.2 s' hs')⟩

/-- What every step keeps, every run keeps. -/
theorem runOps_invariant {step : σ → ι → Option σ} {Inv : σ → Prop}
    (hstep : ∀ s op s', Inv s → step s op = some s' → Inv s') {s t : σ} {ops : List ι}
    (hs : Inv s) (h : runOps step s ops = some t) : Inv t := by
  induction ops generalizing s with
  | nil => exact Option.some.inj h ▸ hs
  | cons op ops ih =>
    obtain ⟨s', h', hrest⟩ := runOps_cons h
    exact ih (hstep s op s' hs h') hrest

/-- What every step that meets a condition keeps, every run of such steps keeps. -/
theorem runOps_invariant_of_meets {step : σ → ι → Option σ} {cond : σ → ι → Prop}
    {Inv : σ → Prop} (hstep : ∀ s op s', Inv s → cond s op → step s op = some s' → Inv s')
    {s t : σ} {ops : List ι} (hs : Inv s) (hmeets : RunMeets step cond s ops)
    (h : runOps step s ops = some t) : Inv t := by
  induction ops generalizing s with
  | nil => exact Option.some.inj h ▸ hs
  | cons op ops ih =>
    obtain ⟨s', h', hrest⟩ := runOps_cons h
    exact ih (hstep s op s' hs hmeets.1 h') (hmeets.2 s' h') hrest

/-- A property that a step keeps exactly where it meets the condition, and that never comes
back once it is lost. -/
theorem runOps_iff_meets {step : σ → ι → Option σ} {cond : σ → ι → Prop} {Inv P : σ → Prop}
    (hstep : ∀ s op s', Inv s → step s op = some s' → Inv s')
    (hiff : ∀ s op s', Inv s → step s op = some s' → (P s' ↔ P s ∧ cond s op)) {s t : σ}
    {ops : List ι} (hs : Inv s) (h : runOps step s ops = some t) :
    P t ↔ P s ∧ RunMeets step cond s ops := by
  induction ops generalizing s with
  | nil =>
    rw [Option.some.inj h]
    exact (and_iff_left trivial).symm
  | cons op ops ih =>
    obtain ⟨s', h', hrest⟩ := runOps_cons h
    have hmeets : RunMeets step cond s (op :: ops) ↔ cond s op ∧ RunMeets step cond s' ops := by
      constructor
      · intro hm
        exact ⟨hm.1, hm.2 s' h'⟩
      · intro hm
        exact RunMeets.cons hm.1 h' hm.2
    rw [ih (hstep s op s' hs h') hrest, hiff s op s' hs h', hmeets, and_assoc]

/-- A property of all states of a run is lost with the first operation that does not meet the
condition. -/
theorem reaches_iff_meets {step : σ → ι → Option σ} {cond : σ → ι → Prop} {I P : σ → Prop}
    (hkeeps : ∀ s, I s → P s)
    (hstep : ∀ s op s', I s → cond s op → step s op = some s' → I s')
    (hbreaks : ∀ s op, I s → ¬ cond s op → ∃ s', step s op = some s' ∧ ¬ P s') {s : σ}
    {ops : List ι} (hs : I s) :
    (∀ t, RunReaches step s ops t → P t) ↔ RunMeets step cond s ops := by
  induction ops generalizing s with
  | nil =>
    constructor
    · intro _
      trivial
    · intro _ t ht
      cases ht with
      | start => exact hkeeps s hs
  | cons op ops ih =>
    constructor
    · intro h
      by_cases hc : cond s op
      · refine ⟨hc, fun s' hs' => (ih (hstep s op s' hs hc hs')).mp ?_⟩
        intro t ht
        exact h t (RunReaches.next hs' ht)
      · obtain ⟨s', hs', hbad⟩ := hbreaks s op hs hc
        exact absurd (h s' (RunReaches.next hs' RunReaches.start)) hbad
    · intro h t ht
      cases ht with
      | start => exact hkeeps s hs
      | next hs' hrest => exact (ih (hstep s op _ hs h.1 hs')).mpr (h.2 _ hs') t hrest

/-- Where every step that meets the condition has a result, so has every run. -/
theorem runOps_total {step : σ → ι → Option σ} {cond : σ → ι → Prop} {Inv : σ → Prop}
    (hstep : ∀ s op, Inv s → cond s op → ∃ s', step s op = some s' ∧ Inv s') {s : σ}
    {ops : List ι} (hs : Inv s) (hmeets : RunMeets step cond s ops) :
    ∃ t, runOps step s ops = some t ∧ Inv t := by
  induction ops generalizing s with
  | nil => exact ⟨s, rfl, hs⟩
  | cons op ops ih =>
    obtain ⟨s', h', hs'⟩ := hstep s op hs hmeets.1
    obtain ⟨t, hrun, ht⟩ := ih hs' (hmeets.2 s' h')
    refine ⟨t, ?_, ht⟩
    rw [runOps, h']
    exact hrun

end Ucore.Library
