import Mathlib.Algebra.Order.BigOperators.Group.List
import Mathlib.Data.Finset.Card
import Mathlib.Logic.Relation
import Mathlib.Order.Interval.Finset.Nat
import Ucore.Process.Pgdir

/-!
`get_pid` and the runs of `do_fork`, `do_exit` and `do_wait` it is called in. A fork may sleep
between the test of `nr_process` and `get_pid`, so that the list can outgrow `MAX_PROCESS`.
Each process has at most one fork under way, which keeps the list below `MAX_PID`.
-/
namespace Ucore.Process

def maxProcess : ℕ := 4096

def maxPid : ℕ := maxProcess * 2

/-- The static variables of `get_pid`. -/
structure PidStatics where
  lastPid : ℕ
  nextSafe : ℕ
  deriving DecidableEq

/-- One pass over `proc_list` from the entry at hand on. It ends with `false` at `goto repeat`. -/
def scanPids : List ℕ → PidStatics → Bool × PidStatics
  | [], v => (true, v)
  | pid :: rest, v =>
    if pid = v.lastPid then
      if v.nextSafe ≤ v.lastPid + 1 then
        (false, ⟨if maxPid ≤ v.lastPid + 1 then 1 else v.lastPid + 1, maxPid⟩)
      else scanPids rest ⟨v.lastPid + 1, v.nextSafe⟩
    else if v.lastPid < pid ∧ pid < v.nextSafe then scanPids rest ⟨v.lastPid, pid⟩
    else scanPids rest v

/-- The passes from the label `repeat` on, of which `fuel` are allowed. -/
def repeatScan (pids : List ℕ) : ℕ → PidStatics → Option PidStatics
  | 0, _ => none
  | fuel + 1, v =>
    if (scanPids pids v).1 then some (scanPids pids v).2
    else repeatScan pids fuel (scanPids pids v).2

/-- The pid is the `lastPid` of the result. -/
def getPid (fuel : ℕ) (pids : List ℕ) (v : PidStatics) : Option PidStatics :=
  if maxPid ≤ v.lastPid + 1 then repeatScan pids fuel ⟨1, maxPid⟩
  else if v.nextSafe ≤ v.lastPid + 1 then repeatScan pids fuel ⟨v.lastPid + 1, maxPid⟩
  else some ⟨v.lastPid + 1, v.nextSafe⟩

/-- `forking` says that the process is in `do_fork`, behind the test of `nr_process`. -/
structure Task where
  pid : ℕ
  state : ProcState
  forking : Bool

/-- `procList` is `proc_list` from its head on. `idleproc` is not linked into it. -/
structure PidTable where
  procList : List Task
  nrProcess : ℕ
  idleForking : Bool
  statics : PidStatics

namespace PidTable

def pids (s : PidTable) : List ℕ := s.procList.map Task.pid

/-- What `do_fork` does from `get_pid` to `wakeup_proc`, given the new statics. -/
def addProc (s : PidTable) (v : PidStatics) : PidTable :=
  { s with procList := ⟨v.lastPid, .runnable, false⟩ :: s.procList
           nrProcess := s.nrProcess + 1
           statics := v }

/-- `proc_init` before its call of `kernel_thread`. -/
def boot : PidTable := ⟨[], 1, false, ⟨maxPid, maxPid⟩⟩

/-- What the processes do. A process that is neither runnable nor a zombie sleeps. -/
inductive Step : PidTable → PidTable → Prop
  | forkBegin (s : PidTable) (a b : List Task) (pid : ℕ)
      (hlist : s.procList = a ++ ⟨pid, .runnable, false⟩ :: b) (hroom : s.nrProcess < maxProcess) :
      Step s { s with procList := a ++ ⟨pid, .runnable, true⟩ :: b }
  | forkFail (s : PidTable) (a b : List Task) (pid : ℕ)
      (hlist : s.procList = a ++ ⟨pid, .runnable, true⟩ :: b) :
      Step s { s with procList := a ++ ⟨pid, .runnable, false⟩ :: b }
  | forkEnd (s : PidTable) (a b : List Task) (pid fuel : ℕ) (v : PidStatics)
      (hlist : s.procList = a ++ ⟨pid, .runnable, true⟩ :: b)
      (hpid : getPid fuel s.pids s.statics = some v) :
      Step s (addProc { s with procList := a ++ ⟨pid, .runnable, false⟩ :: b } v)
  | idleForkBegin (s : PidTable) (hidle : s.idleForking = false)
      (hroom : s.nrProcess < maxProcess) : Step s { s with idleForking := true }
  | idleForkFail (s : PidTable) (hidle : s.idleForking = true) :
      Step s { s with idleForking := false }
  | idleForkEnd (s : PidTable) (fuel : ℕ) (v : PidStatics) (hidle : s.idleForking = true)
      (hpid : getPid fuel s.pids s.statics = some v) :
      Step s (addProc { s with idleForking := false } v)
  | sleep (s : PidTable) (a b : List Task) (pid : ℕ) (forking : Bool)
      (hlist : s.procList = a ++ ⟨pid, .runnable, forking⟩ :: b) :
      Step s { s with procList := a ++ ⟨pid, .sleeping, forking⟩ :: b }
  | wakeup (s : PidTable) (a b : List Task) (pid : ℕ) (forking : Bool)
      (hlist : s.procList = a ++ ⟨pid, .sleeping, forking⟩ :: b) :
      Step s { s with procList := a ++ ⟨pid, .runnable, forking⟩ :: b }
  | exit (s : PidTable) (a b : List Task) (pid : ℕ)
      (hlist : s.procList = a ++ ⟨pid, .runnable, false⟩ :: b) :
      Step s { s with procList := a ++ ⟨pid, .zombie, false⟩ :: b }
  | reap (s : PidTable) (a b : List Task) (pid : ℕ)
      (hlist : s.procList = a ++ ⟨pid, .zombie, false⟩ :: b) :
      Step s { s with procList := a ++ b, nrProcess := s.nrProcess - 1 }

def Reachable (s : PidTable) : Prop := Relation.ReflTransGen Step boot s

end PidTable

/-- No pid lies in the half-open gap. -/
def Gap (pids : List ℕ) (lo hi : ℕ) : Prop := ∀ p ∈ pids, p < lo ∨ hi ≤ p

section Scan

variable {pids done rest : List ℕ} {v w : PidStatics} {lo hi f : ℕ}

/-- A pass that runs to the end of the list leaves a gap above `last_pid`. -/
theorem scanPids_done (hlt : v.lastPid < v.nextSafe) (hgap : Gap done v.lastPid v.nextSafe)
    (h : scanPids rest v = (true, w)) :
    v.lastPid ≤ w.lastPid ∧ w.lastPid < w.nextSafe ∧ w.nextSafe ≤ v.nextSafe ∧
      Gap (done ++ rest) w.lastPid w.nextSafe := by
  induction rest generalizing v done with
  | nil =>
    simp only [scanPids, Prod.mk.injEq, true_and] at h
    subst h
    rw [List.append_nil]
    exact ⟨le_refl _, hlt, le_refl _, hgap⟩
  | cons pid rest ih =>
    have hnext : ∀ v' : PidStatics, v'.lastPid < v'.nextSafe → v.lastPid ≤ v'.lastPid →
        v'.nextSafe ≤ v.nextSafe → (pid < v'.lastPid ∨ v'.nextSafe ≤ pid) →
        scanPids rest v' = (true, w) → v.lastPid ≤ w.lastPid ∧ w.lastPid < w.nextSafe ∧
          w.nextSafe ≤ v.nextSafe ∧ Gap (done ++ pid :: rest) w.lastPid w.nextSafe := by
      intro v' hlt' hlo hhi hpid h'
      have hgap' : Gap (done ++ [pid]) v'.lastPid v'.nextSafe := by
        intro p hp
        rcases List.mem_append.mp hp with hp | hp
        · rcases hgap p hp with hlow | hhigh
          · left
            omega
          · right
            omega
        · rw [List.mem_singleton.mp hp]
          exact hpid
      obtain ⟨hw, hw', hwn, hwg⟩ := ih hlt' hgap' h'
      refine ⟨by omega, hw', by omega, ?_⟩
      simpa using hwg
    simp only [scanPids] at h
    split at h
    · rename_i heq
      split at h
      · simp at h
      · apply hnext ⟨v.lastPid + 1, v.nextSafe⟩ _ _ _ _ h
        all_goals dsimp only
        all_goals omega
    · split at h
      · apply hnext ⟨v.lastPid, pid⟩ _ _ _ _ h
        all_goals dsimp only
        all_goals omega
      · apply hnext v hlt (le_refl _) (le_refl _) _ h
        omega

/-- A pass that ends at `goto repeat` has found every pid from the first `last_pid` on taken,
up to the one it goes on with. -/
theorem scanPids_repeat (hlt : v.lastPid < v.nextSafe) (hmax : v.nextSafe ≤ maxPid)
    (h : scanPids rest v = (false, w)) :
    ∃ next, v.lastPid < next ∧ next ≤ maxPid ∧
      (∀ k, v.lastPid ≤ k → k < next → k ∈ rest) ∧
      w = ⟨if maxPid ≤ next then 1 else next, maxPid⟩ := by
  induction rest generalizing v with
  | nil => simp [scanPids] at h
  | cons pid rest ih =>
    simp only [scanPids] at h
    split at h
    · rename_i heq
      split at h
      · simp only [Prod.mk.injEq, true_and] at h
        refine ⟨v.lastPid + 1, by omega, by omega, ?_, h.symm⟩
        intro k hk hk'
        rw [show k = pid by omega]
        exact List.mem_cons_self
      · obtain ⟨next, hnext, hle, htaken, hw⟩ := ih (by dsimp only; omega) (by dsimp only; omega) h
        dsimp only at hnext htaken
        refine ⟨next, by omega, hle, ?_, hw⟩
        intro k hk hk'
        by_cases hfirst : k = pid
        · rw [hfirst]
          exact List.mem_cons_self
        · exact List.mem_cons_of_mem _ (htaken k (by omega) hk')
    · split at h
      · obtain ⟨next, hnext, hle, htaken, hw⟩ := ih (by dsimp only; omega) (by dsimp only; omega) h
        exact ⟨next, hnext, hle, fun k hk hk' => List.mem_cons_of_mem _ (htaken k hk hk'), hw⟩
      · obtain ⟨next, hnext, hle, htaken, hw⟩ := ih hlt hmax h
        exact ⟨next, hnext, hle, fun k hk hk' => List.mem_cons_of_mem _ (htaken k hk hk'), hw⟩

/-- How many pids `last_pid` passes before it comes to `f`. -/
def pidsBefore (f last : ℕ) : ℕ := if last ≤ f then f - last else maxPid - last + (f - 1)

/-- `last_pid` passes taken pids only, so it comes nearer to one that is free. -/
theorem pidsBefore_repeat {next : ℕ} (hf : f ∉ pids) (hf1 : 1 ≤ f) (hfmax : f < maxPid)
    (hnext : lo < next) (hmax : next ≤ maxPid) (htaken : ∀ k, lo ≤ k → k < next → k ∈ pids) :
    pidsBefore f (if maxPid ≤ next then 1 else next) < pidsBefore f lo := by
  have hside : f < lo ∨ next ≤ f := by
    rcases Nat.lt_or_ge f lo with hlow | hge
    · left
      exact hlow
    · right
      by_contra hlt
      exact hf (htaken f hge (Nat.lt_of_not_le hlt))
  unfold pidsBefore
  split_ifs <;> omega

/-- The passes end where some pid is free. -/
theorem repeatScan_total (hf : f ∉ pids) (hf1 : 1 ≤ f) (hfmax : f < maxPid) (d : ℕ)
    (h1 : 1 ≤ lo) (hlo : lo < maxPid) (hd : pidsBefore f lo < d) :
    ∃ w, (∀ fuel, d ≤ fuel → repeatScan pids fuel ⟨lo, maxPid⟩ = some w) ∧ 1 ≤ w.lastPid ∧
      w.lastPid < w.nextSafe ∧ w.nextSafe ≤ maxPid ∧ Gap pids w.lastPid w.nextSafe := by
  induction d generalizing lo with
  | zero => omega
  | succ d ih =>
    rcases hscan : scanPids pids ⟨lo, maxPid⟩ with ⟨finished, w⟩
    cases finished with
    | true =>
      obtain ⟨hle, hlt, hmax, hgap⟩ :=
        scanPids_done hlo (fun p hp => absurd hp List.not_mem_nil) hscan
      refine ⟨w, ?_, le_trans h1 hle, hlt, hmax, hgap⟩
      intro fuel hfuel
      obtain ⟨fuel, rfl⟩ : ∃ n, fuel = n + 1 := ⟨fuel - 1, by omega⟩
      simp only [repeatScan, hscan, if_true]
    | false =>
      obtain ⟨next, hnext, hmax, htaken, rfl⟩ := scanPids_repeat hlo (le_refl _) hscan
      have hnear := pidsBefore_repeat hf hf1 hfmax hnext hmax htaken
      dsimp only at hnext
      have hrange : 1 ≤ (if maxPid ≤ next then 1 else next) ∧
          (if maxPid ≤ next then 1 else next) < maxPid := by
        split_ifs <;> omega
      obtain ⟨w, hrun, hw⟩ := ih hrange.1 hrange.2 (by dsimp only at hnear; omega)
      refine ⟨w, ?_, hw⟩
      intro fuel hfuel
      obtain ⟨fuel, rfl⟩ : ∃ n, fuel = n + 1 := ⟨fuel - 1, by omega⟩
      simp only [repeatScan, hscan, Bool.false_eq_true, if_false]
      exact hrun fuel (by omega)

/-- `get_pid` where some pid is free and no pid lies between its two static variables. -/
theorem getPid_total (hf : f ∉ pids) (hf1 : 1 ≤ f) (hfmax : f < maxPid)
    (hmax : v.nextSafe ≤ maxPid) (hgap : Gap pids (v.lastPid + 1) v.nextSafe) :
    ∃ w, (∀ fuel, maxPid ≤ fuel → getPid fuel pids v = some w) ∧ 1 ≤ w.lastPid ∧
      w.lastPid < w.nextSafe ∧ w.nextSafe ≤ maxPid ∧ Gap pids w.lastPid w.nextSafe := by
  have hbound : ∀ last, 1 ≤ last → last < maxPid → pidsBefore f last < maxPid := by
    intro last h1 hlast
    unfold pidsBefore
    split_ifs <;> omega
  by_cases hwrap : maxPid ≤ v.lastPid + 1
  · obtain ⟨w, hrun, hw⟩ := repeatScan_total hf hf1 hfmax maxPid (le_refl 1) (by decide)
      (hbound 1 (le_refl 1) (by decide))
    refine ⟨w, ?_, hw⟩
    intro fuel hfuel
    rw [getPid, if_pos hwrap]
    exact hrun fuel hfuel
  · by_cases hsafe : v.nextSafe ≤ v.lastPid + 1
    · obtain ⟨w, hrun, hw⟩ := repeatScan_total hf hf1 hfmax maxPid (by omega)
        (Nat.lt_of_not_le hwrap) (hbound (v.lastPid + 1) (by omega) (by omega))
      refine ⟨w, ?_, hw⟩
      intro fuel hfuel
      rw [getPid, if_neg hwrap, if_pos hsafe]
      exact hrun fuel hfuel
    · refine ⟨⟨v.lastPid + 1, v.nextSafe⟩, ?_, Nat.le_add_left 1 v.lastPid,
        Nat.lt_of_not_le hsafe, hmax, hgap⟩
      intro fuel hfuel
      rw [getPid, if_neg hwrap, if_neg hsafe]

/-- More passes than are needed change nothing. -/
theorem repeatScan_mono {fuel m : ℕ} (hle : fuel ≤ m) (h : repeatScan pids fuel v = some w) :
    repeatScan pids m v = some w := by
  induction fuel generalizing v m with
  | zero => simp [repeatScan] at h
  | succ fuel ih =>
    obtain ⟨m, rfl⟩ : ∃ n, m = n + 1 := ⟨m - 1, by omega⟩
    simp only [repeatScan] at h ⊢
    split_ifs at h ⊢
    · exact h
    · exact ih (by omega) h

theorem getPid_mono {fuel m : ℕ} (hle : fuel ≤ m) (h : getPid fuel pids v = some w) :
    getPid m pids v = some w := by
  unfold getPid at h ⊢
  split_ifs at h ⊢
  · exact repeatScan_mono hle h
  · exact repeatScan_mono hle h
  · exact h

end Scan

namespace PidTable

variable {s t : PidTable}

/-- The forks under way, each of which may add one process. -/
def forks (s : PidTable) : ℕ := s.procList.countP Task.forking + s.idleForking.toNat

structure Inv (s : PidTable) : Prop where
  counted : s.nrProcess = s.procList.length + 1
  bounded : s.procList.length + s.forks ≤ 2 * maxProcess - 3
  nextSafe_le : s.statics.nextSafe ≤ maxPid
  gap : Gap s.pids (s.statics.lastPid + 1) s.statics.nextSafe
  pids_pos : ∀ p ∈ s.pids, 1 ≤ p ∧ p < maxPid
  pids_nodup : s.pids.Nodup

/-- Fewer processes than pids leave a pid free. -/
theorem exists_free {pids : List ℕ} (hlen : pids.length + 1 < maxPid) :
    ∃ f, f ∉ pids ∧ 1 ≤ f ∧ f < maxPid := by
  have hcard : pids.toFinset.card < (Finset.Ico 1 maxPid).card := by
    rw [Nat.card_Ico]
    have := pids.toFinset_card_le
    omega
  obtain ⟨f, hf, hfree⟩ := Finset.exists_mem_notMem_of_card_lt_card hcard
  rw [Finset.mem_Ico] at hf
  exact ⟨f, fun h => hfree (List.mem_toFinset.mpr h), hf.1, hf.2⟩

theorem Inv.length_lt (h : s.Inv) : s.procList.length + 1 < maxPid := by
  have := h.bounded
  have hmax : maxPid = 2 * maxProcess := Nat.mul_comm _ _
  have hproc : maxProcess = 4096 := rfl
  omega

theorem Inv.free (h : s.Inv) : ∃ f, f ∉ s.pids ∧ 1 ≤ f ∧ f < maxPid := by
  apply exists_free
  rw [pids, List.length_map]
  exact h.length_lt

/-- `get_pid` in a state of the invariant. -/
theorem Inv.getPid (h : s.Inv) : ∃ v, (∀ fuel, maxPid ≤ fuel →
    Process.getPid fuel s.pids s.statics = some v) ∧ 1 ≤ v.lastPid ∧
      v.lastPid < v.nextSafe ∧ v.nextSafe ≤ maxPid ∧ Gap s.pids v.lastPid v.nextSafe := by
  obtain ⟨f, hf, hf1, hfmax⟩ := h.free
  exact getPid_total hf hf1 hfmax h.nextSafe_le h.gap

variable {a b : List Task} {pid : ℕ} {st st' : ProcState} {fk fk' : Bool} {v : PidStatics}

theorem forks_le (s : PidTable) : s.forks ≤ s.procList.length + 1 := by
  have hcount : s.procList.countP Task.forking ≤ s.procList.length := List.countP_le_length
  have hidle := Bool.toNat_le s.idleForking
  unfold forks
  omega

/-- A process changes its state, and begins a fork only where `nr_process` allows it. -/
theorem Inv.setTask (h : s.Inv) (hlist : s.procList = a ++ ⟨pid, st, fk⟩ :: b)
    (hroom : fk' = true → fk = true ∨ s.nrProcess < maxProcess) :
    Inv { s with procList := a ++ ⟨pid, st', fk'⟩ :: b } := by
  have hlen : (a ++ ⟨pid, st', fk'⟩ :: b).length = s.procList.length := by
    rw [hlist]
    simp
  have hpids : pids { s with procList := a ++ ⟨pid, st', fk'⟩ :: b } = s.pids := by
    simp [pids, hlist]
  have hforks : (forks { s with procList := a ++ ⟨pid, st', fk'⟩ :: b }) ≤ s.forks ∨
      s.nrProcess < maxProcess := by
    cases fk' with
    | false =>
      left
      have hskip : b.countP Task.forking ≤ (⟨pid, st, fk⟩ :: b).countP Task.forking :=
        (List.sublist_cons_self _ b).countP_le
      have hhead : (⟨pid, st', false⟩ :: b).countP Task.forking = b.countP Task.forking := by
        simp
      simp only [forks, hlist, List.countP_append, hhead]
      omega
    | true =>
      rcases hroom rfl with rfl | hlt
      · left
        simp [forks, hlist]
      · right
        exact hlt
  refine ⟨?_, ?_, h.nextSafe_le, ?_, ?_, ?_⟩
  · dsimp only
    rw [hlen]
    exact h.counted
  · dsimp only
    rw [hlen]
    rcases hforks with hle | hlt
    · have := h.bounded
      omega
    · have hle := forks_le { s with procList := a ++ ⟨pid, st', fk'⟩ :: b }
      dsimp only at hle
      rw [hlen] at hle
      have := h.counted
      omega
  · rw [hpids]
    exact h.gap
  · rw [hpids]
    exact h.pids_pos
  · rw [hpids]
    exact h.pids_nodup

/-- The end of a fork that was counted: its pid is new, and lies below the gap. -/
theorem Inv.addProc {fuel : ℕ} (h : s.Inv) (hcount : s.procList.length + s.forks + 1 ≤
      2 * maxProcess - 3) (hpid : Process.getPid fuel s.pids s.statics = some v) :
    Inv (s.addProc v) := by
  obtain ⟨w, hrun, h1, hlt, hmax, hgap⟩ := h.getPid
  have hw : w = v := by
    have hmono := getPid_mono (Nat.le_max_left fuel maxPid) hpid
    rw [hrun _ (Nat.le_max_right fuel maxPid)] at hmono
    exact Option.some.inj hmono
  subst hw
  have hpids : (s.addProc w).pids = w.lastPid :: s.pids := rfl
  refine ⟨?_, ?_, hmax, ?_, ?_, ?_⟩
  · simp [PidTable.addProc, h.counted]
  · have hforks : (s.addProc w).forks = s.forks := by simp [forks, PidTable.addProc]
    rw [hforks]
    simp only [PidTable.addProc, List.length_cons]
    omega
  · intro p hp
    rw [hpids] at hp
    rcases List.mem_cons.mp hp with rfl | hp
    · left
      exact Nat.lt_succ_self _
    · rcases hgap p hp with hlow | hhigh
      · left
        exact Nat.lt_succ_of_lt hlow
      · right
        exact hhigh
  · intro p hp
    rw [hpids] at hp
    rcases List.mem_cons.mp hp with rfl | hp
    · exact ⟨h1, lt_of_lt_of_le hlt hmax⟩
    · exact h.pids_pos p hp
  · rw [hpids, List.nodup_cons]
    refine ⟨?_, h.pids_nodup⟩
    intro hmem
    rcases hgap w.lastPid hmem with hlow | hhigh
    · exact lt_irrefl _ hlow
    · omega

theorem Inv.setIdle (h : s.Inv) {idle : Bool}
    (hroom : idle = true → s.nrProcess < maxProcess) :
    Inv { s with idleForking := idle } := by
  refine ⟨h.counted, ?_, h.nextSafe_le, h.gap, h.pids_pos, h.pids_nodup⟩
  cases idle with
  | false =>
    have := h.bounded
    simp only [forks, Bool.toNat_false] at this ⊢
    omega
  | true =>
    have hle := forks_le { s with idleForking := true }
    have hlt := hroom rfl
    have := h.counted
    dsimp only at hle ⊢
    omega

/-- `remove_links` of a process that has no fork under way. -/
theorem Inv.removeLinks (h : s.Inv) (hlist : s.procList = a ++ ⟨pid, st, false⟩ :: b) :
    Inv { s with procList := a ++ b, nrProcess := s.nrProcess - 1 } := by
  have hsub : (pids { s with procList := a ++ b, nrProcess := s.nrProcess - 1 }).Sublist s.pids := by
    simp [pids, hlist]
  have hlen : s.procList.length = (a ++ b).length + 1 := by
    rw [hlist]
    simp
    omega
  refine ⟨?_, ?_, h.nextSafe_le, fun p hp => h.gap p (hsub.subset hp),
    fun p hp => h.pids_pos p (hsub.subset hp), h.pids_nodup.sublist hsub⟩
  · dsimp only
    rw [h.counted, hlen]
    rfl
  · have hforks : forks { s with procList := a ++ b, nrProcess := s.nrProcess - 1 } = s.forks := by
      simp [forks, hlist]
    rw [hforks]
    have := h.bounded
    dsimp only
    omega

theorem Inv.step (h : s.Inv) (hstep : Step s t) : t.Inv := by
  cases hstep with
  | forkBegin a b pid hlist hroom => exact h.setTask hlist (fun _ => Or.inr hroom)
  | forkFail a b pid hlist => exact h.setTask hlist (fun hfalse => absurd hfalse Bool.false_ne_true)
  | forkEnd a b pid fuel v hlist hpid =>
    have hset : Inv { s with procList := a ++ ⟨pid, .runnable, false⟩ :: b } :=
      h.setTask hlist (fun hfalse => absurd hfalse Bool.false_ne_true)
    have hpids : pids { s with procList := a ++ ⟨pid, .runnable, false⟩ :: b } = s.pids := by
      simp [pids, hlist]
    apply hset.addProc _ (hpids ▸ hpid)
    have hbound := h.bounded
    simp [forks, hlist] at hbound ⊢
    omega
  | idleForkBegin hidle hroom => exact h.setIdle (fun _ => hroom)
  | idleForkFail hidle => exact h.setIdle (fun hfalse => absurd hfalse Bool.false_ne_true)
  | idleForkEnd fuel v hidle hpid =>
    have hset : Inv { s with idleForking := false } :=
      h.setIdle (fun hfalse => absurd hfalse Bool.false_ne_true)
    apply hset.addProc _ hpid
    have hbound := h.bounded
    simp only [forks, hidle, Bool.toNat_true, Bool.toNat_false] at hbound ⊢
    omega
  | sleep a b pid forking hlist => exact h.setTask hlist Or.inl
  | wakeup a b pid forking hlist => exact h.setTask hlist Or.inl
  | exit a b pid hlist => exact h.setTask hlist (fun hfalse => absurd hfalse Bool.false_ne_true)
  | reap a b pid hlist => exact h.removeLinks hlist

theorem Inv.boot : boot.Inv := by
  refine ⟨rfl, by decide, le_refl _, ?_, ?_, List.nodup_nil⟩
  · intro p hp
    exact absurd hp List.not_mem_nil
  · intro p hp
    exact absurd hp List.not_mem_nil

theorem Reachable.inv (h : Reachable s) : s.Inv := by
  induction h with
  | refl => exact Inv.boot
  | tail _ hstep ih => exact ih.step hstep

/-- In every state that is reached `get_pid` ends within `MAX_PID` passes over the list, and its
pid is one that no process of `proc_list` has. -/
theorem get_pid_fresh (h : Reachable s) :
    s.procList.length < maxPid ∧ ∃ v : PidStatics,
      (∀ fuel, maxPid ≤ fuel → Process.getPid fuel s.pids s.statics = some v) ∧
      1 ≤ v.lastPid ∧ v.lastPid < maxPid ∧ ∀ p ∈ s.procList, p.pid ≠ v.lastPid := by
  have hinv := h.inv
  obtain ⟨v, hrun, h1, hlt, hmax, hgap⟩ := hinv.getPid
  refine ⟨Nat.lt_of_succ_lt hinv.length_lt, v, hrun, h1, lt_of_lt_of_le hlt hmax, ?_⟩
  intro p hp heq
  rcases hgap p.pid (List.mem_map_of_mem hp) with hlow | hhigh
  · omega
  · omega

/-- `init` is made by `idleproc`, and gets the pid 1. -/
def initTable : PidTable := addProc boot ⟨1, maxPid⟩

theorem initTable_reachable : Reachable initTable := by
  have hbegin : Step boot { boot with idleForking := true } :=
    Step.idleForkBegin boot rfl (by decide)
  have hend : Step { boot with idleForking := true } initTable :=
    Step.idleForkEnd { boot with idleForking := true } 1 ⟨1, maxPid⟩ rfl (by decide)
  exact (Relation.ReflTransGen.single hbegin).tail hend

theorem get_pid_fresh_init :
    initTable.procList.length < maxPid ∧ ∃ v : PidStatics,
      (∀ fuel, maxPid ≤ fuel → Process.getPid fuel initTable.pids initTable.statics = some v) ∧
      1 ≤ v.lastPid ∧ v.lastPid < maxPid ∧ ∀ p ∈ initTable.procList, p.pid ≠ v.lastPid :=
  get_pid_fresh initTable_reachable

end PidTable

end Ucore.Process
