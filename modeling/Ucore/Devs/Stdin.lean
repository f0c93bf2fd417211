import Ucore.Library.Run
import Ucore.Library.Window
import Ucore.Sync.Wait

/-!
The console input of `dev_stdin.c`. The interrupt handler puts bytes into a ring buffer,
and processes read them out and sleep when there is none. A step is one stretch with the
interrupts off: a byte from the handler, the start of a read, or a read that goes on after
`schedule`; a process may be killed at any time.
-/
namespace Ucore.Devs

open Library Sync

def stdinBufsize : ℕ := 4096

/-- A call of `dev_stdin_read` on its way: the length asked for, the bytes stored so far and
the counter `ret`. -/
structure Reader where
  len : ℕ
  ret : ℕ
  buf : List UInt8

/-- A call that is over: what it returned and what it stored. -/
structure Returned (P : Type*) where
  proc : P
  ret : ℕ
  buf : List UInt8

/-- `accepted` are the bytes for which `p_wpos` advanced, `taken` those for which `p_rpos`
advanced with the process that took them, and `returned` the calls that are over. -/
structure Stdin (P : Type*) where
  buffer : ℕ → UInt8
  rpos : ℕ
  wpos : ℕ
  waiters : Waiters P
  reader : P → Option Reader
  accepted : List UInt8
  taken : List (P × UInt8)
  returned : List (Returned P)

variable {P : Type*} [DecidableEq P]

namespace Stdin

def devStdinWrite (s : Stdin P) (c : UInt8) : Stdin P :=
  if c ≠ 0 then
    let s := { s with buffer := Function.update s.buffer (s.wpos % stdinBufsize) c }
    let s := if s.wpos - s.rpos < stdinBufsize then
        { s with wpos := s.wpos + 1, accepted := s.accepted ++ [c] }
      else s
    if s.waiters.queue ≠ [] then { s with waiters := s.waiters.wakeupQueue wtKbd } else s
  else s

/-- The call returns. -/
def finish (s : Stdin P) (p : P) (r : Reader) : Stdin P :=
  { s with
    reader := Function.update s.reader p none
    returned := s.returned ++ [⟨p, r.ret, r.buf⟩] }

/-- The loop of `dev_stdin_read` up to the next `schedule` or the end; the last argument is
the number of turns left, `len - ret`. -/
def readLoop (s : Stdin P) (p : P) (r : Reader) : ℕ → Stdin P
  | 0 => s.finish p r
  | left + 1 =>
    if s.rpos < s.wpos then
      let c := s.buffer (s.rpos % stdinBufsize)
      readLoop { s with rpos := s.rpos + 1, taken := s.taken ++ [(p, c)] } p
        { r with ret := r.ret + 1, buf := r.buf ++ [c] } left
    else
      { s with
        waiters := s.waiters.waitCurrentSet p wtKbd
        reader := Function.update s.reader p (some r) }

def devStdinRead (s : Stdin P) (p : P) (len : ℕ) : Stdin P := s.readLoop p ⟨len, 0, []⟩ len

/-- `dev_stdin_read` behind the call of `schedule`. -/
def afterSchedule (s : Stdin P) (p : P) (r : Reader) : Stdin P :=
  let s := { s with waiters := s.waiters.waitCurrentDel p }
  if (s.waiters.proc p).wakeupFlags = wtKbd then s.readLoop p r (r.len - r.ret) else s.finish p r

end Stdin

inductive StdinOp (P : Type*) where
  | write (c : UInt8)
  | read (p : P) (len : ℕ)
  | kill (p : P)
  | resume (p : P)

/-- One step. A process reads once at a time, and goes on when it was woken. -/
def stdinStep (s : Stdin P) : StdinOp P → Option (Stdin P)
  | .write c => some (s.devStdinWrite c)
  | .read p len => if (s.reader p).isNone then some (s.devStdinRead p len) else none
  | .kill p => some { s with waiters := { s.waiters with proc := doKill s.waiters.proc p } }
  | .resume p =>
    match s.reader p with
    | none => none
    | some r => if (s.waiters.proc p).state = .runnable then some (s.afterSchedule p r) else none

/-- After `stdin_device_init`; no process has called yet. -/
def Stdin.init (buffer : ℕ → UInt8) (proc : P → Sleeper) : Stdin P where
  buffer := buffer
  rpos := 0
  wpos := 0
  waiters := ⟨proc, []⟩
  reader := fun _ => none
  accepted := []
  taken := []
  returned := []

namespace Stdin

/-- The bytes that are in the buffer. -/
def unread (s : Stdin P) : List UInt8 := window s.buffer stdinBufsize s.rpos (s.wpos - s.rpos)

/-- The bytes that the calls of a process stored, in order. -/
def storedBy (s : Stdin P) (p : P) : List UInt8 :=
  (s.returned.filter (fun r => r.proc = p)).flatMap Returned.buf ++
    ((s.reader p).map Reader.buf).getD []

/-- The console input is a queue: what was taken and what is in the buffer are the accepted
bytes in their order, every byte taken is stored by the process that took it, and a call
returns the number of bytes it stored. -/
structure Fifo (s : Stdin P) : Prop where
  order : s.taken.map Prod.snd ++ s.unread = s.accepted
  stored : ∀ p, (s.taken.filter (fun x => x.1 = p)).map Prod.snd = s.storedBy p
  counted : ∀ r ∈ s.returned, r.ret = r.buf.length

/-- A byte from the handler finds room, or it is the byte that it would overwrite. -/
def Room (s : Stdin P) : StdinOp P → Prop
  | .write c => c ≠ 0 → s.wpos - s.rpos < stdinBufsize ∨ s.buffer (s.rpos % stdinBufsize) = c
  | _ => True

structure Inv (s : Stdin P) : Prop where
  fifo : s.Fifo
  ordered : s.rpos ≤ s.wpos
  bounded : s.wpos ≤ s.rpos + stdinBufsize
  counting : ∀ p r, s.reader p = some r → r.ret = r.buf.length

theorem inv_init (buffer : ℕ → UInt8) (proc : P → Sleeper) : Inv (init buffer proc) where
  fifo := ⟨rfl, fun _ => rfl, fun _ hr => absurd hr List.not_mem_nil⟩
  ordered := le_refl 0
  bounded := Nat.zero_le _
  counting _ _ h := by cases h

/-- The sleeping and waking of processes does not touch the queue. -/
theorem Inv.of_waiters {s : Stdin P} (h : s.Inv) (w : Waiters P) : Inv { s with waiters := w } where
  fifo := ⟨h.fifo.order, h.fifo.stored, h.fifo.counted⟩
  ordered := h.ordered
  bounded := h.bounded
  counting := h.counting

/-- The call of a process is written down as it stands. -/
def enter (s : Stdin P) (p : P) (r : Reader) : Stdin P :=
  { s with reader := Function.update s.reader p (some r) }

theorem storedBy_enter_self (s : Stdin P) (p : P) (r : Reader) :
    (s.enter p r).storedBy p =
      (s.returned.filter (fun x => x.proc = p)).flatMap Returned.buf ++ r.buf := by
  unfold storedBy enter
  simp only [Function.update_self, Option.map_some, Option.getD_some]

theorem storedBy_enter_of_ne (s : Stdin P) {p q : P} (r : Reader) (h : q ≠ p) :
    (s.enter p r).storedBy q = s.storedBy q := by
  unfold storedBy enter
  simp only [Function.update_of_ne h]

theorem storedBy_finish (s : Stdin P) (p q : P) (r : Reader) :
    (s.finish p r).storedBy q = (s.enter p r).storedBy q := by
  by_cases hq : q = p
  · subst hq
    rw [storedBy_enter_self]
    unfold storedBy finish
    simp only [Function.update_self, Option.map_none, Option.getD_none, List.append_nil,
      List.filter_append, List.flatMap_append, List.filter_cons, decide_true, if_true,
      List.filter_nil, List.flatMap_cons, List.flatMap_nil]
  · rw [storedBy_enter_of_ne s r hq]
    have hp : ¬ p = q := fun heq => hq heq.symm
    unfold storedBy finish
    simp only [Function.update_of_ne hq, List.filter_append, List.filter_cons, hp, decide_false,
      Bool.false_eq_true, if_false, List.filter_nil, List.append_nil]

/-- A call that starts has stored nothing. -/
theorem Inv.enter_new {s : Stdin P} (h : s.Inv) {p : P} (hp : s.reader p = none) (len : ℕ) :
    (s.enter p ⟨len, 0, []⟩).Inv := by
  refine ⟨⟨h.fifo.order, ?_, h.fifo.counted⟩, h.ordered, h.bounded, ?_⟩
  · intro q
    by_cases hq : q = p
    · subst hq
      rw [storedBy_enter_self]
      have hold := h.fifo.stored q
      unfold storedBy at hold
      rw [hp] at hold
      exact hold
    · rw [storedBy_enter_of_ne s _ hq]
      exact h.fifo.stored q
  · intro q r hr
    by_cases hq : q = p
    · subst hq
      unfold enter at hr
      simp only [Function.update_self] at hr
      obtain rfl := Option.some.inj hr
      rfl
    · unfold enter at hr
      simp only [Function.update_of_ne hq] at hr
      exact h.counting q r hr

/-- A call that goes on is the one that is written down. -/
theorem enter_self {s : Stdin P} {p : P} {r : Reader} (hp : s.reader p = some r) :
    s.enter p r = s := by
  unfold enter
  rw [← hp, Function.update_eq_self]

theorem Inv.finish {s : Stdin P} {p : P} {r : Reader} (h : (s.enter p r).Inv) :
    (s.finish p r).Inv := by
  refine ⟨⟨h.fifo.order, ?_, ?_⟩, h.ordered, h.bounded, ?_⟩
  · intro q
    rw [storedBy_finish]
    exact h.fifo.stored q
  · intro x hx
    rcases List.mem_append.mp hx with hx | hx
    · exact h.fifo.counted x hx
    · obtain rfl := List.mem_singleton.mp hx
      have hself : (s.enter p r).reader p = some r := by
        unfold enter
        simp only [Function.update_self]
      exact h.counting p r hself
  · intro q r' hr
    unfold Stdin.finish at hr
    by_cases hq : q = p
    · subst hq
      simp only [Function.update_self, reduceCtorEq] at hr
    · simp only [Function.update_of_ne hq] at hr
      apply h.counting q r'
      unfold enter
      simp only [Function.update_of_ne hq]
      exact hr

/-- One turn of the loop: the oldest byte of the buffer goes to the call. -/
theorem Inv.take {s : Stdin P} {p : P} {r : Reader} (h : (s.enter p r).Inv)
    (hlt : s.rpos < s.wpos) :
    ({ s with
        rpos := s.rpos + 1
        taken := s.taken ++ [(p, s.buffer (s.rpos % stdinBufsize))] }.enter p
      { r with
        ret := r.ret + 1
        buf := r.buf ++ [s.buffer (s.rpos % stdinBufsize)] }).Inv := by
  have hbounded : s.wpos ≤ s.rpos + stdinBufsize := h.bounded
  refine ⟨⟨?_, ?_, h.fifo.counted⟩, hlt, ?_, ?_⟩
  · have horder : s.taken.map Prod.snd ++ s.unread = s.accepted := h.fifo.order
    have hsucc : s.wpos - s.rpos = (s.wpos - (s.rpos + 1)) + 1 := by omega
    unfold unread at horder ⊢
    rw [hsucc, window] at horder
    simp only [enter, List.map_append, List.map_cons, List.map_nil, List.append_assoc,
      List.singleton_append]
    exact horder
  · intro q
    have hstored : (s.taken.filter (fun x => x.1 = q)).map Prod.snd = (s.enter p r).storedBy q :=
      h.fifo.stored q
    by_cases hq : q = p
    · subst hq
      rw [storedBy_enter_self] at hstored ⊢
      simp only [enter, List.filter_append, List.map_append, hstored, List.filter_cons,
        decide_true, if_true, List.filter_nil, List.map_cons, List.map_nil, List.append_assoc]
    · rw [storedBy_enter_of_ne _ _ hq] at hstored ⊢
      have hp : ¬ p = q := fun heq => hq heq.symm
      simp only [enter, List.filter_append, hstored, List.filter_cons, hp, decide_false,
        Bool.false_eq_true, if_false, List.filter_nil, List.append_nil]
      rfl
  · simp only [enter]
    omega
  · intro q r' hr
    by_cases hq : q = p
    · subst hq
      have hself : (s.enter q r).reader q = some r := by
        unfold enter
        simp only [Function.update_self]
      have hcount := h.counting q r hself
      unfold enter at hr
      simp only [Function.update_self] at hr
      obtain rfl := Option.some.inj hr
      simp only [List.length_append, List.length_singleton, hcount]
    · apply h.counting q r'
      unfold enter at hr ⊢
      simp only [Function.update_of_ne hq] at hr ⊢
      exact hr

/-- A whole stretch of the loop, by induction on the turns left. -/
theorem Inv.readLoop {s : Stdin P} {p : P} {r : Reader} {left : ℕ} (h : (s.enter p r).Inv) :
    (s.readLoop p r left).Inv := by
  induction left generalizing s r with
  | zero => exact h.finish
  | succ left ih =>
    unfold Stdin.readLoop
    by_cases hlt : s.rpos < s.wpos
    · rw [if_pos hlt]
      exact ih (h.take hlt)
    · rw [if_neg hlt]
      exact h.of_waiters _

/-- A byte from the handler that finds room is the newest in the buffer. -/
theorem Inv.put {s : Stdin P} (h : s.Inv) (c : UInt8) (hroom : s.wpos - s.rpos < stdinBufsize) :
    Inv { s with
      buffer := Function.update s.buffer (s.wpos % stdinBufsize) c
      wpos := s.wpos + 1
      accepted := s.accepted ++ [c] } := by
  have hle := h.ordered
  refine ⟨⟨?_, h.fifo.stored, h.fifo.counted⟩, ?_, ?_, h.counting⟩
  · have hpos : s.wpos = s.rpos + (s.wpos - s.rpos) := by omega
    have hlen : s.wpos + 1 - s.rpos = (s.wpos - s.rpos) + 1 := by omega
    have hpush := @window_push UInt8 s.buffer stdinBufsize s.rpos (s.wpos - s.rpos) c hroom
    rw [← hpos] at hpush
    have horder := h.fifo.order
    unfold unread at horder ⊢
    simp only [hlen, hpush, ← List.append_assoc, horder]
  · simp only
    omega
  · simp only
    omega

omit [DecidableEq P] in
/-- In a full buffer the handler writes over the oldest byte. -/
theorem unread_full {s : Stdin P} {c : UInt8} (hfull : s.wpos = s.rpos + stdinBufsize) :
    unread { s with buffer := Function.update s.buffer (s.wpos % stdinBufsize) c } =
      c :: s.unread.tail := by
  have hlen : s.wpos - s.rpos = stdinBufsize := by omega
  have hsize : 0 < stdinBufsize := by decide
  unfold unread
  simp only [hlen]
  rw [hfull]
  exact window_overwrite hsize

omit [DecidableEq P] in
/-- The oldest byte of a full buffer. -/
theorem head_unread_full {s : Stdin P} (hfull : s.wpos = s.rpos + stdinBufsize) :
    s.unread = s.buffer (s.rpos % stdinBufsize) :: s.unread.tail := by
  have hlen : s.wpos - s.rpos = (stdinBufsize - 1) + 1 := by
    unfold stdinBufsize
    unfold stdinBufsize at hfull
    omega
  unfold unread
  rw [hlen, window, List.tail_cons]

/-- What a byte from the handler does to the queue. -/
theorem devStdinWrite_cases (s : Stdin P) (c : UInt8) : ∃ w : Waiters P,
    c = 0 ∧ s.devStdinWrite c = s ∨
    c ≠ 0 ∧ s.wpos - s.rpos < stdinBufsize ∧ s.devStdinWrite c = { s with
      buffer := Function.update s.buffer (s.wpos % stdinBufsize) c
      wpos := s.wpos + 1
      accepted := s.accepted ++ [c]
      waiters := w } ∨
    c ≠ 0 ∧ ¬ s.wpos - s.rpos < stdinBufsize ∧ s.devStdinWrite c = { s with
      buffer := Function.update s.buffer (s.wpos % stdinBufsize) c
      waiters := w } := by
  refine ⟨if s.waiters.queue ≠ [] then s.waiters.wakeupQueue wtKbd else s.waiters, ?_⟩
  unfold devStdinWrite
  by_cases hc : c ≠ 0
  · right
    rw [if_pos hc]
    by_cases hroom : s.wpos - s.rpos < stdinBufsize
    · left
      by_cases hq : s.waiters.queue ≠ []
      · simp only [hc, hroom, hq, ne_eq, not_false_eq_true, if_true, and_self]
      · simp only [hc, hroom, hq, ne_eq, not_false_eq_true, if_true, if_false, and_self]
    · right
      by_cases hq : s.waiters.queue ≠ []
      · simp only [hc, hroom, hq, ne_eq, not_false_eq_true, if_true, if_false, and_self]
      · simp only [hc, hroom, hq, ne_eq, not_false_eq_true, if_false, and_self]
  · left
    rw [if_neg hc]
    exact ⟨not_not.mp hc, rfl⟩

/-- A byte from the handler keeps the queue exactly when there is room for it. -/
theorem Inv.devStdinWrite_iff {s : Stdin P} (h : s.Inv) (c : UInt8) :
    ((s.devStdinWrite c).Fifo → s.Room (.write c)) ∧
      (s.Room (.write c) → (s.devStdinWrite c).Inv) := by
  obtain ⟨w, hw⟩ := devStdinWrite_cases s c
  rcases hw with ⟨hc, heq⟩ | ⟨hc, hroom, heq⟩ | ⟨hc, hroom, heq⟩
  · rw [heq]
    exact ⟨fun _ hne => absurd hc hne, fun _ => h⟩
  · rw [heq]
    exact ⟨fun _ _ => Or.inl hroom, fun _ => (h.put c hroom).of_waiters w⟩
  · have hfull : s.wpos = s.rpos + stdinBufsize := by
      have hle := h.ordered
      have hbound := h.bounded
      omega
    have hmod : s.wpos % stdinBufsize = s.rpos % stdinBufsize := by
      rw [hfull, Nat.add_mod_right]
    rw [heq]
    constructor
    · intro hfifo _
      right
      have hnew : s.taken.map Prod.snd ++ unread { s with
          buffer := Function.update s.buffer (s.wpos % stdinBufsize) c } = s.accepted :=
        hfifo.order
      rw [unread_full hfull, ← h.fifo.order, head_unread_full hfull] at hnew
      have hcons := List.append_cancel_left hnew
      rw [List.tail_cons] at hcons
      exact (List.cons.inj hcons).1.symm
    · intro hc'
      have hsame : s.buffer (s.rpos % stdinBufsize) = c := by
        rcases hc' hc with hlt | hsame
        · exact absurd hlt hroom
        · exact hsame
      have hbuf : Function.update s.buffer (s.wpos % stdinBufsize) c = s.buffer := by
        rw [hmod, ← hsame, Function.update_eq_self]
      rw [hbuf]
      exact h.of_waiters w

theorem Inv.afterSchedule {s : Stdin P} {p : P} {r : Reader} (h : s.Inv)
    (hp : s.reader p = some r) : (s.afterSchedule p r).Inv := by
  have hdel := h.of_waiters (s.waiters.waitCurrentDel p)
  have henter : (enter { s with waiters := s.waiters.waitCurrentDel p } p r).Inv := by
    rw [enter_self (by exact hp)]
    exact hdel
  unfold Stdin.afterSchedule
  by_cases hf : ((s.waiters.waitCurrentDel p).proc p).wakeupFlags = wtKbd
  · simp only [hf, if_true]
    exact henter.readLoop
  · simp only [hf, if_false]
    exact henter.finish

/-- A step keeps the queue exactly when it has room for its byte. -/
theorem Inv.step_iff {s s' : Stdin P} {op : StdinOp P} (h : s.Inv)
    (hs : stdinStep s op = some s') : (s'.Fifo → s.Room op) ∧ (s.Room op → s'.Inv) := by
  cases op with
  | write c =>
    obtain rfl := Option.some.inj hs
    exact h.devStdinWrite_iff c
  | read p len =>
    simp only [stdinStep] at hs
    by_cases hp : (s.reader p).isNone
    · rw [if_pos hp] at hs
      obtain rfl := Option.some.inj hs
      exact ⟨fun _ => trivial, fun _ => (h.enter_new (Option.isNone_iff_eq_none.mp hp) len).readLoop⟩
    · rw [if_neg hp] at hs
      cases hs
  | kill p =>
    obtain rfl := Option.some.inj hs
    exact ⟨fun _ => trivial, fun _ => h.of_waiters _⟩
  | resume p =>
    simp only [stdinStep] at hs
    rcases hp : s.reader p with _ | r
    · rw [hp] at hs
      cases hs
    · rw [hp] at hs
      simp only at hs
      by_cases hrun : (s.waiters.proc p).state = .runnable
      · rw [if_pos hrun] at hs
        obtain rfl := Option.some.inj hs
        exact ⟨fun _ => trivial, fun _ => h.afterSchedule hp⟩
      · rw [if_neg hrun] at hs
        cases hs

/-- In every run of the handler and of any number of reading processes the console input
stays a queue exactly when every byte from the handler finds room. -/
theorem stays_fifo_iff (buffer : ℕ → UInt8) (proc : P → Sleeper) (ops : List (StdinOp P)) :
    RunMeets stdinStep (fun s op => ∀ s', stdinStep s op = some s' → s'.Fifo)
        (init buffer proc) ops ↔
      RunMeets stdinStep Room (init buffer proc) ops := by
  apply @RunMeets.iff _ _ _ _ _ (fun s => s.Inv)
  · intro s op hinv
    constructor
    · intro hfifo
      cases op with
      | write c => exact (hinv.step_iff rfl).1 (hfifo _ rfl)
      | read p len => trivial
      | kill p => trivial
      | resume p => trivial
    · intro hroom s' hs'
      exact ((hinv.step_iff hs').2 hroom).fifo
  · intro s op s' hinv hfifo hs'
    exact (hinv.step_iff hs').2 ((hinv.step_iff hs').1 (hfifo s' hs'))
  · exact inv_init buffer proc

/-- The buffer fills up with one byte. -/
theorem run_fill {s : Stdin P} {c : UInt8} {n : ℕ} (hc : c ≠ 0) (hr : s.rpos = 0)
    (hn : s.wpos + n ≤ stdinBufsize) (hq : s.waiters.queue = []) :
    runOps stdinStep s (List.replicate n (.write c)) = some { s with
      buffer := fun i => if s.wpos ≤ i ∧ i < s.wpos + n then c else s.buffer i
      wpos := s.wpos + n
      accepted := s.accepted ++ List.replicate n c } := by
  induction n generalizing s with
  | zero =>
    have hbuf : (fun i => if s.wpos ≤ i ∧ i < s.wpos then c else s.buffer i) = s.buffer := by
      funext i
      have hno : ¬ (s.wpos ≤ i ∧ i < s.wpos) := by omega
      rw [if_neg hno]
    simp only [Nat.add_zero, List.replicate_zero, List.append_nil, hbuf]
    rfl
  | succ n ih =>
    have hroom : s.wpos - s.rpos < stdinBufsize := by omega
    have hmod : s.wpos % stdinBufsize = s.wpos := Nat.mod_eq_of_lt (by omega)
    have hstep : stdinStep s (.write c) = some { s with
        buffer := Function.update s.buffer s.wpos c
        wpos := s.wpos + 1
        accepted := s.accepted ++ [c] } := by
      unfold stdinStep devStdinWrite
      simp only [hc, ne_eq, not_false_eq_true, if_true, hroom, hmod, hq, not_true_eq_false,
        if_false]
    rw [List.replicate_succ, runOps, hstep, Option.bind_some, ih (by exact hr) ?_ (by exact hq)]
    · simp only [Option.some.injEq, Stdin.mk.injEq, List.append_assoc, List.singleton_append,
        and_true, true_and]
      refine ⟨?_, by omega, by rw [List.replicate_succ]⟩
      funext i
      by_cases hi : i = s.wpos
      · have hno : ¬ (s.wpos + 1 ≤ i ∧ i < s.wpos + 1 + n) := by omega
        have hyes : s.wpos ≤ i ∧ i < s.wpos + (n + 1) := by omega
        rw [if_neg hno, if_pos hyes, hi, Function.update_self]
      · have hiff : s.wpos + 1 ≤ i ∧ i < s.wpos + 1 + n ↔ s.wpos ≤ i ∧ i < s.wpos + (n + 1) := by
          omega
        simp only [hiff, Function.update_of_ne hi]
    · simp only
      omega

end Stdin

/-- The console input before the first call, for processes with numbers. -/
def emptyStdin : Stdin ℕ := Stdin.init (fun _ => 0) (fun _ => ⟨.runnable, 0, false, 0⟩)

/-- The letter `a` came 4096 times. -/
def fullStdin : Stdin ℕ :=
  { emptyStdin with
    buffer := fun i => if 0 ≤ i ∧ i < 0 + stdinBufsize then 97 else 0
    wpos := 0 + stdinBufsize
    accepted := [] ++ List.replicate stdinBufsize 97 }

/-- The letter `a` comes 4096 times while nobody reads, then `b`, and then a process reads
one byte: it gets the `b`, which was not accepted. -/
theorem oldest_byte_overwritten : ∃ t : Stdin ℕ,
    runOps stdinStep emptyStdin
      (List.replicate stdinBufsize (.write 97) ++ [.write 98, .read 1 1]) = some t ∧
    t.returned.map Returned.buf = [[98]] ∧ t.taken = [(1, 98)] ∧
    t.accepted = List.replicate stdinBufsize 97 ∧ ¬ t.Fifo := by
  have hfill := @Stdin.run_fill ℕ _ emptyStdin 97 stdinBufsize (by decide) rfl (by decide) rfl
  refine ⟨(fullStdin.devStdinWrite 98).devStdinRead 1 1, ?_, rfl, rfl, rfl, ?_⟩
  · rw [runOps_append, hfill]
    rfl
  · intro hfifo
    have hhead : some (98 : UInt8) = some 97 := congrArg List.head? hfifo.order
    exact absurd hhead (by decide)

end Ucore.Devs
