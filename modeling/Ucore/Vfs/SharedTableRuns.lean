import Ucore.Vfs.SharedTable

/-!
The runs of a shared table of open files. Every entry goes through its life in order, whoever
blocks where: the processes that use it are those that have acquired it, and one process at most
opens it or is in its `vfs_close`.
-/
namespace Ucore.Vfs.SharedTable

open Library Table

variable {s t : Table} {p q i j n : ℕ} {r : Result} {log : List (ℕ × FdEvent)} {e : FdEvent}

/-- What a process does with an entry while it is in an operation. -/
inductive Role where
  | none
  | opens (i : ℕ)
  | uses (i : ℕ)
  | closes (i : ℕ)
  deriving DecidableEq

def Role.entry : Role → Option ℕ
  | .none => Option.none
  | .opens i => some i
  | .uses i => some i
  | .closes i => some i

def Place.role : Place → Role
  | .outside => .none
  | .vfsOpen i _ _ => .opens i
  | .openStat i _ _ => .opens i
  | .undoOpen i _ => .opens i
  | .transfer i => .uses i
  | .seekStat i _ => .uses i
  | .tryseek i _ => .uses i
  | .query i => .uses i
  | .closing i _ => .closes i

/-- The entry says what its history says. -/
def Fits (file : File) : Lease ℕ ℕ → Prop
  | .free => file.status = .none ∧ file.openCount = 0
  | .taken => file.status = .init ∧ file.openCount = 0
  | .opened n users =>
    file.status = .opened ∧ file.node = some n ∧ file.openCount = users.length + 1
  | .closed n users => file.status = .closed ∧ file.node = some n ∧ file.openCount = users.length
  | .giving n => file.status = .closed ∧ file.node = some n ∧ file.openCount = 0

/-- Who has to do with entry `i`. A closed entry without users is given back at once. -/
structure Holds (roles : ℕ → Role) (i : ℕ) (l : Lease ℕ ℕ) : Prop where
  users : ∀ p, p ∈ l.users ↔ roles p = .uses i
  opener : l = .taken ↔ ∃ p, roles p = .opens i
  closer : (∃ n, l = .giving n) ↔ ∃ p, roles p = .closes i
  alone : ∀ p q, roles p = .opens i ∨ roles p = .closes i → roles q = roles p → p = q
  rest : ∀ n, l ≠ .closed n []

variable {roles : ℕ → Role} {l l' : Lease ℕ ℕ} {role : Role}

theorem Holds.frame (h : Holds roles j l) (hold : (roles p).entry ≠ some j)
    (hnew : role.entry ≠ some j) : Holds (Function.update roles p role) j l := by
  have hsame : ∀ (role' : Role), role'.entry = some j → ∀ q,
      Function.update roles p role q = role' ↔ roles q = role' := by
    intro role' hentry q
    by_cases hq : q = p
    · rw [hq, Function.update_self]
      refine iff_of_false ?_ ?_
      · intro heq
        exact hnew (heq ▸ hentry)
      · intro heq
        exact hold (heq ▸ hentry)
    · rw [Function.update_of_ne hq]
  refine ⟨?_, ?_, ?_, ?_, h.rest⟩
  · intro q
    rw [hsame (.uses j) rfl]
    exact h.users q
  · simp only [hsame (.opens j) rfl]
    exact h.opener
  · simp only [hsame (.closes j) rfl]
    exact h.closer
  · intro a b ha hb
    rw [hsame (.opens j) rfl, hsame (.closes j) rfl] at ha
    have hentry : (Function.update roles p role a).entry = some j := by
      rcases ha with ha | ha
      · rw [(hsame (.opens j) rfl a).mpr ha]
        rfl
      · rw [(hsame (.closes j) rfl a).mpr ha]
        rfl
    have hself := (hsame _ hentry a).mp rfl
    rw [hsame _ hentry b] at hb
    exact h.alone a b ha (hb.trans hself.symm)

structure Good (s : Table) (roles : ℕ → Role) : Prop where
  count : 0 < s.filesCount
  entry : ∀ i, ∃ l, Lease.Reaches (history s.log i) l ∧ Fits (s.file i) l ∧ Holds roles i l

theorem history_append (log : List (ℕ × FdEvent)) (i j : ℕ) (es : List FdEvent) :
    history (log ++ es.map fun e => (i, e)) j = history log j ++ if i = j then es else [] := by
  unfold history
  rw [List.filterMap_append, List.filterMap_map]
  congr 1
  by_cases hij : i = j
  · rw [if_pos hij]
    simp only [Function.comp_def, hij, if_pos, List.filterMap_some]
  · rw [if_neg hij]
    simp only [Function.comp_def, hij, if_false, List.filterMap_none]

/-- The role has to do with entry `i` at most. -/
def Role.On (role : Role) (i : ℕ) : Prop := ∀ j, role.entry = some j → j = i

theorem Role.on_none (i : ℕ) : Role.none.On i :=
  fun _ h => absurd h (Option.some_ne_none _).symm

theorem Role.on_of (h : role.entry = some i) : role.On i :=
  fun _ hj => Option.some.inj (hj.symm.trans h)

/-- Process `p` does something with entry `i`, in one or two events. -/
theorem Good.move (h : Good s roles) (es : List FdEvent) {file : File}
    (hcount : t.filesCount = s.filesCount) (hlog : t.log = s.log ++ es.map fun e => (i, e))
    (hfile : t.file = Function.update s.file i file) (hold : (roles p).On i) (hnew : role.On i)
    (hreach : Lease.Reaches (history s.log i ++ es) l) (hfits : Fits file l)
    (hholds : Holds (Function.update roles p role) i l) :
    Good t (Function.update roles p role) := by
  refine ⟨hcount ▸ h.count, ?_⟩
  intro j
  rw [hlog, history_append, hfile]
  by_cases hij : i = j
  · obtain rfl := hij
    rw [if_pos rfl, Function.update_self]
    exact ⟨l, hreach, hfits, hholds⟩
  · obtain ⟨l', hreach', hfits', hholds'⟩ := h.entry j
    rw [if_neg hij, List.append_nil, Function.update_of_ne (Ne.symm hij)]
    refine ⟨l', hreach', hfits', hholds'.frame ?_ ?_⟩
    · exact fun heq => hij (hold j heq).symm
    · exact fun heq => hij (hnew j heq).symm

theorem Fits.opened {file : File} (h : Fits file l) (hs : file.status = .opened) :
    ∃ n us, l = .opened n us ∧ file.node = some n ∧ file.openCount = us.length + 1 := by
  cases l with
  | opened n us => exact ⟨n, us, rfl, h.2⟩
  | free | taken | closed | giving => exact absurd (hs.symm.trans h.1) FdStatus.noConfusion

theorem Fits.free {file : File} (h : Fits file l) (hs : file.status = .none) :
    l = .free ∧ file.openCount = 0 := by
  cases l with
  | free => exact ⟨rfl, h.2⟩
  | opened | taken | closed | giving => exact absurd (hs.symm.trans h.1) FdStatus.noConfusion

theorem Fits.congr {file file' : File} (h : Fits file l) (hs : file'.status = file.status)
    (hn : file'.node = file.node) (hc : file'.openCount = file.openCount) : Fits file' l := by
  unfold Fits at h ⊢
  rw [hs, hn, hc]
  exact h

/-- Nobody opens an entry that is not taken, and nobody closes one that is not given back. -/
theorem Holds.idle (h : Holds roles i l) (ht : l ≠ .taken) (hg : ∀ n, l ≠ .giving n) (q : ℕ) :
    roles q ≠ .opens i ∧ roles q ≠ .closes i := by
  refine ⟨fun hq => ht (h.opener.mpr ⟨q, hq⟩), fun hq => ?_⟩
  obtain ⟨n, hn⟩ := h.closer.mpr ⟨q, hq⟩
  exact hg n hn

/-- An entry that only users have to do with. -/
theorem Holds.of_users (ht : l ≠ .taken) (hg : ∀ n, l ≠ .giving n) (hrest : ∀ n, l ≠ .closed n [])
    (husers : ∀ q, q ∈ l.users ↔ roles q = .uses i)
    (hidle : ∀ q, roles q ≠ .opens i ∧ roles q ≠ .closes i) : Holds roles i l := by
  refine ⟨husers, iff_of_false ht ?_, iff_of_false (fun hn => hn.elim hg) ?_, ?_, hrest⟩
  · exact fun hq => hq.elim fun q hq => (hidle q).1 hq
  · exact fun hq => hq.elim fun q hq => (hidle q).2 hq
  · intro a b ha _
    exact absurd ha (not_or.mpr (hidle a))

/-- Who neither uses, opens nor closes an entry has nothing to do with it. -/
theorem Role.entry_ne (hu : role ≠ .uses i) (ho : role ≠ .opens i) (hc : role ≠ .closes i) :
    role.entry ≠ some i := by
  intro hentry
  cases role with
  | none => exact absurd hentry (Option.some_ne_none i).symm
  | opens j => exact ho (congrArg Role.opens (Option.some.inj hentry))
  | uses j => exact hu (congrArg Role.uses (Option.some.inj hentry))
  | closes j => exact hc (congrArg Role.closes (Option.some.inj hentry))

/-- An entry that one process alone has to do with. -/
theorem Holds.of_alone (hrest : ∀ n, l ≠ .closed n []) (husers : l.users = [])
    (ho : l = .taken ↔ role = .opens i) (hc : (∃ n, l = .giving n) ↔ role = .closes i)
    (hu : role ≠ .uses i) (hothers : ∀ q, q ≠ p → (roles q).entry ≠ some i) :
    Holds (Function.update roles p role) i l := by
  have hself : ∀ q, (Function.update roles p role q).entry = some i → q = p := by
    intro q hq
    by_contra hne
    rw [Function.update_of_ne hne] at hq
    exact hothers q hne hq
  have hopens : ∀ q, Function.update roles p role q = .opens i → q = p :=
    fun q hq => hself q (congrArg Role.entry hq)
  have hcloses : ∀ q, Function.update roles p role q = .closes i → q = p :=
    fun q hq => hself q (congrArg Role.entry hq)
  have hp : Function.update roles p role p = role := Function.update_self p role roles
  refine ⟨?_, ?_, ?_, ?_, hrest⟩
  · intro q
    rw [husers]
    refine iff_of_false List.not_mem_nil ?_
    intro hq
    obtain rfl := hself q (congrArg Role.entry hq)
    exact hu (hp.symm.trans hq)
  · rw [ho]
    exact ⟨fun h => ⟨p, hp.trans h⟩, fun h => h.elim fun q hq => hp.symm.trans (hopens q hq ▸ hq)⟩
  · rw [hc]
    exact ⟨fun h => ⟨p, hp.trans h⟩, fun h => h.elim fun q hq => hp.symm.trans (hcloses q hq ▸ hq)⟩
  · intro a b ha hb
    have hap : a = p := ha.elim (hopens a) (hcloses a)
    have hbp : b = p := by
      rw [← hb] at ha
      exact ha.elim (hopens b) (hcloses b)
    rw [hap, hbp]

theorem Holds.nobody (h : Holds roles i l) (husers : l.users = []) (ht : l ≠ .taken)
    (hg : ∀ n, l ≠ .giving n) (q : ℕ) : (roles q).entry ≠ some i := by
  have hidle := h.idle ht hg q
  refine Role.entry_ne ?_ hidle.1 hidle.2
  intro hq
  have hin := (h.users q).mpr hq
  rw [husers] at hin
  exact List.not_mem_nil hin

/-- The process that opens or closes an entry is alone with it. -/
theorem Holds.others (h : Holds roles i l) (hp : roles p = .opens i ∨ roles p = .closes i)
    (hq : q ≠ p) : (roles q).entry ≠ some i := by
  have hsame : roles q ≠ roles p := fun heq => hq (h.alone p q hp heq).symm
  have hl : l = .taken ∨ ∃ n, l = .giving n := hp.imp (fun hp => h.opener.mpr ⟨p, hp⟩)
    (fun hp => h.closer.mpr ⟨p, hp⟩)
  refine Role.entry_ne ?_ ?_ ?_
  · intro hqu
    have hin := (h.users q).mpr hqu
    rcases hl with rfl | ⟨n, rfl⟩
    · exact List.not_mem_nil hin
    · exact List.not_mem_nil hin
  · intro hqo
    rcases hp with hpo | hpc
    · exact hsame (hqo.trans hpo.symm)
    · obtain ⟨n, hn⟩ := h.closer.mpr ⟨p, hpc⟩
      exact absurd ((h.opener.mpr ⟨q, hqo⟩).symm.trans hn) nofun
  · intro hqc
    rcases hp with hpo | hpc
    · obtain ⟨n, hn⟩ := h.closer.mpr ⟨q, hqc⟩
      exact absurd ((h.opener.mpr ⟨p, hpo⟩).symm.trans hn) nofun
    · exact hsame (hqc.trans hpc.symm)

def Table.roleOf (s : Table) (p : ℕ) : Role := (s.place p).role

/-- The table in the middle of a call of `p`, which does `role` with it now. -/
def Busy (s : Table) (p : ℕ) (role : Role) : Prop := Good s (Function.update s.roleOf p role)

def Inv (s : Table) : Prop := Good s s.roleOf

theorem Inv.busy (h : Inv s) (p : ℕ) : Busy s p (s.place p).role := by
  unfold Busy
  rw [show (s.place p).role = s.roleOf p from rfl, Function.update_eq_self]
  exact h

theorem roles_enter (s : Table) (p : ℕ) (place : Place) :
    (s.enter p place).roleOf = Function.update s.roleOf p place.role := by
  funext q
  by_cases hq : q = p
  · rw [hq, Function.update_self, Table.roleOf, enter_place, Function.update_self]
  · rw [Function.update_of_ne hq, Table.roleOf, enter_place, Function.update_of_ne hq]
    rfl

theorem Busy.enter {place : Place} (h : Busy s p place.role) : Inv (s.enter p place) := by
  unfold Inv
  rw [roles_enter]
  exact ⟨h.count, h.entry⟩

theorem Busy.finish (h : Busy s p .none) : Inv (s.finish p r) := by
  have henter : Inv (s.enter p .outside) := Busy.enter h
  exact ⟨henter.count, henter.entry⟩

/-- `Good.move` for the process that is busy. -/
theorem Busy.move {role' : Role} (h : Busy s p role) (es : List FdEvent) {file : File}
    (hcount : t.filesCount = s.filesCount) (hplace : t.place = s.place)
    (hlog : t.log = s.log ++ es.map fun e => (i, e))
    (hfile : t.file = Function.update s.file i file) (hold : role.On i) (hnew : role'.On i)
    (hreach : Lease.Reaches (history s.log i ++ es) l) (hfits : Fits file l)
    (hholds : Holds (Function.update s.roleOf p role') i l) : Busy t p role' := by
  have hroles : t.roleOf = s.roleOf := by
    unfold Table.roleOf
    rw [hplace]
  have hidem : Function.update (Function.update s.roleOf p role) p role' =
      Function.update s.roleOf p role' := Function.update_idem role role' s.roleOf
  unfold Busy
  rw [hroles, ← hidem]
  refine Good.move h es hcount hlog hfile ?_ hnew hreach hfits (hidem.symm ▸ hholds)
  rw [Function.update_self]
  exact hold

/-- The busy process is alone with the entry that it opens or closes, and with one that nobody has
to do with. -/
theorem Holds.apart (h : Holds (Function.update roles p role) i l)
    (hp : role = .opens i ∨ role = .closes i ∨ l.users = [] ∧ l ≠ .taken ∧ ∀ n, l ≠ .giving n)
    (hq : q ≠ p) : (roles q).entry ≠ some i := by
  have hself : Function.update roles p role p = role := Function.update_self p role roles
  have hentry : (Function.update roles p role q).entry ≠ some i := by
    rcases hp with hp | hp | hp
    · exact h.others (.inl (hself.trans hp)) hq
    · exact h.others (.inr (hself.trans hp)) hq
    · exact h.nobody hp.1 hp.2.1 hp.2.2 q
  rw [Function.update_of_ne hq] at hentry
  exact hentry

/-! The entries, from the first look at the entry to the last change. -/

theorem Busy.initEntry (h : Busy s p .none) (hs : (s.file i).status = .none) :
    ∃ t, s.initEntry i = some t ∧ Busy t p (.opens i) ∧
      t.file = Function.update s.file i { s.file i with status := .init, node := none } := by
  obtain ⟨l, hreach, hfits, hholds⟩ := h.entry i
  obtain ⟨rfl, hcount⟩ := hfits.free hs
  refine ⟨_, if_pos hcount, ?_, rfl⟩
  refine h.move [.take] rfl rfl rfl rfl (Role.on_none i) (Role.on_of rfl) (hreach.snoc .take)
    ⟨rfl, hcount⟩ ?_
  exact Holds.of_alone nofun rfl (iff_of_true rfl rfl) (iff_of_false nofun nofun) nofun
    fun q hq => hholds.apart (.inr (.inr ⟨rfl, nofun, nofun⟩)) hq

/-- The entry of a process that opens it. -/
theorem Busy.taken (h : Busy s p (.opens i)) :
    Lease.Reaches (history s.log i) .taken ∧ Fits (s.file i) .taken ∧
      ∀ q, q ≠ p → (s.roleOf q).entry ≠ some i := by
  obtain ⟨l, hreach, hfits, hholds⟩ := h.entry i
  have hothers := fun q hq => hholds.apart (q := q) (.inl rfl) hq
  have hp : Function.update s.roleOf p (.opens i) p = .opens i := Function.update_self _ _ _
  obtain rfl := hholds.opener.mpr ⟨p, hp⟩
  exact ⟨hreach, hfits, hothers⟩

/-- The entry of a process that is in its `vfs_close`. -/
theorem Busy.giving (h : Busy s p (.closes i)) :
    ∃ n, Lease.Reaches (history s.log i) (.giving n) ∧ Fits (s.file i) (.giving n) ∧
      ∀ q, q ≠ p → (s.roleOf q).entry ≠ some i := by
  obtain ⟨l, hreach, hfits, hholds⟩ := h.entry i
  have hothers := fun q hq => hholds.apart (q := q) (.inr (.inl rfl)) hq
  have hp : Function.update s.roleOf p (.closes i) p = .closes i := Function.update_self _ _ _
  obtain ⟨n, rfl⟩ := hholds.closer.mpr ⟨p, hp⟩
  exact ⟨n, hreach, hfits, hothers⟩

/-- `fd_array_open` behind what `file_open` and `file_dup` store in the entry. -/
theorem Busy.fdArrayOpen (h : Busy s p (.opens i)) {f : File → File}
    (hstatus : (f (s.file i)).status = (s.file i).status)
    (hcount : (f (s.file i)).openCount = (s.file i).openCount)
    (hnode : (f (s.file i)).node = some n) :
    ∃ t, (s.setFile i f).fdArrayOpen i = some t ∧ Busy t p .none := by
  obtain ⟨hreach, hfits, hothers⟩ := h.taken
  unfold Table.fdArrayOpen
  rw [setFile_file, Function.update_self, hstatus, if_pos hfits.1, hnode, Option.map_some]
  refine ⟨_, rfl, ?_⟩
  refine h.move [.open n] rfl rfl rfl (Function.update_idem _ _ _) (Role.on_of rfl)
    (Role.on_none i) (hreach.snoc (.open n)) ⟨rfl, ?_, ?_⟩ ?_
  · rw [setFile_file, Function.update_self]
    exact hnode
  · rw [setFile_file, Function.update_self]
    exact congrArg (· + 1) (hcount.trans hfits.2)
  · exact Holds.of_alone nofun rfl (iff_of_false nofun nofun) (iff_of_false nofun nofun) nofun
      hothers

/-- `fd_array_free` behind a failure. -/
theorem Busy.drop (h : Busy s p (.opens i)) :
    ∃ t, s.fdArrayFree i = some (t, false) ∧ Busy t p .none := by
  obtain ⟨hreach, hfits, hothers⟩ := h.taken
  have hne : (s.file i).status ≠ .closed := by
    rw [hfits.1]
    exact nofun
  refine ⟨(s.setFile i fun f => { f with status := .none }).emit i .drop, ?_, ?_⟩
  · unfold Table.fdArrayFree
    rw [if_pos ⟨.inl hfits.1, hfits.2⟩, if_neg hne]
  · refine h.move [.drop] rfl rfl rfl rfl (Role.on_of rfl) (Role.on_none i) (hreach.snoc .drop)
      ⟨rfl, hfits.2⟩ ?_
    exact Holds.of_alone nofun rfl (iff_of_false nofun nofun) (iff_of_false nofun nofun) nofun
      hothers

theorem Busy.fdArrayFreed (h : Busy s p (.closes i)) : Busy (s.fdArrayFreed i) p .none := by
  obtain ⟨n, hreach, hfits, hothers⟩ := h.giving
  refine h.move [.given] rfl rfl rfl rfl (Role.on_of rfl) (Role.on_none i)
    (hreach.snoc (.given n)) ⟨rfl, hfits.2.2⟩ ?_
  exact Holds.of_alone nofun rfl (iff_of_false nofun nofun) (iff_of_false nofun nofun) nofun hothers

theorem Busy.fdArrayAcquire (h : Busy s p .none) (hs : (s.file i).status = .opened) :
    ∃ t, s.fdArrayAcquire p i = some t ∧ Busy t p (.uses i) := by
  obtain ⟨l, hreach, hfits, hholds⟩ := h.entry i
  obtain ⟨n, us, rfl, hnode, hcount⟩ := hfits.opened hs
  have hidle := hholds.idle nofun nofun
  have hp : p ∉ us := by
    intro hin
    have hrole := (hholds.users p).mp hin
    rw [Function.update_self] at hrole
    exact Role.noConfusion hrole
  refine ⟨_, if_pos hs, ?_⟩
  refine h.move [.acquire p] rfl rfl rfl rfl (Role.on_none i) (Role.on_of rfl)
    (hreach.snoc (.acquire hp)) ⟨hs, hnode, ?_⟩ ?_
  · change (s.file i).openCount + 1 = ((p :: us).length : ℤ) + 1
    rw [hcount, List.length_cons, Nat.cast_succ]
  · refine Holds.of_users nofun nofun nofun ?_ ?_
    · intro q
      by_cases hq : q = p
      · rw [hq, Function.update_self]
        exact iff_of_true List.mem_cons_self rfl
      · have hold := hholds.users q
        rw [Function.update_of_ne hq] at hold ⊢
        exact (List.mem_cons.trans (or_iff_right hq)).trans hold
    · intro q
      have hold := hidle q
      by_cases hq : q = p
      · rw [hq, Function.update_self]
        exact ⟨nofun, nofun⟩
      · rw [Function.update_of_ne hq] at hold ⊢
        exact hold

/-- A process that is none of the users of an entry any more. -/
theorem Holds.leave {us : List ℕ} (h : Holds (Function.update roles p (.uses i)) i l)
    (hus : us.Nodup) (hl : l.users = us) (ht : l ≠ .taken) (hg : ∀ n, l ≠ .giving n) :
    (∀ q, q ∈ us.erase p ↔ Function.update roles p .none q = .uses i) ∧
      ∀ q, Function.update roles p .none q ≠ .opens i ∧
        Function.update roles p .none q ≠ .closes i := by
  have hidle := h.idle ht hg
  refine ⟨?_, ?_⟩
  · intro q
    have hold := h.users q
    rw [hl] at hold
    rw [hus.mem_erase_iff]
    by_cases hq : q = p
    · rw [hq, Function.update_self]
      exact iff_of_false (fun hne => hne.1 rfl) nofun
    · rw [Function.update_of_ne hq] at hold ⊢
      exact (and_iff_right hq).trans hold
  · intro q
    have hold := hidle q
    by_cases hq : q = p
    · rw [hq, Function.update_self]
      exact ⟨nofun, nofun⟩
    · rw [Function.update_of_ne hq] at hold ⊢
      exact hold

/-- What `fd_array_release` and `fd_array_close` do with an entry that is closed now: the last
process goes into its `vfs_close`. -/
theorem Busy.last (h : Busy s p role) {file : File} {us : List ℕ}
    (hcount : t.filesCount = s.filesCount) (hplace : t.place = s.place)
    (hlog : t.log = s.log ++ [(i, e)]) (hfile : t.file = Function.update s.file i file)
    (hold : role.On i) (hreach : Lease.Reaches (history s.log i ++ [e]) (.closed n us))
    (hfits : Fits file (.closed n us))
    (husers : ∀ q, q ∈ us ↔ Function.update s.roleOf p .none q = .uses i)
    (hidle : ∀ q, Function.update s.roleOf p .none q ≠ .opens i ∧
      Function.update s.roleOf p .none q ≠ .closes i) :
    ∃ t' b, (if (t.file i).openCount = 0 then t.fdArrayFree i else some (t, false)) = some (t', b) ∧
      Busy t' p (if b then .closes i else .none) := by
  have hi : t.file i = file := by
    rw [hfile, Function.update_self]
  rw [hi, hfits.2.2]
  cases us with
  | nil =>
    rw [List.length_nil, Nat.cast_zero, if_pos rfl]
    refine ⟨t.emit i (.give n), true, ?_, ?_⟩
    · unfold Table.fdArrayFree
      rw [hi, if_pos ⟨.inr hfits.1, hfits.2.2⟩, if_pos hfits.1, hfits.2.1]
      rfl
    · have hgiving : Fits file (.giving n) := hfits
      refine h.move [e, .give n] hcount hplace ?_ hfile hold (Role.on_of rfl) ?_ hgiving ?_
      · rw [emit_log, hlog, List.append_assoc]
        rfl
      · have hgive := hreach.snoc (.give n)
        rw [List.append_assoc] at hgive
        exact hgive
      · refine Holds.of_alone nofun rfl (iff_of_false nofun nofun)
          (iff_of_true ⟨n, rfl⟩ rfl) nofun ?_
        intro q hq
        have hu := mt (husers q).mpr List.not_mem_nil
        have hq' := hidle q
        rw [Function.update_of_ne hq] at hu hq'
        exact Role.entry_ne hu hq'.1 hq'.2
  | cons u us =>
    have hne : ((u :: us).length : ℤ) ≠ 0 := by
      rw [List.length_cons]
      omega
    rw [if_neg hne]
    refine ⟨t, false, rfl, ?_⟩
    exact h.move [e] hcount hplace hlog hfile hold (Role.on_none i) hreach hfits
      (Holds.of_users nofun nofun nofun husers hidle)

theorem Busy.fdArrayRelease (h : Busy s p (.uses i)) :
    ∃ t b, s.fdArrayRelease p i = some (t, b) ∧ Busy t p (if b then .closes i else .none) := by
  obtain ⟨l, hreach, hfits, hholds⟩ := h.entry i
  have hp : p ∈ l.users := (hholds.users p).mpr (Function.update_self p (.uses i) s.roleOf)
  have honce := hreach.balanced.once
  unfold Table.fdArrayRelease
  cases l with
  | free | taken | giving => exact absurd hp List.not_mem_nil
  | opened n us =>
    have hpos : 0 < us.length := List.length_pos_of_mem hp
    have hlength : (us.erase p).length = us.length - 1 := List.length_erase_of_mem hp
    obtain ⟨hstatus, hnode, hcount⟩ := hfits
    obtain ⟨husers, hidle⟩ := hholds.leave honce rfl nofun nofun
    rw [if_pos ⟨.inl hstatus, by omega⟩]
    refine ⟨_, false, if_neg ?_, ?_⟩
    · rw [emit_file, setFile_file, Function.update_self]
      change (s.file i).openCount - 1 ≠ 0
      omega
    · refine h.move [.release p] rfl rfl rfl rfl (Role.on_of rfl) (Role.on_none i)
        (hreach.snoc (.release hp)) ⟨hstatus, hnode, ?_⟩
        (Holds.of_users nofun nofun nofun husers hidle)
      change (s.file i).openCount - 1 = _
      omega
  | closed n us =>
    have hpos : 0 < us.length := List.length_pos_of_mem hp
    have hlength : (us.erase p).length = us.length - 1 := List.length_erase_of_mem hp
    obtain ⟨hstatus, hnode, hcount⟩ := hfits
    obtain ⟨husers, hidle⟩ := hholds.leave honce rfl nofun nofun
    rw [if_pos ⟨.inr hstatus, by omega⟩]
    refine h.last rfl rfl rfl rfl (Role.on_of rfl) (hreach.snoc (.releaseClosed hp))
      ⟨hstatus, hnode, ?_⟩ husers hidle
    change (s.file i).openCount - 1 = _
    omega

theorem Busy.fdArrayClose (h : Busy s p .none) (hs : (s.file i).status = .opened) :
    ∃ t b, s.fdArrayClose i = some (t, b) ∧ Busy t p (if b then .closes i else .none) := by
  obtain ⟨l, hreach, hfits, hholds⟩ := h.entry i
  obtain ⟨n, us, rfl, hnode, hcount⟩ := hfits.opened hs
  unfold Table.fdArrayClose
  rw [if_pos ⟨hs, by omega⟩]
  refine h.last rfl rfl rfl rfl (Role.on_none i) (hreach.snoc (.close n us)) ⟨rfl, hnode, ?_⟩
    hholds.users (hholds.idle nofun nofun)
  change (s.file i).openCount - 1 = _
  omega

/-- What the calls store in an entry beside its state. -/
theorem Busy.store (h : Busy s p role) {f : File → File}
    (hf : ∀ file, (f file).status = file.status ∧ (f file).node = file.node ∧
      (f file).openCount = file.openCount) : Busy (s.setFile i f) p role := by
  refine ⟨h.count, ?_⟩
  intro j
  obtain ⟨l, hreach, hfits, hholds⟩ := h.entry j
  refine ⟨l, hreach, ?_, hholds⟩
  by_cases hj : j = i
  · obtain rfl := hj
    obtain ⟨hstatus, hnode, hcount⟩ := hf (s.file j)
    rw [setFile_file, Function.update_self]
    exact hfits.congr hstatus hnode hcount
  · rw [setFile_file, Function.update_of_ne hj]
    exact hfits

/-! The calls. -/

/-- No assertion fails, and the table is in order behind it. -/
def Works (x : Option Table) : Prop := ∃ t, x = some t ∧ Inv t

theorem Busy.finishes (h : Busy s p .none) : Works (some (s.finish p r)) := ⟨_, rfl, h.finish⟩

theorem Busy.enters {place : Place} (h : Busy s p place.role) : Works (some (s.enter p place)) :=
  ⟨_, rfl, h.enter⟩

theorem works_leave {x : Option (Table × Bool)}
    (h : ∃ t b, x = some (t, b) ∧ Busy t p (if b then .closes i else .none)) :
    Works (leave p i r x) := by
  obtain ⟨t, b, rfl, hbusy⟩ := h
  cases b with
  | true => exact ⟨_, rfl, hbusy.enter⟩
  | false => exact ⟨_, rfl, hbusy.finish⟩

theorem Busy.release (h : Busy s p (.uses i)) : Works (s.release p i r) :=
  works_leave h.fdArrayRelease

theorem fd2file_opened {fd : ℤ} (h : s.fd2file fd = some i) : (s.file i).status = .opened := by
  obtain ⟨⟨-, hopened, -⟩, hi⟩ := Option.ite_none_right_eq_some.mp h
  exact Option.some.inj hi ▸ hopened

theorem chooseEntry_free {fd : ℤ} (h : s.chooseEntry fd = .ok i) : (s.file i).status = .none := by
  unfold Table.chooseEntry at h
  split at h
  · cases hfree : s.freeEntry with
    | none =>
      rw [hfree] at h
      exact absurd h nofun
    | some j =>
      rw [hfree] at h
      obtain rfl := Except.ok.inj h
      have hdecide := List.find?_some hfree
      exact of_decide_eq_true hdecide
  · split at h
    · split at h
      · exact Except.ok.inj h ▸ ‹_›
      · exact absurd h nofun
    · exact absurd h nofun

theorem Busy.onFile (h : Busy s p .none) {fd : ℤ} {f : ℕ → Option Table}
    (hf : ∀ i, (s.file i).status = .opened → Works (f i)) : Works (s.onFile p fd f) := by
  unfold Table.onFile Table.getFdArray
  split
  · rw [if_pos h.count, Option.bind_some]
    cases hfile : s.fd2file fd with
    | none => exact h.finishes
    | some i => exact hf i (fd2file_opened hfile)
  · exact h.finishes

theorem Busy.withEntry (h : Busy s p .none) {fd : ℤ} {f : Table → ℕ → Option Table}
    (hf : ∀ t i, Busy t p (.opens i) → (s.file i).status = .none →
      t.file = Function.update s.file i { s.file i with status := .init, node := none } →
      Works (f t i)) : Works (s.withEntry p fd f) := by
  unfold Table.withEntry Table.getFdArray
  rw [if_pos h.count, Option.bind_some]
  cases hchoose : s.chooseEntry fd with
  | error e => exact h.finishes
  | ok i =>
    have hfree := chooseEntry_free hchoose
    obtain ⟨t, ht, hbusy, hfile⟩ := h.initEntry hfree
    change Works ((s.initEntry i).bind fun s => f s i)
    rw [ht, Option.bind_some]
    exact hf t i hbusy hfree hfile

theorem Busy.fileOpen (h : Busy s p .none) (flags : ℕ) : Works (s.fileOpen p flags) := by
  unfold Table.fileOpen
  cases accessMode flags with
  | none => exact h.finishes
  | some mode => exact h.withEntry fun t i ht _ _ => Busy.enters ht

theorem Busy.openEnd (h : Busy s p (.opens i)) (node pos : ℕ) (mode : Bool × Bool) :
    Works (s.openEnd p i node pos mode) := by
  have hopen := h.fdArrayOpen (n := node) (f := fun f => { f with
    pos := pos, node := some node, readable := mode.1, writable := mode.2 }) rfl rfl rfl
  obtain ⟨t, ht, hbusy⟩ := hopen
  unfold Table.openEnd
  rw [ht, Option.map_some]
  exact hbusy.finishes

theorem Busy.fileClose (h : Busy s p .none) (fd : ℤ) : Works (s.fileClose p fd) :=
  h.onFile fun _ hi => works_leave (h.fdArrayClose hi)

theorem Busy.fileTransfer (h : Busy s p .none) (fd : ℤ) (may : File → Bool) :
    Works (s.fileTransfer p fd may) := by
  refine h.onFile fun i hi => ?_
  split
  · obtain ⟨t, ht, hbusy⟩ := h.fdArrayAcquire hi
    rw [ht, Option.map_some]
    exact Busy.enters hbusy
  · exact h.finishes

theorem Busy.fileSeek (h : Busy s p .none) (fd pos whence : ℤ) :
    Works (s.fileSeek p fd pos whence) := by
  refine h.onFile fun i hi => ?_
  obtain ⟨t, ht, hbusy⟩ := h.fdArrayAcquire hi
  rw [ht, Option.bind_some]
  split
  · exact Busy.enters hbusy
  split
  · exact Busy.enters hbusy
  split
  · exact Busy.enters hbusy
  · exact hbusy.release

theorem Busy.fileQuery (h : Busy s p .none) (fd : ℤ) : Works (s.fileQuery p fd) := by
  refine h.onFile fun i hi => ?_
  obtain ⟨t, ht, hbusy⟩ := h.fdArrayAcquire hi
  rw [ht, Option.map_some]
  exact Busy.enters hbusy

theorem Busy.fileDup (h : Busy s p .none) (fd1 fd2 : ℤ) : Works (s.fileDup p fd1 fd2) := by
  refine h.onFile fun j hj => h.withEntry fun t i ht hi hfile => ?_
  have hne : j ≠ i := by
    rintro rfl
    exact FdStatus.noConfusion (hi.symm.trans hj)
  have hjt : t.file j = s.file j := by
    rw [hfile, Function.update_of_ne hne]
  have hit : (t.file i).status = .init := by
    rw [hfile, Function.update_self]
  obtain ⟨l, -, hfits, -⟩ := h.entry j
  obtain ⟨n, us, -, hnode, -⟩ := hfits.opened hj
  have hopen := ht.fdArrayOpen (n := n) (f := fun f => { f with
    pos := (t.file j).pos
    readable := (t.file j).readable
    writable := (t.file j).writable
    node := (t.file j).node }) rfl rfl (hjt ▸ hnode)
  obtain ⟨t', ht', hbusy⟩ := hopen
  unfold Table.fdArrayDup
  rw [if_pos ⟨hit, hjt ▸ hj⟩, ht', Option.map_some]
  exact hbusy.finishes

/-- The loop of `files_closeall`; it starts again behind each `vfs_close`. -/
theorem Busy.closeallLoop (h : Busy s p .none) (rest : List ℕ) :
    Works (closeallLoop p rest s) := by
  induction rest generalizing s with
  | nil => exact h.finishes
  | cons i rest ih =>
    unfold Table.closeallLoop
    split
    · obtain ⟨t, b, ht, hbusy⟩ := h.fdArrayClose ‹_›
      rw [ht, Option.bind_some]
      cases b with
      | true => exact Busy.enters hbusy
      | false => exact ih hbusy
    · exact ih h

theorem Busy.perform (h : Busy s p .none) (c : FdCall) : Works (s.perform p c) := by
  cases c with
  | «open» flags => exact h.fileOpen flags
  | close fd => exact h.fileClose fd
  | read fd => exact h.fileTransfer fd File.readable
  | write fd => exact h.fileTransfer fd File.writable
  | seek fd pos whence => exact h.fileSeek fd pos whence
  | query fd => exact h.fileQuery fd
  | dup fd1 fd2 => exact h.fileDup fd1 fd2
  | closeall =>
    unfold Table.perform Table.filesCloseall
    rw [if_pos h.count]
    exact h.closeallLoop _

/-- Behind the answer the call goes on; an operation that went wrong leaves the entry as it is. -/
theorem Inv.resume (h : Inv s) (p : ℕ) (a : Answer) : Works (s.resume p a) := by
  have hbusy := h.busy p
  unfold Table.resume
  cases hplace : s.place p with
  | outside => exact ⟨s, rfl, h⟩
  | vfsOpen i flags mode =>
    rw [hplace] at hbusy
    dsimp only
    split
    · obtain ⟨t, ht, hdrop⟩ := Busy.drop hbusy
      exact works_leave ⟨t, false, ht, hdrop⟩
    split
    · exact Busy.enters hbusy
    · exact Busy.openEnd hbusy _ _ _
  | openStat i node mode =>
    rw [hplace] at hbusy
    dsimp only
    split
    · exact Busy.enters hbusy
    · exact Busy.openEnd hbusy _ _ _
  | undoOpen i ret =>
    rw [hplace] at hbusy
    obtain ⟨t, ht, hdrop⟩ := Busy.drop hbusy
    exact works_leave ⟨t, false, ht, hdrop⟩
  | transfer i =>
    rw [hplace] at hbusy
    dsimp only
    split
    · exact Busy.release (Busy.store hbusy fun _ => ⟨rfl, rfl, rfl⟩)
    · exact Busy.release hbusy
  | seekStat i pos =>
    rw [hplace] at hbusy
    dsimp only
    split
    · exact Busy.enters hbusy
    · exact Busy.release hbusy
  | tryseek i pos =>
    rw [hplace] at hbusy
    dsimp only
    split
    · exact Busy.release (Busy.store hbusy fun _ => ⟨rfl, rfl, rfl⟩)
    · exact Busy.release hbusy
  | query i =>
    rw [hplace] at hbusy
    exact Busy.release hbusy
  | closing i after =>
    rw [hplace] at hbusy
    have hfreed := Busy.fdArrayFreed hbusy
    cases after with
    | finish r => exact hfreed.finishes
    | closeall rest => exact hfreed.closeallLoop rest

theorem Inv.step (h : Inv s) (op : FdOp) : Works (s.step op) := by
  cases op with
  | resume p a => exact h.resume p a
  | call p c =>
    have hbusy := h.busy p
    unfold Table.step
    dsimp only
    split
    · rw [‹s.place p = .outside›] at hbusy
      exact Busy.perform hbusy c
    · exact ⟨s, rfl, h⟩

theorem inv_start (n : ℕ) : Inv (start n) := by
  refine ⟨?_, ?_⟩
  · change (0 : ℤ) < n + 1
    omega
  · intro i
    refine ⟨.free, rfl, ⟨rfl, rfl⟩, ⟨?_, ?_, ?_, ?_, nofun⟩⟩
    · exact fun q => iff_of_false List.not_mem_nil nofun
    · exact iff_of_false nofun fun h => h.elim fun q hq => Role.noConfusion hq
    · exact iff_of_false nofun fun h => h.elim fun q hq => Role.noConfusion hq
    · intro a b ha
      exact ha.elim nofun nofun

theorem run_inv (n : ℕ) (ops : List FdOp) : ∃ s, runOps step (start n) ops = some s ∧ Inv s := by
  have hmeets : RunMeets step (fun _ _ => True) (start n) ops :=
    RunMeets.of_forall fun _ _ _ => trivial
  exact runOps_total (fun s op h _ => h.step op) (inv_start n) hmeets

/-- What the processes may rely on at entry `i`. Its count is that of the processes in the middle of
a call, and one more while it is open; its inode is given back once for each time that the entry
was opened and closed, by one process, behind the last user, and no closed entry is forgotten. -/
structure InOrder (s : Table) (i : ℕ) : Prop where
  orderly : Lease.Orderly (history s.log i)
  counted : ∃ users : List ℕ, users.Nodup ∧ (∀ p, p ∈ users ↔ s.roleOf p = .uses i) ∧
    (s.file i).openCount = users.length + if (s.file i).status = .opened then 1 else 0
  balanced : ∀ p, (history s.log i).count (.acquire p) =
    (history s.log i).count (.release p) + if s.roleOf p = .uses i then 1 else 0
  unused : ∀ p q, s.roleOf p = .closes i → s.roleOf q ≠ .uses i
  once : ∀ p q, s.roleOf p = .closes i → s.roleOf q = .closes i → p = q
  pending : (s.file i).status = .closed → ∃ p, s.roleOf p = .uses i ∨ s.roleOf p = .closes i

theorem Fits.count {file : File} (h : Fits file l) :
    file.openCount = l.users.length + if file.status = .opened then 1 else 0 := by
  cases l with
  | opened n us => rw [h.1, if_pos rfl, h.2.2]; rfl
  | free | taken =>
    rw [h.1, if_neg nofun, h.2]
    rfl
  | closed n us | giving n =>
    rw [h.1, if_neg nofun, h.2.2]
    rfl

theorem Inv.inOrder (h : Inv s) (i : ℕ) : InOrder s i := by
  obtain ⟨l, hreach, hfits, hholds⟩ := h.entry i
  have hbalanced := hreach.balanced
  have hothers : ∀ p q, s.roleOf p = .closes i → q ≠ p → (s.roleOf q).entry ≠ some i :=
    fun p q hp hq => hholds.others (.inr hp) hq
  refine ⟨hreach.orderly, ⟨l.users, hbalanced.once, hholds.users, hfits.count⟩, ?_, ?_, ?_, ?_⟩
  · intro p
    rw [hbalanced.users p, hbalanced.once.count]
    exact congrArg _ (if_congr (hholds.users p) rfl rfl)
  · intro p q hp hq
    by_cases heq : q = p
    · rw [heq, hp] at hq
      exact Role.noConfusion hq
    · exact hothers p q hp heq (congrArg Role.entry hq)
  · intro p q hp hq
    by_contra hne
    exact hothers p q hp (Ne.symm hne) (congrArg Role.entry hq)
  · intro hs
    cases l with
    | free | taken | opened => exact absurd (hs.symm.trans hfits.1) nofun
    | closed n us =>
      obtain ⟨p, hp⟩ := List.exists_mem_of_ne_nil us fun hus => hholds.rest n (hus ▸ rfl)
      exact ⟨p, .inl ((hholds.users p).mp hp)⟩
    | giving n =>
      obtain ⟨p, hp⟩ := hholds.closer.mp ⟨n, rfl⟩
      exact ⟨p, .inr hp⟩

/-- No order of the calls and of the ends of their operations makes an assertion fail, and every
entry stays in order. -/
theorem shared_table (n : ℕ) (ops : List FdOp) :
    ∃ s, runOps step (start n) ops = some s ∧ ∀ i, InOrder s i := by
  obtain ⟨s, hrun, hs⟩ := run_inv n ops
  exact ⟨s, hrun, hs.inOrder⟩

end Ucore.Vfs.SharedTable
