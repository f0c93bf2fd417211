import Mathlib.Data.List.Count
import Mathlib.Data.List.Induction
import Ucore.Library.Run

/-!
Slots that are let to users. A free slot is taken, then it is opened with a resource or dropped
again. Users come and go while it is open. Once it was closed nobody comes any more, and behind the
last user the resource is given back; only then is the slot free. `next` says which event may
follow, and the counts of the events in a history say what that means.
-/
namespace Ucore.Library

inductive Lease (U N : Type*) where
  | free
  | taken
  | opened (n : N) (users : List U)
  | closed (n : N) (users : List U)
  | giving (n : N)

namespace Lease

inductive Event (U N : Type*) where
  | take
  | drop
  | open (n : N)
  | acquire (u : U)
  | release (u : U)
  | close
  | give (n : N)
  | given
  deriving DecidableEq

variable {U N : Type*} [DecidableEq U] [DecidableEq N]

def next : Lease U N → Event U N → Option (Lease U N)
  | .free, .take => some .taken
  | .taken, .drop => some .free
  | .taken, .open n => some (.opened n [])
  | .opened n users, .acquire u => if u ∈ users then none else some (.opened n (u :: users))
  | .opened n users, .release u =>
    if u ∈ users then some (.opened n (users.erase u)) else none
  | .opened n users, .close => some (.closed n users)
  | .closed n users, .release u =>
    if u ∈ users then some (.closed n (users.erase u)) else none
  | .closed n [], .give m => if m = n then some (.giving n) else none
  | .giving _, .given => some .free
  | _, _ => none

/-- Whoever is in the middle of using the resource. -/
def users : Lease U N → List U
  | .opened _ users => users
  | .closed _ users => users
  | _ => []

omit [DecidableEq U] [DecidableEq N] in
def Event.isOpen : Event U N → Bool
  | .open _ => true
  | _ => false

omit [DecidableEq U] [DecidableEq N] in
def Event.isGive : Event U N → Bool
  | .give _ => true
  | _ => false

/-- The cases of `next`. -/
inductive Step : Lease U N → Event U N → Lease U N → Prop
  | take : Step .free .take .taken
  | drop : Step .taken .drop .free
  | open (n : N) : Step .taken (.open n) (.opened n [])
  | acquire {n : N} {us : List U} {u : U} (hu : u ∉ us) :
      Step (.opened n us) (.acquire u) (.opened n (u :: us))
  | release {n : N} {us : List U} {u : U} (hu : u ∈ us) :
      Step (.opened n us) (.release u) (.opened n (us.erase u))
  | close (n : N) (us : List U) : Step (.opened n us) .close (.closed n us)
  | releaseClosed {n : N} {us : List U} {u : U} (hu : u ∈ us) :
      Step (.closed n us) (.release u) (.closed n (us.erase u))
  | give (n : N) : Step (.closed n []) (.give n) (.giving n)
  | given (n : N) : Step (.giving n) .given .free

variable {l l' : Lease U N} {e : Event U N} {es : List (Event U N)}

theorem next_iff : l.next e = some l' ↔ Step l e l' := by
  constructor
  · intro h
    unfold next at h
    split at h
    · exact Option.some.inj h ▸ .take
    · exact Option.some.inj h ▸ .drop
    · exact Option.some.inj h ▸ .open _
    · obtain ⟨hu, h⟩ := Option.ite_none_left_eq_some.mp h
      exact Option.some.inj h ▸ .acquire hu
    · obtain ⟨hu, h⟩ := Option.ite_none_right_eq_some.mp h
      exact Option.some.inj h ▸ .release hu
    · exact Option.some.inj h ▸ .close _ _
    · obtain ⟨hu, h⟩ := Option.ite_none_right_eq_some.mp h
      exact Option.some.inj h ▸ .releaseClosed hu
    · obtain ⟨rfl, h⟩ := Option.ite_none_right_eq_some.mp h
      exact Option.some.inj h ▸ .give _
    · exact Option.some.inj h ▸ .given _
    · exact absurd h (Option.some_ne_none l').symm
  · intro h
    cases h with
    | take | drop | «open» | close | given => rfl
    | acquire hu => exact if_neg hu
    | release hu => exact if_pos hu
    | releaseClosed hu =>
      rw [next, if_pos hu]
    | give n => exact if_pos rfl

/-- A history of one slot, and where the slot is behind it. -/
def Reaches (es : List (Event U N)) (l : Lease U N) : Prop := runOps next .free es = some l

theorem Reaches.snoc (h : Reaches es l) (hstep : Step l e l') : Reaches (es ++ [e]) l' := by
  unfold Reaches at h ⊢
  rw [runOps_append, h, Option.bind_some, runOps, next_iff.mpr hstep]
  rfl

/-- A history cut at one of its events. -/
theorem Reaches.cut {post : List (Event U N)} (h : Reaches (es ++ e :: post) l) :
    ∃ l₁ l₂, Reaches es l₁ ∧ Step l₁ e l₂ := by
  unfold Reaches at h
  rw [runOps_append] at h
  obtain ⟨l₁, hpre, hpost⟩ := Option.bind_eq_some_iff.mp h
  obtain ⟨l₂, hstep, -⟩ := runOps_cons hpost
  exact ⟨l₁, l₂, hpre, next_iff.mp hstep⟩

/-- Induction on the last event. -/
theorem Reaches.induct {P : List (Event U N) → Lease U N → Prop} (hfree : P [] .free)
    (hstep : ∀ es l e l', P es l → Step l e l' → P (es ++ [e]) l') (h : Reaches es l) : P es l := by
  induction es using List.reverseRecOn generalizing l with
  | nil => exact Option.some.inj h ▸ hfree
  | append_singleton es e ih =>
    unfold Reaches at h
    rw [runOps_append] at h
    obtain ⟨l₁, hpre, hlast⟩ := Option.bind_eq_some_iff.mp h
    obtain ⟨l₂, hnext, hend⟩ := runOps_cons hlast
    obtain rfl := Option.some.inj hend
    exact hstep es l₁ e _ (ih hpre) (next_iff.mp hnext)

/-- The resource that was opened and is not given back. -/
def owed : Lease U N → ℕ
  | .opened _ _ => 1
  | .closed _ _ => 1
  | _ => 0

def unclosed : Lease U N → ℕ
  | .opened _ _ => 1
  | _ => 0

def pending : Lease U N → ℕ
  | .giving _ => 1
  | _ => 0

/-- How often what has happened, by where the slot is. -/
structure Balanced (es : List (Event U N)) (l : Lease U N) : Prop where
  once : l.users.Nodup
  users : ∀ u, es.count (.acquire u) = es.count (.release u) + l.users.count u
  opens : es.countP Event.isOpen = es.countP Event.isGive + l.owed
  closes : es.countP Event.isOpen = es.count .close + l.unclosed
  gives : es.countP Event.isGive = es.count .given + l.pending

theorem count_snoc (es : List (Event U N)) (e e' : Event U N) :
    (es ++ [e]).count e' = es.count e' + if e = e' then 1 else 0 := by
  rw [List.count_append, List.count_singleton]
  simp only [beq_iff_eq]

/-- One user less, be the slot open or closed. -/
theorem count_release {us : List U} {u : U} (hu : u ∈ us)
    (h : ∀ v, es.count (Event.acquire v) = es.count (Event.release v) + us.count v) (v : U) :
    (es ++ [Event.release u]).count (Event.acquire v) =
      (es ++ [Event.release u]).count (Event.release v) + (us.erase u).count v := by
  have hv := h v
  have hpos := List.count_pos_iff.mpr hu
  simp only [count_snoc, List.count_erase, beq_iff_eq, reduceCtorEq, if_false,
    Event.release.injEq]
  by_cases huv : u = v
  · rw [huv] at hpos
    rw [if_pos huv]
    omega
  · rw [if_neg huv]
    omega

theorem Balanced.snoc (h : Balanced es l) (hstep : Step l e l') : Balanced (es ++ [e]) l' := by
  obtain ⟨honce, husers, hopens, hcloses, hgives⟩ := h
  cases hstep with
  | acquire hu =>
    refine ⟨List.nodup_cons.mpr ⟨hu, honce⟩, ?_, ?_, ?_, ?_⟩
    · intro v
      have hv := husers v
      simp only [Lease.users] at hv ⊢
      simp only [count_snoc, List.count_cons, beq_iff_eq, reduceCtorEq, if_false,
        Event.acquire.injEq]
      omega
    all_goals simpa [Event.isOpen, Event.isGive] using by assumption
  | release hu =>
    refine ⟨honce.erase _, count_release hu husers, ?_, ?_, ?_⟩
    all_goals simpa [Event.isOpen, Event.isGive] using by assumption
  | releaseClosed hu =>
    refine ⟨honce.erase _, count_release hu husers, ?_, ?_, ?_⟩
    all_goals simpa [Event.isOpen, Event.isGive] using by assumption
  | take | drop | «open» | close | give | given =>
    refine ⟨honce, ?_, ?_, ?_, ?_⟩
    all_goals simp_all [Event.isOpen, Event.isGive, Lease.users, owed, unclosed, pending]

theorem Reaches.balanced (h : Reaches es l) : Balanced es l :=
  Reaches.induct ⟨List.nodup_nil, fun _ => rfl, rfl, rfl, rfl⟩
    (fun _ _ _ _ hbalanced hstep => hbalanced.snoc hstep) h

/-- The resource that the slot has, also while it is given back. -/
def resource : Lease U N → Option N
  | .opened n _ => some n
  | .closed n _ => some n
  | .giving n => some n
  | _ => none

/-- It is the one of the last `open`. -/
theorem Reaches.opened {n : N} (h : Reaches es l) (hn : l.resource = some n) :
    ∃ pre post, es = pre ++ .open n :: post ∧ post.countP Event.isOpen = 0 := by
  refine Reaches.induct (P := fun es l => l.resource = some n →
    ∃ pre post, es = pre ++ .open n :: post ∧ post.countP Event.isOpen = 0) ?_ ?_ h hn
  · exact fun hbad => absurd hbad (Option.some_ne_none n).symm
  · intro es l e l' ih hstep hn
    have hlater : l.resource = some n → e.isOpen = false →
        ∃ pre post, es ++ [e] = pre ++ .open n :: post ∧ post.countP Event.isOpen = 0 := by
      intro hold he
      obtain ⟨pre, post, heq, hpost⟩ := ih hold
      refine ⟨pre, post ++ [e], ?_, ?_⟩
      · rw [heq, List.append_assoc, List.cons_append]
      · rw [List.countP_append, hpost, List.countP_singleton, he]
        rfl
    cases hstep with
    | take => exact absurd hn (Option.some_ne_none n).symm
    | drop => exact absurd hn (Option.some_ne_none n).symm
    | «open» m =>
      obtain rfl := Option.some.inj hn
      exact ⟨es, [], rfl, rfl⟩
    | acquire _ => exact hlater hn rfl
    | release _ => exact hlater hn rfl
    | close _ _ => exact hlater hn rfl
    | releaseClosed _ => exact hlater hn rfl
    | give _ => exact hlater hn rfl
    | given _ => exact absurd hn (Option.some_ne_none n).symm

/-- What a history says without the slot: nobody uses a resource that is given back, it is given
back once for each time that it was opened and closed, and a slot is taken again only then. -/
structure Orderly (es : List (Event U N)) : Prop where
  unused : ∀ pre n post, es = pre ++ .give n :: post →
    ∀ u, pre.count (.acquire u) = pre.count (.release u)
  once : ∀ pre n post, es = pre ++ .give n :: post →
    pre.countP Event.isOpen = pre.countP Event.isGive + 1 ∧
      pre.countP Event.isOpen = pre.count .close
  same : ∀ pre n post, es = pre ++ .give n :: post →
    ∃ a b, pre = a ++ .open n :: b ∧ b.countP Event.isOpen = 0
  again : ∀ pre post, es = pre ++ .take :: post →
    pre.countP Event.isOpen = pre.count .close ∧ pre.countP Event.isOpen = pre.count .given

theorem Reaches.orderly (h : Reaches es l) : Orderly es := by
  have hgive : ∀ pre n post, es = pre ++ Event.give n :: post → Reaches pre (.closed n []) := by
    intro pre n post heq
    rw [heq] at h
    obtain ⟨l₁, l₂, hpre, hstep⟩ := h.cut
    cases hstep with
    | give n => exact hpre
  refine ⟨?_, ?_, ?_, ?_⟩
  · intro pre n post heq u
    have husers := (hgive pre n post heq).balanced.users u
    rw [husers]
    rfl
  · intro pre n post heq
    have hpre := (hgive pre n post heq).balanced
    exact ⟨hpre.opens, hpre.closes⟩
  · intro pre n post heq
    exact (hgive pre n post heq).opened rfl
  · intro pre post heq
    rw [heq] at h
    obtain ⟨l₁, l₂, hpre, hstep⟩ := h.cut
    cases hstep with
    | take =>
      have hbalanced := hpre.balanced
      exact ⟨hbalanced.closes, hbalanced.opens.trans hbalanced.gives⟩

end Lease
end Ucore.Library
