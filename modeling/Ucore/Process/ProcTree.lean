import Ucore.Library.Siblings
import Ucore.Process.RunQueue

/-!
The relations between the processes of lab 8: behind `cptr` a process has the list of its
children, linked by `optr` and `yptr`.
-/
namespace Ucore.Process.Table

open Library ProcTable

variable {rel : ℕ → Relations} {live : ℕ → Prop} {children : ℕ → List ℕ} {before : ℕ → Option ℕ}
  {p q c y : ℕ}

/-! What the operations write, one field at a time. -/

theorem setRel_apply {f : Relations → Relations} :
    setRel rel p f y = if y = p then f (rel y) else rel y := by
  unfold setRel
  by_cases hy : y = p
  · rw [hy, Function.update_self, if_pos rfl]
  · rw [Function.update_of_ne hy, if_neg hy]

theorem setRelOf_apply {p : Option ℕ} {f : Relations → Relations} :
    setRelOf rel p f y = if p = some y then f (rel y) else rel y := by
  cases p with
  | none => rfl
  | some p =>
    rw [setRelOf, setRel_apply]
    simp only [Option.some.injEq, eq_comm]

theorem pushChild_parent : (pushChild rel p c y).parent = (rel y).parent := by
  simp only [pushChild, setRel_apply, setRelOf_apply]
  split_ifs <;> rfl

theorem pushChild_cptr :
    (pushChild rel p c y).cptr = if y = p then some c else (rel y).cptr := by
  simp only [pushChild, setRel_apply, setRelOf_apply]
  split_ifs <;> rfl

theorem pushChild_optr :
    (pushChild rel p c y).optr = if y = c then (rel p).cptr else (rel y).optr := by
  simp only [pushChild, setRel_apply, setRelOf_apply]
  split_ifs <;> rfl

theorem pushChild_yptr : (pushChild rel p c y).yptr =
    if (rel p).cptr = some y then some c else if y = c then none else (rel y).yptr := by
  simp only [pushChild, setRel_apply, setRelOf_apply]
  split_ifs <;> rfl

theorem dropChild_parent : (dropChild rel c y).parent = (rel y).parent := by
  unfold dropChild
  cases (rel c).yptr with
  | none =>
    simp only [setRel_apply, setRelOf_apply]
    split_ifs <;> rfl
  | some z =>
    simp only [setRel_apply, setRelOf_apply]
    split_ifs <;> rfl

theorem dropChild_cptr : (dropChild rel c y).cptr =
    if (rel c).yptr = none ∧ y = (rel c).parent then (rel c).optr else (rel y).cptr := by
  unfold dropChild
  cases (rel c).yptr with
  | none =>
    simp only [setRel_apply, setRelOf_apply, true_and]
    split_ifs <;> rfl
  | some z =>
    simp only [setRel_apply, setRelOf_apply, reduceCtorEq, false_and, if_false]
    split_ifs <;> rfl

theorem dropChild_optr : (dropChild rel c y).optr =
    if (rel c).yptr = some y then (rel c).optr else (rel y).optr := by
  unfold dropChild
  cases (rel c).yptr with
  | none =>
    simp only [setRel_apply, setRelOf_apply, reduceCtorEq, if_false]
    split_ifs <;> rfl
  | some z =>
    simp only [setRel_apply, setRelOf_apply, Option.some.injEq, eq_comm]
    split_ifs <;> rfl

theorem dropChild_yptr : (dropChild rel c y).yptr =
    if (rel c).optr = some y then (rel c).yptr else (rel y).yptr := by
  unfold dropChild
  cases (rel c).yptr with
  | none =>
    simp only [setRel_apply, setRelOf_apply]
    split_ifs <;> rfl
  | some z =>
    simp only [setRel_apply, setRelOf_apply]
    split_ifs <;> rfl

/-- The children of the processes, by their links and by their parents. `live` says which
processes there are. What the `yptr` of a first child is, `before` says: NULL, but for what
`do_exit` leaves until it is through. -/
structure Kin (rel : ℕ → Relations) (live : ℕ → Prop) (children : ℕ → List ℕ)
    (before : ℕ → Option ℕ) : Prop where
  row : ∀ p, Row (fun x => (rel x).optr) (fun x => (rel x).yptr) (before p) (rel p).cptr
    (children p)
  mem : ∀ p c, c ∈ children p ↔ live c ∧ (rel c).parent = p
  nodup : ∀ p, (children p).Nodup

namespace Kin

theorem of_first (h : Kin rel live children before) (hc : (rel p).cptr = some c) :
    c ∈ children p := by
  rw [(h.row p).first_eq] at hc
  exact List.mem_of_head? hc

/-- The relations of a process are written that is not there yet. -/
theorem fresh (h : Kin rel live children before) (hc : ¬ live c) (hnone : children c = [])
    (p : ℕ) : Kin (Function.update rel c ⟨p, none, none, none⟩) live children before := by
  have hne : ∀ q, ∀ y ∈ children q, y ≠ c := by
    intro q y hy heq
    rw [heq] at hy
    exact hc ((h.mem q c).mp hy).1
  refine ⟨?_, ?_, h.nodup⟩
  · intro q
    by_cases hq : q = c
    · rw [hq, hnone, Function.update_self]
      rfl
    · rw [Function.update_of_ne hq]
      refine (h.row q).congr ?_ ?_
      · intro y hy
        rw [Function.update_of_ne (hne q y hy)]
      · intro y hy
        rw [Function.update_of_ne (hne q y hy)]
  · intro q d
    by_cases hd : d = c
    · rw [hd]
      exact iff_of_false (fun hin => hne q c hin rfl) (fun hbad => hc hbad.1)
    · rw [Function.update_of_ne hd]
      exact h.mem q d

/-- Without children it does not matter what is in front of them. -/
theorem settle {b : Option ℕ} (h : Kin rel live children (Function.update (fun _ => none) p b))
    (hnone : children p = []) : Kin rel live children fun _ => none := by
  refine ⟨?_, h.mem, h.nodup⟩
  intro q
  have hrow := h.row q
  by_cases hq : q = p
  · obtain rfl := hq
    rw [hnone] at hrow ⊢
    exact hrow
  · rw [Function.update_of_ne hq] at hrow
    exact hrow

/-- A process that is nobody's child yet goes in front of the children of its parent. -/
theorem push (h : Kin rel live children before) (hc : ¬ live c) (hp : (rel c).parent = p)
    (hbefore : before p = none) : Kin (pushChild rel p c) (fun d => d = c ∨ live d)
      (Function.update children p (c :: children p)) before := by
  have hout : ∀ q, c ∉ children q := fun q hin => hc ((h.mem q c).mp hin).1
  have hne : ∀ q, ∀ y ∈ children q, y ≠ c := fun q y hy heq => hout q (heq ▸ hy)
  refine ⟨?_, ?_, ?_⟩
  · intro q
    by_cases hq : q = p
    · obtain rfl := hq
      rw [Function.update_self, pushChild_cptr, if_pos rfl]
      refine (h.row q).push (h.nodup q) ⟨?_, ?_⟩ ?_ ?_
      · rw [pushChild_optr, if_pos rfl]
      · rw [pushChild_yptr, if_neg (fun heq => hout q (h.of_first heq)), if_pos rfl, hbefore]
      · intro y hy
        rw [pushChild_optr, if_neg (hne q y hy)]
      · intro y hy
        rw [pushChild_yptr, if_neg (hne q y hy)]
    · rw [Function.update_of_ne hq, pushChild_cptr, if_neg hq]
      refine (h.row q).congr ?_ ?_
      · intro y hy
        rw [pushChild_optr, if_neg (hne q y hy)]
      · intro y hy
        have hfirst : (rel p).cptr ≠ some y := by
          intro heq
          exact hq (((h.mem q y).mp hy).2.symm.trans ((h.mem p y).mp (h.of_first heq)).2)
        rw [pushChild_yptr, if_neg hfirst, if_neg (hne q y hy)]
  · intro q d
    rw [pushChild_parent]
    by_cases hq : q = p
    · rw [hq, Function.update_self, List.mem_cons, h.mem]
      constructor
      · intro hd
        rcases hd with heq | hold
        · exact ⟨Or.inl heq, heq ▸ hp⟩
        · exact ⟨Or.inr hold.1, hold.2⟩
      · intro hd
        exact hd.1.imp_right fun hlive => ⟨hlive, hd.2⟩
    · rw [Function.update_of_ne hq, h.mem]
      constructor
      · intro hd
        exact ⟨Or.inr hd.1, hd.2⟩
      · intro hd
        refine ⟨hd.1.resolve_left ?_, hd.2⟩
        intro heq
        rw [heq] at hd
        exact hq (hd.2.symm.trans hp)
  · intro q
    by_cases hq : q = p
    · rw [hq, Function.update_self]
      exact List.nodup_cons.mpr ⟨hout p, h.nodup p⟩
    · rw [Function.update_of_ne hq]
      exact h.nodup q

theorem congr {live' : ℕ → Prop} (h : Kin rel live children before)
    (hlive : ∀ d, live' d ↔ live d) : Kin rel live' children before :=
  ⟨h.row, fun p d => (h.mem p d).trans (and_congr_left' (hlive d).symm), h.nodup⟩

/-- A process leaves the children of its parent. -/
theorem drop (h : Kin rel live children before) (hc : live c) (hp : (rel c).parent = p)
    (hbefore : before p = none) : Kin (dropChild rel c) (fun d => d ≠ c ∧ live d)
      (Function.update children p ((children p).erase c)) before := by
  obtain ⟨pre, post, hcut⟩ := List.append_of_mem ((h.mem p c).mpr ⟨hc, hp⟩)
  have hnodup := h.nodup p
  have hrow := h.row p
  rw [hcut] at hnodup hrow
  rw [hbefore] at hrow
  have hpre : c ∉ pre := fun hin => by
    have hdisjoint := (List.nodup_append.mp hnodup).2.2
    exact hdisjoint c hin c List.mem_cons_self rfl
  have herase : (children p).erase c = pre ++ post := by
    rw [hcut, List.erase_append_right _ hpre, List.erase_cons_head]
  have hyptr : (rel c).yptr = pre.getLast? := by
    have heq := hrow.prev_eq
    rw [Option.or_none] at heq
    exact heq
  have hoptr : (rel c).optr = post.head? := hrow.next_eq
  have hmem : ∀ y, y ∈ pre ++ post ↔ y ≠ c ∧ y ∈ children p := by
    intro y
    rw [← herase, (h.nodup p).mem_erase_iff]
  refine ⟨?_, ?_, ?_⟩
  · intro q
    by_cases hq : q = p
    · obtain rfl := hq
      have hfirst : (dropChild rel c q).cptr = if pre = [] then (rel c).optr else (rel q).cptr := by
        simp only [dropChild_cptr, hyptr, List.getLast?_eq_none_iff, hp, and_true]
      rw [Function.update_self, herase, hfirst, hbefore]
      refine hrow.drop hnodup (fun _ _ => (Option.some_ne_none _).symm) ?_ ?_
      · intro y _
        exact dropChild_optr
      · intro y _
        exact dropChild_yptr
    · have hother : ∀ y ∈ children q, y ∉ children p := by
        intro y hy hin
        exact hq (((h.mem q y).mp hy).2.symm.trans ((h.mem p y).mp hin).2)
      have hcptr : (dropChild rel c q).cptr = (rel q).cptr := by
        rw [dropChild_cptr, if_neg]
        intro hbad
        exact hq (hbad.2.trans hp)
      rw [Function.update_of_ne hq, hcptr]
      refine (h.row q).congr ?_ ?_
      · intro y hy
        rw [dropChild_optr, if_neg]
        intro heq
        rw [hyptr] at heq
        apply hother y hy
        exact ((hmem y).mp (List.mem_append_left post (List.mem_of_getLast? heq))).2
      · intro y hy
        rw [dropChild_yptr, if_neg]
        intro heq
        rw [hoptr] at heq
        apply hother y hy
        exact ((hmem y).mp (List.mem_append_right pre (List.mem_of_head? heq))).2
  · intro q d
    rw [dropChild_parent]
    by_cases hq : q = p
    · rw [hq, Function.update_self, (h.nodup p).mem_erase_iff, h.mem, and_assoc]
    · rw [Function.update_of_ne hq, h.mem]
      constructor
      · intro hd
        refine ⟨⟨?_, hd.1⟩, hd.2⟩
        intro heq
        rw [heq] at hd
        exact hq (hd.2.symm.trans hp)
      · intro hd
        exact ⟨hd.1.2, hd.2⟩
  · intro q
    by_cases hq : q = p
    · rw [hq, Function.update_self]
      exact (h.nodup p).erase c
    · rw [Function.update_of_ne hq]
      exact h.nodup q

/-- The first child of a process goes out at the front, as `do_exit` takes it. -/
theorem take {a : ℕ} {rest : List ℕ} (h : Kin rel live children before)
    (hchildren : children p = c :: rest) :
    Kin (setRel (setRel rel p fun r => { r with cptr := (rel c).optr }) c
      fun r => { r with parent := a }) (fun d => d ≠ c ∧ live d)
      (Function.update children p rest) (Function.update before p (some c)) := by
  have hnodup := h.nodup p
  have hrow := h.row p
  have hin := h.mem p c
  rw [hchildren] at hnodup hrow hin
  have hc := (hin.mp List.mem_cons_self).2
  have hrest := List.nodup_cons.mp hnodup
  have hparent : ∀ y, (setRel (setRel rel p fun r => { r with cptr := (rel c).optr }) c
      (fun r => { r with parent := a }) y).parent = if y = c then a else (rel y).parent := by
    intro y
    simp only [setRel_apply]
    split_ifs <;> rfl
  have hcptr : ∀ y, (setRel (setRel rel p fun r => { r with cptr := (rel c).optr }) c
      (fun r => { r with parent := a }) y).cptr =
        if y = p then (rel c).optr else (rel y).cptr := by
    intro y
    simp only [setRel_apply]
    split_ifs <;> rfl
  have hoptr : ∀ y, (setRel (setRel rel p fun r => { r with cptr := (rel c).optr }) c
      (fun r => { r with parent := a }) y).optr = (rel y).optr := by
    intro y
    simp only [setRel_apply]
    split_ifs <;> rfl
  have hyptr : ∀ y, (setRel (setRel rel p fun r => { r with cptr := (rel c).optr }) c
      (fun r => { r with parent := a }) y).yptr = (rel y).yptr := by
    intro y
    simp only [setRel_apply]
    split_ifs <;> rfl
  refine ⟨?_, ?_, ?_⟩
  · intro q
    rw [hcptr]
    by_cases hq : q = p
    · rw [hq, Function.update_self, Function.update_self, if_pos rfl]
      exact hrow.2.2.congr (fun y _ => hoptr y) fun y _ => hyptr y
    · rw [Function.update_of_ne hq, Function.update_of_ne hq, if_neg hq]
      exact (h.row q).congr (fun y _ => hoptr y) fun y _ => hyptr y
  · intro q d
    rw [hparent]
    by_cases hd : d = c
    · rw [hd]
      refine iff_of_false ?_ (fun hbad => hbad.1.1 rfl)
      by_cases hq : q = p
      · rw [hq, Function.update_self]
        exact hrest.1
      · rw [Function.update_of_ne hq, h.mem]
        exact fun hbad => hq (hbad.2.symm.trans hc)
    · rw [if_neg hd, and_iff_right hd, ← h.mem]
      by_cases hq : q = p
      · rw [hq, Function.update_self, hchildren, List.mem_cons, or_iff_right hd]
      · rw [Function.update_of_ne hq]
  · intro q
    by_cases hq : q = p
    · rw [hq, Function.update_self]
      exact hrest.2
    · rw [Function.update_of_ne hq]
      exact h.nodup q

/-- The first child of a process goes to another one. -/
theorem adopt {a : ℕ} {rest : List ℕ} (h : Kin rel live children before)
    (hchildren : children p = c :: rest) (hpa : a ≠ p) (hbefore : before a = none) :
    Kin (pushChild (setRel (setRel rel p fun r => { r with cptr := (rel c).optr }) c
        fun r => { r with parent := a }) a c) live
      (Function.update (Function.update children p rest) a (c :: children a))
      (Function.update before p (some c)) := by
  have hin : live c ∧ (rel c).parent = p := by
    rw [← h.mem, hchildren]
    exact List.mem_cons_self
  have hself : (setRel (setRel rel p fun r => { r with cptr := (rel c).optr }) c
      (fun r => { r with parent := a }) c).parent = a := by
    rw [setRel_apply, if_pos rfl]
  have hpush := (h.take hchildren).push (fun hbad => hbad.1 rfl) hself
    ((Function.update_of_ne hpa _ _).trans hbefore)
  rw [Function.update_of_ne hpa] at hpush
  refine hpush.congr ?_
  intro d
  by_cases hd : d = c
  · rw [hd]
    exact iff_of_true hin.1 (Or.inl rfl)
  · rw [or_iff_right hd, and_iff_right hd]

end Kin

/-! The loop of `do_wait`. -/

theorem scanChildren_eq {s : ProcTable} {cs : List ℕ} {b first : Option ℕ} {turns : ℕ}
    (hrow : Row (fun x => (s.rel x).optr) (fun x => (s.rel x).yptr) b first cs)
    (hturns : cs.length ≤ turns) (haskid : Bool) : s.scanChildren turns first haskid =
      (haskid || !cs.isEmpty, cs.find? fun c => (s.proc c).state = .zombie) := by
  induction cs generalizing b first turns haskid with
  | nil =>
    obtain rfl : first = none := hrow
    rw [List.isEmpty_nil, Bool.not_true, Bool.or_false]
    cases turns with
    | zero => rfl
    | succ turns => rfl
  | cons c cs ih =>
    obtain ⟨rfl, -, hrest⟩ := hrow
    cases turns with
    | zero => exact absurd hturns (Nat.not_succ_le_zero cs.length)
    | succ turns =>
      rw [ProcTable.scanChildren, List.find?_cons, List.isEmpty_cons, Bool.not_false, Bool.or_true]
      by_cases hzombie : (s.proc c).state = .zombie
      · rw [if_pos hzombie, decide_eq_true hzombie]
      · rw [if_neg hzombie, decide_eq_false hzombie, ih hrest (Nat.le_of_succ_le_succ hturns),
          Bool.true_or]

end Ucore.Process.Table
