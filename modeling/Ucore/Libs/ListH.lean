import Ucore.Library.Ring

/-!
The operations of `list.h` on circular doubly linked lists, and what each of them
does to a ring.
-/
namespace Ucore.Libs

open Library

variable {α : Type*} [DecidableEq α]

def listInit (l : Links α) (elm : α) : Links α := l.isolate elm

def listAddAfter (l : Links α) (listelm elm : α) : Links α :=
  l.insertBetween elm listelm (l.next listelm)

def listAdd (l : Links α) (listelm elm : α) : Links α := listAddAfter l listelm elm

def listAddBefore (l : Links α) (listelm elm : α) : Links α :=
  l.insertBetween elm (l.prev listelm) listelm

def listDel (l : Links α) (listelm : α) : Links α :=
  l.join (l.prev listelm) (l.next listelm)

def listDelInit (l : Links α) (listelm : α) : Links α := listInit (listDel l listelm) listelm

def listEmpty (l : Links α) (list : α) : Bool := decide (l.next list = list)

theorem listEmpty_iff {l : Links α} {h : α} {xs : List α} (hr : l.Ring h xs) :
    listEmpty l h = true ↔ xs = [] := by
  unfold listEmpty
  rw [decide_eq_true_eq]
  exact hr.next_head_eq_iff

/-- Insertion behind the last node of a first part. -/
theorem ring_listAdd {l : Links α} {h e : α} {xs ys : List α}
    (hr : l.Ring h (xs ++ ys)) (he : e ∉ h :: (xs ++ ys)) :
    (listAdd l (xs.getLastD h) e).Ring h (xs ++ e :: ys) :=
  hr.insert he rfl hr.next_last

/-- Insertion behind the head. -/
theorem ring_listAdd_head {l : Links α} {h e : α} {xs : List α} (hr : l.Ring h xs)
    (he : e ∉ h :: xs) : (listAdd l h e).Ring h (e :: xs) := by
  have hr' : l.Ring h ([] ++ xs) := hr
  exact ring_listAdd hr' he

/-- Insertion in front of a node of the ring. -/
theorem ring_listAddBefore {l : Links α} {h n e : α} {xs ys : List α}
    (hr : l.Ring h (xs ++ n :: ys)) (he : e ∉ h :: (xs ++ n :: ys)) :
    (listAddBefore l n e).Ring h (xs ++ e :: n :: ys) :=
  hr.insert he (p := l.prev n) (n := n) hr.prev_mem rfl

theorem ring_listDel {l : Links α} {h e : α} {xs ys : List α}
    (hr : l.Ring h (xs ++ e :: ys)) : (listDel l e).Ring h (xs ++ ys) := hr.remove

end Ucore.Libs
