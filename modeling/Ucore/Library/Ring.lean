import Mathlib.Data.List.Nodup
import Mathlib.Logic.Function.Basic

/-!
Circular doubly linked lists whose links live inside the nodes. A heap of links
gives every node a successor and a predecessor; a ring is a head node together
with the list of the other nodes, in order. Insertion and removal write single
fields, so a theorem about them says which fields a ring depends on.
-/
namespace Ucore.Library

/-- The two link fields of every node. -/
structure Links (α : Type*) where
  next : α → α
  prev : α → α

namespace Links

variable {α : Type*} [DecidableEq α]

/-- The node becomes a ring of its own. -/
def isolate (l : Links α) (e : α) : Links α :=
  ⟨Function.update l.next e e, Function.update l.prev e e⟩

/-- Write `e` between `p` and `n`, in the order: links of the neighbours, links of `e`. -/
def insertBetween (l : Links α) (e p n : α) : Links α :=
  ⟨Function.update (Function.update l.next p e) e n,
    Function.update (Function.update l.prev n e) e p⟩

/-- Make `p` and `n` neighbours. -/
def join (l : Links α) (p n : α) : Links α :=
  ⟨Function.update l.next p n, Function.update l.prev n p⟩

omit [DecidableEq α] in
/-- `b` is the successor of `a`, and `a` the predecessor of `b`. -/
def Adjacent (l : Links α) (a b : α) : Prop := l.next a = b ∧ l.prev b = a

omit [DecidableEq α] in
/-- From `a` through the nodes of the list to `b`. -/
def Path (l : Links α) : α → List α → α → Prop
  | a, [], b => l.Adjacent a b
  | a, x :: xs, b => l.Adjacent a x ∧ Path l x xs b

omit [DecidableEq α] in
/-- The nodes `xs`, in this order, form a ring through `h`. -/
def Ring (l : Links α) (h : α) (xs : List α) : Prop :=
  (h :: xs).Nodup ∧ l.Path h xs h

omit [DecidableEq α] in
theorem path_append (l : Links α) (a b y : α) (xs ys : List α) :
    l.Path a (xs ++ y :: ys) b ↔ l.Path a xs y ∧ l.Path y ys b := by
  induction xs generalizing a with
  | nil => rfl
  | cons x xs ih => simp only [List.cons_append, Path, ih, and_assoc]

omit [DecidableEq α] in
/-- A path reads the successors of its nodes but the last, and the
predecessors of its nodes but the first. -/
theorem path_congr {l m : Links α} {a b : α} {xs : List α}
    (hnext : ∀ x ∈ a :: xs, m.next x = l.next x)
    (hprev : ∀ x ∈ xs ++ [b], m.prev x = l.prev x)
    (h : l.Path a xs b) : m.Path a xs b := by
  induction xs generalizing a with
  | nil =>
    obtain ⟨hn, hp⟩ := h
    refine ⟨?_, ?_⟩
    · rw [hnext a (by simp)]; exact hn
    · rw [hprev b (by simp)]; exact hp
  | cons x xs ih =>
    obtain ⟨⟨hn, hp⟩, hrest⟩ := h
    refine ⟨⟨?_, ?_⟩, ih ?_ ?_ hrest⟩
    · rw [hnext a (by simp)]; exact hn
    · rw [hprev x (by simp)]; exact hp
    · intro y hy
      exact hnext y (List.mem_cons_of_mem _ hy)
    · intro y hy
      exact hprev y (by simpa using Or.inr (by simpa using hy))

omit [DecidableEq α] in
theorem path_next {l : Links α} {a b : α} {xs : List α} (h : l.Path a xs b) :
    l.next a = xs.headD b := by
  cases xs with
  | nil => exact h.1
  | cons x xs => exact h.1.1

omit [DecidableEq α] in
theorem path_prev {l : Links α} {a b : α} {xs : List α} (h : l.Path a xs b) :
    l.prev b = xs.getLastD a := by
  induction xs generalizing a with
  | nil => exact h.2
  | cons x xs ih =>
    rw [List.getLastD_cons]
    exact ih h.2

omit [DecidableEq α] in
theorem Ring.next_head {l : Links α} {h : α} {xs : List α} (hr : l.Ring h xs) :
    l.next h = xs.headD h := path_next hr.2

omit [DecidableEq α] in
theorem Ring.prev_head {l : Links α} {h : α} {xs : List α} (hr : l.Ring h xs) :
    l.prev h = xs.getLastD h := path_prev hr.2

omit [DecidableEq α] in
theorem Ring.nodup {l : Links α} {h : α} {xs : List α} (hr : l.Ring h xs) : xs.Nodup :=
  (List.nodup_cons.mp hr.1).2

omit [DecidableEq α] in
theorem Ring.head_notMem {l : Links α} {h : α} {xs : List α} (hr : l.Ring h xs) : h ∉ xs :=
  (List.nodup_cons.mp hr.1).1

omit [DecidableEq α] in
/-- The ring is empty exactly when the head is its own successor. -/
theorem Ring.next_head_eq_iff {l : Links α} {h : α} {xs : List α} (hr : l.Ring h xs) :
    l.next h = h ↔ xs = [] := by
  rw [hr.next_head]
  cases xs with
  | nil => simp
  | cons x xs =>
    have hne : h ≠ x := fun he => hr.head_notMem (by simp [he])
    simp [hne.symm]

omit [DecidableEq α] in
theorem Ring.next_mem {l : Links α} {h x : α} {xs ys : List α}
    (hr : l.Ring h (xs ++ x :: ys)) : l.next x = ys.headD h :=
  path_next ((path_append l h h x xs ys).mp hr.2).2

omit [DecidableEq α] in
theorem Ring.prev_mem {l : Links α} {h x : α} {xs ys : List α}
    (hr : l.Ring h (xs ++ x :: ys)) : l.prev x = xs.getLastD h :=
  path_prev ((path_append l h h x xs ys).mp hr.2).1

omit [DecidableEq α] in
/-- From the last node of a first part the ring goes on with the second part. -/
theorem Ring.next_last {l : Links α} {h : α} {xs ys : List α} (hr : l.Ring h (xs ++ ys)) :
    l.next (xs.getLastD h) = ys.headD h := by
  rcases List.eq_nil_or_concat xs with rfl | ⟨ws, w, rfl⟩
  · exact hr.next_head
  · simp only [List.concat_eq_append, List.append_assoc, List.singleton_append] at hr
    simpa using hr.next_mem

omit [DecidableEq α] in
theorem headD_mem_cons (h : α) (xs : List α) : xs.headD h ∈ h :: xs := by
  cases xs with
  | nil => exact List.mem_cons_self
  | cons x xs => exact List.mem_cons_of_mem h List.mem_cons_self

omit [DecidableEq α] in
theorem getLastD_mem_cons (h : α) (xs : List α) : xs.getLastD h ∈ h :: xs := by
  rcases List.eq_nil_or_concat xs with rfl | ⟨ws, w, rfl⟩
  · exact List.mem_cons_self
  · simp

omit [DecidableEq α] in
/-- The ring is closed under successors. -/
theorem Ring.next_mem_ring {l : Links α} {h x : α} {xs : List α} (hr : l.Ring h xs)
    (hx : x ∈ h :: xs) : l.next x ∈ h :: xs := by
  rcases List.mem_cons.mp hx with rfl | hx
  · rw [hr.next_head]
    exact headD_mem_cons _ _
  · obtain ⟨ys, zs, rfl⟩ := List.append_of_mem hx
    rw [hr.next_mem]
    rcases List.mem_cons.mp (headD_mem_cons h zs) with heq | hmem
    · rw [heq]
      exact List.mem_cons_self
    · exact List.mem_cons_of_mem h (List.mem_append_right _ (List.mem_cons_of_mem x hmem))

omit [DecidableEq α] in
/-- The ring is closed under predecessors. -/
theorem Ring.prev_mem_ring {l : Links α} {h x : α} {xs : List α} (hr : l.Ring h xs)
    (hx : x ∈ h :: xs) : l.prev x ∈ h :: xs := by
  rcases List.mem_cons.mp hx with rfl | hx
  · rw [hr.prev_head]
    exact getLastD_mem_cons _ _
  · obtain ⟨ys, zs, rfl⟩ := List.append_of_mem hx
    rw [hr.prev_mem]
    rcases List.mem_cons.mp (getLastD_mem_cons h ys) with heq | hmem
    · rw [heq]
      exact List.mem_cons_self
    · exact List.mem_cons_of_mem h (List.mem_append_left _ hmem)

omit [DecidableEq α] in
/-- Successor and predecessor are inverse on the ring. -/
theorem Ring.inverse {l : Links α} {h : α} {xs : List α} (hr : l.Ring h xs) :
    ∀ e ∈ h :: xs, l.next (l.prev e) = e ∧ l.prev (l.next e) = e := by
  have along : ∀ (a b : α) (ys : List α), l.Path a ys b →
      (∀ e ∈ a :: ys, l.prev (l.next e) = e) ∧ (∀ e ∈ ys ++ [b], l.next (l.prev e) = e) := by
    intro a b ys
    induction ys generalizing a with
    | nil =>
      rintro ⟨hn, hp⟩
      refine ⟨?_, ?_⟩
      · intro e he
        rw [List.mem_singleton] at he
        rw [he, hn, hp]
      · intro e he
        simp only [List.nil_append, List.mem_singleton] at he
        rw [he, hp, hn]
    | cons y ys ih =>
      rintro ⟨⟨hn, hp⟩, hrest⟩
      obtain ⟨ih1, ih2⟩ := ih y hrest
      refine ⟨?_, ?_⟩
      · intro e he
        rcases List.mem_cons.mp he with rfl | he
        · rw [hn, hp]
        · exact ih1 e he
      · intro e he
        simp only [List.cons_append, List.mem_cons] at he
        rcases he with rfl | he
        · rw [hp, hn]
        · exact ih2 e he
  obtain ⟨h1, h2⟩ := along h h xs hr.2
  intro e he
  refine ⟨h2 e ?_, h1 e he⟩
  rcases List.mem_cons.mp he with rfl | he
  · simp
  · simp [he]

omit [DecidableEq α] in
/-- Two heaps of links that agree on the nodes of a ring have this ring in common. -/
theorem Ring.congr {l m : Links α} {h : α} {xs : List α} (hr : l.Ring h xs)
    (hnext : ∀ x ∈ h :: xs, m.next x = l.next x)
    (hprev : ∀ x ∈ h :: xs, m.prev x = l.prev x) : m.Ring h xs := by
  refine ⟨hr.1, path_congr hnext ?_ hr.2⟩
  intro x hx
  apply hprev
  simpa [or_comm] using hx

/-- An isolated node is an empty ring. -/
theorem ring_isolate (l : Links α) (e : α) : (l.isolate e).Ring e [] := by
  refine ⟨by simp, ?_, ?_⟩ <;> simp [isolate]

/-- Insertion between the last node of `xs` and the first of `ys`. -/
theorem Ring.insert {l : Links α} {h e p n : α} {xs ys : List α}
    (hr : l.Ring h (xs ++ ys)) (he : e ∉ h :: (xs ++ ys))
    (hp : p = xs.getLastD h) (hn : n = ys.headD h) :
    (l.insertBetween e p n).Ring h (xs ++ e :: ys) := by
  have heh : e ≠ h := fun heq => he (by simp [heq])
  have hexs : e ∉ xs := fun hm => he (by simp [hm])
  have heys : e ∉ ys := fun hm => he (by simp [hm])
  have hhxs : h ∉ xs ++ ys := hr.head_notMem
  have hnd : (xs ++ ys).Nodup := hr.nodup
  refine ⟨?_, ?_⟩
  · rw [List.nodup_cons]
    refine ⟨?_, ?_⟩
    · simp only [List.mem_append, List.mem_cons, not_or] at hhxs ⊢
      exact ⟨hhxs.1, heh.symm, hhxs.2⟩
    · rw [List.nodup_append] at hnd ⊢
      refine ⟨hnd.1, List.nodup_cons.mpr ⟨heys, hnd.2.1⟩, ?_⟩
      intro a ha b hb
      rcases List.mem_cons.mp hb with rfl | hb
      · exact fun hab => hexs (hab ▸ ha)
      · exact hnd.2.2 a ha b hb
  · rw [path_append]
    constructor
    · -- up to `e`: only the successor of `p` and the predecessor of `e` are new
      rcases List.eq_nil_or_concat xs with rfl | ⟨ws, w, rfl⟩
      · have hph : p = h := by simpa using hp
        subst hph
        refine ⟨?_, ?_⟩
        · simp [insertBetween, heh.symm]
        · simp [insertBetween]
      · have hpw : p = w := by simpa using hp
        subst hpw
        simp only [List.concat_eq_append, List.append_assoc, List.singleton_append,
          List.mem_append, List.mem_cons, not_or] at hexs hhxs hnd ⊢
        have hw : l.Path h ws p := by
          have hpath := hr.2
          simp only [List.concat_eq_append, List.append_assoc, List.singleton_append] at hpath
          exact ((path_append l h h p ws ys).mp hpath).1
        rw [path_append]
        refine ⟨path_congr ?_ ?_ hw, ?_, ?_⟩
        · intro x hx
          have hxe : x ≠ e := by
            rcases List.mem_cons.mp hx with rfl | hx
            · exact heh.symm
            · exact fun hxe => hexs.1 (hxe ▸ hx)
          have hxp : x ≠ p := by
            rcases List.mem_cons.mp hx with rfl | hx
            · exact hhxs.2.1
            · intro hxp
              subst hxp
              exact (List.nodup_append.mp hnd).2.2 x hx x (by simp) rfl
          simp [insertBetween, hxe, hxp]
        · intro x hx
          have hxe : x ≠ e := by
            rcases List.mem_append.mp hx with hx | hx
            · exact fun hxe => hexs.1 (hxe ▸ hx)
            · rw [List.mem_singleton] at hx
              exact fun hxe => hexs.2.1 (hxe.symm.trans hx)
          have hxn : x ≠ n := by
            subst hn
            intro hxn
            have hxmem : x ∈ ws ∨ x = p := by
              simpa using hx
            cases ys with
            | nil =>
              simp only [List.headD_nil] at hxn
              subst hxn
              rcases hxmem with hxw | hxp
              · exact hhxs.1 hxw
              · exact hhxs.2.1 hxp
            | cons y ys =>
              have hxy : x = y := hxn
              rcases hxmem with hxw | hxp
              · exact (List.nodup_append.mp hnd).2.2 x hxw x (by simp [hxy]) rfl
              · exact (List.nodup_cons.mp (List.nodup_append.mp hnd).2.1).1
                  (by simp [← hxp, hxy])
          simp [insertBetween, hxe, hxn]
        · simp only [insertBetween]
          rw [Function.update_of_ne (fun hpe => hexs.2.1 hpe.symm)]
          simp
        · simp [insertBetween]
    · -- from `e` on: only the successor of `e` and the predecessor of `n` are new
      cases ys with
      | nil =>
        have hnh : n = h := by simpa using hn
        subst hnh
        refine ⟨?_, ?_⟩
        · simp [insertBetween]
        · simp [insertBetween, heh.symm]
      | cons y ys =>
        have hny : n = y := by simpa using hn
        subst hny
        have hy : l.Path n ys h := ((path_append l h h n xs ys).mp hr.2).2
        simp only [List.mem_cons, not_or] at heys
        refine ⟨⟨?_, ?_⟩, path_congr ?_ ?_ hy⟩
        · simp [insertBetween]
        · simp only [insertBetween]
          rw [Function.update_of_ne (fun hne => heys.1 hne.symm)]
          simp
        · intro x hx
          have hxe : x ≠ e := by
            rcases List.mem_cons.mp hx with rfl | hx
            · exact fun hxe => heys.1 hxe.symm
            · exact fun hxe => heys.2 (hxe ▸ hx)
          have hxp : x ≠ p := by
            subst hp
            intro hxp
            rcases List.eq_nil_or_concat xs with rfl | ⟨ws, w, rfl⟩
            · simp only [List.getLastD_nil] at hxp
              subst hxp
              exact hhxs (by simpa using hx)
            · simp only [List.concat_eq_append, List.getLastD_concat] at hxp
              subst hxp
              exact (List.nodup_append.mp hnd).2.2 x (by simp) x hx rfl
          simp [insertBetween, hxe, hxp]
        · intro x hx
          have hxe : x ≠ e := by
            rcases List.mem_append.mp hx with hx | hx
            · exact fun hxe => heys.2 (hxe ▸ hx)
            · rw [List.mem_singleton] at hx
              exact fun hxe => heh (hxe.symm.trans hx)
          have hxn : x ≠ n := by
            intro hxn
            subst hxn
            rcases List.mem_append.mp hx with hx | hx
            · exact (List.nodup_cons.mp (List.nodup_append.mp hnd).2.1).1 hx
            · rw [List.mem_singleton] at hx
              exact hhxs (by simp [hx])
          simp [insertBetween, hxe, hxn]

/-- Joining the neighbours of a node takes it out of the ring. -/
theorem Ring.remove {l : Links α} {h e : α} {xs ys : List α}
    (hr : l.Ring h (xs ++ e :: ys)) :
    (l.join (l.prev e) (l.next e)).Ring h (xs ++ ys) := by
  have hnd := hr.1
  have hprev : l.prev e = xs.getLastD h := hr.prev_mem
  have hnext : l.next e = ys.headD h := hr.next_mem
  obtain ⟨hpx, hpy⟩ := (path_append l h h e xs ys).mp hr.2
  rw [List.nodup_cons, List.mem_append, List.mem_cons, not_or, not_or,
    List.nodup_append] at hnd
  obtain ⟨⟨hhx, hhe, hhy⟩, hx, hy, hxy⟩ := hnd
  have hey := List.nodup_cons.mp hy
  refine ⟨?_, ?_⟩
  · rw [List.nodup_cons, List.nodup_append]
    refine ⟨by simp [hhx, hhy], hx, hey.2, ?_⟩
    intro a ha b hb
    exact hxy a ha b (List.mem_cons_of_mem _ hb)
  · rw [hprev, hnext]
    rcases List.eq_nil_or_concat xs with rfl | ⟨ws, w, rfl⟩
    · cases ys with
      | nil => refine ⟨?_, ?_⟩ <;> simp [join]
      | cons y ys =>
        obtain ⟨⟨-, -⟩, hrest⟩ := hpy
        simp only [List.nil_append, List.getLastD_nil, List.headD_cons]
        refine ⟨⟨by simp [join], by simp [join]⟩, path_congr ?_ ?_ hrest⟩
        · intro x hxm
          have hxh : x ≠ h := fun hxh => hhy (hxh ▸ hxm)
          simp [join, hxh]
        · intro x hxm
          have hxn : x ≠ y := by
            intro hxn
            subst hxn
            rcases List.mem_append.mp hxm with hxm | hxm
            · exact (List.nodup_cons.mp hey.2).1 hxm
            · exact hhy (by simp [List.mem_singleton.mp hxm])
          simp [join, hxn]
    · simp only [List.concat_eq_append, List.getLastD_concat, List.append_assoc,
        List.singleton_append] at *
      obtain ⟨hws, -⟩ := (path_append l h e w ws []).mp hpx
      rw [path_append]
      refine ⟨path_congr ?_ ?_ hws, ?_⟩
      · intro x hxm
        have hxw : x ≠ w := by
          intro hxw
          subst hxw
          rcases List.mem_cons.mp hxm with rfl | hxm
          · exact hhx (by simp)
          · exact (List.nodup_append.mp hx).2.2 x hxm x (by simp) rfl
        simp [join, hxw]
      · intro x hxm
        have hxn : x ≠ ys.headD h := by
          intro hxn
          have hxws : x ∈ ws ++ [w] := by simpa using hxm
          cases ys with
          | nil =>
            simp only [List.headD_nil] at hxn
            exact hhx (hxn ▸ hxws)
          | cons y ys =>
            simp only [List.headD_cons] at hxn
            exact hxy x hxws x (by simp [hxn]) rfl
        exact Function.update_of_ne hxn _ _
      · cases ys with
        | nil =>
          refine ⟨?_, ?_⟩ <;> simp [join]
        | cons y ys =>
          obtain ⟨⟨-, -⟩, hrest⟩ := hpy
          simp only [List.headD_cons]
          refine ⟨⟨by simp [join], by simp [join]⟩, path_congr ?_ ?_ hrest⟩
          · intro x hxm
            have hxw : x ≠ w := by
              intro hxw
              subst hxw
              exact hxy x (by simp) x (List.mem_cons_of_mem _ hxm) rfl
            simp [join, hxw]
          · intro x hxm
            have hxn : x ≠ y := by
              intro hxn
              subst hxn
              rcases List.mem_append.mp hxm with hxm | hxm
              · exact (List.nodup_cons.mp hey.2).1 hxm
              · exact hhy (by simp [List.mem_singleton.mp hxm])
            simp [join, hxn]

/-- A ring that holds none of the written nodes is untouched by an insertion. -/
theorem Ring.insert_frame {l : Links α} {h e p n : α} {xs : List α} (hr : l.Ring h xs)
    (he : e ∉ h :: xs) (hp : p ∉ h :: xs) (hn : n ∉ h :: xs) :
    (l.insertBetween e p n).Ring h xs := by
  apply hr.congr
  · intro x hx
    have hxe : x ≠ e := fun hxe => he (hxe ▸ hx)
    have hxp : x ≠ p := fun hxp => hp (hxp ▸ hx)
    simp [insertBetween, hxe, hxp]
  · intro x hx
    have hxe : x ≠ e := fun hxe => he (hxe ▸ hx)
    have hxn : x ≠ n := fun hxn => hn (hxn ▸ hx)
    simp [insertBetween, hxe, hxn]

theorem Ring.join_frame {l : Links α} {h p n : α} {xs : List α} (hr : l.Ring h xs)
    (hp : p ∉ h :: xs) (hn : n ∉ h :: xs) : (l.join p n).Ring h xs := by
  apply hr.congr
  · intro x hx
    have hxp : x ≠ p := fun hxp => hp (hxp ▸ hx)
    simp [join, hxp]
  · intro x hx
    have hxn : x ≠ n := fun hxn => hn (hxn ▸ hx)
    simp [join, hxn]

theorem Ring.isolate_frame {l : Links α} {h e : α} {xs : List α} (hr : l.Ring h xs)
    (he : e ∉ h :: xs) : (l.isolate e).Ring h xs := by
  apply hr.congr
  · intro x hx
    have hxe : x ≠ e := fun hxe => he (hxe ▸ hx)
    simp [isolate, hxe]
  · intro x hx
    have hxe : x ≠ e := fun hxe => he (hxe ▸ hx)
    simp [isolate, hxe]

end Links
end Ucore.Library
