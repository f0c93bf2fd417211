import Mathlib.Data.List.Nodup

/-!
Once around a cyclic list: the elements behind a given one, in order, with that one itself
at the end. A cursor that only ever moves on to an element of this list passes every element
between two visits of the same one, also while the list grows and shrinks under it.
-/
namespace Ucore.Library

variable {α : Type*} [DecidableEq α]

/-- From the element behind `e` once around the list `l`, to `e`. -/
def around (l : List α) (e : α) : List α :=
  (l.dropWhile (fun x => decide (x ≠ e))).tail ++ l.takeWhile (fun x => decide (x ≠ e)) ++ [e]

/-- `q` comes in the list, and `p` does not come before it. -/
def Sooner (p q : α) (l : List α) : Prop := ∃ a b, l = a ++ q :: b ∧ p ∉ a

variable {l a b xs ys : List α} {e c p q n : α}

theorem around_append (ha : e ∉ a) : around (a ++ e :: b) e = b ++ a ++ [e] := by
  have hpass : ∀ x ∈ a, decide (x ≠ e) = true := by
    intro x hx
    rw [decide_eq_true_iff]
    rintro rfl
    exact ha hx
  rw [around, List.dropWhile_append_of_pos hpass, List.takeWhile_append_of_pos hpass]
  simp

theorem mem_around (he : e ∈ l) : q ∈ around l e ↔ q ∈ l := by
  obtain ⟨a, b, rfl, ha⟩ := List.eq_append_cons_of_mem he
  rw [around_append ha]
  simp only [List.mem_append, List.mem_cons, List.not_mem_nil, or_false]
  tauto

/-- The walk from the element that the cursor moves on to. -/
theorem around_turn (hl : l.Nodup) (he : e ∈ l) (h : around l e = xs ++ c :: ys) :
    around l c = ys ++ xs ++ [c] := by
  obtain ⟨a, b, rfl, ha⟩ := List.eq_append_cons_of_mem he
  rw [around_append ha, List.append_assoc] at h
  have hmid : ∀ zs, a ++ [e] = zs ++ c :: ys → xs = b ++ zs →
      around (a ++ e :: b) c = ys ++ xs ++ [c] := by
    intro zs hz hxs
    rcases List.eq_nil_or_concat ys with rfl | ⟨ys', x, rfl⟩
    · obtain ⟨rfl, hec⟩ := List.append_inj' hz rfl
      rw [← List.singleton_inj.mp hec, around_append ha, hxs, List.nil_append]
    · rw [List.concat_eq_append, ← List.cons_append, ← List.append_assoc] at hz
      obtain ⟨rfl, hex⟩ := List.append_inj' hz rfl
      have hc : c ∉ zs := by
        intro hmem
        rw [List.append_assoc, List.nodup_append] at hl
        exact hl.2.2 c hmem c List.mem_cons_self rfl
      rw [List.append_assoc, List.cons_append, around_append hc, hxs, List.singleton_inj.mp hex]
      simp
  rcases List.append_eq_append_iff.mp h with ⟨zs, hxs, hz⟩ | ⟨zs, hb, hz⟩
  · exact hmid zs hz hxs
  · cases zs with
    | nil => exact hmid [] hz.symm (by simpa using hb.symm)
    | cons x zs =>
      obtain ⟨rfl, rfl⟩ := List.cons.inj hz
      have hc : c ∉ a ++ e :: xs := by
        intro hmem
        rw [hb, ← List.cons_append, ← List.append_assoc, List.nodup_append] at hl
        exact hl.2.2 c hmem c List.mem_cons_self rfl
      rw [hb, ← List.cons_append, ← List.append_assoc, around_append hc]
      simp

/-- An element of the list that is not the cursor is taken out of its walk. -/
theorem around_erase [BEq α] [LawfulBEq α] (hl : l.Nodup) (he : e ∈ l) (hn : n ≠ e) :
    around (l.erase n) e = (around l e).erase n := by
  obtain ⟨a, b, rfl, ha⟩ := List.eq_append_cons_of_mem he
  have hwalk : (b ++ a ++ [e]).Nodup := by
    apply List.Perm.nodup_iff _ |>.mpr hl
    rw [List.append_assoc]
    exact List.perm_append_comm.trans (by simp)
  rw [around_append ha, hl.erase_eq_filter, hwalk.erase_eq_filter]
  have hfilter : e ∉ a.filter (fun x => x != n) := fun h => ha (List.mem_of_mem_filter h)
  have hkeep : ∀ rest : List α, (e :: rest).filter (fun x => x != n) =
      e :: rest.filter (fun x => x != n) := by
    intro rest
    exact List.filter_cons_of_pos (bne_iff_ne.mpr hn.symm)
  rw [List.filter_append, List.filter_append, List.filter_append, hkeep, hkeep]
  exact around_append hfilter

omit [DecidableEq α] in
theorem sooner_cons {x : α} : Sooner p q (x :: l) ↔ x = q ∨ (x ≠ p ∧ Sooner p q l) := by
  constructor
  · rintro ⟨a, b, heq, hp⟩
    cases a with
    | nil =>
      left
      exact (List.cons.inj heq).1
    | cons y a =>
      obtain ⟨rfl, hl⟩ := List.cons.inj heq
      rw [List.mem_cons, not_or] at hp
      right
      exact ⟨fun hx => hp.1 hx.symm, a, b, hl, hp.2⟩
  · rintro (rfl | ⟨hx, a, b, rfl, hp⟩)
    · exact ⟨[], l, rfl, List.not_mem_nil⟩
    · refine ⟨x :: a, b, rfl, ?_⟩
      rw [List.mem_cons, not_or]
      exact ⟨fun h => hx h.symm, hp⟩

omit [DecidableEq α] in
/-- An element other than `p` is put in. -/
theorem Sooner.insert (h : Sooner p q (xs ++ ys)) (hn : n ≠ p) : Sooner p q (xs ++ n :: ys) := by
  induction xs with
  | nil =>
    apply sooner_cons.mpr
    right
    exact ⟨hn, h⟩
  | cons x xs ih =>
    apply sooner_cons.mpr
    rcases sooner_cons.mp h with hx | ⟨hx, hrest⟩
    · left
      exact hx
    · right
      exact ⟨hx, ih hrest⟩

omit [DecidableEq α] in
/-- An element other than `q` is taken out. -/
theorem Sooner.erase [BEq α] [LawfulBEq α] (h : Sooner p q l) (hn : n ≠ q) : Sooner p q (l.erase n) := by
  obtain ⟨a, b, rfl, hp⟩ := h
  rcases Classical.em (n ∈ a) with hmem | hmem
  · refine ⟨a.erase n, b, List.erase_append_left _ hmem, ?_⟩
    exact fun hpa => hp (List.mem_of_mem_erase hpa)
  · refine ⟨a, b.erase n, ?_, hp⟩
    rw [List.erase_append_right _ hmem, List.erase_cons_tail]
    simpa using hn.symm

omit [DecidableEq α] in
theorem sooner_of_notMem (hp : p ∉ l) (hq : q ∈ l) : Sooner p q l := by
  obtain ⟨a, b, rfl⟩ := List.append_of_mem hq
  exact ⟨a, b, rfl, fun h => hp (List.mem_append_left _ h)⟩

/-- The cursor comes to every other element before it is back. -/
theorem sooner_self (hl : l.Nodup) (he : e ∈ l) (hq : q ∈ l) (hne : q ≠ e) :
    Sooner e q (around l e) := by
  obtain ⟨a, b, rfl, ha⟩ := List.eq_append_cons_of_mem he
  have hb : e ∉ b := (List.nodup_cons.mp (List.nodup_append.mp hl).2.1).1
  have hrest : q ∈ b ++ a := by
    simp only [List.mem_append, List.mem_cons] at hq ⊢
    tauto
  have hfree : e ∉ b ++ a := by
    rw [List.mem_append, not_or]
    exact ⟨hb, ha⟩
  obtain ⟨xs, ys, hsplit, hxs⟩ := sooner_of_notMem hfree hrest
  refine ⟨xs, ys ++ [e], ?_, hxs⟩
  rw [around_append ha, hsplit, List.append_assoc, List.cons_append]

/-- The cursor moves on and does not pass `q`: it comes to `q`, or stays ahead of `p`. -/
theorem Sooner.turn (hl : l.Nodup) (he : e ∈ l) (h : Sooner p q (around l e))
    (hc : around l e = xs ++ c :: ys) (hq : q ∉ xs) :
    c = q ∨ (c ≠ p ∧ Sooner p q (around l c)) := by
  obtain ⟨a, b, heq, hp⟩ := h
  rw [around_turn hl he hc]
  rcases List.append_eq_append_iff.mp (hc.symm.trans heq) with ⟨zs, ha, hz⟩ | ⟨zs, hxs, hz⟩
  · cases zs with
    | nil =>
      left
      exact (List.cons.inj hz).1
    | cons x zs =>
      obtain ⟨rfl, rfl⟩ := List.cons.inj hz
      rw [ha] at hp
      simp only [List.mem_append, List.mem_cons, not_or] at hp
      right
      refine ⟨fun hcp => hp.2.1 hcp.symm, zs, b ++ xs ++ [c], ?_, hp.2.2⟩
      simp
  · cases zs with
    | nil =>
      left
      exact (List.cons.inj hz).1.symm
    | cons x zs =>
      obtain ⟨rfl, -⟩ := List.cons.inj hz
      exfalso
      apply hq
      rw [hxs]
      exact List.mem_append_right _ List.mem_cons_self

/-- An element is put in behind the first one of the list. -/
theorem Sooner.insert_second {x : α} (he : e ∈ x :: l) (h : Sooner p q (around (x :: l) e))
    (hn : n ≠ p) (hne : n ≠ e) : Sooner p q (around (x :: n :: l) e) := by
  by_cases hxe : x = e
  · subst hxe
    have hold : around (x :: l) x = l ++ [x] := by
      simpa using around_append (a := []) (b := l) List.not_mem_nil
    have hnew : around (x :: n :: l) x = n :: (l ++ [x]) := by
      simpa using around_append (a := []) (b := n :: l) List.not_mem_nil
    rw [hold] at h
    rw [hnew]
    exact sooner_cons.mpr (Or.inr ⟨hn, h⟩)
  · have hl : e ∈ l := (List.mem_cons.mp he).resolve_left (fun heq => hxe heq.symm)
    obtain ⟨a, b, rfl, ha⟩ := List.eq_append_cons_of_mem hl
    have hold : around (x :: (a ++ e :: b)) e = (b ++ [x]) ++ (a ++ [e]) := by
      have := around_append (a := x :: a) (b := b) (e := e) (by simp [ha, Ne.symm hxe])
      simpa using this
    have hnew : around (x :: n :: (a ++ e :: b)) e = (b ++ [x]) ++ n :: (a ++ [e]) := by
      have := around_append (a := x :: n :: a) (b := b) (e := e)
        (by simp [ha, Ne.symm hxe, Ne.symm hne])
      simpa using this
    rw [hold] at h
    rw [hnew]
    exact h.insert hn

end Ucore.Library
