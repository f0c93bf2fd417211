import Ucore.Libs.SkewHeap

/-!
Skew heaps under a comparator that is a total preorder on the entries at hand. Every operation
leaves a heap with the entries it should have, and the root of a heap is a smallest entry.
-/
namespace Ucore.Libs

open Library Library.LinkedTree

variable {N : Type*}

/-- `y` is not strictly below `x`. -/
def NotAbove (comp : N → N → ℤ) (x y : N) : Prop := comp y x ≠ -1

/-- Among these entries the comparator is a total preorder. -/
structure TotalPreorder (comp : N → N → ℤ) (S : List N) : Prop where
  total : ∀ x ∈ S, ∀ y ∈ S, NotAbove comp x y ∨ NotAbove comp y x
  trans : ∀ x ∈ S, ∀ y ∈ S, ∀ z ∈ S, NotAbove comp x y → NotAbove comp y z → NotAbove comp x z

/-- A heap: the memory is that of the tree, the root has no parent, and no entry is strictly
below one that stands above it. -/
structure WellFormedHeap (comp : N → N → ℤ) (links : N → SkewHeapEntry N) (t : BinaryTree N) :
    Prop where
  heap : Heap links t
  ordered : Ordered (NotAbove comp) t

/-- The order among the entries of a list, as a relation on all entries. -/
def Among (comp : N → N → ℤ) (S : List N) (x y : N) : Prop := x ∈ S ∧ y ∈ S ∧ NotAbove comp x y

variable {comp comp' : N → N → ℤ} {links links' : N → SkewHeapEntry N} {S T : List N}
  {t ta tb l r : BinaryTree N} {a b x y : N}

theorem TotalPreorder.mono (h : TotalPreorder comp S) (hsub : ∀ x ∈ T, x ∈ S) :
    TotalPreorder comp T where
  total x hx y hy := h.total x (hsub x hx) y (hsub y hy)
  trans x hx y hy z hz := h.trans x (hsub x hx) y (hsub y hy) z (hsub z hz)

theorem TotalPreorder.congr (h : TotalPreorder comp S)
    (heq : ∀ x ∈ S, ∀ y ∈ S, comp' x y = comp x y) : TotalPreorder comp' S where
  total x hx y hy := by
    simp only [NotAbove, heq x hx y hy, heq y hy x hx]
    exact h.total x hx y hy
  trans x hx y hy z hz := by
    simp only [NotAbove, heq y hy x hx, heq z hz y hy, heq z hz x hx]
    exact h.trans x hx y hy z hz

theorem TotalPreorder.among_trans (h : TotalPreorder comp S) (x y z : N)
    (hxy : Among comp S x y) (hyz : Among comp S y z) : Among comp S x z :=
  ⟨hxy.1, hyz.2.1, h.trans x hxy.1 y hyz.1 z hyz.2.1 hxy.2.2 hyz.2.2⟩

/-- A comparator of this kind decides the order. -/
theorem TotalPreorder.decides (h : TotalPreorder comp S) : Decides comp (Among comp S) S := by
  intro x hx y hy
  constructor
  · intro hlt
    refine ⟨hx, hy, ?_⟩
    rcases h.total x hx y hy with hle | hle
    · exact hle
    · exact absurd hlt hle
  · intro hnot
    exact ⟨hy, hx, hnot⟩

theorem ordered_among (h : Ordered (NotAbove comp) t) (hsub : ∀ x ∈ members t, x ∈ S) :
    Ordered (Among comp S) t :=
  h.congr (fun x hx y hy hle => ⟨hsub x hx, hsub y hy, hle⟩)

theorem ordered_of_among (h : Ordered (Among comp S) t) : Ordered (NotAbove comp) t :=
  h.congr (fun _ _ _ _ hle => hle.2.2)

/-- The root is a smallest entry. -/
theorem WellFormedHeap.root_minimum (h : WellFormedHeap comp links t)
    (hcomp : TotalPreorder comp (members t)) (hx : root t = some x) (hy : y ∈ members t) :
    NotAbove comp x y := by
  by_cases hne : y = x
  · subst hne
    rcases hcomp.total y hy y hy with hle | hle
    · exact hle
    · exact hle
  · exact h.ordered.root_le hx hy hne

/-- Merging trees that are in order gives a tree in order. -/
theorem Merged.ordered_of_preorder (h : Merged comp links links' ta tb t)
    (hcomp : TotalPreorder comp (members ta ++ members tb)) (ha : Ordered (NotAbove comp) ta)
    (hb : Ordered (NotAbove comp) tb) : Ordered (NotAbove comp) t :=
  ordered_of_among (h.ordered _ hcomp.among_trans hcomp.decides
    (ordered_among ha (fun _ hx => List.mem_append_left _ hx))
    (ordered_among hb (fun _ hx => List.mem_append_right _ hx)))

variable [DecidableEq N]

theorem skewHeapMerge_heap {depth : ℕ} (ha : WellFormedHeap comp links ta)
    (hb : WellFormedHeap comp links tb) (hnodup : (members ta ++ members tb).Nodup)
    (hcomp : TotalPreorder comp (members ta ++ members tb))
    (hdepth : (members ta).length + (members tb).length < depth) :
    ∃ links' t, skewHeapMerge comp depth links (root ta) (root tb) = some (links', root t) ∧
      WellFormedHeap comp links' t ∧ (members t).Perm (members ta ++ members tb) := by
  obtain ⟨links', t, hrun, hm⟩ := skewHeapMerge_spec comp hdepth ha.heap.linked hb.heap.linked
    hnodup
  refine ⟨links', t, hrun, ⟨⟨hm.linked, hm.perm.nodup_iff.mpr hnodup, ?_⟩,
    hm.ordered_of_preorder hcomp ha.ordered hb.ordered⟩, hm.perm⟩
  intro x hx
  rw [hm.parent x hx]
  rcases hm.top x hx with htop | htop
  · exact ha.heap.top x htop
  · exact hb.heap.top x htop

theorem skewHeapInsert_heap {depth : ℕ} (h : WellFormedHeap comp links t) (hb : b ∉ members t)
    (hcomp : TotalPreorder comp (members t ++ [b])) (hdepth : (members t).length + 1 < depth) :
    ∃ links' t', skewHeapInsert comp depth links (root t) b = some (links', root t') ∧
      WellFormedHeap comp links' t' ∧ (members t').Perm (members t ++ [b]) := by
  obtain ⟨links', t', hrun, hheap, hperm, hord⟩ := skewHeapInsert_spec comp h.heap hb hdepth
  refine ⟨links', t', hrun, ⟨hheap, ?_⟩, hperm⟩
  exact ordered_of_among (hord _ hcomp.among_trans hcomp.decides
    (ordered_among h.ordered (fun _ hx => List.mem_append_left _ hx)))

/-- The root leaves, whatever the comparator says about it by now. -/
theorem skewHeapRemove_top {depth : ℕ} (h : WellFormedHeap comp links t)
    (hcomp : TotalPreorder comp (members t)) (hroot : root t = some b)
    (heq : ∀ x ∈ members t, ∀ y ∈ members t, x ≠ b → y ≠ b → comp' x y = comp x y)
    (hdepth : (members t).length < depth) :
    ∃ links' t', skewHeapRemove comp' depth links (root t) b = some (links', root t') ∧
      WellFormedHeap comp' links' t' ∧ (b :: members t').Perm (members t) := by
  obtain ⟨l, r, rfl⟩ := exists_node hroot
  obtain ⟨hout, -⟩ := List.nodup_cons.mp h.heap.nodup
  have hdepth' : (members l).length + (members r).length < depth := by
    rw [members, List.length_cons, List.length_append] at hdepth
    omega
  obtain ⟨links', t', hrun, hheap, hperm, hord⟩ := skewHeapRemove_root comp' h.heap hdepth'
    (root (.node b l r))
  have hothers : ∀ x ∈ members l ++ members r, x ∈ members (.node b l r) ∧ x ≠ b := by
    intro x hx
    exact ⟨List.mem_cons_of_mem b hx, fun hxb => hout (hxb ▸ hx)⟩
  have hcomp' : TotalPreorder comp' (members l ++ members r) := by
    refine (hcomp.mono (fun x hx => (hothers x hx).1)).congr ?_
    intro x hx y hy
    exact heq x (hothers x hx).1 y (hothers y hy).1 (hothers x hx).2 (hothers y hy).2
  have hsame : ∀ u : BinaryTree N, (∀ x ∈ members u, x ∈ members l ++ members r) →
      Ordered (NotAbove comp) u → Ordered (Among comp' (members l ++ members r)) u := by
    intro u hu hou
    refine hou.congr (fun x hx y hy hle => ⟨hu x hx, hu y hy, ?_⟩)
    obtain ⟨hx1, hx2⟩ := hothers x (hu x hx)
    obtain ⟨hy1, hy2⟩ := hothers y (hu y hy)
    unfold NotAbove
    rw [heq y hy1 x hx1 hy2 hx2]
    exact hle
  obtain ⟨-, -, hol, hor⟩ := h.ordered
  refine ⟨links', t', hrun, ⟨hheap, ?_⟩, List.Perm.cons b hperm⟩
  exact ordered_of_among (hord _ hcomp'.among_trans hcomp'.decides
    (hsame l (fun _ hx => List.mem_append_left _ hx) hol)
    (hsame r (fun _ hx => List.mem_append_right _ hx) hor))

/-- Removal below the root: what the subtrees are merged to takes the place of the entry. -/
theorem skewHeapRemove_inner {depth : ℕ} (h : WellFormedHeap comp links t)
    (hcomp : TotalPreorder comp (members t)) (hb : b ∈ members t) (hroot : root t ≠ some b)
    (hdepth : (members t).length < depth) :
    ∃ links' t', skewHeapRemove comp depth links (root t) b = some (links', root t') ∧
      WellFormedHeap comp links' t' ∧ (b :: members t').Perm (members t) := by
  obtain ⟨l, r, p, hinner, hrep⟩ := h.heap.linked.replace h.heap.nodup hb hroot
  obtain ⟨hleft, hright, -, -, hl, hr⟩ := hinner.linked
  have hsub : (members l ++ members r).Sublist (members t) :=
    (List.sublist_cons_self b _).trans hinner.sublist
  have hnodup : (members l ++ members r).Nodup := h.heap.nodup.sublist hsub
  have hdepth' : (members l).length + (members r).length < depth := by
    have hle := hsub.length_le
    rw [List.length_append] at hle
    omega
  obtain ⟨links₁, m, hrun, hm⟩ := skewHeapMerge_spec comp hdepth' hl hr hnodup
  obtain ⟨t', ht'⟩ := hrep links₁ m ⟨hm.linked, hm.perm, hm.frame⟩
  obtain ⟨-, -, hol, hor⟩ := hinner.ordered _ h.ordered
  have hom := hm.ordered_of_preorder (hcomp.mono (fun x hx => hsub.subset hx)) hol hor
  have hnodup' : (members t').Nodup :=
    (List.nodup_cons.mp (ht'.perm.nodup_iff.mpr h.heap.nodup)).2
  refine ⟨replaceChild links₁ p b (root m), t', ?_, ⟨⟨ht'.linked, hnodup', ?_⟩,
    ht'.ordered _ h.ordered hom⟩, ht'.perm⟩
  · simp only [skewHeapRemove, hinner.parent, hleft, hright, hrun, Option.map_some,
      ht'.root_eq, replaceChild]
    split
    · rfl
    · rfl
  · intro x hx
    rw [ht'.root_eq] at hx
    rw [ht'.parent x hx]
    exact h.heap.top x hx

/-- The operation ends with a heap of these entries, and a smallest one at its root. -/
def Gives (comp : N → N → ℤ) (r : Option ((N → SkewHeapEntry N) × Option N)) (entries : List N) :
    Prop :=
  ∃ links' t', r = some (links', root t') ∧ WellFormedHeap comp links' t' ∧
    (members t').Perm entries ∧ ∀ x, root t' = some x → ∀ y ∈ members t', NotAbove comp x y

omit [DecidableEq N] in
theorem Gives.of_heap {r : Option ((N → SkewHeapEntry N) × Option N)} {entries : List N}
    (hrun : r = some (links', root t)) (h : WellFormedHeap comp links' t)
    (hperm : (members t).Perm entries) (hcomp : TotalPreorder comp entries) :
    Gives comp r entries :=
  ⟨links', t, hrun, h, hperm, fun _ hx _ hy =>
    h.root_minimum (hcomp.mono (fun _ hz => hperm.mem_iff.mp hz)) hx hy⟩

theorem perm_erase_of_cons {xs ys : List N} (h : (b :: xs).Perm ys) : xs.Perm (ys.erase b) := by
  have herase := h.erase b
  rwa [List.erase_cons_head] at herase

/-- Numbers as their own keys. -/
def compareKeys (x y : ℕ) : ℤ := if x < y then -1 else if x = y then 0 else 1

theorem compareKeys_preorder (S : List ℕ) : TotalPreorder compareKeys S := by
  have hle : ∀ x y, NotAbove compareKeys x y ↔ x ≤ y := by
    intro x y
    unfold NotAbove compareKeys
    split
    · omega
    · split <;> omega
  constructor
  · intro x _ y _
    rw [hle, hle]
    exact Nat.le_total x y
  · intro x _ y _ z _
    rw [hle, hle, hle]
    exact Nat.le_trans

end Ucore.Libs
