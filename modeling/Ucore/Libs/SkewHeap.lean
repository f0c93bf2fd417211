import Mathlib.Data.List.Perm.Basic
import Mathlib.Data.Int.Notation
import Ucore.Library.LinkedTree

/-!
The skew heap of `skew_heap.h`, and what its operations do to a linked tree. The shape
lemmas hold for every comparator; the order of the heap needs that the comparator decides it
among the entries at hand.
-/
namespace Ucore.Libs

open Library Library.LinkedTree

/-- `struct skew_heap_entry` -/
abbrev SkewHeapEntry (N : Type*) := TreeLinks N

section Operations

variable {N : Type*} [DecidableEq N]

def skewHeapInit (links : N → SkewHeapEntry N) (a : N) : N → SkewHeapEntry N :=
  Function.update links a ⟨none, none, none⟩

/-- The recursion has a call for each entry on the way down, and `depth` bounds them. -/
def skewHeapMerge (comp : N → N → ℤ) :
    ℕ → (N → SkewHeapEntry N) → Option N → Option N → Option ((N → SkewHeapEntry N) × Option N)
  | 0, _, _, _ => none
  | _ + 1, links, none, b => some (links, b)
  | _ + 1, links, some a, none => some (links, some a)
  | depth + 1, links, some a, some b =>
    if comp a b = -1 then
      (skewHeapMerge comp depth links (links a).right (some b)).map
        (fun m => (adopt m.1 a m.2 (links a).left, some a))
    else
      (skewHeapMerge comp depth links (some a) (links b).right).map
        (fun m => (adopt m.1 b m.2 (links b).left, some b))

def skewHeapInsert (comp : N → N → ℤ) (depth : ℕ) (links : N → SkewHeapEntry N) (a : Option N)
    (b : N) : Option ((N → SkewHeapEntry N) × Option N) :=
  skewHeapMerge comp depth (skewHeapInit links b) a (some b)

def skewHeapRemove (comp : N → N → ℤ) (depth : ℕ) (links : N → SkewHeapEntry N) (a : Option N)
    (b : N) : Option ((N → SkewHeapEntry N) × Option N) :=
  let p := (links b).parent
  (skewHeapMerge comp depth links (links b).left (links b).right).map fun m =>
    let links := setParent m.1 p m.2
    match p with
    | some p =>
      if (links p).left = some b then
        (Function.update links p { links p with left := m.2 }, a)
      else (Function.update links p { links p with right := m.2 }, a)
    | none => (links, m.2)

end Operations

variable {N : Type*}

/-- Among these entries the comparator's -1 puts the first one below, any other value the
second one. -/
def Decides (comp : N → N → ℤ) (le : N → N → Prop) (S : List N) : Prop :=
  ∀ x ∈ S, ∀ y ∈ S, (comp x y = -1 → le x y) ∧ (comp x y ≠ -1 → le y x)

/-- `t` is what a merge makes of `ta` and `tb`. -/
structure Merged (comp : N → N → ℤ) (links links' : N → SkewHeapEntry N)
    (ta tb t : BinaryTree N) : Prop where
  linked : Linked links' t
  perm : (members t).Perm (members ta ++ members tb)
  top : ∀ x, root t = some x → root ta = some x ∨ root tb = some x
  parent : ∀ x, root t = some x → (links' x).parent = (links x).parent
  frame : ∀ x, x ∉ members ta ++ members tb → links' x = links x
  ordered : ∀ le : N → N → Prop, (∀ x y z, le x y → le y z → le x z) →
    Decides comp le (members ta ++ members tb) →
    Ordered le ta → Ordered le tb → Ordered le t

variable {comp : N → N → ℤ} {links links' : N → SkewHeapEntry N} {ta tb t l r : BinaryTree N}
  {a b x : N}

theorem Decides.mono {le : N → N → Prop} {S T : List N} (h : Decides comp le S)
    (hsub : ∀ x ∈ T, x ∈ S) : Decides comp le T :=
  fun x hx y hy => h x (hsub x hx) y (hsub y hy)

theorem mem_tail_append (hx : x ∈ members r ++ members tb) :
    x ∈ members (.node a l r) ++ members tb := by
  rcases List.mem_append.mp hx with hx | hx
  · exact List.mem_append_left _ (List.mem_cons_of_mem a (List.mem_append_right _ hx))
  · exact List.mem_append_right _ hx

theorem Merged.swap (h : Merged comp links links' tb ta t) : Merged comp links links' ta tb t where
  linked := h.linked
  perm := h.perm.trans List.perm_append_comm
  top x hx := (h.top x hx).symm
  parent := h.parent
  frame x hx := h.frame x (fun hin => hx (List.perm_append_comm.mem_iff.mp hin))
  ordered le htrans hdec hoa hob :=
    h.ordered le htrans (hdec.mono fun _ hx => List.perm_append_comm.mem_iff.mp hx) hob hoa

variable [DecidableEq N]

/-- The node `a` that comes out above takes the merge of its right subtree with the other
tree as its left subtree, and its left subtree as its right one. -/
theorem Merged.above (h : Merged comp links links' r tb t) (ha : Linked links (.node a l r))
    (hnodup : (members (.node a l r) ++ members tb).Nodup)
    (hle : ∀ le : N → N → Prop, (∀ x y z, le x y → le y z → le x z) →
      Decides comp le (members (.node a l r) ++ members tb) → Ordered le tb →
      ∀ y ∈ members tb, le a y) :
    Merged comp links (adopt links' a (root t) (links a).left) (.node a l r) tb
      (.node a t l) := by
  obtain ⟨hleft, hright, hpl, hpr, hl, hr⟩ := ha
  have hperm : (a :: (members t ++ members l)).Perm (members (.node a l r) ++ members tb) := by
    refine List.Perm.cons a ?_
    have hswap := h.perm.append_right (members l)
    refine hswap.trans (List.perm_append_comm.trans ?_)
    exact List.Perm.of_eq (List.append_assoc _ _ _).symm
  have hnodup' := hperm.nodup_iff.mpr hnodup
  obtain ⟨hout, happ⟩ := List.nodup_cons.mp hnodup'
  have hsub : ∀ x, x ∉ members t → x ∉ members r ++ members tb := fun x hx hin =>
    hx (h.perm.mem_iff.mpr hin)
  have hlframe : ∀ y ∈ members l, links' y = links y := by
    intro y hy
    refine h.frame y (hsub y ?_)
    exact fun hin => (List.nodup_append.mp happ).2.2 y hin y hy rfl
  have haframe : links' a = links a :=
    h.frame a (hsub a (fun hin => hout (List.mem_append_left _ hin)))
  have hne : root t ≠ some a := fun heq => hout (List.mem_append_left _ (root_mem heq))
  constructor
  · rw [hleft]
    refine h.linked.adopted (hl.frame hlframe) hnodup' ?_
    intro c hc
    rw [hlframe c (root_mem hc)]
    exact hpl c hc
  · exact hperm
  · exact fun x hx => Or.inl hx
  · intro x hx
    have hxa : a = x := Option.some.inj hx
    rw [← hxa, adopt_self hne, haframe]
  · intro x hx
    have hxt : x ∉ a :: (members t ++ members l) := fun hin => hx (hperm.mem_iff.mp hin)
    have hxa : x ≠ a := fun heq => hxt (heq ▸ List.mem_cons_self)
    have hxm : x ∉ members t := fun hin =>
      hxt (List.mem_cons_of_mem a (List.mem_append_left _ hin))
    rw [adopt_of_ne hxa (fun heq => hxm (root_mem heq))]
    exact h.frame x (hsub x hxm)
  · intro le htrans hdec hoa hob
    obtain ⟨hal, har, hol, hor⟩ := hoa
    have hbelow := hle le htrans hdec hob
    refine ⟨?_, hal, h.ordered le htrans (hdec.mono fun x hx => mem_tail_append hx) hor hob, hol⟩
    intro y hy
    rcases List.mem_append.mp (h.perm.mem_iff.mp hy) with hy | hy
    · exact har y hy
    · exact hbelow y hy

omit [DecidableEq N] in
theorem size_lt {n : ℕ} (h : (members (.node a l r)).length + (members tb).length < n + 1) :
    (members r).length + (members tb).length < n := by
  rw [members, List.length_cons, List.length_append] at h
  omega

/-- A merge has its result when there is a call for every entry. -/
theorem skewHeapMerge_spec (comp : N → N → ℤ) {depth : ℕ}
    (hdepth : (members ta).length + (members tb).length < depth) (hta : Linked links ta)
    (htb : Linked links tb) (hnodup : (members ta ++ members tb).Nodup) :
    ∃ links' t, skewHeapMerge comp depth links (root ta) (root tb) = some (links', root t) ∧
      Merged comp links links' ta tb t := by
  induction depth generalizing ta tb with
  | zero => omega
  | succ depth ih =>
    cases ta with
    | nil =>
      refine ⟨links, tb, rfl, htb, List.Perm.refl _, fun _ => Or.inr, fun _ _ => rfl,
        fun _ _ => rfl, ?_⟩
      exact fun _ _ _ _ hob => hob
    | node a la ra =>
      cases tb with
      | nil =>
        refine ⟨links, .node a la ra, rfl, hta, ?_, fun _ => Or.inl, fun _ _ => rfl,
          fun _ _ => rfl, ?_⟩
        · exact List.Perm.of_eq (List.append_nil _).symm
        · exact fun _ _ _ hoa _ => hoa
      | node b lb rb =>
        have hab : a ∈ members (.node a la ra) ++ members (.node b lb rb) :=
          List.mem_append_left _ List.mem_cons_self
        have hbb : b ∈ members (.node a la ra) ++ members (.node b lb rb) :=
          List.mem_append_right _ List.mem_cons_self
        by_cases hc : comp a b = -1
        · have hra : Linked links ra := hta.2.2.2.2.2
          have hnd : (members ra ++ members (.node b lb rb)).Nodup :=
            hnodup.sublist (((List.sublist_append_right _ _).trans
              (List.sublist_cons_self _ _)).append_right _)
          obtain ⟨links₁, t₁, hrun, hm⟩ := ih (size_lt hdepth) hra htb hnd
          refine ⟨_, .node a t₁ la, ?_, hm.above hta hnodup ?_⟩
          · rw [root, root, skewHeapMerge, if_pos hc, hta.2.1]
            rw [root] at hrun
            rw [hrun]
            rfl
          · intro le htrans hdec hob y hy
            have hle : le a b := (hdec a hab b hbb).1 hc
            rcases eq_or_ne y b with heq | hne
            · exact heq ▸ hle
            · exact htrans a b y hle (hob.root_le rfl hy hne)
        · have hrb : Linked links rb := htb.2.2.2.2.2
          have hswap : (members (.node b lb rb) ++ members (.node a la ra)).Nodup :=
            List.perm_append_comm.nodup_iff.mp hnodup
          have hnd : (members (.node a la ra) ++ members rb).Nodup :=
            hnodup.sublist (((List.sublist_append_right _ _).trans
              (List.sublist_cons_self _ _)).append_left _)
          have hdepth' : (members (.node a la ra)).length + (members rb).length < depth := by
            have hsize := size_lt (Nat.add_comm _ _ ▸ hdepth)
            omega
          obtain ⟨links₁, t₁, hrun, hm⟩ := ih hdepth' hta hrb hnd
          refine ⟨_, .node b t₁ lb, ?_, (hm.swap.above htb hswap ?_).swap⟩
          · rw [root, root, skewHeapMerge, if_neg hc, htb.2.1]
            rw [root] at hrun
            rw [hrun]
            rfl
          · intro le htrans hdec hoa y hy
            have hle : le b a :=
              (hdec a (List.perm_append_comm.mem_iff.mp hab) b
                (List.perm_append_comm.mem_iff.mp hbb)).2 hc
            rcases eq_or_ne y a with heq | hne
            · exact heq ▸ hle
            · exact htrans b a y hle (hoa.root_le rfl hy hne)

/-- The memory of a whole heap: the links are those of the tree, no entry stands twice, and
the root has no parent. -/
structure Heap (links : N → SkewHeapEntry N) (t : BinaryTree N) : Prop where
  linked : Linked links t
  nodup : (members t).Nodup
  top : ∀ x, root t = some x → (links x).parent = none

omit [DecidableEq N] in
theorem Heap.frame (h : Heap links t) (heq : ∀ x ∈ members t, links' x = links x) :
    Heap links' t where
  linked := h.linked.frame heq
  nodup := h.nodup
  top x hx := by
    rw [heq x (root_mem hx)]
    exact h.top x hx

theorem skewHeapInsert_spec (comp : N → N → ℤ) {depth : ℕ} (h : Heap links t) (hb : b ∉ members t)
    (hdepth : (members t).length + 1 < depth) :
    ∃ links' t', skewHeapInsert comp depth links (root t) b = some (links', root t') ∧
      Heap links' t' ∧ (members t').Perm (members t ++ [b]) ∧
      ∀ le : N → N → Prop, (∀ x y z, le x y → le y z → le x z) →
        Decides comp le (members t ++ [b]) → Ordered le t → Ordered le t' := by
  have hne : ∀ y ∈ members t, skewHeapInit links b y = links y := by
    intro y hy
    have hyb : y ≠ b := fun heq => hb (heq ▸ hy)
    exact Function.update_of_ne hyb _ _
  have hself : skewHeapInit links b b = ⟨none, none, none⟩ := Function.update_self _ _ _
  have hsingle : Linked (skewHeapInit links b) (.node b .nil .nil) := by
    refine ⟨by rw [hself, root], by rw [hself, root], ?_, ?_, trivial, trivial⟩
    · exact fun c hc => absurd hc (Option.not_mem_none c)
    · exact fun c hc => absurd hc (Option.not_mem_none c)
  have hnodup : (members t ++ [b]).Nodup := by
    refine List.nodup_append.mpr ⟨h.nodup, List.nodup_singleton b, ?_⟩
    intro x hx y hy heq
    rw [heq, List.mem_singleton.mp hy] at hx
    exact hb hx
  obtain ⟨links', t', hrun, hm⟩ := skewHeapMerge_spec comp hdepth
    (h.linked.frame hne) hsingle hnodup
  refine ⟨links', t', hrun, ⟨hm.linked, hm.perm.nodup_iff.mpr hnodup, ?_⟩, hm.perm, ?_⟩
  · intro x hx
    rw [hm.parent x hx]
    rcases hm.top x hx with hin | hin
    · rw [hne x (root_mem hin)]
      exact h.top x hin
    · rw [← Option.some.inj hin, hself]
  · intro le htrans hdec hot
    refine hm.ordered le htrans hdec hot ⟨?_, ?_, trivial, trivial⟩
    · exact fun y hy => absurd hy List.not_mem_nil
    · exact fun y hy => absurd hy List.not_mem_nil

/-- An entry that the root is not below comes out on top. -/
theorem skewHeapInsert_top {depth : ℕ} {pool pool' : Option N}
    (h : skewHeapInsert comp depth links pool b = some (links', pool'))
    (htop : ∀ a, pool = some a → comp a b ≠ -1) : pool' = some b := by
  unfold skewHeapInsert at h
  cases depth with
  | zero => exact absurd h (by simp [skewHeapMerge])
  | succ depth =>
    cases pool with
    | none =>
      rw [skewHeapMerge] at h
      exact (Prod.mk.inj (Option.some.inj h)).2.symm
    | some a =>
      rw [skewHeapMerge, if_neg (htop a rfl)] at h
      obtain ⟨m, -, hm⟩ := Option.map_eq_some_iff.mp h
      exact (Prod.mk.inj hm).2.symm

/-- The root leaves the heap. Its own key does not count any more. -/
theorem skewHeapRemove_root (comp : N → N → ℤ) {depth : ℕ} (h : Heap links (.node b l r))
    (hdepth : (members l).length + (members r).length < depth) (pool : Option N) :
    ∃ links' t', skewHeapRemove comp depth links pool b = some (links', root t') ∧
      Heap links' t' ∧ (members t').Perm (members l ++ members r) ∧
      ∀ le : N → N → Prop, (∀ x y z, le x y → le y z → le x z) →
        Decides comp le (members l ++ members r) → Ordered le l → Ordered le r →
        Ordered le t' := by
  obtain ⟨hleft, hright, _, _, hl, hr⟩ := h.linked
  have hnodup := (List.nodup_cons.mp h.nodup).2
  have hp : (links b).parent = none := h.top b rfl
  obtain ⟨links', t', hrun, hm⟩ := skewHeapMerge_spec comp hdepth hl hr hnodup
  have hnodup' := hm.perm.nodup_iff.mpr hnodup
  refine ⟨setParent links' none (root t'), t', ?_, ⟨hm.linked.reparent hnodup', hnodup', ?_⟩,
    hm.perm, hm.ordered⟩
  · simp only [skewHeapRemove, hp, hleft, hright, hrun, Option.map_some]
  · intro x hx
    rw [hx]
    exact setParent_parent

end Ucore.Libs
