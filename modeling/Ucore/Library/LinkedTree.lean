import Mathlib.Data.Tree.Basic
import Mathlib.Data.List.Nodup
import Mathlib.Logic.Function.Basic

/-!
Binary trees kept in memory. Every node holds the links of its parent and of its two
children, and the nodes of several trees lie in one memory. A heap-ordered tree has a
smallest node at its root.
-/
namespace Ucore.Library

structure TreeLinks (α : Type*) where
  parent : Option α
  left : Option α
  right : Option α
deriving DecidableEq

namespace LinkedTree

variable {α : Type*}

def root : BinaryTree α → Option α
  | .nil => none
  | .node x _ _ => some x

def members : BinaryTree α → List α
  | .nil => []
  | .node x l r => x :: (members l ++ members r)

/-- The root is below both subtrees, and so in each of them. -/
def Ordered (le : α → α → Prop) : BinaryTree α → Prop
  | .nil => True
  | .node x l r => (∀ y ∈ members l, le x y) ∧ (∀ y ∈ members r, le x y) ∧
      Ordered le l ∧ Ordered le r

/-- The links in memory are those of the tree. The parent of the root is left open. -/
def Linked (links : α → TreeLinks α) : BinaryTree α → Prop
  | .nil => True
  | .node x l r => (links x).left = root l ∧ (links x).right = root r ∧
      (∀ c, root l = some c → (links c).parent = some x) ∧
      (∀ c, root r = some c → (links c).parent = some x) ∧ Linked links l ∧ Linked links r

variable {links links' : α → TreeLinks α} {le : α → α → Prop} {t l r : BinaryTree α} {x y : α}

theorem root_mem (h : root t = some x) : x ∈ members t := by
  cases t with
  | nil => cases h
  | node y l r =>
    have hxy : y = x := Option.some.inj h
    rw [← hxy]
    exact List.mem_cons_self

theorem root_eq_none_iff : root t = none ↔ members t = [] := by
  cases t with
  | nil => exact iff_of_true rfl rfl
  | node y l r => exact iff_of_false (Option.some_ne_none y) (List.cons_ne_nil y _)

theorem exists_node (h : root t = some x) : ∃ l r, t = .node x l r := by
  cases t with
  | nil => cases h
  | node y l r =>
    have hxy : y = x := Option.some.inj h
    exact ⟨l, r, hxy ▸ rfl⟩

/-- The root of an ordered tree is a smallest node. -/
theorem Ordered.root_le (h : Ordered le t) (hr : root t = some x) (hy : y ∈ members t)
    (hne : y ≠ x) : le x y := by
  obtain ⟨l, r, rfl⟩ := exists_node hr
  rcases List.mem_cons.mp hy with heq | hy
  · exact absurd heq hne
  · rcases List.mem_append.mp hy with hy | hy
    · exact h.1 y hy
    · exact h.2.1 y hy

theorem Ordered.congr {le' : α → α → Prop} (h : Ordered le t)
    (heq : ∀ x ∈ members t, ∀ y ∈ members t, le x y → le' x y) : Ordered le' t := by
  induction t with
  | nil => trivial
  | node x l r ihl ihr =>
    obtain ⟨hl, hr, hol, hor⟩ := h
    have hml : ∀ y ∈ members l, y ∈ members (.node x l r) := fun y hy =>
      List.mem_cons_of_mem x (List.mem_append_left _ hy)
    have hmr : ∀ y ∈ members r, y ∈ members (.node x l r) := fun y hy =>
      List.mem_cons_of_mem x (List.mem_append_right _ hy)
    refine ⟨?_, ?_, ihl hol ?_, ihr hor ?_⟩
    · exact fun y hy => heq x List.mem_cons_self y (hml y hy) (hl y hy)
    · exact fun y hy => heq x List.mem_cons_self y (hmr y hy) (hr y hy)
    · exact fun y hy z hz => heq y (hml y hy) z (hml z hz)
    · exact fun y hy z hz => heq y (hmr y hy) z (hmr z hz)

/-- The links and the root determine the tree. -/
theorem Linked.unique {t' : BinaryTree α} (h : Linked links t) (h' : Linked links t')
    (hroot : root t = root t') : t = t' := by
  induction t generalizing t' with
  | nil =>
    cases t' with
    | nil => rfl
    | node y l' r' => exact absurd hroot (by simp [root])
  | node x l r ihl ihr =>
    cases t' with
    | nil => exact absurd hroot (by simp [root])
    | node y l' r' =>
      obtain rfl : x = y := Option.some.inj hroot
      obtain ⟨hleft, hright, -, -, hl, hr⟩ := h
      obtain ⟨hleft', hright', -, -, hl', hr'⟩ := h'
      rw [ihl hl hl' (hleft.symm.trans hleft'), ihr hr hr' (hright.symm.trans hright')]

/-- Only the links of the nodes of the tree are read. -/
theorem Linked.frame (h : Linked links t) (heq : ∀ y ∈ members t, links' y = links y) :
    Linked links' t := by
  induction t with
  | nil => trivial
  | node x l r ihl ihr =>
    obtain ⟨hleft, hright, hpl, hpr, hl, hr⟩ := h
    have hml : ∀ y ∈ members l, links' y = links y := fun y hy =>
      heq y (List.mem_cons_of_mem x (List.mem_append_left _ hy))
    have hmr : ∀ y ∈ members r, links' y = links y := fun y hy =>
      heq y (List.mem_cons_of_mem x (List.mem_append_right _ hy))
    have hx : links' x = links x := heq x List.mem_cons_self
    refine ⟨by rw [hx, hleft], by rw [hx, hright], ?_, ?_, ihl hl hml, ihr hr hmr⟩
    · intro c hc
      rw [hml c (root_mem hc)]
      exact hpl c hc
    · intro c hc
      rw [hmr c (root_mem hc)]
      exact hpr c hc

variable [DecidableEq α]

/-- The parent of a node is set, if there is one. -/
def setParent (links : α → TreeLinks α) (p : Option α) : Option α → α → TreeLinks α
  | none => links
  | some x => Function.update links x { links x with parent := p }

theorem setParent_of_ne {p c : Option α} (h : c ≠ some y) : setParent links p c y = links y := by
  cases c with
  | none => rfl
  | some x =>
    have hne : y ≠ x := fun heq => h (heq ▸ rfl)
    exact Function.update_of_ne hne _ _

theorem setParent_parent {p : Option α} : (setParent links p (some x) x).parent = p := by
  rw [setParent, Function.update_self]

/-- The parent of the root may change. -/
theorem Linked.reparent {p : Option α} (h : Linked links t) (hnodup : (members t).Nodup) :
    Linked (setParent links p (root t)) t := by
  cases t with
  | nil => exact h
  | node x l r =>
    obtain ⟨hleft, hright, hpl, hpr, hl, hr⟩ := h
    have hout := (List.nodup_cons.mp hnodup).1
    have hother : ∀ y ∈ members l ++ members r, setParent links p (some x) y = links y := by
      intro y hy
      exact setParent_of_ne (fun heq => hout (Option.some.inj heq ▸ hy))
    have hml : ∀ y ∈ members l, setParent links p (some x) y = links y := fun y hy =>
      hother y (List.mem_append_left _ hy)
    have hmr : ∀ y ∈ members r, setParent links p (some x) y = links y := fun y hy =>
      hother y (List.mem_append_right _ hy)
    refine ⟨?_, ?_, ?_, ?_, hl.frame hml, hr.frame hmr⟩
    · rw [root, setParent, Function.update_self]
      exact hleft
    · rw [root, setParent, Function.update_self]
      exact hright
    · intro c hc
      rw [root, hml c (root_mem hc)]
      exact hpl c hc
    · intro c hc
      rw [root, hmr c (root_mem hc)]
      exact hpr c hc

/-- A node gets two children. Only the new left one is told its parent. -/
def adopt (links : α → TreeLinks α) (x : α) (l r : Option α) : α → TreeLinks α :=
  setParent (Function.update links x { links x with left := l, right := r }) (some x) l

theorem adopt_of_ne {l r : Option α} (hx : y ≠ x) (hl : l ≠ some y) :
    adopt links x l r y = links y := by
  rw [adopt, setParent_of_ne hl, Function.update_of_ne hx]

theorem adopt_self {l r : Option α} (hl : l ≠ some x) :
    adopt links x l r x = { links x with left := l, right := r } := by
  rw [adopt, setParent_of_ne hl, Function.update_self]

theorem Linked.adopted (hl : Linked links l) (hr : Linked links r)
    (hnodup : (x :: (members l ++ members r)).Nodup)
    (hpr : ∀ c, root r = some c → (links c).parent = some x) :
    Linked (adopt links x (root l) (root r)) (.node x l r) := by
  obtain ⟨hout, happ⟩ := List.nodup_cons.mp hnodup
  obtain ⟨hnl, _, hdisj⟩ := List.nodup_append.mp happ
  have hne : root l ≠ some x := fun h => hout (List.mem_append_left _ (root_mem h))
  have hmr : ∀ y ∈ members r, adopt links x (root l) (root r) y = links y := by
    intro y hy
    refine adopt_of_ne (fun heq => hout (heq ▸ List.mem_append_right _ hy)) ?_
    exact fun h => hdisj y (root_mem h) y hy rfl
  have hself : adopt links x (root l) (root r) x = _ := adopt_self hne
  refine ⟨by rw [hself], by rw [hself], ?_, ?_, ?_, hr.frame hmr⟩
  · intro c hc
    rw [adopt, hc]
    exact setParent_parent
  · intro c hc
    rw [hmr c (root_mem hc)]
    exact hpr c hc
  · refine Linked.reparent (hl.frame ?_) hnl
    intro y hy
    have hyx : y ≠ x := fun heq => hout (heq ▸ List.mem_append_left _ hy)
    exact Function.update_of_ne hyx _ _

/-- The child `old` of `p` is replaced. The new child, if there is one, is told its parent. -/
def replaceChild (links : α → TreeLinks α) (p old : α) (new : Option α) : α → TreeLinks α :=
  let links := setParent links (some p) new
  if (links p).left = some old then Function.update links p { links p with left := new }
  else Function.update links p { links p with right := new }

theorem replaceChild_of_ne {p old : α} {new : Option α} (hp : y ≠ p) (hnew : new ≠ some y) :
    replaceChild links p old new y = links y := by
  unfold replaceChild
  split
  · rw [Function.update_of_ne hp, setParent_of_ne hnew]
  · rw [Function.update_of_ne hp, setParent_of_ne hnew]

theorem replaceChild_self {p old : α} {new : Option α} (hnew : new ≠ some p) :
    replaceChild links p old new p =
      if (links p).left = some old then { links p with left := new }
      else { links p with right := new } := by
  unfold replaceChild
  simp only [setParent_of_ne hnew]
  split
  · rw [Function.update_self]
  · rw [Function.update_self]

theorem replaceChild_parent {p old c : α} (hc : c ≠ p) :
    (replaceChild links p old (some c) c).parent = some p := by
  unfold replaceChild
  split
  · rw [Function.update_of_ne hc, setParent_parent]
  · rw [Function.update_of_ne hc, setParent_parent]

/-- The new child keeps its links. -/
theorem Linked.replaced {p old : α} (h : Linked links t) (hnodup : (members t).Nodup)
    (hp : p ∉ members t) : Linked (replaceChild links p old (root t)) t := by
  refine (h.reparent hnodup (p := some p)).frame ?_
  intro y hy
  have hne : y ≠ p := fun heq => hp (heq ▸ hy)
  unfold replaceChild
  split
  · exact Function.update_of_ne hne _ _
  · exact Function.update_of_ne hne _ _

/-- The place of an inner node `b`: its parent `p`, and its subtrees `l` and `r`. -/
structure Inner (links : α → TreeLinks α) (t : BinaryTree α) (b : α) (l r : BinaryTree α)
    (p : α) : Prop where
  parent : (links b).parent = some p
  linked : Linked links (.node b l r)
  sublist : (members (.node b l r)).Sublist (members t)
  ordered : ∀ le : α → α → Prop, Ordered le t → Ordered le (.node b l r)

/-- The tree `m` has the nodes of `l` and `r`, and nothing else has changed in memory. -/
structure Joined (links links' : α → TreeLinks α) (l r m : BinaryTree α) : Prop where
  linked : Linked links' m
  perm : (members m).Perm (members l ++ members r)
  frame : ∀ y, y ∉ members l ++ members r → links' y = links y

/-- After the child `b` of `p` was replaced by `m` the memory holds `t'`, which has the nodes
of `t` without `b`. -/
structure Replaced (links links' : α → TreeLinks α) (t : BinaryTree α) (b p : α)
    (m t' : BinaryTree α) : Prop where
  root_eq : root t' = root t
  linked : Linked (replaceChild links' p b (root m)) t'
  perm : (b :: members t').Perm (members t)
  parent : ∀ x, root t = some x →
    (replaceChild links' p b (root m) x).parent = (links x).parent
  frame : ∀ y, y ∉ members t → replaceChild links' p b (root m) y = links y
  ordered : ∀ le : α → α → Prop, Ordered le t → Ordered le m → Ordered le t'

variable {b p : α} {m tl tr t' : BinaryTree α}

omit [DecidableEq α] in
theorem Joined.mem_iff (h : Joined links links' l r m) : y ∈ members m ↔ y ∈ members l ++ members r :=
  h.perm.mem_iff

/-- Outside the node `b` and the nodes below it the memory is the same, the child link of `p`
apart. -/
theorem Joined.replaceChild_eq (h : Joined links links' l r m)
    (hy : y ∉ members (.node b l r)) (hp : y ≠ p) :
    replaceChild links' p b (root m) y = links y := by
  have hout : y ∉ members l ++ members r := fun hin => hy (List.mem_cons_of_mem b hin)
  rw [replaceChild_of_ne hp (fun heq => hout (h.mem_iff.mp (root_mem heq)))]
  exact h.frame y hout

omit [DecidableEq α] in
theorem Joined.nodup (h : Joined links links' l r m) (hnodup : (members (.node b l r)).Nodup) :
    (members m).Nodup :=
  h.perm.nodup_iff.mpr (List.nodup_cons.mp hnodup).2

/-- The left child of the root is replaced. -/
theorem Joined.replaced_left (h : Joined links links' l r m)
    (ht : Linked links (.node x (.node b l r) tr))
    (hnodup : (members (.node x (.node b l r) tr)).Nodup) :
    Replaced links links' (.node x (.node b l r) tr) b x m (.node x m tr) := by
  obtain ⟨hleft, hright, -, hpr, -, hr⟩ := ht
  obtain ⟨hout, happ⟩ := List.nodup_cons.mp hnodup
  obtain ⟨hnb, -, hdisj⟩ := List.nodup_append.mp happ
  have hxb : x ∉ members (.node b l r) := fun hin => hout (List.mem_append_left _ hin)
  have hxm : x ∉ members m :=
    fun hin => hxb (List.mem_cons_of_mem b (h.mem_iff.mp hin))
  have hlinks : links' x = links x :=
    h.frame x (fun hin => hxb (List.mem_cons_of_mem b hin))
  have hself : replaceChild links' x b (root m) x = { links x with left := root m } := by
    have hchild : (links x).left = some b := hleft
    rw [replaceChild_self (fun heq => hxm (root_mem heq)), hlinks, if_pos hchild]
  have htr : ∀ y ∈ members tr, replaceChild links' x b (root m) y = links y := by
    intro y hy
    refine h.replaceChild_eq (fun hin => hdisj y hin y hy rfl) ?_
    exact fun heq => hout (heq ▸ List.mem_append_right _ hy)
  refine ⟨rfl, ⟨?_, ?_, ?_, ?_, ?_, hr.frame htr⟩, ?_, ?_, ?_, ?_⟩
  · rw [hself]
  · rw [hself]
    exact hright
  · intro c hc
    rw [hc]
    exact replaceChild_parent (fun heq => hxm (heq ▸ root_mem hc))
  · intro c hc
    rw [htr c (root_mem hc)]
    exact hpr c hc
  · exact h.linked.replaced (h.nodup hnb) hxm
  · refine (List.Perm.swap x b _).trans (List.Perm.cons x ?_)
    exact (List.Perm.cons b (h.perm.append_right (members tr)))
  · intro z hz
    have hxz : x = z := Option.some.inj hz
    rw [← hxz, hself]
  · intro y hy
    refine h.replaceChild_eq ?_ (fun heq => hy (heq ▸ List.mem_cons_self))
    exact fun hin => hy (List.mem_cons_of_mem x (List.mem_append_left _ hin))
  · intro le hot hom
    obtain ⟨hal, har, -, hor⟩ := hot
    refine ⟨?_, har, hom, hor⟩
    exact fun y hy => hal y (List.mem_cons_of_mem b (h.mem_iff.mp hy))

/-- The right child of the root is replaced; the left one is another node. -/
theorem Joined.replaced_right (h : Joined links links' l r m)
    (ht : Linked links (.node x tl (.node b l r)))
    (hnodup : (members (.node x tl (.node b l r))).Nodup) :
    Replaced links links' (.node x tl (.node b l r)) b x m (.node x tl m) := by
  obtain ⟨hleft, -, hpl, -, hl, -⟩ := ht
  obtain ⟨hout, happ⟩ := List.nodup_cons.mp hnodup
  obtain ⟨-, hnb, hdisj⟩ := List.nodup_append.mp happ
  have hxb : x ∉ members (.node b l r) := fun hin => hout (List.mem_append_right _ hin)
  have hxm : x ∉ members m :=
    fun hin => hxb (List.mem_cons_of_mem b (h.mem_iff.mp hin))
  have hlinks : links' x = links x :=
    h.frame x (fun hin => hxb (List.mem_cons_of_mem b hin))
  have hnot : (links x).left ≠ some b := by
    rw [hleft]
    exact fun heq => hdisj b (root_mem heq) b List.mem_cons_self rfl
  have hself : replaceChild links' x b (root m) x = { links x with right := root m } := by
    rw [replaceChild_self (fun heq => hxm (root_mem heq)), hlinks, if_neg hnot]
  have htl : ∀ y ∈ members tl, replaceChild links' x b (root m) y = links y := by
    intro y hy
    refine h.replaceChild_eq (fun hin => hdisj y hy y hin rfl) ?_
    exact fun heq => hout (heq ▸ List.mem_append_left _ hy)
  refine ⟨rfl, ⟨?_, ?_, ?_, ?_, hl.frame htl, ?_⟩, ?_, ?_, ?_, ?_⟩
  · rw [hself]
    exact hleft
  · rw [hself]
  · intro c hc
    rw [htl c (root_mem hc)]
    exact hpl c hc
  · intro c hc
    rw [hc]
    exact replaceChild_parent (fun heq => hxm (heq ▸ root_mem hc))
  · exact h.linked.replaced (h.nodup hnb) hxm
  · refine (List.Perm.swap x b _).trans (List.Perm.cons x ?_)
    refine List.perm_middle.symm.trans (List.Perm.append_left _ ?_)
    exact List.Perm.cons b h.perm
  · intro z hz
    have hxz : x = z := Option.some.inj hz
    rw [← hxz, hself]
  · intro y hy
    refine h.replaceChild_eq ?_ (fun heq => hy (heq ▸ List.mem_cons_self))
    exact fun hin => hy (List.mem_cons_of_mem x (List.mem_append_right _ hin))
  · intro le hot hom
    obtain ⟨hal, har, hol, -⟩ := hot
    refine ⟨hal, ?_, hol, hom⟩
    exact fun y hy => har y (List.mem_cons_of_mem b (h.mem_iff.mp hy))

/-- A replacement inside the left subtree. -/
theorem Replaced.under_left (h : Replaced links links' tl b p m t')
    (ht : Linked links (.node x tl tr)) (hnodup : (members (.node x tl tr)).Nodup) :
    Replaced links links' (.node x tl tr) b p m (.node x t' tr) := by
  obtain ⟨hleft, hright, hpl, hpr, hl, hr⟩ := ht
  obtain ⟨hout, happ⟩ := List.nodup_cons.mp hnodup
  have hdisj := (List.nodup_append.mp happ).2.2
  have hself : replaceChild links' p b (root m) x = links x :=
    h.frame x (fun hin => hout (List.mem_append_left _ hin))
  have htr : ∀ y ∈ members tr, replaceChild links' p b (root m) y = links y :=
    fun y hy => h.frame y (fun hin => hdisj y hin y hy rfl)
  refine ⟨rfl, ⟨?_, ?_, ?_, ?_, h.linked, hr.frame htr⟩, ?_, ?_, ?_, ?_⟩
  · rw [hself, hleft, h.root_eq]
  · rw [hself, hright]
  · intro c hc
    rw [h.root_eq] at hc
    rw [h.parent c hc]
    exact hpl c hc
  · intro c hc
    rw [htr c (root_mem hc)]
    exact hpr c hc
  · refine (List.Perm.swap x b _).trans (List.Perm.cons x ?_)
    exact h.perm.append_right (members tr)
  · intro z hz
    have hxz : x = z := Option.some.inj hz
    rw [← hxz, hself]
  · intro y hy
    exact h.frame y (fun hin => hy (List.mem_cons_of_mem x (List.mem_append_left _ hin)))
  · intro le hot hom
    obtain ⟨hal, har, hol, hor⟩ := hot
    refine ⟨?_, har, h.ordered le hol hom, hor⟩
    exact fun y hy => hal y (h.perm.mem_iff.mp (List.mem_cons_of_mem b hy))

/-- A replacement inside the right subtree. -/
theorem Replaced.under_right (h : Replaced links links' tr b p m t')
    (ht : Linked links (.node x tl tr)) (hnodup : (members (.node x tl tr)).Nodup) :
    Replaced links links' (.node x tl tr) b p m (.node x tl t') := by
  obtain ⟨hleft, hright, hpl, hpr, hl, hr⟩ := ht
  obtain ⟨hout, happ⟩ := List.nodup_cons.mp hnodup
  have hdisj := (List.nodup_append.mp happ).2.2
  have hself : replaceChild links' p b (root m) x = links x :=
    h.frame x (fun hin => hout (List.mem_append_right _ hin))
  have htl : ∀ y ∈ members tl, replaceChild links' p b (root m) y = links y :=
    fun y hy => h.frame y (fun hin => hdisj y hy y hin rfl)
  refine ⟨rfl, ⟨?_, ?_, ?_, ?_, hl.frame htl, h.linked⟩, ?_, ?_, ?_, ?_⟩
  · rw [hself, hleft]
  · rw [hself, hright, h.root_eq]
  · intro c hc
    rw [htl c (root_mem hc)]
    exact hpl c hc
  · intro c hc
    rw [h.root_eq] at hc
    rw [h.parent c hc]
    exact hpr c hc
  · refine (List.Perm.swap x b _).trans (List.Perm.cons x ?_)
    refine List.perm_middle.symm.trans (List.Perm.append_left _ ?_)
    exact h.perm
  · intro z hz
    have hxz : x = z := Option.some.inj hz
    rw [← hxz, hself]
  · intro y hy
    exact h.frame y (fun hin => hy (List.mem_cons_of_mem x (List.mem_append_right _ hin)))
  · intro le hot hom
    obtain ⟨hal, har, hol, hor⟩ := hot
    refine ⟨hal, ?_, hol, h.ordered le hor hom⟩
    exact fun y hy => har y (h.perm.mem_iff.mp (List.mem_cons_of_mem b hy))

omit [DecidableEq α] in
theorem Inner.under_left (h : Inner links tl b l r p) : Inner links (.node x tl tr) b l r p where
  parent := h.parent
  linked := h.linked
  sublist := h.sublist.trans ((List.sublist_append_left _ _).trans (List.sublist_cons_self _ _))
  ordered le hot := h.ordered le hot.2.2.1

omit [DecidableEq α] in
theorem Inner.under_right (h : Inner links tr b l r p) : Inner links (.node x tl tr) b l r p where
  parent := h.parent
  linked := h.linked
  sublist := h.sublist.trans ((List.sublist_append_right _ _).trans (List.sublist_cons_self _ _))
  ordered le hot := h.ordered le hot.2.2.2

/-- Every node but the root has a place, and what its subtrees were joined to can replace it. -/
theorem Linked.replace (ht : Linked links t) (hnodup : (members t).Nodup) (hb : b ∈ members t)
    (hroot : root t ≠ some b) :
    ∃ l r p, Inner links t b l r p ∧ ∀ links' m, Joined links links' l r m →
      ∃ t', Replaced links links' t b p m t' := by
  induction t with
  | nil => exact absurd hb List.not_mem_nil
  | node x tl tr ihl ihr =>
    obtain ⟨hleft, hright, hpl, hpr, hl, hr⟩ := ht
    have happ := (List.nodup_cons.mp hnodup).2
    obtain ⟨hnl, hnr, -⟩ := List.nodup_append.mp happ
    rcases List.mem_cons.mp hb with heq | hb
    · exact absurd (congrArg some heq.symm) hroot
    · rcases List.mem_append.mp hb with hb | hb
      · by_cases htop : root tl = some b
        · obtain ⟨l, r, rfl⟩ := exists_node htop
          refine ⟨l, r, x, ⟨hpl b htop, hl, ?_, fun le hot => hot.2.2.1⟩, ?_⟩
          · exact (List.sublist_append_left _ _).trans (List.sublist_cons_self _ _)
          · exact fun links' m hm =>
              ⟨_, hm.replaced_left ⟨hleft, hright, hpl, hpr, hl, hr⟩ hnodup⟩
        · obtain ⟨l, r, p, hinner, hrep⟩ := ihl hl hnl hb htop
          refine ⟨l, r, p, hinner.under_left, ?_⟩
          intro links' m hm
          obtain ⟨t', ht'⟩ := hrep links' m hm
          exact ⟨_, ht'.under_left ⟨hleft, hright, hpl, hpr, hl, hr⟩ hnodup⟩
      · by_cases htop : root tr = some b
        · obtain ⟨l, r, rfl⟩ := exists_node htop
          refine ⟨l, r, x, ⟨hpr b htop, hr, ?_, fun le hot => hot.2.2.2⟩, ?_⟩
          · exact (List.sublist_append_right _ _).trans (List.sublist_cons_self _ _)
          · exact fun links' m hm =>
              ⟨_, hm.replaced_right ⟨hleft, hright, hpl, hpr, hl, hr⟩ hnodup⟩
        · obtain ⟨l, r, p, hinner, hrep⟩ := ihr hr hnr hb htop
          refine ⟨l, r, p, hinner.under_right, ?_⟩
          intro links' m hm
          obtain ⟨t', ht'⟩ := hrep links' m hm
          exact ⟨_, ht'.under_right ⟨hleft, hright, hpl, hpr, hl, hr⟩ hnodup⟩

end LinkedTree
end Ucore.Library
